import ResourceBinding.Proofs.Binding.WellFormed
import ResourceBinding.Proofs.FixedResource.WellFormed
import ResourceBinding.Proofs.Pipeline
import ResourceBinding.Proofs.Program.InBounds

/-!
# Runs on well-formed modules

Reading yields a well-formed module, and each pass keeps it so. Therefore no pass, and no listing
before or after it, follows a reference that leads nowhere (`visits_wellFormed`).
-/

namespace ResourceBinding

variable {m m' : Module} {c : Compilation} {changed : Bool} {passes : List Pass}

/-! ## What a run looks at -/

/-- A pass that is run on `m` looks at the module `program`, and for `params` at the parameters at
these positions in it: the module that it is given, the one between the samplers and the arguments
of kernels, and the one between two parameters that it resolves. -/
inductive Pass.LooksAt (m : Module) (c : Compilation) :
    Pass → Module → List (FunctionId × Nat) → Prop
  | given (pass : Pass) : LooksAt m c pass m []
  | bound {m₁ : Module} {changed : Bool} :
      (m.allocateSamplers c).2.result = .ok (m₁, changed) → LooksAt m c .allocate m₁ []
  | resolved {before after : List (FunctionId × Nat)} :
      m.candidates m.callGraph.callersFirst.toList = before ++ after →
      LooksAt m c .resolveParameters
        (Resolution.run c.options ⟨m, [], m.callGraph.callersFirst.warnings, false⟩ before).program
        after

/-- A run of passes looks at a module: at the one that is left in the end, or one of its passes
does. -/
inductive Visits : List Pass → Module → Compilation → Module → List (FunctionId × Nat) → Prop
  | final (m : Module) (c : Compilation) : Visits [] m c m []
  | here {pass : Pass} {rest : List Pass} {m program : Module} {c : Compilation}
      {params : List (FunctionId × Nat)} :
      pass.LooksAt m c program params → Visits (pass :: rest) m c program params
  | later {pass : Pass} {rest : List Pass} {m m₁ program : Module} {c : Compilation}
      {changed : Bool} {params : List (FunctionId × Nat)} :
      (pass.run m c).result = .ok (m₁, changed) →
      Visits rest m₁ (pass.run m c).compilation program params →
      Visits (pass :: rest) m c program params

/-- What a run yields, it has looked at. -/
theorem visits_of_runPasses_ok : ∀ {passes : List Pass} {m : Module} {c : Compilation}
    {changed : Bool}, (runPasses passes m c).result = .ok (m', changed) → Visits passes m c m' []
  | [], _, _, _, h => by
    cases h
    exact .final _ _
  | _ :: _, _, _, _, h => by
    obtain ⟨m₁, changed₁, changed₂, hfirst, hrest, -⟩ := runPasses_cons_ok h
    exact .later hfirst (visits_of_runPasses_ok hrest)

/-! ## Well-formedness -/

/-- **Each pass keeps a module well-formed.** -/
theorem Pass.wellFormed_run (hm : m.WellFormed) :
    ∀ pass : Pass, (pass.run m c).result = .ok (m', changed) → m'.WellFormed
  | reportBuffers, h => (Module.reportBuffers_ok h).1 ▸ hm
  | allocate, h => hm.allocate h
  | resolveParameters, h => by
    cases h
    exact Resolution.wellFormed_run c.options _ hm

theorem Pass.LooksAt.wellFormed (hm : m.WellFormed) {pass : Pass} {program : Module}
    {params : List (FunctionId × Nat)} (h : pass.LooksAt m c program params) :
    program.WellFormed := by
  cases h with
  | given => exact hm
  | bound h => exact hm.allocateSamplers h
  | resolved => exact Resolution.wellFormed_run c.options _ hm

/-- The parameters that a pass looks at are there. -/
theorem Pass.LooksAt.exists_param (hm : m.WellFormed) {pass : Pass} {program : Module}
    {params : List (FunctionId × Nat)} (h : pass.LooksAt m c program params) :
    ∀ p ∈ params, ∃ f param, program.function? p.1 = some f ∧ f.params[p.2]? = some param := by
  cases h with
  | given | bound => exact fun _ hp => absurd hp List.not_mem_nil
  | @resolved before after hcandidates =>
    intro p hp
    obtain ⟨f, param, hf, hparam⟩ := hm.inBounds.candidate p
      (hcandidates ▸ List.mem_append_right _ hp)
    have hfetching := Resolution.fetching_run c.options before
      (s := ⟨m, [], m.callGraph.callersFirst.warnings, false⟩) (.refl hm.linked)
    have hlength := hfetching.params p.1
    rw [hf, Option.map_some] at hlength
    obtain ⟨g, hg, hsame⟩ := Option.map_eq_some_iff.mp hlength
    have hlt : p.2 < g.params.length := hsame ▸ (List.getElem?_eq_some_iff.mp hparam).1
    exact ⟨g, _, hg, List.getElem?_eq_getElem hlt⟩

theorem Visits.wellFormed {program : Module} {params : List (FunctionId × Nat)}
    (h : Visits passes m c program params) (hm : m.WellFormed) : program.WellFormed ∧
      ∀ p ∈ params, ∃ f param, program.function? p.1 = some f ∧ f.params[p.2]? = some param := by
  induction h with
  | final => exact ⟨hm, fun _ hp => absurd hp List.not_mem_nil⟩
  | here hlooks => exact ⟨hlooks.wellFormed hm, hlooks.exists_param hm⟩
  | later hrun _ ih => exact ih (Pass.wellFormed_run hm _ hrun)

/-- **No run on a module that was read follows a reference that leads nowhere.** Whatever the passes
and the options are, each module that the run looks at is well-formed, and so all lookups in it find
something, those of the listing included. -/
theorem visits_wellFormed {source : String} (hread : Module.read source = .ok m) :
    (∀ program params, Visits passes m c program params → program.WellFormed ∧ program.InBounds ∧
      ∀ p ∈ params, ∃ f param, program.function? p.1 = some f ∧ f.params[p.2]? = some param) ∧
    ∀ m' changed, (runPasses passes m c).result = .ok (m', changed) →
      m'.WellFormed ∧ m'.InBounds := by
  have hm := Module.wellFormed_of_read hread
  refine ⟨fun program params h => ?_, fun m' changed h => ?_⟩
  · obtain ⟨hprogram, hparams⟩ := h.wellFormed hm
    exact ⟨hprogram, hprogram.inBounds, hparams⟩
  · have hm' := ((visits_of_runPasses_ok h).wellFormed hm).1
    exact ⟨hm', hm'.inBounds⟩

theorem visits_relay_wellFormed : ∃ m m', Module.read relaySource = .ok m ∧
    (runPasses (Pass.standard relayOptions) m (.start relayOptions [])).result = .ok (m', true) ∧
    m.WellFormed ∧ m.InBounds ∧ m'.WellFormed ∧ m'.InBounds := by
  obtain ⟨m, m', hread, -, hrun, -⟩ := runPasses_relay
  obtain ⟨hvisits, hyields⟩ := visits_wellFormed hread
  obtain ⟨hm, hbounds, -⟩ := hvisits m [] (.here (.given _))
  exact ⟨m, m', hread, hrun, hm, hbounds, hyields m' true hrun⟩

end ResourceBinding
