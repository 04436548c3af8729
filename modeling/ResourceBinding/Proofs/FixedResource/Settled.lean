import ResourceBinding.Proofs.FixedResource.Verdicts

/-!
# When resolving parameters changes a module

The pass either lets a function fetch a resource, and then that function has more expressions than
before, or it leaves the module with the marks of its verdicts alone (`Module.settled`,
`Module.resolveParameters_settles`). Marks do not matter to verdicts, so a module that is settled is
left as it is (`Module.settled_settled`). The pass tells that it has changed the module exactly if
it has fetched something, or has found another mark than that of the verdict.
-/

namespace ResourceBinding

/-! ## Expressions -/

namespace Module

variable {m : Module} {id : FunctionId} {f g : Function}

/-- How many expressions each function has. -/
def sizes (m : Module) (id : FunctionId) : Nat :=
  ((m.function? id).map fun f => f.expressions.size).getD 0

theorem sizes_setMark (m : Module) (id : FunctionId) (index : Nat) (mark : Option FixedResource) :
    (m.modify id (·.setMark index mark)).sizes = m.sizes := by
  funext other
  rw [sizes, sizes, function?_setMark, Option.map_map]
  refine congrArg (Option.getD · 0) (congrArg (Option.map · _) (funext fun f => ?_))
  rw [Function.comp_apply]
  split <;> rfl

theorem sizes_lt_modify (hf : m.function? id = some f)
    (h : f.expressions.size < g.expressions.size) : m.sizes < (m.modify id fun _ => g).sizes := by
  have hself : m.sizes id < (m.modify id fun _ => g).sizes id := by
    rw [sizes, sizes, function?_modify, if_pos rfl, hf]
    exact h
  refine Pi.lt_def.mpr ⟨fun other => ?_, id, hself⟩
  by_cases hother : id = other
  · exact hother ▸ hself.le
  · rw [sizes, sizes, function?_modify, if_neg hother]

end Module

/-- A function that fetches a resource has more expressions. -/
theorem Function.size_lt_of_fetchParameter {f g : Function} {index : Nat} {o : Provenance}
    (h : f.fetchParameter index o = .ok g) : f.expressions.size < g.expressions.size := by
  obtain ⟨F⟩ := exists_fetch h
  have hlt : (F.result : Nat) < F.revised.expressions.size := lt_size_of_expr? F.expr_result
  rw [F.eq]
  exact Nat.lt_of_le_of_lt F.result_new hlt

/-! ## Runs that only mark -/

theorem Options.fetch_none : Options.none.fetch = false := rfl

namespace Resolution

variable {options : Options} {s t : Resolution}

/-- Later steps do not take back that something was changed. -/
theorem changed_run (options : Options) (candidates : List (FunctionId × Nat))
    (h : s.changed = true) : (s.run options candidates).changed = true :=
  run_induction (fun t => t.changed = true) candidates (fun t p _ ht => by
    rcases step_cases options t p.1 p.2 with ⟨-, hchanged⟩ | ⟨-, _, _, _, -, -, -, -, hchanged⟩
    · rw [hchanged, ht, Bool.true_or]
    · exact hchanged) h

/-- A run that only marks depends on the program alone, and tells what it was told before. -/
theorem run_congr (hfetch : options.fetch = false) (candidates : List (FunctionId × Nat)) :
    ∀ {s t : Resolution}, s.program = t.program → s.changed = t.changed →
      (s.run options candidates).program = (t.run options candidates).program ∧
        (s.run options candidates).changed = (t.run options candidates).changed := by
  induction candidates with
  | nil => exact fun hprogram hchanged => ⟨hprogram, hchanged⟩
  | cons p candidates ih =>
    intro s t hprogram hchanged
    obtain ⟨hs, hs'⟩ := step_of_not_fetch hfetch s p.1 p.2
    obtain ⟨ht, ht'⟩ := step_of_not_fetch hfetch t p.1 p.2
    exact ih (by rw [hs, ht, hprogram]) (by rw [hs', ht', hprogram, hchanged])

theorem sizes_run_of_not_fetch (hfetch : options.fetch = false)
    (candidates : List (FunctionId × Nat)) (s : Resolution) :
    (s.run options candidates).program.sizes = s.program.sizes :=
  run_induction (fun t => t.program.sizes = s.program.sizes) candidates (fun t p _ ht => by
    rw [(step_of_not_fetch hfetch t p.1 p.2).1, Module.sizes_setMark, ht]) rfl

/-- **A run that only marks tells whether a mark was another one than that of the verdict.** -/
theorem changed_run_of_not_fetch (hfetch : options.fetch = false)
    {candidates : List (FunctionId × Nat)} (hnodup : candidates.Nodup) : ∀ s : Resolution,
      (s.run options candidates).changed = true ↔ s.changed = true ∨
        ∃ p ∈ candidates, s.program.mark? p.1 p.2 ≠ (s.program.verdict p.1 p.2).mark := by
  induction candidates with
  | nil => exact fun s => by simp [run]
  | cons p candidates ih =>
    intro s
    obtain ⟨hnew, hnodup⟩ := List.nodup_cons.mp hnodup
    obtain ⟨hprogram, hchanged⟩ := step_of_not_fetch hfetch s p.1 p.2
    -- The marks that are left to look at are what they were.
    have hothers : ∀ q ∈ candidates,
        (s.step options p.1 p.2).program.mark? q.1 q.2 = s.program.mark? q.1 q.2 := by
      intro q hq
      rw [hprogram]
      exact Module.mark?_setMark_of_ne _ fun heq => hnew (Prod.ext_iff.mpr (Prod.mk.inj heq) ▸ hq)
    have hverdict : (s.step options p.1 p.2).program.verdict = s.program.verdict := by
      rw [hprogram, Module.verdict_setMark]
    rw [show s.run options (p :: candidates) = (s.step options p.1 p.2).run options candidates
      from rfl, ih hnodup, hchanged, hverdict, List.exists_mem_cons_iff, Bool.or_eq_true,
      bne_iff_ne, or_assoc]
    refine or_congr_right (or_congr_right (exists_congr fun q => and_congr_right fun hq => ?_))
    rw [hothers q hq]

/-- **A run that fetches nothing only marks**, and one that fetches something tells so. -/
theorem run_cases (options : Options) (candidates : List (FunctionId × Nat)) : ∀ s : Resolution,
    (s.program.sizes < (s.run options candidates).program.sizes ∧
      (s.run options candidates).changed = true) ∨
    ((s.run options candidates).program = (s.run .none candidates).program ∧
      (s.run options candidates).changed = (s.run .none candidates).changed) := by
  induction candidates with
  | nil => exact fun s => .inr ⟨rfl, rfl⟩
  | cons p candidates ih =>
    intro s
    have hrest := ih (s.step options p.1 p.2)
    have hsizes := sizes_run_of_not_fetch Options.fetch_none candidates (s.step options p.1 p.2)
    change (_ < ((s.step options p.1 p.2).run options candidates).program.sizes ∧
        ((s.step options p.1 p.2).run options candidates).changed = true) ∨
      (((s.step options p.1 p.2).run options candidates).program = _ ∧
        ((s.step options p.1 p.2).run options candidates).changed = _)
    rcases step_cases options s p.1 p.2 with
      ⟨hprogram, hchanged⟩ | ⟨-, o, f, g, -, hf, hg, hprogram, hchanged⟩
    -- The step has only marked, as the run that fetches nothing does.
    · obtain ⟨hmarks, hmarks'⟩ := step_of_not_fetch Options.fetch_none s p.1 p.2
      have hsame : (s.step options p.1 p.2).program.sizes = s.program.sizes := by
        rw [hprogram, Module.sizes_setMark]
      rw [hsame] at hrest
      refine hrest.imp_right fun ⟨hrun, hrun'⟩ => ?_
      obtain ⟨hcongr, hcongr'⟩ := run_congr Options.fetch_none candidates
        (hprogram.trans hmarks.symm) (hchanged.trans hmarks'.symm)
      exact ⟨hrun.trans hcongr, hrun'.trans hcongr'⟩
    -- The step has fetched something. No later step takes an expression away.
    · have hgrows : s.program.sizes < (s.step options p.1 p.2).program.sizes := by
        rw [hprogram, ← s.program.sizes_setMark p.1 p.2 (s.program.verdict p.1 p.2).mark]
        exact Module.sizes_lt_modify hf (Function.size_lt_of_fetchParameter hg)
      refine .inl ⟨?_, changed_run options candidates hchanged⟩
      rcases hrest with ⟨hlt, -⟩ | ⟨hrun, -⟩
      · exact hgrows.trans hlt
      · rwa [hrun, hsizes]

end Resolution

/-! ## The pass -/

namespace Module

variable {m m' : Module} {c : Compilation} {changed : Bool}

/-- The module with the marks that its verdicts leave. -/
def settled (m : Module) : Module :=
  (m.beforePass.run .none m.visits).program

theorem verdict_settled (m : Module) : m.settled.verdict = m.verdict :=
  (Resolution.run_of_not_fetch Options.fetch_none m.visits m.beforePass).2.2.1

theorem visits_settled (m : Module) : m.settled.visits = m.visits := by
  obtain ⟨hgraph, hcandidates, -⟩ :=
    Resolution.run_of_not_fetch Options.fetch_none m.visits m.beforePass
  rw [visits, settled, hgraph, hcandidates]
  rfl

theorem sizes_settled (m : Module) : m.settled.sizes = m.sizes :=
  Resolution.sizes_run_of_not_fetch Options.fetch_none m.visits m.beforePass

theorem mark?_settled (hm : m.Linked) {p : FunctionId × Nat} (hp : p ∈ m.visits) :
    m.settled.mark? p.1 p.2 = (m.verdict p.1 p.2).mark := by
  obtain ⟨-, -, -, hverdicts⟩ :=
    Resolution.run_of_not_fetch Options.fetch_none m.visits m.beforePass
  have hv : (⟨p.1, p.2, m.verdict p.1 p.2⟩ : ParamVerdict)
      ∈ (m.beforePass.run .none m.visits).verdicts := by
    rw [hverdicts]
    exact List.mem_append_right _ (List.mem_map.mpr ⟨p, hp, rfl⟩)
  have hmark := (bears_pass hm .none).mark ⟨p.1, p.2, m.verdict p.1 p.2⟩ hv
  rw [settled]
  exact hmark

/-- A module with the marks of its verdicts is settled. -/
theorem settled_eq_self
    (h : ∀ p ∈ m.visits, m.mark? p.1 p.2 = (m.verdict p.1 p.2).mark) : m.settled = m :=
  (Resolution.run_of_marked Options.fetch_none m.visits m.beforePass h).1

/-- **Settling a module twice is settling it once.** -/
theorem settled_settled (hm : m.Linked) : m.settled.settled = m.settled :=
  settled_eq_self fun p hp => by
    rw [visits_settled] at hp
    rw [verdict_settled, mark?_settled hm hp]

/-- The run that only marks tells whether the module was settled. -/
theorem changed_iff_settled_ne (hm : m.Linked) :
    (m.beforePass.run .none m.visits).changed = true ↔ m.settled ≠ m := by
  rw [Resolution.changed_run_of_not_fetch Options.fetch_none m.nodup_visits]
  constructor
  · rintro (hstart | ⟨p, hp, hmark⟩) heq
    · cases hstart
    · have hsettled := mark?_settled hm hp
      rw [heq] at hsettled
      exact hmark hsettled
  · intro hne
    by_contra hnone
    refine hne (settled_eq_self fun p hp => ?_)
    by_contra hmark
    exact hnone (.inr ⟨p, hp, hmark⟩)

/-- **The pass lets a function fetch something, or it settles the module.** In both cases it tells
whether the module is another one. -/
theorem resolveParameters_settles (hm : m.Linked)
    (h : (m.resolveParameters c).result = .ok (m', changed)) :
    (m.sizes < m'.sizes ∧ changed = true) ∨
      (m' = m.settled ∧ (changed = true ↔ m' ≠ m)) := by
  obtain ⟨rfl, rfl⟩ : m' = (m.beforePass.run c.options m.visits).program ∧
      changed = (m.beforePass.run c.options m.visits).changed := by
    cases h
    exact ⟨rfl, rfl⟩
  refine (Resolution.run_cases c.options m.visits m.beforePass).imp_right
    fun ⟨hprogram, hchanged⟩ => ⟨hprogram, ?_⟩
  rw [hprogram, hchanged]
  exact changed_iff_settled_ne hm

/-- The pass keeps the names of the functions. -/
theorem names_pass (m : Module) (options : Options) :
    (m.beforePass.run options m.visits).program.names = m.names := by
  refine Resolution.run_induction (fun s => s.program.names = m.names) m.visits
    (fun s p _ hs => Resolution.step_keeps (fun program => program.names = m.names) options s
      p.1 p.2 ?_ fun hnames _ hf hg => ?_) rfl
  · cases hf : s.program.function? p.1 with
    | none =>
      rw [modify_eq_self fun f hsome => by cases hf.symm.trans hsome]
      exact hs
    | some f => exact (names_modify hf rfl).trans hs
  · exact (names_modify hf (congrArg Prod.fst (Function.role_fetchParameter hg))).trans hnames

theorem names_settled (m : Module) : m.settled.names = m.names :=
  m.names_pass .none

end Module

end ResourceBinding
