import ResourceBinding.Proofs.FixedResource.Verdicts

/-!
# Marks are proven, or were there before

A program may come with marks of its own. The pass sets the mark of each parameter that it visits,
and takes it away if the parameter is not resolved. So a mark that is left on one of these is proven
by the verdict on the module that is left (`Module.resolveParameters_mark`).

It visits the parameters that resources are passed for, of functions that a kernel leads to, and not
of kernels. What marks there are on others it does not touch, proven or not
(`Resolution.mark?_run`).
-/

namespace ResourceBinding

namespace Resolution

variable {options : Options} {s : Resolution} {id : FunctionId} {index : Nat}

theorem mark?_step {other : FunctionId} {i : Nat} (h : (other, i) ≠ (id, index)) :
    (s.step options id index).program.mark? other i = s.program.mark? other i := by
  refine step_keeps (fun m => m.mark? other i = s.program.mark? other i) options s id index
    (Module.mark?_setMark_of_ne _ h) fun hkept _ hf hg => ?_
  rw [Module.mark?_fetchParameter hf hg, hkept]

/-- **A run leaves the marks of other parameters as they are.** -/
theorem mark?_run {candidates : List (FunctionId × Nat)} (h : (id, index) ∉ candidates) :
    (s.run options candidates).program.mark? id index = s.program.mark? id index := by
  refine run_induction (fun t => t.program.mark? id index = s.program.mark? id index) candidates
    (fun t p hp hkept => ?_) (Eq.refl _)
  have hne : (id, index) ≠ p := fun heq => h (heq ▸ hp)
  exact (mark?_step hne).trans hkept

end Resolution

namespace Module

theorem Bears.verdict_of_mark {start m : Module} {verdicts : List ParamVerdict} {v : ParamVerdict}
    {d : FixedResource} (h : start.Bears m verdicts) (hv : v ∈ verdicts)
    (hd : m.mark? v.function v.index = some d) : m.verdict v.function v.index = .resolved d := by
  rw [h.mark v hv] at hd
  exact h.resolved v hv d (Verdict.mark_eq_some_iff.mp hd)

/-- **A mark that the pass leaves is proven**, or it was there before, on a parameter that the pass
does not visit: of a kernel, of a function that no kernel leads to, or one that no resource is
passed for. -/
theorem resolveParameters_mark {m : Module} (hm : m.Linked) (c : Compilation) :
    ∃ m' changed, (m.resolveParameters c).result = .ok (m', changed) ∧
      ∀ id index d, m'.mark? id index = some d →
        m'.verdict id index = .resolved d ∨
        (m.mark? id index = some d ∧ ∃ f, m.function? id = some f ∧
          (f.convention = .kernel ∨ ¬ m.Reached id ∨ index ∉ f.resourceParams m.types)) := by
  let s := m.beforePass.run c.options m.visits
  refine ⟨s.program, s.changed, rfl, fun id index d hd => ?_⟩
  by_cases hvisit : (id, index) ∈ m.visits
  -- The last thing done to the mark of a parameter that is visited is to set it by the verdict.
  · have hparams : (id, index) ∈ s.verdicts.map ParamVerdict.param := by
      rw [Resolution.params_run]
      exact List.mem_append_right _ hvisit
    obtain ⟨v, hv, heq⟩ := List.mem_map.mp hparams
    cases heq
    exact .inl ((bears_pass hm c.options).verdict_of_mark hv hd)
  · have hkept : m.mark? id index = some d := (Resolution.mark?_run hvisit).symm.trans hd
    obtain ⟨f, hf, -⟩ := Option.bind_eq_some_iff.mp hkept
    refine .inr ⟨hkept, f, hf, ?_⟩
    by_contra hnone
    push Not at hnone
    exact hvisit (mem_candidates.mpr
      ⟨mem_callersFirst_iff.mpr hnone.2.1, f, hf, hnone.1, hnone.2.2⟩)

end Module

/-! ### Marks of the source -/

/-- A program with two marks of its own, on the parameter of a function that a kernel calls and on
that of one that is not called. -/
def markedSource : String :=
  "declare @kernbind.resource.0(u32, u32, u32, u32) -> ptr<global, f32> pure
fn @u(%p: ptr<global, f32> direct(@kernbind.resource.0, 0, 0, 0)) \x7b \x7d
fn @g(%p: ptr<global, f32> direct(@kernbind.resource.0, 0, 0, 0)) \x7b \x7d
kernel @k() \x7b
  %r = call @kernbind.resource.0(0u, 3u, 0u, 0u)
  call @g(%r)
\x7d"

/-- The mark of the function that is called is corrected, the other one stays. -/
theorem resolveParameters_marked : ∃ m m', Module.read markedSource = .ok m ∧
    (m.resolveParameters (.start .none [])).result = .ok (m', true) ∧
    m'.mark? 1 0 = some ⟨0, 0, 0, 0⟩ ∧ m'.verdict 1 0 = .unresolved .neverCalled ∧
    m'.mark? 2 0 = some ⟨0, 0, 3, 0⟩ := by
  have hcheck : (Module.read markedSource).toOption.any (fun m =>
      (m.resolveParameters (.start .none [])).result.toOption.any fun r =>
        r.2 && r.1.mark? 1 0 == some ⟨0, 0, 0, 0⟩ &&
        r.1.verdict 1 0 == .unresolved .neverCalled && r.1.mark? 2 0 == some ⟨0, 0, 3, 0⟩) := by
    decide +kernel
  obtain ⟨m, hread, hcheck⟩ := exists_of_any_toOption hcheck
  obtain ⟨r, hresult, hcheck⟩ := exists_of_any_toOption hcheck
  simp only [Bool.and_eq_true, beq_iff_eq] at hcheck
  obtain ⟨⟨⟨hchanged, hleft⟩, hverdict⟩, hmark⟩ := hcheck
  exact ⟨m, r.1, hread, by rw [hresult, ← hchanged], hleft, hverdict, hmark⟩

/-- So there may be marks that are not proven. -/
theorem markedSource_unproven : ¬ ∀ m m' changed, Module.read markedSource = .ok m →
    (m.resolveParameters (.start .none [])).result = .ok (m', changed) →
    ∀ id index d, m'.mark? id index = some d → m'.verdict id index = .resolved d := by
  obtain ⟨m, m', hread, hresult, hmark, hverdict, -⟩ := resolveParameters_marked
  intro h
  cases hverdict.symm.trans (h m m' true hread hresult 1 0 _ hmark)

theorem resolveParameters_mark_marked : ∃ m m' changed, Module.read markedSource = .ok m ∧
    m.Linked ∧ (m.resolveParameters (.start .none [])).result = .ok (m', changed) ∧
    m'.mark? 2 0 = some ⟨0, 0, 3, 0⟩ ∧
    (m'.verdict 2 0 = .resolved ⟨0, 0, 3, 0⟩ ∨
      (m.mark? 2 0 = some ⟨0, 0, 3, 0⟩ ∧ ∃ f, m.function? 2 = some f ∧
        (f.convention = .kernel ∨ ¬ m.Reached 2 ∨ 0 ∉ f.resourceParams m.types))) := by
  obtain ⟨m, m', hread, hresult, -, -, hmark⟩ := resolveParameters_marked
  have hlinked := (Module.read_ok hread).2
  obtain ⟨m'', changed, hresult', hmarks⟩ :=
    Module.resolveParameters_mark hlinked (.start .none [])
  cases hresult.symm.trans hresult'
  exact ⟨m, m', true, hread, hlinked, hresult, hmark, hmarks 2 0 _ hmark⟩

end ResourceBinding
