import ResourceBinding.Proofs.Program.WellFormed

/-!
# Edits that keep a module well-formed

Declaring a function, moving references to functions, and removing a function that is not called.
-/

namespace ResourceBinding

namespace Function

variable {f : Function} {size size' types : Nat}

/-- A declaration whose types are in range is well-formed. -/
theorem wellFormed_of_isDeclaration (hbody : f.body = none) (hstore : f.expressions = #[])
    (htyped : f.Typed types) : f.WellFormed size types := by
  have hnone : ∀ id, f.expr? id = none := fun id => by simp [expr?, hstore]
  have huses : ∀ a b, ¬ f.Uses a b := by
    rintro a b ⟨e, he, -⟩
    cases (hnone a).symm.trans he
  have hsteps : f.steps = [] := by rw [steps, hbody]
  refine { linked_of_isDeclaration hbody, htyped with
    result_callee := fun r callee hr => by cases (hnone r).symm.trans hr
    operand_lt := fun op hop => ?_
    acyclic := fun id hid => ?_
    made_once := fun r callee hr => by cases (hnone r).symm.trans hr
    made_before := fun before s after heq => by simp [hsteps] at heq
    parameter_lt := fun id p hp => by cases (hnone id).symm.trans hp }
  · rcases reads_iff.mp hop with ⟨id, hid⟩ | ⟨s, hs, -⟩
    · exact absurd hid (huses id op)
    · rw [hsteps] at hs
      cases hs
  · cases hid with
    | single h => exact huses _ _ h
    | tail _ h => exact huses _ _ h

theorem steps_mapCallees (f : Function) (move : FunctionId → FunctionId) :
    (f.mapCallees move).steps = f.steps := by
  have hbody : (f.mapCallees move).body
      = f.body.map (·.mapCalls fun c => { c with callee := move c.callee }) := rfl
  rw [steps, steps, hbody]
  cases f.body with
  | none => rfl
  | some body =>
    have h := Block.steps_mapCalls (f := fun c => { c with callee := move c.callee })
      (fun _ => ⟨rfl, rfl⟩) body
    exact h

/-- Moving the references of a function keeps it well-formed, if they still lead somewhere. -/
theorem WellFormed.mapCallees (hf : f.WellFormed size types) {move : FunctionId → FunctionId}
    (hmove : ∀ c ∈ f.calls, (move c.callee : Nat) < size') :
    (f.mapCallees move).WellFormed size' types := by
  have hold : ∀ {id : ExprId} {e : Expr}, (f.mapCallees move).expr? id = some e →
      ∃ old, f.expr? id = some old ∧ old.mapCallee move = e := by
    intro id e he
    rw [expr?_mapCallees] at he
    exact Option.map_eq_some_iff.mp he
  refine hf.reframe (hf.toLinked.mapCallees hmove) (Nat.le_refl _) ?_ rfl ?_ ?_
    (f.resultIds_mapCallees move) ?_ ?_ ?_
  · simp [Function.mapCallees, Function.comp_def]
  · simp [Function.mapCallees]
  · intro r callee hr
    obtain ⟨old, hold, heq⟩ := hold hr
    obtain ⟨callee', rfl⟩ := Expr.isResult_iff.mp (by
      rw [← Expr.isResult_mapCallee move, heq]
      rfl : old.isResult)
    obtain ⟨c, hc, rfl⟩ := hf.exists_call_of_result hold
    cases heq
    exact hmove c hc
  · rintro a b ⟨e, he, hb⟩
    obtain ⟨old, hold, rfl⟩ := hold he
    exact ⟨old, hold, by rwa [Expr.operands_mapCallee] at hb⟩
  · intro id p hp
    obtain ⟨old, hold, heq⟩ := hold hp
    cases old with
    | parameter => exact hold.trans (congrArg some heq)
    | _ => cases heq
  · rw [steps_mapCallees]
    exact List.forall₂_same.mpr fun s _ => ⟨rfl, fun op hop => .inl hop⟩

end Function

namespace Module

variable {m m' : Module} {id : FunctionId} {f : Function}

theorem WellFormed.typed (hm : m.WellFormed) : m.Typed :=
  ⟨hm.earlier, fun f hf => (hm.functions f hf).toTyped⟩

theorem WellFormed.linked (hm : m.WellFormed) : m.Linked :=
  fun f hf => (hm.functions f hf).toLinked

theorem WellFormed.function (hm : m.WellFormed) (hf : m.function? id = some f) :
    f.WellFormed m.functions.size m.types.size :=
  hm.functions f (mem_functions_iff.mpr ⟨id, hf⟩)

theorem types_remove (h : m.remove id = .ok (f, m')) : m'.types = m.types := by
  unfold Module.remove at h
  split at h
  · cases h
  · by_cases hsites : (m.callsTo id).length = 0
    · simp only [hsites, if_true] at h
      cases h
      rfl
    · simp only [hsites, if_false] at h
      cases h

/-- **Removing a function that is not called keeps the others well-formed.** -/
theorem WellFormed.remove (hm : m.WellFormed) (h : m.remove id = .ok (f, m')) :
    m'.WellFormed := by
  have htypes := types_remove h
  refine ⟨hm.names.remove h, htypes ▸ hm.earlier, fun g hg => ?_⟩
  obtain ⟨old, hold, rfl⟩ := exists_of_mem_remove h hg
  obtain ⟨hid, hcalls, hsize, -, -⟩ := remove_ok h
  have hwf := hm.functions old hold
  rw [htypes]
  exact hwf.mapCallees fun c hc =>
    shift_lt (hcalls old hold c hc) (hwf.callee_lt c hc) (lt_size_of_function? hid) hsize

/-- Editing one function keeps the others well-formed. -/
theorem WellFormed.modify (hm : m.WellFormed) (hf : m.function? id = some f)
    {edit : Function → Function} (hname : (edit f).name = f.name)
    (hedit : (edit f).WellFormed m.functions.size m.types.size) :
    (m.modify id edit).WellFormed := by
  have hsize : (m.modify id edit).functions.size = m.functions.size := Array.size_modify
  refine ⟨?_, hm.earlier, fun g hg => ?_⟩
  · rw [NamesDistinct, names_modify hf hname]
    exact hm.names
  · rw [hsize]
    obtain ⟨i, hi⟩ := mem_functions_iff.mp hg
    rw [function?_modify] at hi
    split at hi
    · rename_i heq
      subst heq
      rw [hf] at hi
      cases hi
      exact hedit
    · exact hm.function hi

end Module

end ResourceBinding
