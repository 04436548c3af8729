import ResourceBinding.Program.Listing
import ResourceBinding.Proofs.Program.ValueTree

/-!
# Definitions in a listing

A listing follows operands to the depth of the store. Where nothing is built on itself that is deep
enough: no definition is cut short (`Function.layOutDefinition_of_rank_lt`).
-/

namespace ResourceBinding

section LayOutEach

variable {α : Type} {layOut layOut' : α → List ExprId → List Piece × List ExprId}

theorem layOutEach_cons (item : α) (items : List α) (shown : List ExprId) :
    layOutEach layOut (item :: items) shown
      = ((layOut item shown).1 ++ (layOutEach layOut items (layOut item shown).2).1,
        (layOutEach layOut items (layOut item shown).2).2) := rfl

theorem layOutEach_congr {items : List α}
    (h : ∀ item ∈ items, ∀ shown, layOut item shown = layOut' item shown) :
    ∀ shown, layOutEach layOut items shown = layOutEach layOut' items shown := by
  induction items with
  | nil => exact fun _ => rfl
  | cons item items ih =>
    intro shown
    have hrest := ih fun other hother => h other (List.mem_cons_of_mem _ hother)
    rw [layOutEach_cons, layOutEach_cons, h item List.mem_cons_self, hrest]

end LayOutEach

namespace Function

variable {f : Function} {id : ExprId} {shown : List ExprId}

/-- What is shown already is not defined again. -/
theorem layOutDefinition_of_mem (indent depth : Nat) (h : id ∈ shown) :
    f.layOutDefinition indent depth id shown = ([], shown) := by
  cases depth with
  | zero => rfl
  | succ depth => rw [layOutDefinition, if_pos (List.contains_iff_mem.mpr h)]

/-- What is no operation is not defined. -/
theorem layOutDefinition_of_operation?_eq_none (indent depth : Nat)
    (h : (f.expr? id).bind Expr.operation? = none) :
    f.layOutDefinition indent depth id shown = ([], shown) := by
  cases depth with
  | zero => rfl
  | succ depth =>
    rw [layOutDefinition]
    cases he : f.expr? id with
    | none => simp
    | some e =>
      rw [he, Option.bind_some] at h
      simp [h]

/-- A definition stands behind those of its operands. -/
theorem layOutDefinition_succ (indent depth : Nat) {e : Expr} {operation : String}
    (hid : id ∉ shown) (he : f.expr? id = some e) (hop : e.operation? = some operation) :
    f.layOutDefinition indent (depth + 1) id shown
      = ((layOutEach (f.layOutDefinition indent depth) e.operands shown).1 ++
          layOutLine indent
            (f.definedPieces id ++ [.word operation, .gap] ++ f.operandPieces e.operands),
        id :: (layOutEach (f.layOutDefinition indent depth) e.operands shown).2) := by
  rw [layOutDefinition, if_neg (fun h => hid (List.contains_iff_mem.mp h)), he]
  simp only [hop]

/-- **Without cycles, a definition is laid out alike to any depth beyond its rank.** -/
theorem layOutDefinition_of_rank_lt (hf : f.Acyclic) (indent : Nat) {depth depth' : Nat}
    (h : f.rank id < depth) (h' : f.rank id < depth') (shown : List ExprId) :
    f.layOutDefinition indent depth id shown = f.layOutDefinition indent depth' id shown := by
  induction hn : f.rank id using Nat.strong_induction_on
    generalizing id depth depth' shown with
  | _ n ih =>
    obtain ⟨depth, rfl⟩ := Nat.exists_eq_add_one_of_ne_zero (Nat.ne_zero_of_lt h)
    obtain ⟨depth', rfl⟩ := Nat.exists_eq_add_one_of_ne_zero (Nat.ne_zero_of_lt h')
    by_cases hid : id ∈ shown
    · rw [layOutDefinition_of_mem indent _ hid, layOutDefinition_of_mem indent _ hid]
    cases hop : (f.expr? id).bind Expr.operation? with
    | none =>
      rw [layOutDefinition_of_operation?_eq_none indent _ hop,
        layOutDefinition_of_operation?_eq_none indent _ hop]
    | some operation =>
      obtain ⟨e, he, hop⟩ := Option.bind_eq_some_iff.mp hop
      have hoperands : ∀ shown, layOutEach (f.layOutDefinition indent depth) e.operands shown
          = layOutEach (f.layOutDefinition indent depth') e.operands shown := by
        refine layOutEach_congr fun op hop shown => ?_
        have hlt := rank_lt hf ⟨e, he, hop⟩
        exact ih _ (hn ▸ hlt) (by omega) (by omega) shown rfl
      rw [layOutDefinition_succ indent depth hid he hop,
        layOutDefinition_succ indent depth' hid he hop, hoperands]

end Function

end ResourceBinding
