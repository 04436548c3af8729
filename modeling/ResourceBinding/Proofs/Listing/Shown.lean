import ResourceBinding.Proofs.Listing.Written
import ResourceBinding.Proofs.Reading.Function

/-!
# Which definitions are written

`Function.Shows f ids shown ws shown'`: where `shown` has been defined, the definitions `ws` are
written in front of a use of `ids`, and `shown'` has been defined then. Without cycles these are the
definitions that `writeDefinitions` finds (`shows_writeDefinitions`), and there are no others
(`Shows.unique`).
-/

namespace ResourceBinding

/-- The definitions that are written in front of a use of `ids`, operands first. -/
inductive Function.Shows (f : Function) :
    List ExprId → List ExprId → List WrittenDefinition → List ExprId → Prop
  | nil {shown : List ExprId} : Shows f [] shown [] shown
  /-- What is defined already, or needs no definition. -/
  | skip {id : ExprId} {ids shown shown' : List ExprId} {ws : List WrittenDefinition} :
      id ∈ shown ∨ (f.expr? id).bind Expr.operation? = none → Shows f ids shown ws shown' →
      Shows f (id :: ids) shown ws shown'
  | define {id : ExprId} {e : Expr} {operation : String} {ids shown shown₁ shown₂ : List ExprId}
      {before after : List WrittenDefinition} :
      id ∉ shown → f.expr? id = some e → e.operation? = some operation →
      Shows f e.operands shown before shown₁ → Shows f ids (id :: shown₁) after shown₂ →
      Shows f (id :: ids) shown
        (before ++ ⟨f.shownName id, operation, e.operands.map f.operandToken⟩ :: after) shown₂

theorem Expr.isNamed_of_operation? {e : Expr} {operation : String}
    (h : e.operation? = some operation) : e.isNamed := by
  cases e <;> first | rfl | cases h

namespace Function

variable {f : Function} {id : ExprId} {ids others shown shown' shown₁ shown₂ : List ExprId}
  {ws ws' : List WrittenDefinition}

theorem Shows.append (h : f.Shows ids shown ws shown₁) (h' : f.Shows others shown₁ ws' shown₂) :
    f.Shows (ids ++ others) shown (ws ++ ws') shown₂ := by
  induction h with
  | nil => exact h'
  | skip hskip _ ih => exact .skip hskip (ih h')
  | define hid he hop hbefore _ _ ih =>
    rw [List.append_assoc]
    exact .define hid he hop hbefore (ih h')

/-- **There is one way to write definitions.** -/
theorem Shows.unique (h : f.Shows ids shown ws shown₁) (h' : f.Shows ids shown ws' shown₂) :
    ws = ws' ∧ shown₁ = shown₂ := by
  induction h generalizing ws' shown₂ with
  | nil =>
    cases h'
    exact ⟨rfl, rfl⟩
  | skip hskip _ ih =>
    cases h' with
    | skip _ h' => exact ih h'
    | define hid he hop _ _ =>
      rcases hskip with hmem | hnone
      · exact absurd hmem hid
      · rw [he, Option.bind_some, hop] at hnone
        cases hnone
  | define hid he hop _ _ ihbefore ih =>
    cases h' with
    | skip hskip _ =>
      rcases hskip with hmem | hnone
      · exact absurd hmem hid
      · rw [he, Option.bind_some, hop] at hnone
        cases hnone
    | define _ he' hop' hbefore' h' =>
      cases he.symm.trans he'
      cases hop.symm.trans hop'
      obtain ⟨rfl, rfl⟩ := ihbefore hbefore'
      obtain ⟨rfl, rfl⟩ := ih h'
      exact ⟨rfl, rfl⟩

theorem Shows.subset (h : f.Shows ids shown ws shown') : shown ⊆ shown' := by
  induction h with
  | nil => exact List.Subset.refl _
  | skip _ _ ih => exact ih
  | define _ _ _ _ _ ihbefore ih => exact fun v hv => ih (List.mem_cons_of_mem _ (ihbefore hv))

/-- What has been defined was defined before, or something used is built on it. -/
theorem Shows.reaches (h : f.Shows ids shown ws shown') {v : ExprId} (hv : v ∈ shown') :
    v ∈ shown ∨ ∃ id ∈ ids, f.Reaches id v := by
  induction h with
  | nil => exact .inl hv
  | skip _ _ ih =>
    exact (ih hv).imp_right fun ⟨other, hother, hreaches⟩ =>
      ⟨other, List.mem_cons_of_mem _ hother, hreaches⟩
  | @define id e _ _ _ _ _ _ _ _ he _ _ _ ihbefore ih =>
    rcases ih hv with hv | ⟨other, hother, hreaches⟩
    · rcases List.mem_cons.mp hv with rfl | hv
      · exact .inr ⟨v, List.mem_cons_self, .refl⟩
      · refine (ihbefore hv).imp_right fun ⟨op, hop, hreaches⟩ => ?_
        exact ⟨id, List.mem_cons_self, .head ⟨e, he, hop⟩ hreaches⟩
    · exact .inr ⟨other, List.mem_cons_of_mem _ hother, hreaches⟩

/-- What has been defined newly is an operation. -/
theorem Shows.operation (h : f.Shows ids shown ws shown') {v : ExprId} (hv : v ∈ shown') :
    v ∈ shown ∨ ∃ e operation, f.expr? v = some e ∧ e.operation? = some operation := by
  induction h with
  | nil => exact .inl hv
  | skip _ _ ih => exact ih hv
  | @define id e operation _ _ _ _ _ _ _ he hop _ _ ihbefore ih =>
    rcases ih hv with hv | hv
    · rcases List.mem_cons.mp hv with rfl | hv
      · exact .inr ⟨e, operation, he, hop⟩
      · exact ihbefore hv
    · exact .inr hv

/-- What is used has been defined, if it needs a definition. -/
theorem Shows.mem (h : f.Shows ids shown ws shown') (hid : id ∈ ids) {e : Expr} {operation : String}
    (he : f.expr? id = some e) (hop : e.operation? = some operation) : id ∈ shown' := by
  induction h with
  | nil => cases hid
  | skip hskip hrest ih =>
    rcases List.mem_cons.mp hid with rfl | hid
    · refine hrest.subset (hskip.resolve_right fun hnone => ?_)
      rw [he, Option.bind_some, hop] at hnone
      cases hnone
    · exact ih hid
  | define _ _ _ _ hrest _ ih =>
    rcases List.mem_cons.mp hid with rfl | hid
    · exact hrest.subset List.mem_cons_self
    · exact ih hid

/-! ## What is written are these definitions -/

/-- Items that are each written as they are shown. -/
theorem shows_writeEach {write : ExprId → List ExprId → List WrittenDefinition × List ExprId}
    (h : ∀ id ∈ ids, ∀ shown, f.Shows [id] shown (write id shown).1 (write id shown).2)
    (shown : List ExprId) :
    f.Shows ids shown (writeEach write ids shown).1 (writeEach write ids shown).2 := by
  induction ids generalizing shown with
  | nil => exact .nil
  | cons id ids ih =>
    have hrest := ih fun other hother => h other (List.mem_cons_of_mem _ hother)
    exact (h id List.mem_cons_self shown).append (hrest _)

theorem shows_writeDefinition (hf : f.Acyclic) {depth : Nat} (h : f.rank id < depth)
    (shown : List ExprId) :
    f.Shows [id] shown (f.writeDefinition depth id shown).1 (f.writeDefinition depth id shown).2 := by
  induction depth generalizing id shown with
  | zero => cases h
  | succ depth ih =>
    unfold writeDefinition
    split
    · exact .skip (.inl (List.contains_iff_mem.mp ‹_›)) .nil
    · rename_i hid
      rw [List.contains_iff_mem] at hid
      split
      · rename_i hnone
        exact .skip (.inr (by rw [hnone]; rfl)) .nil
      · rename_i e he
        split
        · rename_i hop
          exact .skip (.inr (by rw [he]; exact hop)) .nil
        · rename_i operation hop
          refine .define hid he hop (shows_writeEach (fun op hmem shown => ?_) shown) .nil
          exact ih (Nat.lt_of_lt_of_le (rank_lt hf ⟨e, he, hmem⟩) (Nat.le_of_lt_succ h)) shown

/-- **Without cycles, what is written in front of a use is all that has to be defined for it.** -/
theorem shows_writeDefinitions (hf : f.Acyclic) (ids shown : List ExprId) :
    f.Shows ids shown (f.writeDefinitions ids shown).1 (f.writeDefinitions ids shown).2 :=
  shows_writeEach (fun id _ => shows_writeDefinition hf (Nat.lt_succ_of_le (f.rank_le id))) shown

theorem Shows.writeDefinitions_eq (hf : f.Acyclic) (h : f.Shows ids shown ws shown') :
    f.writeDefinitions ids shown = (ws, shown') := by
  obtain ⟨hws, hshown⟩ := (shows_writeDefinitions hf ids shown).unique h
  exact Prod.ext hws hshown

end Function

end ResourceBinding
