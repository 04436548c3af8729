import ResourceBinding.Proofs.Program.ValueTree

/-!
# Substituting into what the target is built on

`Function.substitute` turns the uses of the source into uses of the target everywhere but in the
target itself. A target that uses the source right away closes no cycle therefore. One that comes to
it through another expression does, since that one comes to use the target.

* `Function.acyclic_substitute_iff`: these are the only targets that close a cycle.

What the passes substitute has been added for it and is built on no parameter, so that their edits
bring in no cycle (`Function.Revises.acyclic`).
-/

namespace ResourceBinding.Function

variable {f : Function} {source target id op a b : ExprId}

/-- Only what is not the target uses something else than before. -/
theorem uses_substitute_iff : (f.substitute source target).Uses id op ↔
    (f.Uses id op ∧ (id = target ∨ op ≠ source)) ∨
      (id ≠ target ∧ f.Uses id source ∧ op = target) := by
  have hexpr : (f.substitute source target).expr? id = (f.expr? id).map fun e =>
      if id = target then e else e.mapOperands (redirect source target) := by
    simp only [expr?, substitute, Array.getElem?_mapIdx]
  unfold Uses
  rw [hexpr]
  cases f.expr? id with
  | none => simp
  | some e =>
    by_cases hid : id = target
    · simp [hid]
    · simp only [hid, Option.map_some, Option.some.injEq, if_false, exists_eq_left', false_or,
        not_false_eq_true, true_and, Expr.operands_mapOperands, List.mem_map, redirect, ne_eq]
      constructor
      · rintro ⟨old, hold, rfl⟩
        by_cases hsource : old = source
        · exact .inr ⟨hsource ▸ hold, if_pos hsource⟩
        · rw [if_neg hsource]
          exact .inl ⟨hold, hsource⟩
      · rintro (⟨hop, hne⟩ | ⟨hsource, rfl⟩)
        · exact ⟨op, hop, if_neg hne⟩
        · exact ⟨source, hsource, if_pos rfl⟩

/-- What leads to a use of the source does not pass the source, so it is kept. -/
theorem transGen_substitute (hf : f.Acyclic) (hsource : f.Uses b source)
    (h : Relation.TransGen f.Uses a b) : Relation.TransGen (f.substitute source target).Uses a b := by
  have hkept : ∀ {c d : ExprId}, f.Uses c d → Relation.ReflTransGen f.Uses d b →
      (f.substitute source target).Uses c d := by
    intro c d hcd hdb
    refine uses_substitute_iff.mpr (.inl ⟨hcd, .inr ?_⟩)
    rintro rfl
    exact hf _ (.tail' hdb hsource)
  induction h using Relation.TransGen.head_induction_on with
  | single h => exact .single (hkept h .refl)
  | head h hrest ih => exact .head (hkept h hrest.to_reflTransGen) ih

/-- What is built on something after a substitution was so before, or comes by the target: it was
built on an expression that used the source, and the target on what it is built on now. -/
theorem transGen_of_substitute (h : Relation.TransGen (f.substitute source target).Uses a b) :
    Relation.TransGen f.Uses a b ∨
      (∃ via, Relation.ReflTransGen f.Uses a via ∧ via ≠ target ∧ f.Uses via source) ∧
        Relation.ReflTransGen f.Uses target b := by
  induction h with
  | single h =>
    rcases uses_substitute_iff.mp h with ⟨h, -⟩ | ⟨hne, hsource, rfl⟩
    · exact .inl (.single h)
    · exact .inr ⟨⟨a, .refl, hne, hsource⟩, .refl⟩
  | @tail c d _ h ih =>
    rcases uses_substitute_iff.mp h with ⟨h, -⟩ | ⟨hne, hsource, rfl⟩
    · exact ih.imp (.tail · h) (And.imp_right (.tail · h))
    · rcases ih with hac | ⟨hvia, -⟩
      · exact .inr ⟨⟨c, hac.to_reflTransGen, hne, hsource⟩, .refl⟩
      · exact .inr ⟨hvia, .refl⟩

/-- **A substitution closes a cycle exactly if the target is built on another expression that uses
the source.** That the target itself uses it does no harm. -/
theorem acyclic_substitute_iff (hf : f.Acyclic) : (f.substitute source target).Acyclic ↔
    ∀ via, Relation.TransGen f.Uses target via → ¬ f.Uses via source := by
  constructor
  · intro hacyclic via hvia hsource
    have hne : via ≠ target := by
      rintro rfl
      exact hf _ hvia
    exact hacyclic target ((transGen_substitute hf hsource hvia).tail
      (uses_substitute_iff.mpr (.inr ⟨hne, hsource, rfl⟩)))
  · intro h id hid
    rcases transGen_of_substitute hid with hid | ⟨⟨via, hvia, hne, hsource⟩, htarget⟩
    · exact hf id hid
    · rcases Relation.reflTransGen_iff_eq_or_transGen.mp (htarget.trans hvia) with heq | hvia
      · exact hne heq
      · exact h via hvia hsource

/-- A parameter is loaded twice over, and stored through the second load. -/
def twiceLoaded : Function where
  name := "f"
  convention := .ordinary
  params := [⟨some "p", 3, none⟩]
  result := none
  isPure := false
  expressions := #[.parameter 0, .load 0, .load 1]
  names := [(1, "a"), (2, "b")]
  body := some (.cons (.store 2 0) .nil)

/-- Turning the uses of the parameter into uses of the second load has the first load use the second,
which uses the first. -/
theorem twiceLoaded_cycle : twiceLoaded.Acyclic ∧ ¬ (twiceLoaded.substitute 0 2).Acyclic := by
  have hacyclic : twiceLoaded.Acyclic := acyclic_of_usesEarlier (by decide)
  refine ⟨hacyclic, fun h => ?_⟩
  have hfirst : twiceLoaded.Uses 1 0 := ⟨.load 0, rfl, by decide⟩
  have hsecond : twiceLoaded.Uses 2 1 := ⟨.load 1, rfl, by decide⟩
  exact (acyclic_substitute_iff hacyclic).mp h 1 (.single hsecond) hfirst

end ResourceBinding.Function
