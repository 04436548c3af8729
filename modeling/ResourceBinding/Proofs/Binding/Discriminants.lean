import ResourceBinding.Proofs.Binding.Planning
import ResourceBinding.Proofs.Interner

/-!
# Discriminants have dense numbers

The discriminants of a sequence are numbered from zero on, in the order in which they first occur,
and none ever changes its number (`discriminants_numbered`). A numbering of discriminants is the
order that an interner keeps of them, and finds numbers by looking for their place.
-/

namespace ResourceBinding

namespace Numbering

/-- A numbering of keys has the order of an interner that they were inserted into. -/
theorem keys_ofKeys_eq_order (keys : List Discriminant) :
    (ofKeys keys).keys = ((Interner.empty : Interner Discriminant).insertAll keys).2.order.toList :=
  (keys_ofKeys keys).trans (Interner.order_insertAll keys).symm

/-- A numbering finds the numbers that an interner keeps. -/
theorem index?_ofKeys_eq_number? (keys : List Discriminant) (key : Discriminant) :
    (ofKeys keys).index? key
      = ((Interner.empty : Interner Discriminant).insertAll keys).2.number? key := by
  rw [(Interner.agrees_empty.insertAll keys).number?_eq_idxOf?, index?, keys_ofKeys_eq_order,
    ← List.idxOf?_toArray, Array.toArray_toList]

/-- A numbering gives the number that an interner gives. -/
theorem insert_ofKeys_eq_insert (keys : List Discriminant) (key : Discriminant) :
    ((ofKeys keys).insert key).1
      = (((Interner.empty : Interner Discriminant).insertAll keys).2.insert key).1.1 := by
  rw [insert, Interner.insert, index?_ofKeys_eq_number?, keys_ofKeys_eq_order, Array.length_toList]
  cases Interner.number? _ key <;> rfl

end Numbering

/-- **Discriminants are numbered densely, in the order in which they are first seen.** Each
insertion tells the number that its discriminant has in the end, and that it is new exactly where
it occurs first; no later insertion changes a number. -/
theorem discriminants_numbered (keys : List Discriminant) :
    let answers := ((Interner.empty : Interner Discriminant).insertAll keys).1
    let numbered := ((Interner.empty : Interner Discriminant).insertAll keys).2
    numbered.entries = keys.eraseDups.mapIdx Prod.mk ∧
    (∀ key i, numbered.number? key = some i ↔ (i, key) ∈ numbered.entries) ∧
    answers.length = keys.length ∧
    (∀ k key, keys[k]? = some key → ∃ i,
      answers[k]? = some (i, decide (key ∉ keys.take k)) ∧ numbered.number? key = some i) ∧
    (∀ later key i, numbered.number? key = some i →
      (numbered.insertAll later).2.number? key = some i) ∧
    (Numbering.ofKeys keys).keys = numbered.order.toList ∧
    ∀ key, (Numbering.ofKeys keys).index? key = numbered.number? key ∧
      ((Numbering.ofKeys keys).insert key).1 = (numbered.insert key).1.1 := by
  intro answers numbered
  have hagrees : numbered.Agrees := Interner.agrees_empty.insertAll keys
  refine ⟨?_, fun key i => (hagrees key i).trans Interner.mem_entries_iff.symm,
    Interner.length_insertAll _ keys, fun k key hkey => ?_,
    fun later key i h => Interner.number?_insertAll_of_number? h later,
    Numbering.keys_ofKeys_eq_order keys, fun key =>
      ⟨Numbering.index?_ofKeys_eq_number? keys key, Numbering.insert_ofKeys_eq_insert keys key⟩⟩
  · rw [Interner.entries, Interner.order_insertAll]
  · obtain ⟨i, hanswer, hnumber⟩ := Interner.exists_answer (t := Interner.empty) hkey
    refine ⟨i, hanswer.trans (congrArg (fun isNew => some (i, isNew)) ?_), hnumber⟩
    rw [Bool.eq_iff_iff, Option.isNone_iff_eq_none, Interner.number?_insertAll_eq_none_iff,
      decide_eq_true_iff]
    exact and_iff_right rfl

end ResourceBinding
