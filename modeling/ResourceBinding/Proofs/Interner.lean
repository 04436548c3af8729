import Mathlib.Data.List.Induction
import ResourceBinding.Interner

/-!
# The two sides of an interner agree

A value has a number exactly if it stands in the place of that number (`Interner.Agrees`). One
insertion keeps that (`Interner.Agrees.insert`), and so does any number of them. Numbers are given
in the order in which values first occur (`Interner.order_insertAll`), each call tells the number
that its value keeps, and whether the value is new (`Interner.exists_answer`).
-/

namespace ResourceBinding

namespace Interner

variable {α : Type} {t : Interner α} {a b : α} {i : Nat}

theorem mem_entries_iff : (i, a) ∈ t.entries ↔ t.order[i]? = some a := by
  simp only [entries, List.mem_mapIdx, Prod.mk.injEq, Array.getElem?_eq_some_iff,
    Array.length_toList, Array.getElem_toList]
  constructor
  · rintro ⟨j, hj, rfl, rfl⟩
    exact ⟨hj, rfl⟩
  · rintro ⟨hi, rfl⟩
    exact ⟨i, hi, rfl, rfl⟩

variable [DecidableEq α]

/-- A value has a number exactly if it stands in the place of that number. -/
def Agrees (t : Interner α) : Prop :=
  ∀ a i, t.number? a = some i ↔ t.order[i]? = some a

theorem agrees_empty : (empty : Interner α).Agrees := by
  intro a i
  simp [number?, empty]

/-! ## One insertion -/

/-- A value that has a number keeps it, and any other one is put last. -/
theorem insert_cases (t : Interner α) (a : α) :
    (∃ i, t.number? a = some i ∧ t.insert a = ((i, false), t)) ∨
      t.number? a = none ∧ t.insert a
        = ((t.order.size, true), ⟨t.order.push a, (a, t.order.size) :: t.numbers⟩) := by
  unfold insert
  cases h : t.number? a with
  | some i => exact .inl ⟨i, rfl, rfl⟩
  | none => exact .inr ⟨rfl, rfl⟩

/-- A value that has been put last has the number of that place. -/
theorem number?_put (order : Array α) (numbers : List (α × Nat)) (a b : α) (n : Nat) :
    (⟨order, (a, n) :: numbers⟩ : Interner α).number? b
      = if b = a then some n else numbers.lookup b := by
  rw [number?, List.lookup_cons]
  by_cases hb : b = a
  · rw [if_pos hb, beq_iff_eq.mpr hb]
  · rw [if_neg hb, beq_eq_false_iff_ne.mpr hb]

/-- **What was inserted has the number that was returned.** -/
theorem number?_insert (t : Interner α) (a : α) :
    (t.insert a).2.number? a = some (t.insert a).1.1 := by
  rcases t.insert_cases a with ⟨i, hi, hinsert⟩ | ⟨-, hinsert⟩
  · rw [hinsert]
    exact hi
  · rw [hinsert, number?_put, if_pos rfl]

/-- **A value keeps its number.** -/
theorem number?_insert_of_number? (h : t.number? b = some i) (a : α) :
    (t.insert a).2.number? b = some i := by
  rcases t.insert_cases a with ⟨j, -, hinsert⟩ | ⟨hnone, hinsert⟩
  · rw [hinsert]
    exact h
  · rw [hinsert, number?_put, if_neg]
    · exact h
    · rintro rfl
      cases hnone.symm.trans h

/-- The other values have no more numbers than before. -/
theorem number?_insert_of_ne (h : b ≠ a) : (t.insert a).2.number? b = t.number? b := by
  rcases t.insert_cases a with ⟨i, -, hinsert⟩ | ⟨-, hinsert⟩
  · rw [hinsert]
  · rw [hinsert, number?_put, if_neg h]
    rfl

/-- A value is told to be new if it has no number yet. -/
theorem isNew_insert (t : Interner α) (a : α) : (t.insert a).1.2 = (t.number? a).isNone := by
  rcases t.insert_cases a with ⟨i, hi, hinsert⟩ | ⟨hnone, hinsert⟩
  · rw [hinsert, hi]
    rfl
  · rw [hinsert, hnone]
    rfl

/-- **An insertion keeps the two sides agreed.** -/
theorem Agrees.insert (h : t.Agrees) (a : α) : (t.insert a).2.Agrees := by
  rcases t.insert_cases a with ⟨i, -, hinsert⟩ | ⟨hnone, hinsert⟩
  · rw [hinsert]
    exact h
  · rw [hinsert]
    intro b i
    rw [number?_put, Array.getElem?_push]
    by_cases hb : b = a
    · rw [if_pos hb, Option.some.injEq, eq_comm (a := t.order.size)]
      constructor
      · rintro rfl
        rw [if_pos rfl, hb]
      · intro hi
        split at hi
        · assumption
        · cases hnone.symm.trans ((h a i).mpr (hb ▸ hi))
    · rw [if_neg hb]
      constructor
      · intro hnumber
        have hold := (h b i).mp hnumber
        have hlt : i < t.order.size := (Array.getElem?_eq_some_iff.mp hold).1
        rw [if_neg (Nat.ne_of_lt hlt)]
        exact hold
      · intro hi
        split at hi
        · exact absurd (Option.some.inj hi).symm hb
        · exact (h b i).mpr hi

/-- The number of a value is the place where it is found first. -/
theorem Agrees.number?_eq_idxOf? (h : t.Agrees) (a : α) : t.number? a = t.order.idxOf? a := by
  cases hfind : t.order.idxOf? a with
  | none =>
    refine Option.eq_none_iff_forall_ne_some.mpr fun i hi => ?_
    exact Array.idxOf?_eq_none_iff.mp hfind (Array.mem_of_getElem? ((h a i).mp hi))
  | some i =>
    rw [Array.idxOf?_eq_map_finIdxOf?_val] at hfind
    obtain ⟨j, hj, rfl⟩ := Option.map_eq_some_iff.mp hfind
    refine (h a j).mpr ?_
    have hat := (Array.finIdxOf?_eq_some_iff.mp hj).1
    simp [← hat]

/-! ## Many insertions -/

theorem insertAll_cons (t : Interner α) (a : α) (as : List α) :
    t.insertAll (a :: as) = ((t.insert a).1 :: ((t.insert a).2.insertAll as).1,
      ((t.insert a).2.insertAll as).2) :=
  rfl

theorem insertAll_append (t : Interner α) (as bs : List α) :
    t.insertAll (as ++ bs) = ((t.insertAll as).1 ++ ((t.insertAll as).2.insertAll bs).1,
      ((t.insertAll as).2.insertAll bs).2) := by
  induction as generalizing t with
  | nil => rfl
  | cons a as ih => rw [List.cons_append, insertAll_cons, ih, insertAll_cons, List.cons_append]

/-- Each insertion gets an answer. -/
theorem length_insertAll (t : Interner α) (as : List α) :
    (t.insertAll as).1.length = as.length := by
  induction as generalizing t with
  | nil => rfl
  | cons a as ih => rw [insertAll_cons, List.length_cons, List.length_cons, ih]

theorem Agrees.insertAll (h : t.Agrees) (as : List α) : (t.insertAll as).2.Agrees := by
  induction as generalizing t with
  | nil => exact h
  | cons a as ih => exact ih (h.insert a)

/-- **Later insertions change no number that has been given.** -/
theorem number?_insertAll_of_number? (h : t.number? b = some i) (as : List α) :
    (t.insertAll as).2.number? b = some i := by
  induction as generalizing t with
  | nil => exact h
  | cons a as ih => exact ih (number?_insert_of_number? h a)

/-- The values that have a number are those that had one, and those that were inserted. -/
theorem number?_insertAll_eq_none_iff (as : List α) :
    (t.insertAll as).2.number? b = none ↔ t.number? b = none ∧ b ∉ as := by
  induction as generalizing t with
  | nil => simp [Interner.insertAll]
  | cons a as ih =>
    rw [insertAll_cons, ih, List.mem_cons, not_or]
    by_cases hb : b = a
    · subst hb
      simp [number?_insert]
    · rw [number?_insert_of_ne hb, and_iff_right hb]

/-- **Each call tells the number that its value keeps, and whether the value is new.** -/
theorem exists_answer {as : List α} {k : Nat} (ha : as[k]? = some a) :
    ∃ i, (t.insertAll as).1[k]?
        = some (i, ((t.insertAll (as.take k)).2.number? a).isNone) ∧
      (t.insertAll as).2.number? a = some i := by
  induction as generalizing t k with
  | nil => cases ha
  | cons first as ih =>
    cases k with
    | zero =>
      cases ha
      refine ⟨(t.insert a).1.1, ?_, number?_insertAll_of_number? (t.number?_insert a) as⟩
      exact congrArg (fun isNew => some ((t.insert a).1.1, isNew)) (t.isNew_insert a)
    | succ k => exact ih ha

/-- **The values are put in the order in which they first occur.** -/
theorem order_insertAll (as : List α) :
    ((empty : Interner α).insertAll as).2.order.toList = as.eraseDups := by
  induction as using List.reverseRecOn with
  | nil => rfl
  | append_singleton as a ih =>
    have hnew : ((empty : Interner α).insertAll as).2.number? a = none ↔ a ∉ as :=
      (number?_insertAll_eq_none_iff as).trans (and_iff_right rfl)
    rw [insertAll_append, List.eraseDups_append, insertAll_cons]
    rcases insert_cases ((empty : Interner α).insertAll as).2 a with
      ⟨i, hi, hinsert⟩ | ⟨hnone, hinsert⟩
    · have hmem : a ∈ as := by
        by_contra hnot
        cases (hnew.mpr hnot).symm.trans hi
      rw [hinsert]
      simp [Interner.insertAll, ih, List.removeAll, hmem]
    · rw [hinsert]
      simp [Interner.insertAll, ih, List.removeAll, hnew.mp hnone, List.eraseDups_cons]

end Interner

end ResourceBinding
