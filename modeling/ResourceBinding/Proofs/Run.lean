import Mathlib.Data.List.Forall2

/-!
# Runs in sequence

A run that may fail succeeds only if each of its steps does, be they the two parts of a sequence
that threads a state, or the elements of an array. What comes of the elements of a list is related
to them one for one. A run that fails ends with the error of its first step that does
(`errorOf_bind`, `errorOf_mapM`).
-/

namespace ResourceBinding

variable {σ ε α β : Type} {s u : σ}

theorem exists_of_bind_ok {x : Except ε α} {f : α → Except ε β} {b : β}
    (h : x >>= f = .ok b) : ∃ a, x = .ok a ∧ f a = .ok b := by
  cases x with
  | error e => cases h
  | ok a => exact ⟨a, rfl, h⟩

theorem exists_of_map_ok {x : Except ε α} {f : α → β} {b : β} (h : f <$> x = .ok b) :
    ∃ a, x = .ok a ∧ f a = b := by
  cases x with
  | error e => cases h
  | ok a => exact ⟨a, rfl, Except.ok.inj h⟩

/-- What is checked of an outcome holds of what the run has succeeded with. -/
theorem exists_of_any_toOption {x : Except ε α} {p : α → Bool} (h : x.toOption.any p) :
    ∃ a, x = .ok a ∧ p a := by
  cases x with
  | error e => cases h
  | ok a => exact ⟨a, rfl, h⟩

/-- A sequence succeeds only if both of its parts do. -/
theorem exists_of_run_bind {x : StateT σ (Except ε) α} {f : α → StateT σ (Except ε) β} {b : β}
    (h : (x >>= f).run s = .ok (b, u)) :
    ∃ a t, x.run s = .ok (a, t) ∧ (f a).run t = .ok (b, u) := by
  rw [StateT.run_bind] at h
  obtain ⟨r, hx, h⟩ := exists_of_bind_ok h
  exact ⟨r.1, r.2, hx, h⟩

/-- Elements are mapped one for one. -/
theorem forall₂_of_mapM {f : α → Except ε β} :
    ∀ {as : List α} {bs : List β}, as.mapM f = .ok bs → List.Forall₂ (f · = .ok ·) as bs
  | [], bs, h => by
    cases h
    exact .nil
  | a :: as, bs, h => by
    rw [List.mapM_cons] at h
    obtain ⟨b, ha, h⟩ := exists_of_bind_ok h
    obtain ⟨rest, has, h⟩ := exists_of_bind_ok h
    cases h
    exact .cons ha (forall₂_of_mapM has)

theorem forall₂_of_option_mapM {f : α → Option β} :
    ∀ {as : List α} {bs : List β}, as.mapM f = some bs → List.Forall₂ (f · = some ·) as bs
  | [], bs, h => by
    cases h
    exact .nil
  | a :: as, bs, h => by
    rw [List.mapM_cons] at h
    obtain ⟨b, ha, h⟩ := Option.bind_eq_some_iff.mp h
    obtain ⟨rest, has, h⟩ := Option.bind_eq_some_iff.mp h
    cases h
    exact .cons ha (forall₂_of_option_mapM has)

theorem forall₂_of_array_mapM {f : α → Except ε β} {as : Array α} {bs : Array β}
    (h : as.mapM f = .ok bs) : List.Forall₂ (f · = .ok ·) as.toList bs.toList := by
  refine forall₂_of_mapM ?_
  rw [← Array.toList_mapM, h]
  rfl

/-! ## The error of a run -/

/-- The error that a run ends with, if it fails. -/
def errorOf : Except ε α → Option ε
  | .error e => some e
  | .ok _ => none

@[simp]
theorem errorOf_eq_some_iff {x : Except ε α} {e : ε} : errorOf x = some e ↔ x = .error e := by
  cases x <;> simp [errorOf]

theorem errorOf_eq_none_iff {x : Except ε α} : errorOf x = none ↔ ∃ a, x = .ok a := by
  cases x <;> simp [errorOf]

@[simp]
theorem errorOf_map (f : α → β) (x : Except ε α) : errorOf (x.map f) = errorOf x := by
  cases x <;> rfl

/-- A sequence ends with the error of its first part, or else with that of the second. -/
theorem errorOf_bind {x : Except ε α} {f : α → Except ε β} {rest : Option ε}
    (h : ∀ a, x = .ok a → errorOf (f a) = rest) : errorOf (x >>= f) = (errorOf x).or rest := by
  cases x with
  | error e => rfl
  | ok a => exact h a rfl

theorem errorOf_run_bind {x : StateT σ (Except ε) α} {f : α → StateT σ (Except ε) β}
    {rest : Option ε} (h : ∀ a t, x.run s = .ok (a, t) → errorOf ((f a).run t) = rest) :
    errorOf ((x >>= f).run s) = (errorOf (x.run s)).or rest := by
  rw [StateT.run_bind]
  exact errorOf_bind fun r hr => h r.1 r.2 hr

/-- What is made of the outcome decides about no error. -/
theorem errorOf_run_bind_pure (x : StateT σ (Except ε) α) (k : α → β) :
    errorOf ((x >>= fun a => pure (k a)).run s) = errorOf (x.run s) := by
  have hpure : ∀ a t, x.run s = .ok (a, t) →
      errorOf ((pure (k a) : StateT σ (Except ε) β).run t) = none := fun _ _ _ => rfl
  rw [errorOf_run_bind hpure, Option.or_none]

/-- Mapping elements in turn ends with the first error of one of them. -/
theorem errorOf_mapM {f : α → Except ε β} (as : List α) :
    errorOf (as.mapM f) = as.findSome? fun a => errorOf (f a) := by
  induction as with
  | nil => rfl
  | cons a as ih =>
    have hrest : ∀ b, errorOf (as.mapM f >>= fun bs => pure (b :: bs)) = errorOf (as.mapM f) := by
      intro b
      cases as.mapM f <;> rfl
    rw [List.mapM_cons, errorOf_bind fun b _ => (hrest b).trans ih, List.findSome?_cons]
    cases errorOf (f a) <;> rfl

theorem errorOf_array_mapM {f : α → Except ε β} (as : Array α) :
    errorOf (as.mapM f) = as.toList.findSome? fun a => errorOf (f a) := by
  rw [← errorOf_mapM, ← Array.toList_mapM]
  cases as.mapM f <;> rfl

/-- So does folding them, if what has been made so far decides about no error. -/
theorem errorOf_foldlM {f : β → α → Except ε β} {g : α → Option ε}
    (h : ∀ b a, errorOf (f b a) = g a) (as : List α) :
    ∀ b, errorOf (as.foldlM f b) = as.findSome? g := by
  induction as with
  | nil => exact fun _ => rfl
  | cons a as ih =>
    intro b
    rw [List.foldlM_cons, errorOf_bind fun b' _ => ih b', h, List.findSome?_cons]
    cases g a <;> rfl

/-! ## One for one -/

section Forall₂

variable {γ : Type} {R : α → β → Prop} {as : List α} {bs : List β}

/-- What is related one for one is related place by place. -/
theorem exists_getElem?_of_forall₂ (h : List.Forall₂ R as bs) {k : Nat} {a : α}
    (ha : as[k]? = some a) : ∃ b, bs[k]? = some b ∧ R a b := by
  induction h generalizing k with
  | nil => cases ha
  | cons hab _ ih =>
    cases k with
    | zero =>
      cases ha
      exact ⟨_, rfl, hab⟩
    | succ k => exact ih (by simpa using ha)

theorem exists_mem_of_forall₂ (h : List.Forall₂ R as bs) {b : β} (hb : b ∈ bs) :
    ∃ a ∈ as, R a b := by
  induction h with
  | nil => cases hb
  | cons hab _ ih =>
    rcases List.mem_cons.mp hb with rfl | hb
    · exact ⟨_, List.mem_cons_self, hab⟩
    · obtain ⟨a, ha, hab⟩ := ih hb
      exact ⟨a, List.mem_cons_of_mem _ ha, hab⟩

theorem exists_forall₂ (h : ∀ a ∈ as, ∃ b, R a b) : ∃ bs, List.Forall₂ R as bs := by
  induction as with
  | nil => exact ⟨[], .nil⟩
  | cons a as ih =>
    obtain ⟨b, hb⟩ := h a List.mem_cons_self
    obtain ⟨bs, hbs⟩ := ih fun other hother => h other (List.mem_cons_of_mem _ hother)
    exact ⟨b :: bs, .cons hb hbs⟩

/-- What is related one for one to the same list is related one for one. -/
theorem forall₂_of_common {S : γ → β → Prop} {T : α → γ → Prop} {cs : List γ}
    (h : List.Forall₂ R as bs) (h' : List.Forall₂ S cs bs)
    (hT : ∀ a ∈ as, ∀ c ∈ cs, ∀ b, R a b → S c b → T a c) : List.Forall₂ T as cs := by
  induction h generalizing cs with
  | nil =>
    cases h'
    exact .nil
  | cons hab _ ih =>
    cases h' with
    | cons hcb h' =>
      refine .cons (hT _ List.mem_cons_self _ List.mem_cons_self _ hab hcb) (ih h' ?_)
      exact fun a ha c hc =>
        hT a (List.mem_cons_of_mem _ ha) c (List.mem_cons_of_mem _ hc)

theorem map_eq_map_of_forall₂ {f : α → γ} {g : β → γ}
    (h : List.Forall₂ (fun a b => f a = g b) as bs) : as.map f = bs.map g := by
  have hsame : List.Forall₂ (· = ·) (as.map f) (bs.map g) :=
    List.forall₂_map_left_iff.mpr (List.forall₂_map_right_iff.mpr h)
  rwa [List.forall₂_eq_eq_eq] at hsame

/-- What is mapped to the same list is mapped to the same one for one. -/
theorem forall₂_of_map_eq {f : α → γ} {g : β → γ} :
    ∀ {as : List α} {bs : List β}, as.map f = bs.map g →
      List.Forall₂ (fun a b => a ∈ as ∧ b ∈ bs ∧ f a = g b) as bs
  | [], [], _ => .nil
  | a :: as, b :: bs, h => by
    obtain ⟨hab, h⟩ := List.cons.inj h
    refine .cons ⟨List.mem_cons_self, List.mem_cons_self, hab⟩ ?_
    exact (forall₂_of_map_eq h).imp fun _ _ ⟨ha, hb, heq⟩ =>
      ⟨List.mem_cons_of_mem _ ha, List.mem_cons_of_mem _ hb, heq⟩

end Forall₂

end ResourceBinding
