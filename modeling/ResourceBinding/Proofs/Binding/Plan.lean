import ResourceBinding.Binding.Plan
import Mathlib.Data.List.Forall2

/-!
# What a plan comes to

The rows that `Planner` makes for the kernels of a module, said without the monad.

* `Planner.kernels_ok`: a plan that succeeds is one in the sense of `Plans`. Each kernel with
  parameters takes the next set, and its parameters are bound in it in order.
* `Planner.keeps_kernels`: no plan, whether it succeeds or not, gives a set back.
-/

namespace ResourceBinding

/-! ## Numberings grow -/

namespace Numbering

/-- Whatever has a number in `n` has the same number in `n'`. -/
def Extends (n n' : Numbering) : Prop :=
  ∀ key i, n.index? key = some i → n'.index? key = some i

theorem Extends.refl (n : Numbering) : Extends n n :=
  fun _ _ h => h

theorem Extends.trans {n₁ n₂ n₃ : Numbering} (h₁ : Extends n₁ n₂) (h₂ : Extends n₂ n₃) :
    Extends n₁ n₃ :=
  fun key i h => h₂ key i (h₁ key i h)

theorem extends_insert (n : Numbering) (key : Discriminant) : Extends n (n.insert key).2 :=
  fun _ _ h => index?_insert_of_index? h key

/-- A key stands at its number. -/
theorem getElem?_of_index? {n : Numbering} {key : Discriminant} {i : Nat}
    (h : n.index? key = some i) : n.keys[i]? = some key := by
  obtain ⟨hlt, hkey, -⟩ := List.findIdx?_eq_some_iff_getElem.mp h
  rw [List.getElem?_eq_getElem hlt, eq_of_beq hkey]

/-- A number points into the list of keys. -/
theorem lt_length_of_index? {n : Numbering} {key : Discriminant} {i : Nat}
    (h : n.index? key = some i) : i < n.keys.length :=
  (List.getElem?_eq_some_iff.mp (getElem?_of_index? h)).1

end Numbering

/-! ## Plans -/

/-- What a type is passed for depends on its shape alone. -/
theorem TypeTable.argumentKind_eq_ok_iff {types : TypeTable} {type : TypeId}
    {kind : ArgumentKind} : types.argumentKind type = .ok kind ↔
      ∃ entry, types.get? type = some entry ∧ ArgumentKind.ofShape? entry.shape = some kind := by
  rw [← Option.bind_eq_some_iff, argumentKind]
  cases (types.get? type).bind fun entry => ArgumentKind.ofShape? entry.shape with
  | none => simp
  | some found => simp

/-- A kind that can be bound is the kind of the type. -/
theorem Planner.argumentKind_of_kind {m : Module} {f : Function} {i : Nat} {p : Param}
    {kind : ArgumentKind} (h : Planner.kind m f i p = .ok kind) :
    m.types.argumentKind p.type = .ok kind := by
  unfold Planner.kind at h
  split at h
  · cases h
  · cases h
  · rename_i k _ hk
    cases h
    exact hk

/-- Nothing is bound in the memory of a work group. -/
theorem Planner.ne_workgroup_of_kind {m : Module} {f : Function} {i : Nat} {p : Param}
    {kind : ArgumentKind} (h : Planner.kind m f i p = .ok kind) : kind ≠ .workgroup := by
  unfold Planner.kind at h
  split at h
  · cases h
  · cases h
  · rename_i k hne _
    cases h
    exact hne

/-- The row binds the parameter `p` at position `i` of the kernel `f` in the set `s`. -/
structure ArgumentRow.Binds (m : Module) (n : Numbering) (f : Function) (s i : Nat) (p : Param)
    (row : ArgumentRow) : Prop where
  kernel : row.kernel = f.name
  position : row.position = i
  name : row.name = p.name
  kind : Planner.kind m f i p = .ok row.kind
  set : row.set = s
  binding : row.binding = i
  discriminant : n.index? ⟨p.type, i⟩ = some row.discriminant

theorem ArgumentRow.Binds.mono {m : Module} {n n' : Numbering} {f : Function} {s i : Nat}
    {p : Param} {row : ArgumentRow} (hn : n.Extends n') (h : row.Binds m n f s i p) :
    row.Binds m n' f s i p :=
  { h with discriminant := hn _ _ h.discriminant }

/-- The rows bind the parameters `ps` of a kernel, of which the first is at position `i`. -/
def BindAll (m : Module) (n : Numbering) (f : Function) (s i : Nat) (ps : List Param)
    (rows : List ArgumentRow) : Prop :=
  List.Forall₂ (fun p row => ArgumentRow.Binds m n f s p.2 p.1 row) (ps.zipIdx i) rows

theorem BindAll.mono {m : Module} {n n' : Numbering} {f : Function} {s i : Nat}
    {ps : List Param} {rows : List ArgumentRow} (hn : n.Extends n')
    (h : BindAll m n f s i ps rows) : BindAll m n' f s i ps rows :=
  List.Forall₂.imp (fun _ _ hb => hb.mono hn) h

theorem BindAll.length_eq {m : Module} {n : Numbering} {f : Function} {s i : Nat}
    {ps : List Param} {rows : List ArgumentRow} (h : BindAll m n f s i ps rows) :
    rows.length = ps.length := by
  have := List.Forall₂.length_eq h
  simpa using this.symm

/-- The set that is free once a kernel has been planned: only one with parameters takes a set. -/
def Function.setBehind (f : Function) (next : Nat) : Nat :=
  if f.params.isEmpty then next else next + 1

/-- The rows of kernels, where `next` is the first free set before and `final` the first one
afterwards. -/
inductive Plans (m : Module) (n : Numbering) :
    Nat → List (FunctionId × Function) → List (FunctionId × List ArgumentRow) → Nat → Prop
  | nil (next : Nat) : Plans m n next [] [] next
  | cons {next final : Nat} {id : FunctionId} {f : Function} {rows : List ArgumentRow}
      {rest : List (FunctionId × Function)} {others : List (FunctionId × List ArgumentRow)} :
      BindAll m n f next 0 f.params rows → Plans m n (f.setBehind next) rest others final →
      Plans m n next ((id, f) :: rest) ((id, rows) :: others) final

/-! ## Planning -/

namespace Planner

variable {α β : Type}

/-! ### Sequences -/

theorem run_bind_of_ok {x : Planner α} {f : α → Planner β} {s t : PlanState} {a : α}
    (h : x.run s = (.ok a, t)) : (x >>= f).run s = (f a).run t := by
  rw [ExceptT.run_bind]
  change (x.run >>= _ : StateT PlanState Id _).run s = _
  rw [StateT.run_bind, show x.run.run s = (.ok a, t) from h]
  rfl

theorem run_bind_of_error {x : Planner α} {f : α → Planner β} {s t : PlanState} {fault : Fault}
    (h : x.run s = (.error fault, t)) : (x >>= f).run s = (.error fault, t) := by
  rw [ExceptT.run_bind]
  change (x.run >>= _ : StateT PlanState Id _).run s = _
  rw [StateT.run_bind, show x.run.run s = (.error fault, t) from h]
  rfl

/-- A sequence succeeds only if both of its parts do. -/
theorem bind_ok {x : Planner α} {f : α → Planner β} {s u : PlanState} {b : β}
    (h : (x >>= f).run s = (.ok b, u)) :
    ∃ a t, x.run s = (.ok a, t) ∧ (f a).run t = (.ok b, u) := by
  obtain ⟨⟨fault | a, t⟩, ht⟩ : ∃ r, x.run s = r := ⟨_, rfl⟩
  · rw [run_bind_of_error ht] at h
    cases h
  · rw [run_bind_of_ok ht] at h
    exact ⟨a, t, ht, h⟩

/-! ### Plans that succeed -/

/-- The state `t` comes after `s`: numbers are kept, and each new one has the name of its accessor
to itself, and a type of arguments. -/
structure Advances (m : Module) (s t : PlanState) : Prop where
  extends_numbering : s.discriminants.Extends t.discriminants
  name_free : ∀ i, s.discriminants.keys.length ≤ i → i < t.discriminants.keys.length →
    m.find? (ReservedName.accessor i) = none
  key_typed : ∀ key ∈ t.discriminants.keys, key ∈ s.discriminants.keys ∨
    ∃ kind, m.types.argumentKind key.type = .ok kind

theorem Advances.refl (m : Module) (s : PlanState) : Advances m s s :=
  ⟨.refl _, fun i h₁ h₂ => absurd h₂ (by omega), fun _ => .inl⟩

theorem Advances.trans {m : Module} {s t u : PlanState} (h₁ : Advances m s t)
    (h₂ : Advances m t u) : Advances m s u := by
  refine ⟨h₁.extends_numbering.trans h₂.extends_numbering, fun i hs hu => ?_, fun key hkey =>
    (h₂.key_typed key hkey).elim (h₁.key_typed key) .inr⟩
  by_cases ht : i < t.discriminants.keys.length
  · exact h₁.name_free i hs ht
  · exact h₂.name_free i (by omega) hu

theorem number_ok {m : Module} {wanted : Bool} {key : Discriminant} {s t : PlanState} {i : Nat}
    {kind : ArgumentKind} (htyped : m.types.argumentKind key.type = .ok kind)
    (h : (number m wanted key).run s = (.ok i, t)) :
    t.nextSet = s.nextSet ∧ t.discriminants.index? key = some i ∧ Advances m s t := by
  unfold number at h
  obtain ⟨_, _, h0, h⟩ := bind_ok h
  cases h0
  split at h
  · rename_i j hj
    cases h
    exact ⟨rfl, hj, .refl m s⟩
  · rename_i hnone
    split at h
    rename_i index discriminants hins
    obtain ⟨_, _, h0, h⟩ := bind_ok h
    cases h0
    split at h
    · cases h
    rename_i hfree
    obtain ⟨_, _, h0, h⟩ := bind_ok h
    cases h0
    cases h
    have hkey := Numbering.index?_insert s.discriminants key
    have hext := Numbering.extends_insert s.discriminants key
    rw [hins] at hkey hext
    simp only [Numbering.insert, hnone, Prod.mk.injEq] at hins
    obtain ⟨rfl, rfl⟩ := hins
    refine ⟨rfl, hkey, hext, fun j hj hlt => ?_, fun other hother => ?_⟩
    · have hlast : j = s.discriminants.keys.length := by
        simp only [List.length_append, List.length_singleton] at hlt
        omega
      rw [hlast]
      simpa using hfree
    · refine (List.mem_append.mp hother).imp_right fun hnew => ?_
      rw [List.mem_singleton.mp hnew]
      exact ⟨kind, htyped⟩

theorem argument_ok {m : Module} {wanted : Bool} {f : Function} {set i : Nat} {p : Param}
    {s t : PlanState} {row : ArgumentRow}
    (h : (argument m wanted f set i p).run s = (.ok row, t)) :
    t.nextSet = set + 1 ∧ row.Binds m t.discriminants f set i p ∧ Advances m s t := by
  unfold argument at h
  obtain ⟨kind, _, h0, h⟩ := bind_ok h
  cases hk : Planner.kind m f i p with
  | error fault =>
    rw [hk] at h0
    cases h0
  | ok k =>
    rw [hk] at h0
    cases h0
    obtain ⟨_, _, h0, h⟩ := bind_ok h
    cases h0
    obtain ⟨index, u, hnum, h⟩ := bind_ok h
    obtain ⟨hset, hindex, hadv⟩ := number_ok (argumentKind_of_kind hk) hnum
    obtain ⟨_, _, h0, h⟩ := bind_ok h
    cases h0
    cases h
    exact ⟨hset, ⟨rfl, rfl, rfl, hk, rfl, rfl, hindex⟩,
      ⟨hadv.extends_numbering, hadv.name_free, hadv.key_typed⟩⟩

theorem arguments_ok {m : Module} {wanted : Bool} {f : Function} {set : Nat} {ps : List Param} :
    ∀ {i : Nat} {s t : PlanState} {rows : List ArgumentRow},
      (arguments m wanted f set i ps).run s = (.ok rows, t) →
      t.nextSet = (if ps.isEmpty then s.nextSet else set + 1) ∧
        BindAll m t.discriminants f set i ps rows ∧ Advances m s t := by
  induction ps with
  | nil =>
    intro i s t rows h
    cases h
    exact ⟨rfl, .nil, .refl m s⟩
  | cons p ps ih =>
    intro i s t rows h
    unfold arguments at h
    obtain ⟨row, u, hrow, h⟩ := bind_ok h
    obtain ⟨others, v, hrest, h⟩ := bind_ok h
    cases h
    obtain ⟨hset, hbind, hadv⟩ := argument_ok hrow
    obtain ⟨hset', hbinds, hadv'⟩ := ih hrest
    refine ⟨?_, .cons (hbind.mono hadv'.extends_numbering) hbinds, hadv.trans hadv'⟩
    rw [hset', hset]
    simp

/-- **A plan that succeeds gives each kernel with parameters the next set.** -/
theorem kernels_ok {m : Module} {wanted : Bool} {ks : List (FunctionId × Function)} :
    ∀ {s t : PlanState} {planned : List (FunctionId × List ArgumentRow)},
      (kernels m wanted ks).run s = (.ok planned, t) →
      Plans m t.discriminants s.nextSet ks planned t.nextSet ∧ Advances m s t := by
  induction ks with
  | nil =>
    intro s t planned h
    cases h
    exact ⟨.nil _, .refl m s⟩
  | cons k ks ih =>
    intro s t planned h
    unfold kernels at h
    obtain ⟨_, _, h0, h⟩ := bind_ok h
    cases h0
    obtain ⟨rows, u, hrows, h⟩ := bind_ok h
    obtain ⟨others, v, hrest, h⟩ := bind_ok h
    cases h
    obtain ⟨hset, hbinds, hadv⟩ := arguments_ok hrows
    obtain ⟨hplans, hadv'⟩ := ih hrest
    refine ⟨.cons (hbinds.mono hadv'.extends_numbering) ?_, hadv.trans hadv'⟩
    rw [hset] at hplans
    exact hplans

/-! ### Plans that may fail -/

/-- Whatever comes of it, the planner keeps a property of the next set. -/
def Keeps (P : Nat → Prop) (x : Planner α) : Prop :=
  ∀ s, P s.nextSet → P (x.run s).2.nextSet

variable {P : Nat → Prop}

theorem keeps_pure (a : α) : Keeps P (pure a : Planner α) :=
  fun _ h => h

theorem keeps_bind {x : Planner α} {f : α → Planner β} (hx : Keeps P x)
    (hf : ∀ a, Keeps P (f a)) : Keeps P (x >>= f) := by
  intro s hs
  have ht := hx s hs
  obtain ⟨⟨fault | a, t⟩, hr⟩ : ∃ r, x.run s = r := ⟨_, rfl⟩
  · rw [run_bind_of_error hr]
    rw [hr] at ht
    exact ht
  · rw [run_bind_of_ok hr]
    rw [hr] at ht
    exact hf a t ht

theorem run_get (s : PlanState) : (get : Planner PlanState).run s = (.ok s, s) := rfl

theorem keeps_emit (line : LogLine) : Keeps P (emit line) :=
  fun _ h => h

theorem keeps_number (m : Module) (wanted : Bool) (key : Discriminant) :
    Keeps P (number m wanted key) := by
  intro s hs
  unfold number
  rw [run_bind_of_ok (run_get s)]
  split
  · exact hs
  · split
    rename_i index discriminants _
    have hset : Keeps P (set { s with discriminants } : Planner PUnit) := fun _ _ => hs
    refine keeps_bind hset (fun _ => ?_) s hs
    split
    · exact fun _ h => h
    · exact keeps_bind (keeps_emit _) fun _ => keeps_pure _

theorem keeps_argument (m : Module) (wanted : Bool) (f : Function) {set : Nat} (i : Nat)
    (p : Param) (h : P (set + 1)) : Keeps P (argument m wanted f set i p) := by
  unfold argument
  refine keeps_bind ?_ fun _ => ?_
  · cases Planner.kind m f i p with
    | error fault => exact fun _ hs => hs
    | ok kind => exact fun _ hs => hs
  refine keeps_bind (fun _ _ => h) fun _ => ?_
  exact keeps_bind (keeps_number m wanted _) fun _ =>
    keeps_bind (fun _ hs => hs) fun _ => keeps_pure _

theorem keeps_arguments (m : Module) (wanted : Bool) (f : Function) {set : Nat}
    (h : P (set + 1)) : ∀ (i : Nat) (ps : List Param), Keeps P (arguments m wanted f set i ps)
  | _, [] => keeps_pure []
  | i, p :: ps =>
    keeps_bind (keeps_argument m wanted f i p h) fun _ =>
      keeps_bind (keeps_arguments m wanted f h (i + 1) ps) fun _ => keeps_pure _

/-- **No plan gives a set back.** -/
theorem keeps_kernels (m : Module) (wanted : Bool) (start : Nat) :
    ∀ ks : List (FunctionId × Function), Keeps (start ≤ ·) (kernels m wanted ks)
  | [] => keeps_pure []
  | (id, f) :: ks => by
    intro s hs
    rw [kernels, run_bind_of_ok (run_get s)]
    refine keeps_bind (keeps_arguments m wanted f (Nat.le_succ_of_le hs) 0 f.params)
      (fun _ => ?_) s hs
    exact keeps_bind (keeps_kernels m wanted start ks) fun _ => keeps_pure _

end Planner

end ResourceBinding
