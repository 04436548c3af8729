import ResourceBinding.Program.Module

/-!
# Types in range

In a table that was filled by `TypeTable.insert`, the components of a type stand before it
(`TypeTable.ComponentsEarlier`), so that every type of the table can be written out
(`TypeTable.ComponentsEarlier.exists_written`). A module is typed if its table is like that, and the
types in the signatures of its functions are in the table.
-/

namespace ResourceBinding

namespace TypeTable

variable {types : TypeTable}

/-- The components of each type stand before it. -/
def ComponentsEarlier (types : TypeTable) : Prop :=
  ∀ id entry, types.get? id = some entry → ∀ c ∈ entry.shape.components, (c : Nat) < id

theorem lt_size_of_get? {id : TypeId} {entry : TypeEntry} (h : types.get? id = some entry) :
    (id : Nat) < types.size :=
  (Array.getElem?_eq_some_iff.mp h).1

theorem componentsEarlier_empty : empty.ComponentsEarlier := by
  intro id entry h
  cases lt_size_of_get? h

/-! ## Entering types -/

/-- The types of the first table are in the second, in the same places. -/
def Extends (types types' : TypeTable) : Prop :=
  ∀ id entry, types.get? id = some entry → types'.get? id = some entry

theorem Extends.refl (types : TypeTable) : types.Extends types :=
  fun _ _ h => h

theorem Extends.trans {types₁ types₂ : TypeTable} (h : types.Extends types₁)
    (h' : types₁.Extends types₂) : types.Extends types₂ :=
  fun id entry hentry => h' id entry (h id entry hentry)

theorem Extends.size_le {types' : TypeTable} (h : types.Extends types') :
    types.size ≤ types'.size := by
  refine Nat.not_lt.mp fun hlt => ?_
  have hentry : types.get? types'.size = some types.entries[types'.size] :=
    Array.getElem?_eq_getElem hlt
  exact Nat.lt_irrefl _ (lt_size_of_get? (h _ _ hentry))

theorem extends_insert (types : TypeTable) (entry : TypeEntry) :
    types.Extends (types.insert entry).2 := fun _ _ h =>
  (get?_insert_of_lt entry (lt_size_of_get? h)).trans h

/-- A table that has been added to: what was entered is in it, and it is ordered if the first one
was. -/
structure Enters (types : TypeTable) (id : TypeId) (types' : TypeTable) : Prop where
  earlier : types'.ComponentsEarlier
  lt_size : (id : Nat) < types'.size
  kept : types.Extends types'

theorem Enters.size_le {id : TypeId} {types' : TypeTable} (h : types.Enters id types') :
    types.size ≤ types'.size :=
  h.kept.size_le

theorem Enters.trans {id id' : TypeId} {types₁ types₂ : TypeTable} (h : types.Enters id types₁)
    (h' : types₁.Enters id' types₂) : types.Enters id' types₂ :=
  ⟨h'.earlier, h'.lt_size, h.kept.trans h'.kept⟩

theorem ComponentsEarlier.insert (h : types.ComponentsEarlier) (entry : TypeEntry)
    (hentry : ∀ c ∈ entry.shape.components, (c : Nat) < types.size) :
    types.Enters (types.insert entry).1 (types.insert entry).2 := by
  refine ⟨?_, lt_size_of_get? (get?_insert types entry), extends_insert types entry⟩
  unfold TypeTable.insert
  split
  · exact h
  · intro id other hid
    simp only [get?, Array.getElem?_push] at hid
    split at hid
    · rename_i heq
      cases hid
      rw [heq]
      exact hentry
    · exact h id other hid

mutual

/-- **Entering a written type keeps a table in order.** -/
theorem ComponentsEarlier.intern : ∀ (written : WrittenType) {types : TypeTable},
    types.ComponentsEarlier → types.Enters (intern written types).1 (intern written types).2
  | .scalar _, _, h => h.insert _ fun _ hc => absurd hc List.not_mem_nil
  | .vector _ _, _, h => h.insert _ fun _ hc => absurd hc List.not_mem_nil
  | .array element count, types, h => by
    have he := ComponentsEarlier.intern element h
    refine he.trans (he.earlier.insert _ fun c hc => ?_)
    obtain rfl := List.mem_singleton.mp hc
    exact he.lt_size
  | .struct name members, types, h => by
    obtain ⟨hearlier, hall, hkept⟩ := ComponentsEarlier.internEach members h
    have hi := hearlier.insert ⟨name, .struct
      ((TypeTable.internEach members types).1.map fun type => ⟨none, type⟩)⟩ fun c hc => by
        simp only [Shape.components, List.map_map, List.mem_map, Function.comp_apply] at hc
        obtain ⟨type, htype, rfl⟩ := hc
        exact hall type htype
    exact ⟨hi.earlier, hi.lt_size, hkept.trans hi.kept⟩
  | .pointer space pointee, types, h => by
    have he := ComponentsEarlier.intern pointee h
    refine he.trans (he.earlier.insert _ fun c hc => ?_)
    obtain rfl := List.mem_singleton.mp hc
    exact he.lt_size
  | .sampler, _, h => h.insert _ fun _ hc => absurd hc List.not_mem_nil
  | .image _, _, h => h.insert _ fun _ hc => absurd hc List.not_mem_nil

theorem ComponentsEarlier.internEach : ∀ (written : List WrittenType) {types : TypeTable},
    types.ComponentsEarlier → (internEach written types).2.ComponentsEarlier ∧
      (∀ id ∈ (internEach written types).1, (id : Nat) < (internEach written types).2.size) ∧
      types.Extends (internEach written types).2
  | [], types, h => ⟨h, by simp [TypeTable.internEach], .refl types⟩
  | first :: rest, types, h => by
    have hf := ComponentsEarlier.intern first h
    obtain ⟨hearlier, hall, hkept⟩ := ComponentsEarlier.internEach rest hf.earlier
    refine ⟨hearlier, fun id hid => ?_, hf.kept.trans hkept⟩
    rcases List.mem_cons.mp hid with rfl | hid
    · exact Nat.lt_of_lt_of_le hf.lt_size hkept.size_le
    · exact hall id hid

end

/-! ## Writing types out -/

/-- What all elements have, a list of them has. -/
theorem exists_mapM {α β : Type} {look : α → Option β} {as : List α}
    (h : ∀ a ∈ as, ∃ b, look a = some b) : ∃ bs, as.mapM look = some bs := by
  induction as with
  | nil => exact ⟨[], rfl⟩
  | cons a as ih =>
    obtain ⟨b, hb⟩ := h a List.mem_cons_self
    obtain ⟨bs, hbs⟩ := ih fun a ha => h a (List.mem_cons_of_mem _ ha)
    exact ⟨b :: bs, by simp [List.mapM_cons, hb, hbs]⟩

/-- **Every type of a table in order can be written out.** -/
theorem ComponentsEarlier.exists_written (h : types.ComponentsEarlier) (id : Nat)
    (hid : id < types.size) : ∃ w, types.written? id = some w := by
  induction id using Nat.strongRecOn with
  | ind id ih =>
    obtain ⟨entry, hentry⟩ : ∃ entry, types.get? id = some entry :=
      ⟨_, Array.getElem?_eq_getElem hid⟩
    have hcomponent : ∀ c ∈ entry.shape.components,
        ∃ w, (if (c : Nat) < id then types.written? c else none) = some w := by
      intro c hc
      have hlt := h id entry hentry c hc
      rw [if_pos hlt]
      exact ih c hlt (Nat.lt_trans hlt hid)
    obtain ⟨name, shape⟩ := entry
    rw [written?, hentry]
    cases shape with
    | array element count =>
      obtain ⟨w, hw⟩ := hcomponent element (by simp [Shape.components])
      simp [hw]
    | struct members =>
      obtain ⟨ws, hws⟩ := exists_mapM fun (m : Member) hm =>
        hcomponent m.type (List.mem_map_of_mem hm)
      simp [hws]
    | pointer pointee space =>
      obtain ⟨w, hw⟩ := hcomponent pointee (by simp [Shape.components])
      simp [hw]
    | _ => exact ⟨_, rfl⟩

theorem lt_size_of_written? {id : TypeId} {w : WrittenType} (h : types.written? id = some w) :
    (id : Nat) < types.size := by
  rw [written?] at h
  split at h
  · cases h
  · exact lt_size_of_get? ‹_›

/-- An entry written out, where `look` writes out its components. -/
def writeEntry (look : TypeId → Option WrittenType) (entry : TypeEntry) : Option WrittenType :=
  match entry.shape with
  | .scalar s => some (.scalar s)
  | .vector size s => some (.vector size s)
  | .array element count => (look element).map (.array · count)
  | .struct members => (members.mapM fun m => look m.type).map (.struct entry.name)
  | .pointer pointee space => (look pointee).map (.pointer space)
  | .sampler => some .sampler
  | .image access => some (.image access)

theorem written?_eq_writeEntry {id : TypeId} {entry : TypeEntry} (h : types.get? id = some entry) :
    types.written? id
      = writeEntry (fun c => if (c : Nat) < id then types.written? c else none) entry := by
  rw [TypeTable.written?, h]
  rfl

theorem mapM_mono {α β : Type} {look look' : α → Option β} {as : List α}
    (hlook : ∀ a ∈ as, ∀ b, look a = some b → look' a = some b) {bs : List β}
    (h : as.mapM look = some bs) : as.mapM look' = some bs := by
  induction as generalizing bs with
  | nil => exact h
  | cons a as ih =>
    rw [List.mapM_cons] at h ⊢
    obtain ⟨b, hb, h⟩ := Option.bind_eq_some_iff.mp h
    obtain ⟨others, hothers, h⟩ := Option.bind_eq_some_iff.mp h
    exact Option.bind_eq_some_iff.mpr ⟨b, hlook a List.mem_cons_self b hb,
      Option.bind_eq_some_iff.mpr ⟨others,
        ih (fun a ha => hlook a (List.mem_cons_of_mem _ ha)) hothers, h⟩⟩

/-- What can be written out stays so where components can be written out. -/
theorem writeEntry_mono {look look' : TypeId → Option WrittenType} {entry : TypeEntry}
    (hlook : ∀ c ∈ entry.shape.components, ∀ w, look c = some w → look' c = some w)
    {w : WrittenType} (h : writeEntry look entry = some w) : writeEntry look' entry = some w := by
  obtain ⟨name, shape⟩ := entry
  cases shape with
  | array element count =>
    obtain ⟨e, he, rfl⟩ := Option.map_eq_some_iff.mp h
    exact Option.map_eq_some_iff.mpr ⟨e, hlook element List.mem_cons_self e he, rfl⟩
  | struct members =>
    obtain ⟨ws, hws, rfl⟩ := Option.map_eq_some_iff.mp h
    refine Option.map_eq_some_iff.mpr ⟨ws, mapM_mono (fun m hm => ?_) hws, rfl⟩
    exact hlook m.type (List.mem_map_of_mem hm)
  | pointer pointee space =>
    obtain ⟨e, he, rfl⟩ := Option.map_eq_some_iff.mp h
    exact Option.map_eq_some_iff.mpr ⟨e, hlook pointee List.mem_cons_self e he, rfl⟩
  | _ => exact h

/-- Types are written alike in a table that has more of them. -/
theorem Extends.written? {types' : TypeTable} (hkept : types.Extends types') {id : Nat}
    {w : WrittenType} (h : types.written? id = some w) : types'.written? id = some w := by
  induction id using Nat.strongRecOn generalizing w with
  | ind id ih =>
    obtain ⟨entry, hentry⟩ : ∃ entry, types.get? id = some entry :=
      ⟨_, Array.getElem?_eq_getElem (lt_size_of_written? h)⟩
    rw [written?_eq_writeEntry hentry] at h
    rw [written?_eq_writeEntry (hkept id entry hentry)]
    refine writeEntry_mono (fun c _ w hc => ?_) h
    split at hc
    · rename_i hlt
      rw [if_pos hlt]
      exact ih c hlt hc
    · cases hc

/-- An entry whose components can be written out is written out where it was entered. -/
theorem ComponentsEarlier.written?_insert (h : types.ComponentsEarlier) {entry : TypeEntry}
    (hentry : ∀ c ∈ entry.shape.components, (c : Nat) < types.size) {w : WrittenType}
    (hw : writeEntry types.written? entry = some w) :
    (types.insert entry).2.written? (types.insert entry).1 = some w := by
  have hget := get?_insert types entry
  rw [written?_eq_writeEntry hget]
  refine writeEntry_mono (fun c hc w' hw' => ?_) hw
  rw [if_pos ((h.insert entry hentry).earlier _ entry hget c hc)]
  exact (extends_insert types entry).written? hw'

mutual

/-- **What was entered is written out as it was.** -/
theorem ComponentsEarlier.written?_intern : ∀ (written : WrittenType) {types : TypeTable},
    types.ComponentsEarlier →
    (TypeTable.intern written types).2.written? (TypeTable.intern written types).1 = some written
  | .scalar _, _, h => h.written?_insert (fun _ hc => absurd hc List.not_mem_nil) rfl
  | .vector _ _, _, h => h.written?_insert (fun _ hc => absurd hc List.not_mem_nil) rfl
  | .array element count, types, h => by
    have he := ComponentsEarlier.intern element h
    refine he.earlier.written?_insert (fun c hc => ?_)
      (Option.map_eq_some_iff.mpr ⟨element, ComponentsEarlier.written?_intern element h, rfl⟩)
    obtain rfl := List.mem_singleton.mp hc
    exact he.lt_size
  | .struct name members, types, h => by
    obtain ⟨hearlier, hall, -⟩ := ComponentsEarlier.internEach members h
    refine hearlier.written?_insert (fun c hc => ?_) (Option.map_eq_some_iff.mpr ⟨members, ?_, rfl⟩)
    · simp only [Shape.components, List.map_map, List.mem_map, Function.comp_apply] at hc
      obtain ⟨type, htype, rfl⟩ := hc
      exact hall type htype
    · rw [List.mapM_map]
      exact ComponentsEarlier.written?_internEach members h
  | .pointer space pointee, types, h => by
    have he := ComponentsEarlier.intern pointee h
    refine he.earlier.written?_insert (fun c hc => ?_)
      (Option.map_eq_some_iff.mpr ⟨pointee, ComponentsEarlier.written?_intern pointee h, rfl⟩)
    obtain rfl := List.mem_singleton.mp hc
    exact he.lt_size
  | .sampler, _, h => h.written?_insert (fun _ hc => absurd hc List.not_mem_nil) rfl
  | .image _, _, h => h.written?_insert (fun _ hc => absurd hc List.not_mem_nil) rfl

theorem ComponentsEarlier.written?_internEach : ∀ (written : List WrittenType)
    {types : TypeTable}, types.ComponentsEarlier →
    (TypeTable.internEach written types).1.mapM (TypeTable.internEach written types).2.written?
      = some written
  | [], _, _ => rfl
  | first :: rest, types, h => by
    have hf := ComponentsEarlier.intern first h
    obtain ⟨-, -, hkept⟩ := ComponentsEarlier.internEach rest hf.earlier
    rw [show (TypeTable.internEach (first :: rest) types).1
        = (TypeTable.intern first types).1 ::
          (TypeTable.internEach rest (TypeTable.intern first types).2).1 from rfl,
      List.mapM_cons]
    exact Option.bind_eq_some_iff.mpr ⟨first,
      hkept.written? (ComponentsEarlier.written?_intern first h),
      Option.bind_eq_some_iff.mpr ⟨rest, ComponentsEarlier.written?_internEach rest hf.earlier, rfl⟩⟩

end

end TypeTable

/-! ## Signatures -/

/-- The types in the signature are among the first `types` ones. -/
structure Function.Typed (types : Nat) (f : Function) : Prop where
  param_type : ∀ p ∈ f.params, (p.type : Nat) < types
  result_type : ∀ type, f.result = some type → (type : Nat) < types

/-- The table of types is in order, and the types in signatures are in it. -/
structure Module.Typed (m : Module) : Prop where
  earlier : m.types.ComponentsEarlier
  functions : ∀ f ∈ m.functions, f.Typed m.types.size

theorem Function.Typed.mono {types types' : Nat} {f : Function} (h : f.Typed types)
    (hle : types ≤ types') : f.Typed types' :=
  ⟨fun p hp => Nat.lt_of_lt_of_le (h.param_type p hp) hle,
    fun type ht => Nat.lt_of_lt_of_le (h.result_type type ht) hle⟩

/-- What declares a function has the types that it is declared with. -/
theorem Function.typed_declaration {name : String} {params : List TypeId} {result : Option TypeId}
    {types : Nat} (hparams : ∀ type ∈ params, (type : Nat) < types)
    (hresult : ∀ type, result = some type → (type : Nat) < types) (isPure : Bool) :
    ({ Function.declaration name params result with isPure } : Function).Typed types := by
  refine ⟨fun p hp => ?_, hresult⟩
  obtain ⟨type, htype, rfl⟩ := List.mem_map.mp hp
  exact hparams type htype

namespace Module

variable {m : Module}

/-- Entering a shape, or a type with a name, keeps a module typed. -/
theorem Typed.insert (hm : m.Typed) (entry : TypeEntry)
    (hentry : ∀ c ∈ entry.shape.components, (c : Nat) < m.types.size) :
    ({ m with types := (m.types.insert entry).2 } : Module).Typed ∧
      m.types.Enters (m.types.insert entry).1 (m.types.insert entry).2 := by
  have h := hm.earlier.insert entry hentry
  exact ⟨⟨h.earlier, fun f hf => (hm.functions f hf).mono h.size_le⟩, h⟩

theorem Typed.push (hm : m.Typed) {f : Function} (hf : f.Typed m.types.size) :
    (m.push f).2.Typed := by
  refine ⟨hm.earlier, fun g hg => ?_⟩
  rcases Array.mem_push.mp hg with hold | rfl
  · exact hm.functions g hold
  · exact hf

end Module

end ResourceBinding
