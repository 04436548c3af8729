import ResourceBinding.Proofs.Program.Types
import ResourceBinding.Proofs.Run

/-!
# Types are told apart by how they are written

A table that has only been filled by entering written types has no entry twice, and each of its
entries shows all names that it has (`TypeTable.Canonical`). So no two of its types are written
alike (`TypeTable.Canonical.written?_injective`), and a type that it has is found when it is entered
again (`TypeTable.Canonical.intern_of_written?`).
-/

namespace ResourceBinding

/-- All names in the entry are shown where it is written out. A structure shows its own name, but
none of its members; no other type shows a name. -/
def TypeEntry.IsShown (entry : TypeEntry) : Prop :=
  match entry.shape with
  | .struct members => ∀ m ∈ members, m.name = none
  | _ => entry.name = none

/-- The name that a written type shows. -/
def WrittenType.title : WrittenType → Option String
  | .struct name _ => name
  | _ => none

namespace TypeTable

/-- No entry is in the table twice, and each shows all names that it has. -/
structure Canonical (types : TypeTable) : Prop where
  distinct : ∀ (id id' : TypeId) entry, types.get? id = some entry → types.get? id' = some entry →
    id = id'
  shown : ∀ id entry, types.get? id = some entry → entry.IsShown

variable {types : TypeTable}

/-! ## Entering types -/

theorem canonical_empty : empty.Canonical where
  distinct _ _ _ h := by cases lt_size_of_get? h
  shown _ _ h := by cases lt_size_of_get? h

/-- An entry is added only if it is in no place yet. -/
theorem Canonical.insert (h : types.Canonical) {entry : TypeEntry} (hentry : entry.IsShown) :
    (types.insert entry).2.Canonical := by
  unfold TypeTable.insert
  split
  · exact h
  · rename_i hnone
    have hnew : ∀ id, types.get? id ≠ some entry := fun id hid =>
      Array.idxOf?_eq_none_iff.mp hnone (Array.mem_of_getElem? hid)
    have hget : ∀ (id : TypeId) other,
        (⟨types.entries.push entry⟩ : TypeTable).get? id = some other →
        (id = types.size ∧ other = entry) ∨ types.get? id = some other := by
      intro id other hid
      simp only [get?, Array.getElem?_push] at hid
      split at hid
      · exact .inl ⟨‹_›, (Option.some.inj hid).symm⟩
      · exact .inr hid
    refine ⟨fun id id' other hid hid' => ?_, fun id other hid => ?_⟩
    · rcases hget id other hid with ⟨rfl, rfl⟩ | hold
      · rcases hget id' other hid' with ⟨rfl, -⟩ | hold'
        · rfl
        · exact absurd hold' (hnew id')
      · rcases hget id' other hid' with ⟨rfl, rfl⟩ | hold'
        · exact absurd hold (hnew id)
        · exact h.distinct id id' other hold hold'
    · rcases hget id other hid with ⟨-, rfl⟩ | hold
      · exact hentry
      · exact h.shown id other hold

mutual

/-- **Entering a written type enters nothing twice.** -/
theorem Canonical.intern : ∀ (written : WrittenType) {types : TypeTable}, types.Canonical →
    (TypeTable.intern written types).2.Canonical
  | .scalar _, _, h => h.insert rfl
  | .vector _ _, _, h => h.insert rfl
  | .array element _, _, h => (Canonical.intern element h).insert rfl
  | .struct _ members, _, h => (Canonical.internEach members h).insert fun m hm => by
    obtain ⟨type, -, rfl⟩ := List.mem_map.mp hm
    rfl
  | .pointer _ pointee, _, h => (Canonical.intern pointee h).insert rfl
  | .sampler, _, h => h.insert rfl
  | .image _, _, h => h.insert rfl

theorem Canonical.internEach : ∀ (written : List WrittenType) {types : TypeTable},
    types.Canonical → (TypeTable.internEach written types).2.Canonical
  | [], _, h => h
  | first :: rest, _, h => Canonical.internEach rest (Canonical.intern first h)

end

/-! ## Writing types out -/

section Injective

variable {look look' : TypeId → Option WrittenType}

/-- The shape is one that is written so, where `look` writes out its components. -/
def Shows (look : TypeId → Option WrittenType) (shape : Shape) : WrittenType → Prop
  | .scalar s => shape = .scalar s
  | .vector size s => shape = .vector size s
  | .array element count => ∃ c, look c = some element ∧ shape = .array c count
  | .struct _ ws => ∃ members : List Member,
    List.Forall₂ (fun m w => look m.type = some w) members ws ∧ shape = .struct members
  | .pointer space pointee => ∃ c, look c = some pointee ∧ shape = .pointer c space
  | .sampler => shape = .sampler
  | .image access => shape = .image access

theorem shows_of_writeEntry {entry : TypeEntry} {w : WrittenType}
    (h : writeEntry look entry = some w) : Shows look entry.shape w := by
  obtain ⟨name, shape⟩ := entry
  cases shape with
  | array element count =>
    obtain ⟨e, he, rfl⟩ := Option.map_eq_some_iff.mp h
    exact ⟨element, he, rfl⟩
  | struct members =>
    obtain ⟨ws, hws, rfl⟩ := Option.map_eq_some_iff.mp h
    exact ⟨members, forall₂_of_option_mapM hws, rfl⟩
  | pointer pointee space =>
    obtain ⟨e, he, rfl⟩ := Option.map_eq_some_iff.mp h
    exact ⟨pointee, he, rfl⟩
  | _ =>
    cases h
    rfl

/-- The name of an entry shows, if it is to show at all. -/
theorem name_of_writeEntry {entry : TypeEntry} {w : WrittenType} (hshown : entry.IsShown)
    (h : writeEntry look entry = some w) :
    entry.name = w.title := by
  obtain ⟨name, shape⟩ := entry
  cases shape with
  | array element count =>
    obtain ⟨e, he, rfl⟩ := Option.map_eq_some_iff.mp h
    exact hshown
  | struct members =>
    obtain ⟨ws, hws, rfl⟩ := Option.map_eq_some_iff.mp h
    rfl
  | pointer pointee space =>
    obtain ⟨e, he, rfl⟩ := Option.map_eq_some_iff.mp h
    exact hshown
  | _ =>
    cases h
    exact hshown

/-- Members without names are told apart by their types. -/
theorem members_eq (hlook : ∀ c c' w, look c = some w → look' c' = some w → c = c')
    {members members' : List Member} {ws : List WrittenType}
    (hname : ∀ m ∈ members, m.name = none) (hname' : ∀ m ∈ members', m.name = none)
    (h : List.Forall₂ (fun m w => look m.type = some w) members ws)
    (h' : List.Forall₂ (fun m w => look' m.type = some w) members' ws) : members = members' := by
  induction h generalizing members' with
  | nil =>
    cases h'
    rfl
  | @cons m w members ws hw hws ih =>
    cases h' with
    | @cons m' _ members' _ hw' hws' =>
      have hfirst : m = m' := by
        obtain ⟨name, type⟩ := m
        obtain ⟨name', type'⟩ := m'
        obtain rfl : type = type' := hlook _ _ _ hw hw'
        obtain rfl : name = none := hname _ List.mem_cons_self
        obtain rfl : name' = none := hname' _ List.mem_cons_self
        rfl
      rw [hfirst, ih (fun m hm => hname m (List.mem_cons_of_mem _ hm))
        (fun m hm => hname' m (List.mem_cons_of_mem _ hm)) hws']

/-- **Entries that show their names are told apart by how they are written**, where types are that
stand before them. -/
theorem writeEntry_injective (hlook : ∀ c c' w, look c = some w → look' c' = some w → c = c')
    {entry entry' : TypeEntry} (hshown : entry.IsShown) (hshown' : entry'.IsShown) {w : WrittenType}
    (h : writeEntry look entry = some w) (h' : writeEntry look' entry' = some w) :
    entry = entry' := by
  have hname : entry.name = entry'.name :=
    (name_of_writeEntry hshown h).trans (name_of_writeEntry hshown' h').symm
  have hshape := shows_of_writeEntry h
  have hshape' := shows_of_writeEntry h'
  obtain ⟨name, shape⟩ := entry
  obtain ⟨name', shape'⟩ := entry'
  obtain rfl : name = name' := hname
  refine congrArg (TypeEntry.mk name) ?_
  cases w with
  | array element count =>
    obtain ⟨c, hc, rfl⟩ := hshape
    obtain ⟨c', hc', rfl⟩ := hshape'
    rw [hlook c c' element hc hc']
  | struct title ws =>
    obtain ⟨members, hmembers, rfl⟩ := hshape
    obtain ⟨members', hmembers', rfl⟩ := hshape'
    rw [members_eq hlook hshown hshown' hmembers hmembers']
  | pointer space pointee =>
    obtain ⟨c, hc, rfl⟩ := hshape
    obtain ⟨c', hc', rfl⟩ := hshape'
    rw [hlook c c' pointee hc hc']
  | _ => exact Eq.trans hshape hshape'.symm

end Injective

/-- **No two types of the table are written alike.** -/
theorem Canonical.written?_injective (h : types.Canonical) {w : WrittenType} {id id' : Nat}
    (hid : types.written? id = some w) (hid' : types.written? id' = some w) : id = id' := by
  induction id using Nat.strongRecOn generalizing id' w with
  | ind id ih =>
    obtain ⟨entry, hentry⟩ : ∃ entry, types.get? id = some entry :=
      ⟨_, Array.getElem?_eq_getElem (lt_size_of_written? hid)⟩
    obtain ⟨entry', hentry'⟩ : ∃ entry, types.get? id' = some entry :=
      ⟨_, Array.getElem?_eq_getElem (lt_size_of_written? hid')⟩
    rw [written?_eq_writeEntry hentry] at hid
    rw [written?_eq_writeEntry hentry'] at hid'
    have hcomponents : ∀ (c c' : TypeId) w,
        (if (c : Nat) < id then types.written? c else none) = some w →
        (if (c' : Nat) < id' then types.written? c' else none) = some w → c = c' := by
      intro c c' w hc hc'
      split at hc
      · split at hc'
        · exact ih c ‹_› hc hc'
        · cases hc'
      · cases hc
    obtain rfl := writeEntry_injective hcomponents (h.shown id entry hentry)
      (h.shown id' entry' hentry') hid hid'
    exact h.distinct id id' entry hentry hentry'

/-! ## Finding types again -/

/-- An entry of the table is found where it stands. -/
theorem Canonical.insert_of_get? (h : types.Canonical) {id : TypeId} {entry : TypeEntry}
    (hget : types.get? id = some entry) : types.insert entry = (id, types) := by
  unfold TypeTable.insert
  split
  · rename_i found hfind
    rw [h.distinct found id entry (get?_find? hfind) hget]
  · rename_i hnone
    exact absurd (Array.mem_of_getElem? hget) (Array.idxOf?_eq_none_iff.mp hnone)

/-- The entry of a type has the name that the type shows, and a shape that is written so. -/
theorem Canonical.entry_of_written? (h : types.Canonical) {id : Nat} {w : WrittenType}
    (hw : types.written? id = some w) :
    ∃ shape, types.get? id = some ⟨w.title, shape⟩ ∧ Shows types.written? shape w := by
  obtain ⟨entry, hentry⟩ : ∃ entry, types.get? id = some entry :=
    ⟨_, Array.getElem?_eq_getElem (lt_size_of_written? hw)⟩
  rw [written?_eq_writeEntry hentry] at hw
  refine ⟨entry.shape, ?_, shows_of_writeEntry (writeEntry_mono (fun c _ w' hc => ?_) hw)⟩
  · rw [hentry, ← name_of_writeEntry (h.shown id entry hentry) hw]
  · split at hc
    · exact hc
    · cases hc

/-- Members that show their names have none, and are no more than their types. -/
theorem Canonical.map_type_members (h : types.Canonical) {id : TypeId} {name : Option String}
    {members : List Member} (hget : types.get? id = some ⟨name, .struct members⟩) :
    (members.map Member.type).map (fun type => ⟨none, type⟩) = members := by
  rw [List.map_map]
  refine (List.map_congr_left fun m hm => ?_).trans (List.map_id members)
  obtain ⟨name, type⟩ := m
  obtain rfl : name = none := h.shown id _ hget _ hm
  rfl

mutual

/-- **Entering a type that the table has finds it**, and leaves the table as it is. -/
theorem Canonical.intern_of_written? : ∀ (written : WrittenType) {types : TypeTable} {id : Nat},
    types.Canonical → types.written? id = some written →
    TypeTable.intern written types = (id, types)
  | .scalar s, types, id, h, hw => by
    obtain ⟨_, hget, rfl⟩ := h.entry_of_written? hw
    exact h.insert_of_get? hget
  | .vector size s, types, id, h, hw => by
    obtain ⟨_, hget, rfl⟩ := h.entry_of_written? hw
    exact h.insert_of_get? hget
  | .array element count, types, id, h, hw => by
    obtain ⟨_, hget, c, hc, rfl⟩ := h.entry_of_written? hw
    rw [TypeTable.intern, Canonical.intern_of_written? element h hc]
    exact h.insert_of_get? hget
  | .struct name members, types, id, h, hw => by
    obtain ⟨_, hget, ms, hms, rfl⟩ := h.entry_of_written? hw
    rw [TypeTable.intern, Canonical.internEach_of_written? members h
      (List.forall₂_map_left_iff.mpr hms)]
    refine h.insert_of_get? ?_
    rw [h.map_type_members hget]
    exact hget
  | .pointer space pointee, types, id, h, hw => by
    obtain ⟨_, hget, c, hc, rfl⟩ := h.entry_of_written? hw
    rw [TypeTable.intern, Canonical.intern_of_written? pointee h hc]
    exact h.insert_of_get? hget
  | .sampler, types, id, h, hw => by
    obtain ⟨_, hget, rfl⟩ := h.entry_of_written? hw
    exact h.insert_of_get? hget
  | .image access, types, id, h, hw => by
    obtain ⟨_, hget, rfl⟩ := h.entry_of_written? hw
    exact h.insert_of_get? hget

theorem Canonical.internEach_of_written? : ∀ (written : List WrittenType) {types : TypeTable}
    {ids : List TypeId}, types.Canonical →
    List.Forall₂ (fun id w => types.written? id = some w) ids written →
    TypeTable.internEach written types = (ids, types)
  | [], types, _, _, .nil => rfl
  | first :: rest, types, _, h, .cons hfirst hrest => by
    rw [TypeTable.internEach, Canonical.intern_of_written? first h hfirst]
    dsimp only
    rw [Canonical.internEach_of_written? rest h hrest]

end

end TypeTable

end ResourceBinding
