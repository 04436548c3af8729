import ResourceBinding.Types.Basic

/-!
# The table of types

Each type of a module has one entry, so equal types have equal positions. Entries are only ever
added at the end: a position that was once handed out keeps its entry (`get?_insert_of_lt`), and
inserting an entry finds it (`get?_insert`).
-/

namespace ResourceBinding

/-- The types of a module, in the order in which they were first used. -/
structure TypeTable where
  entries : Array TypeEntry
deriving DecidableEq, Repr

namespace TypeTable

/-- The table without entries. -/
def empty : TypeTable :=
  ⟨#[]⟩

/-- The number of entries, and the position of the next one. -/
def size (types : TypeTable) : Nat :=
  types.entries.size

/-- The entry at a position. -/
def get? (types : TypeTable) (id : TypeId) : Option TypeEntry :=
  types.entries[id]?

/-- The position of an entry. -/
def find? (types : TypeTable) (entry : TypeEntry) : Option TypeId :=
  types.entries.idxOf? entry

/-- The position of an entry, which is added if it is new. -/
def insert (types : TypeTable) (entry : TypeEntry) : TypeId × TypeTable :=
  match types.find? entry with
  | some id => (id, types)
  | none => (types.size, ⟨types.entries.push entry⟩)

/-- The position of a shape without a name. -/
def insertShape (types : TypeTable) (shape : Shape) : TypeId × TypeTable :=
  types.insert (.anonymous shape)

/-! ## Positions keep their entries -/

/-- An entry stands where it is found. -/
theorem get?_find? {types : TypeTable} {entry : TypeEntry} {id : TypeId}
    (h : types.find? entry = some id) : types.get? id = some entry := by
  rw [find?, Array.idxOf?_eq_map_finIdxOf?_val] at h
  obtain ⟨i, hi, rfl⟩ := Option.map_eq_some_iff.1 h
  have := (Array.finIdxOf?_eq_some_iff.1 hi).1
  simp [get?, ← this]

/-- **Inserting an entry finds it.** -/
@[simp]
theorem get?_insert (types : TypeTable) (entry : TypeEntry) :
    (types.insert entry).2.get? (types.insert entry).1 = some entry := by
  unfold insert
  split
  · rename_i id h
    exact get?_find? h
  · simp [get?, size]

/-- **Inserting leaves the entries that are there.** -/
theorem get?_insert_of_lt {types : TypeTable} (entry : TypeEntry) {id : TypeId}
    (h : id < types.size) : (types.insert entry).2.get? id = types.get? id := by
  unfold insert
  split
  · rfl
  · simp only [get?]
    rw [Array.getElem?_push_lt h, Array.getElem?_eq_getElem h]

end TypeTable

end ResourceBinding
