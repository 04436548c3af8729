import ResourceBinding.Proofs.Program.Types
import ResourceBinding.Proofs.Run

/-!
# Types with all names

Written out, types show few of their names. A `TypeTree` is a type with its components in place and
with all names. Every type of a table in order has one (`TypeTable.ComponentsEarlier.exists_tree`).

A table compares entries, which name their components by position. That this is to compare trees
comes from its order, in which components stand before what is built from them
(`TypeTable.tree?_injective`).
-/

namespace ResourceBinding

/-! ## Types with all names -/

/-- The shape with a zero in place of each position. -/
def Shape.bare : Shape → Shape
  | .array _ count => .array 0 count
  | .struct members => .struct (members.map fun m => ⟨m.name, 0⟩)
  | .pointer _ space => .pointer 0 space
  | .scalar s => .scalar s
  | .vector size s => .vector size s
  | .sampler => .sampler
  | .image access => .image access

/-- The entry with a zero in place of each position. It has the name of the type, and those of
members. -/
def TypeEntry.bare (entry : TypeEntry) : TypeEntry :=
  ⟨entry.name, entry.shape.bare⟩

/-- A type with its components in place: its bare entry, and its components in order. -/
inductive TypeTree where
  | node (head : TypeEntry) (components : List TypeTree)

/-- The tree of an entry, where `look` has those of its components. -/
def TypeEntry.tree? (look : TypeId → Option TypeTree) (entry : TypeEntry) : Option TypeTree :=
  (entry.shape.components.mapM look).map (.node entry.bare)

/-- What has a tree has it also where more types do. -/
theorem TypeEntry.tree?_mono {look look' : TypeId → Option TypeTree}
    {entry : TypeEntry} {tree : TypeTree}
    (hlook : ∀ c ∈ entry.shape.components, ∀ w, look c = some w → look' c = some w)
    (h : entry.tree? look = some tree) : entry.tree? look' = some tree := by
  obtain ⟨trees, htrees, rfl⟩ := Option.map_eq_some_iff.mp h
  exact Option.map_eq_some_iff.mpr ⟨trees, TypeTable.mapM_mono hlook htrees, rfl⟩

/-- The shape with the given positions in place of its own. -/
def Shape.withComponents (components : List TypeId) : Shape → Shape
  | .array _ count => .array (components.headD 0) count
  | .struct members => .struct (List.zipWith (fun m c => ⟨m.name, c⟩) members components)
  | .pointer _ space => .pointer (components.headD 0) space
  | shape => shape

theorem Shape.bare_withComponents (shape : Shape) :
    shape.bare.withComponents shape.components = shape := by
  cases shape with
  | struct members =>
    simp only [bare, components, withComponents, List.zipWith_map, List.zipWith_self]
    exact congrArg Shape.struct (List.map_id members)
  | _ => rfl

/-- A shape is told by what it is without its components, and by these. -/
theorem Shape.eq_of_bare {shape shape' : Shape} (hbare : shape.bare = shape'.bare)
    (hcomponents : shape.components = shape'.components) : shape = shape' := by
  rw [← shape.bare_withComponents, hbare, hcomponents, bare_withComponents]

namespace TypeTable

/-- The tree of the type at a position; `none` if the position, or that of a component, has no entry
before it. -/
def tree? (types : TypeTable) (id : TypeId) : Option TypeTree :=
  let component (c : TypeId) : Option TypeTree := if c < id then types.tree? c else none
  match types.get? id with
  | none => none
  | some entry => entry.tree? component
termination_by id

variable {types types' : TypeTable} {id id' : Nat} {entry : TypeEntry} {tree : TypeTree}

theorem tree?_eq_of_get? (h : types.get? id = some entry) :
    types.tree? id = entry.tree? (fun c => if (c : Nat) < id then types.tree? c else none) := by
  rw [tree?, h]

theorem lt_size_of_tree? (h : types.tree? id = some tree) : id < types.size := by
  rw [tree?] at h
  split at h
  · cases h
  · exact lt_size_of_get? ‹_›

theorem exists_get?_of_tree? (h : types.tree? id = some tree) :
    ∃ entry, types.get? id = some entry :=
  ⟨_, Array.getElem?_eq_getElem (lt_size_of_tree? h)⟩

/-- Types have the same trees in a table that has more of them. -/
theorem Extends.tree? (hkept : types.Extends types') (h : types.tree? id = some tree) :
    types'.tree? id = some tree := by
  induction id using Nat.strongRecOn generalizing tree with
  | ind id ih =>
    obtain ⟨entry, hentry⟩ := exists_get?_of_tree? h
    rw [tree?_eq_of_get? hentry] at h
    rw [tree?_eq_of_get? (hkept id entry hentry)]
    refine TypeEntry.tree?_mono (fun c _ w hc => ?_) h
    split at hc
    · rw [if_pos ‹_›]
      exact ih c ‹_› hc
    · cases hc

/-- **Every type of a table in order has a tree.** -/
theorem ComponentsEarlier.exists_tree (h : types.ComponentsEarlier) (id : Nat)
    (hid : id < types.size) : ∃ tree, types.tree? id = some tree := by
  induction id using Nat.strongRecOn with
  | ind id ih =>
    obtain ⟨entry, hentry⟩ : ∃ entry, types.get? id = some entry :=
      ⟨_, Array.getElem?_eq_getElem hid⟩
    have hcomponents : ∀ c ∈ entry.shape.components,
        ∃ w, (if (c : Nat) < id then types.tree? c else none) = some w := by
      intro c hc
      have hlt := h id entry hentry c hc
      rw [if_pos hlt]
      exact ih c hlt (Nat.lt_trans hlt hid)
    obtain ⟨trees, htrees⟩ := exists_mapM hcomponents
    exact ⟨_, (tree?_eq_of_get? hentry).trans (Option.map_eq_some_iff.mpr ⟨trees, htrees, rfl⟩)⟩

/-- **No two types of a table have the same tree**, if no entry is in it twice. -/
theorem tree?_injective (hdistinct : ∀ (id id' : TypeId) entry,
      types.get? id = some entry → types.get? id' = some entry → id = id')
    (hid : types.tree? id = some tree) (hid' : types.tree? id' = some tree) : id = id' := by
  induction id using Nat.strongRecOn generalizing id' tree with
  | ind id ih =>
    obtain ⟨entry, hentry⟩ := exists_get?_of_tree? hid
    obtain ⟨entry', hentry'⟩ := exists_get?_of_tree? hid'
    rw [tree?_eq_of_get? hentry] at hid
    rw [tree?_eq_of_get? hentry'] at hid'
    obtain ⟨trees, htrees, rfl⟩ := Option.map_eq_some_iff.mp hid
    obtain ⟨trees', htrees', heq⟩ := Option.map_eq_some_iff.mp hid'
    obtain ⟨hbare, rfl⟩ := TypeTree.node.inj heq
    have hcomponents : entry.shape.components = entry'.shape.components := by
      have hsame : List.Forall₂ (· = ·) entry.shape.components entry'.shape.components := by
        refine forall₂_of_common (forall₂_of_option_mapM htrees) (forall₂_of_option_mapM htrees')
          fun c _ c' _ w hc hc' => ?_
        split at hc
        · split at hc'
          · exact ih c ‹_› hc hc'
          · cases hc'
        · cases hc
      rwa [List.forall₂_eq_eq_eq] at hsame
    have hsame : entry = entry' := by
      obtain ⟨name, shape⟩ := entry
      obtain ⟨name', shape'⟩ := entry'
      obtain ⟨rfl, hshape⟩ := TypeEntry.mk.inj hbare
      exact congrArg (TypeEntry.mk _) (Shape.eq_of_bare hshape.symm hcomponents)
    exact hdistinct id id' entry hentry (hsame ▸ hentry')

/-- An entry that is built from types of the table stands for its tree where it is inserted. -/
theorem ComponentsEarlier.exists_tree?_insert (h : types.ComponentsEarlier)
    (hentry : ∀ c ∈ entry.shape.components, (c : Nat) < types.size) :
    ∃ tree, entry.tree? types.tree? = some tree ∧
      (types.insert entry).2.tree? (types.insert entry).1 = some tree := by
  obtain ⟨trees, htrees⟩ := exists_mapM fun c hc => h.exists_tree c (hentry c hc)
  have htree : entry.tree? types.tree? = some (.node entry.bare trees) :=
    Option.map_eq_some_iff.mpr ⟨trees, htrees, rfl⟩
  refine ⟨_, htree, ?_⟩
  have hget := get?_insert types entry
  rw [tree?_eq_of_get? hget]
  refine TypeEntry.tree?_mono (fun c hc w hw => ?_) htree
  rw [if_pos ((h.insert entry hentry).earlier _ entry hget c hc)]
  exact (extends_insert types entry).tree? hw

end TypeTable

end ResourceBinding
