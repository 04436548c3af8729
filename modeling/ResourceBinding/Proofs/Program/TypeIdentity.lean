import Mathlib.Data.List.Induction
import ResourceBinding.Proofs.Interner
import ResourceBinding.Proofs.Program.TypeTree

/-!
# Positions in the table tell types apart

A table that is filled entry by entry is the order that an interner keeps
(`TypeTable.KeptBy.insertAll`). Where each entry is built from types that were inserted before it,
two insertions return the same position exactly if the trees of what they insert are the same, and a
position stands for its tree for good (`TypeTable.filled_identifiesTypes`).
-/

namespace ResourceBinding

namespace TypeTable

variable {types : TypeTable} {entry : TypeEntry} {entries : List TypeEntry} {k : Nat}

/-! ## Filling a table -/

/-- Inserts entries one after another. -/
def insertAll (types : TypeTable) : List TypeEntry → List TypeId × TypeTable
  | [] => ([], types)
  | entry :: rest =>
    let (id, types) := types.insert entry
    let (ids, types) := types.insertAll rest
    (id :: ids, types)

theorem insertAll_cons (types : TypeTable) (entry : TypeEntry) (rest : List TypeEntry) :
    types.insertAll (entry :: rest)
      = ((types.insert entry).1 :: ((types.insert entry).2.insertAll rest).1,
        ((types.insert entry).2.insertAll rest).2) :=
  rfl

theorem insertAll_append (types : TypeTable) (entries others : List TypeEntry) :
    types.insertAll (entries ++ others)
      = ((types.insertAll entries).1 ++ ((types.insertAll entries).2.insertAll others).1,
        ((types.insertAll entries).2.insertAll others).2) := by
  induction entries generalizing types with
  | nil => rfl
  | cons entry entries ih =>
    rw [List.cons_append, insertAll_cons, ih, insertAll_cons, List.cons_append]

theorem extends_insertAll (types : TypeTable) (entries : List TypeEntry) :
    types.Extends (types.insertAll entries).2 := by
  induction entries generalizing types with
  | nil => exact .refl types
  | cons entry entries ih => exact (extends_insert types entry).trans (ih _)

/-- The position that the entry with number `k` gets. -/
theorem getElem?_insertAll {entries : List TypeEntry} {k : Nat} (h : entries[k]? = some entry) :
    (types.insertAll entries).1[k]?
      = some ((types.insertAll (entries.take k)).2.insert entry).1 := by
  induction entries generalizing types k with
  | nil => cases h
  | cons first entries ih =>
    cases k with
    | zero =>
      cases h
      rfl
    | succ k => exact ih h

/-- The table is the order that the interner keeps. -/
structure KeptBy (types : TypeTable) (t : Interner TypeEntry) : Prop where
  agrees : t.Agrees
  entries : types.entries = t.order

section KeptBy

variable {t : Interner TypeEntry}

theorem keptBy_empty : empty.KeptBy .empty :=
  ⟨Interner.agrees_empty, rfl⟩

theorem KeptBy.find?_eq_number? (h : types.KeptBy t) (entry : TypeEntry) :
    types.find? entry = t.number? entry := by
  rw [find?, h.entries, h.agrees.number?_eq_idxOf?]

theorem KeptBy.insert (h : types.KeptBy t) (entry : TypeEntry) :
    (types.insert entry).1 = (t.insert entry).1.1 ∧
      (types.insert entry).2.KeptBy (t.insert entry).2 := by
  have hinsert : (types.insert entry).1 = (t.insert entry).1.1 ∧
      (types.insert entry).2.entries = (t.insert entry).2.order := by
    rw [TypeTable.insert, Interner.insert, h.find?_eq_number?, size, h.entries]
    cases t.number? entry with
    | some id => exact ⟨rfl, h.entries⟩
    | none => exact ⟨rfl, rfl⟩
  exact ⟨hinsert.1, h.agrees.insert entry, hinsert.2⟩

theorem KeptBy.insertAll (h : types.KeptBy t) (entries : List TypeEntry) :
    (types.insertAll entries).1 = (t.insertAll entries).1.map Prod.fst ∧
      (types.insertAll entries).2.KeptBy (t.insertAll entries).2 := by
  induction entries generalizing types t with
  | nil => exact ⟨rfl, h⟩
  | cons entry entries ih =>
    obtain ⟨hid, hkept⟩ := h.insert entry
    obtain ⟨hids, hrest⟩ := ih hkept
    refine ⟨?_, hrest⟩
    rw [insertAll_cons, Interner.insertAll_cons, List.map_cons, ← hid, ← hids]

/-- No entry is twice in a table that is kept so. -/
theorem KeptBy.distinct (h : types.KeptBy t) (id id' : TypeId) (entry : TypeEntry)
    (hid : types.get? id = some entry) (hid' : types.get? id' = some entry) : id = id' := by
  rw [get?, h.entries] at hid hid'
  exact Option.some.inj (((h.agrees entry id).mpr hid).symm.trans ((h.agrees entry id').mpr hid'))

end KeptBy

/-- The table that the entries fill. -/
def filled (entries : List TypeEntry) : TypeTable :=
  (empty.insertAll entries).2

/-- The positions that they get, in order. -/
def positions (entries : List TypeEntry) : List TypeId :=
  (empty.insertAll entries).1

/-- Each entry is built from types whose positions were returned before it. -/
def Scoped (entries : List TypeEntry) : Prop :=
  ∀ k entry, entries[k]? = some entry →
    ∀ c ∈ entry.shape.components, c ∈ positions (entries.take k)

/-! ### The table after some of the entries -/

theorem filled_append (entries others : List TypeEntry) :
    filled (entries ++ others) = ((filled entries).insertAll others).2 := by
  rw [filled, insertAll_append, filled]

theorem filled_take_succ (h : entries[k]? = some entry) :
    filled (entries.take (k + 1)) = ((filled (entries.take k)).insert entry).2 := by
  rw [List.take_add_one, h, filled_append]
  rfl

theorem keptBy_filled (entries : List TypeEntry) :
    (filled entries).KeptBy (Interner.empty.insertAll entries).2 :=
  (keptBy_empty.insertAll entries).2

theorem scoped_iff : Scoped entries ↔ ∀ k (hk : k < entries.length),
    ∀ c ∈ entries[k].shape.components, c ∈ positions (entries.take k) := by
  constructor
  · exact fun h k hk => h k entries[k] (List.getElem?_eq_getElem hk)
  · intro h k entry hentry
    obtain ⟨hk, rfl⟩ := List.getElem?_eq_some_iff.mp hentry
    exact h k hk

instance (entries : List TypeEntry) : Decidable (Scoped entries) :=
  decidable_of_iff _ scoped_iff.symm

theorem lt_size_of_mem_insertAll {id : TypeId} (h : id ∈ (types.insertAll entries).1) :
    (id : Nat) < (types.insertAll entries).2.size := by
  induction entries generalizing types with
  | nil => cases h
  | cons first entries ih =>
    rcases List.mem_cons.mp h with rfl | h
    · exact lt_size_of_get? (extends_insertAll _ entries _ first (get?_insert types first))
    · exact ih h

namespace Scoped

theorem take (h : Scoped entries) (n : Nat) : Scoped (entries.take n) := by
  intro k entry hentry
  rw [List.getElem?_take] at hentry
  split at hentry
  · rw [List.take_take, Nat.min_eq_left (Nat.le_of_lt ‹k < n›)]
    exact h k entry hentry
  · cases hentry

theorem lt_size (h : Scoped entries) (hentry : entries[k]? = some entry) :
    ∀ c ∈ entry.shape.components, (c : Nat) < (filled (entries.take k)).size :=
  fun c hc => lt_size_of_mem_insertAll (h k entry hentry c hc)

/-- **The components of each type stand before it.** -/
theorem componentsEarlier (h : Scoped entries) : (filled entries).ComponentsEarlier := by
  induction entries using List.reverseRecOn with
  | nil => exact componentsEarlier_empty
  | append_singleton entries last ih =>
    have hentries : Scoped entries := by
      have htake := h.take entries.length
      rwa [List.take_left] at htake
    have hlast : (entries ++ [last])[entries.length]? = some last := by simp
    have hlt := h.lt_size hlast
    rw [List.take_left] at hlt
    rw [filled_append]
    exact ((ih hentries).insert last hlt).earlier

/-- What is inserted stands for its tree from then on. -/
theorem exists_tree (h : Scoped entries) (hentry : entries[k]? = some entry) :
    ∃ id tree, (positions entries)[k]? = some id ∧
      entry.tree? (filled (entries.take k)).tree? = some tree ∧
      ∀ later, (filled (entries.take (k + 1) ++ later)).tree? id = some tree := by
  obtain ⟨tree, hexpanded, htree⟩ :=
    (h.take k).componentsEarlier.exists_tree?_insert (h.lt_size hentry)
  refine ⟨_, tree, getElem?_insertAll hentry, hexpanded, fun later => ?_⟩
  rw [filled_append, filled_take_succ hentry]
  exact (extends_insertAll _ later).tree? htree

end Scoped

/-- **Positions are types.** Of entries that are built from types inserted before them, two get the
same position exactly if their types are the same, components and names included; a position stands
for its type for good; and what is found is what was inserted, where it was put. The table is the
order that an interner keeps. -/
theorem filled_identifiesTypes (entries : List TypeEntry) (h : Scoped entries) :
    (∀ (k : Nat) (entry : TypeEntry), entries[k]? = some entry → ∃ id tree,
      (positions entries)[k]? = some id ∧
      entry.tree? (filled (entries.take k)).tree? = some tree ∧
      ∀ later, (filled (entries.take (k + 1) ++ later)).tree? id = some tree) ∧
    (∀ (j k : Nat) (entry entry' : TypeEntry),
      entries[j]? = some entry → entries[k]? = some entry' →
      ((positions entries)[j]? = (positions entries)[k]? ↔
        entry.tree? (filled (entries.take j)).tree?
          = entry'.tree? (filled (entries.take k)).tree?)) ∧
    (∀ entry id, (filled entries).find? entry = some id ↔
      ∃ k : Nat, entries[k]? = some entry ∧ (positions entries)[k]? = some id) ∧
    (positions entries = (Interner.empty.insertAll entries).1.map Prod.fst ∧
      (filled entries).entries = (Interner.empty.insertAll entries).2.order ∧
      ∀ entry, (filled entries).find? entry
        = (Interner.empty.insertAll entries).2.number? entry) := by
  have hkept := keptBy_filled entries
  have hpositions : positions entries = (Interner.empty.insertAll entries).1.map Prod.fst :=
    (keptBy_empty.insertAll entries).1
  have hnumber : ∀ (k : Nat) (entry : TypeEntry), entries[k]? = some entry →
      (positions entries)[k]? = (filled entries).find? entry := by
    intro k entry hentry
    obtain ⟨i, hanswer, hi⟩ := Interner.exists_answer (t := Interner.empty) hentry
    rw [hkept.find?_eq_number?, hi, hpositions, List.getElem?_map, hanswer]
    rfl
  have htree : ∀ (k : Nat) (entry : TypeEntry), entries[k]? = some entry → ∃ id tree,
      (positions entries)[k]? = some id ∧
      entry.tree? (filled (entries.take k)).tree? = some tree ∧
      (filled entries).tree? id = some tree := by
    intro k entry hentry
    obtain ⟨id, tree, hid, hexpanded, hlater⟩ := h.exists_tree hentry
    have hall := hlater (entries.drop (k + 1))
    rw [List.take_append_drop] at hall
    exact ⟨id, tree, hid, hexpanded, hall⟩
  refine ⟨fun k entry hentry => h.exists_tree hentry, fun j k entry entry' hj hk => ?_,
    fun entry id => ⟨fun hfind => ?_, ?_⟩,
    hpositions, hkept.entries, hkept.find?_eq_number?⟩
  · obtain ⟨id, tree, hid, hexpanded, hstands⟩ := htree j entry hj
    obtain ⟨id', tree', hid', hexpanded', hstands'⟩ := htree k entry' hk
    rw [hid, hid', hexpanded, hexpanded']
    constructor
    · intro hsame
      rw [← hstands, ← hstands', Option.some.inj hsame]
    · intro hsame
      rw [Option.some.inj hsame] at hstands
      rw [tree?_injective hkept.distinct hstands hstands']
  · have hmem : entry ∈ entries := by
      by_contra hnot
      rw [hkept.find?_eq_number?,
        (Interner.number?_insertAll_eq_none_iff entries).mpr ⟨rfl, hnot⟩] at hfind
      cases hfind
    obtain ⟨k, hk⟩ := List.mem_iff_getElem?.mp hmem
    exact ⟨k, hk, (hnumber k entry hk).trans hfind⟩
  · rintro ⟨k, hk, hid⟩
    exact (hnumber k entry hk).symm.trans hid

/-- A pointer, twice, and two structures around it that differ in the name of a member. -/
def namedMembers : List TypeEntry :=
  [.anonymous (.scalar .f32), .anonymous (.pointer 0 .global),
    ⟨some "pair", .struct [⟨some "a", 1⟩, ⟨none, 0⟩]⟩,
    .anonymous (.pointer 0 .global),
    ⟨some "pair", .struct [⟨some "b", 1⟩, ⟨none, 0⟩]⟩]

theorem filled_identifiesTypes_namedMembers :
    Scoped namedMembers ∧ ∃ pointer pointer' pair pair',
      namedMembers[1]? = some pointer ∧ namedMembers[3]? = some pointer' ∧
      pointer.tree? (filled (namedMembers.take 1)).tree?
        = pointer'.tree? (filled (namedMembers.take 3)).tree? ∧
      namedMembers[2]? = some pair ∧ namedMembers[4]? = some pair' ∧
      pair.tree? (filled (namedMembers.take 2)).tree?
        ≠ pair'.tree? (filled (namedMembers.take 4)).tree? := by
  have hscoped : Scoped namedMembers := by decide +kernel
  obtain ⟨-, hsame, -⟩ := filled_identifiesTypes namedMembers hscoped
  refine ⟨hscoped, _, _, _, _, rfl, rfl, ?_, rfl, rfl, fun hpair => ?_⟩
  · exact (hsame 1 3 _ _ rfl rfl).mp (by decide +kernel)
  · exact absurd ((hsame 2 4 _ _ rfl rfl).mpr hpair) (by decide +kernel)

end TypeTable

end ResourceBinding
