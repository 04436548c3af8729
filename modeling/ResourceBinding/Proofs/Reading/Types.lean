import ResourceBinding.Proofs.Program.Interning
import ResourceBinding.Proofs.Reading.Signature

/-!
# Tables of types that can be written

A table holds types that can be written as text if each of its entries is one that text has a form
for, apart from its components (`TypeTable.Readable`). Entering a type that can be written keeps it
so (`TypeTable.Readable.intern`), and each type of such a table can be written
(`TypeTable.Readable.readable_of_written?`).
-/

namespace ResourceBinding

/-- Text has a form for the entry, if it has one for its components. -/
def TypeEntry.IsReadable (entry : TypeEntry) : Prop :=
  match entry.shape with
  | .scalar s | .vector _ s => s.HasWord
  | .array _ count => ∀ n, count = some n → n < 0x100000000
  | .struct _ => ∀ name, entry.name = some name → IsName name
  | .pointer _ _ | .sampler | .image _ => True

namespace TypeTable

/-- Text has a form for the types of the table. -/
def Readable (types : TypeTable) : Prop :=
  ∀ id entry, types.get? id = some entry → entry.IsReadable

variable {types : TypeTable}

theorem readable_empty : empty.Readable := by
  intro id entry h
  cases lt_size_of_get? h

theorem Readable.insert (h : types.Readable) {entry : TypeEntry} (hentry : entry.IsReadable) :
    (types.insert entry).2.Readable := by
  unfold TypeTable.insert
  split
  · exact h
  · intro id other hid
    simp only [get?, Array.getElem?_push] at hid
    split at hid
    · cases hid
      exact hentry
    · exact h id other hid

mutual

/-- **Entering a type that can be written keeps a table so.** -/
theorem Readable.intern : ∀ {written : WrittenType} {types : TypeTable}, written.Readable →
    types.Readable → (TypeTable.intern written types).2.Readable
  | .scalar _, _, .scalar hs, h => h.insert hs
  | .vector _ _, _, .vector hs, h => h.insert hs
  | .array _ _, _, .array helement hcount, h => (Readable.intern helement h).insert hcount
  | .struct _ members, _, .struct hname hmembers, h =>
    (Readable.internEach members hmembers h).insert hname
  | .pointer _ _, _, .pointer hpointee, h => (Readable.intern hpointee h).insert trivial
  | .sampler, _, _, h => h.insert trivial
  | .image _, _, _, h => h.insert trivial

theorem Readable.internEach : ∀ (written : List WrittenType) {types : TypeTable},
    (∀ w ∈ written, w.Readable) → types.Readable →
    (TypeTable.internEach written types).2.Readable
  | [], _, _, h => h
  | first :: rest, _, hwritten, h =>
    Readable.internEach rest (fun w hw => hwritten w (List.mem_cons_of_mem _ hw))
      (Readable.intern (hwritten first List.mem_cons_self) h)

end

/-- An entry can be written if its components can. -/
theorem readable_of_writeEntry {look : TypeId → Option WrittenType} {entry : TypeEntry}
    {w : WrittenType} (hlook : ∀ c w, look c = some w → w.Readable) (hentry : entry.IsReadable)
    (h : writeEntry look entry = some w) : w.Readable := by
  obtain ⟨name, shape⟩ := entry
  cases shape with
  | scalar s =>
    cases h
    exact .scalar hentry
  | vector size s =>
    cases h
    exact .vector hentry
  | array element count =>
    obtain ⟨e, he, rfl⟩ := Option.map_eq_some_iff.mp h
    exact .array (hlook element e he) hentry
  | struct members =>
    obtain ⟨ws, hws, rfl⟩ := Option.map_eq_some_iff.mp h
    refine .struct hentry fun w hw => ?_
    obtain ⟨m, -, hm⟩ := exists_mem_of_forall₂ (forall₂_of_option_mapM hws) hw
    exact hlook m.type w hm
  | pointer pointee space =>
    obtain ⟨e, he, rfl⟩ := Option.map_eq_some_iff.mp h
    exact .pointer (hlook pointee e he)
  | sampler =>
    cases h
    exact .sampler
  | image access =>
    cases h
    exact .image

/-- **The types of such a table can be written.** -/
theorem Readable.readable_of_written? (h : types.Readable) {id : Nat} {w : WrittenType}
    (hw : types.written? id = some w) : w.Readable := by
  induction id using Nat.strongRecOn generalizing w with
  | ind id ih =>
    obtain ⟨entry, hentry⟩ : ∃ entry, types.get? id = some entry :=
      ⟨_, Array.getElem?_eq_getElem (lt_size_of_written? hw)⟩
    rw [written?_eq_writeEntry hentry] at hw
    refine readable_of_writeEntry (fun c w hc => ?_) (h id entry hentry) hw
    split at hc
    · exact ih c ‹_› hc
    · cases hc

end TypeTable

end ResourceBinding
