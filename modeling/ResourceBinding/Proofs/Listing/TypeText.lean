import ResourceBinding.Proofs.Listing.Bound

/-!
# The text of a type is read as that type

A table grows by entries that text has a form for and that show all names that they have, not only
where a source is read: the types that passes enter for accessors and for what is bound are like
that too (`TypeTable.Grows`, `Module.grows_runPasses`). So each type of a module that was read or
bound is read again from its text, and when what was read is entered, that same type is found
(`Module.types_readBack`). Two types have the same text only if they are one.
-/

namespace ResourceBinding

namespace TypeTable

variable {types types₁ types₂ : TypeTable}

/-! ## Growth -/

/-- The second table is the first one, with entries added that text has a form for and that show all
names that they have. -/
inductive Grows (types : TypeTable) : TypeTable → Prop where
  | refl : Grows types types
  | insert {types' : TypeTable} (entry : TypeEntry) : Grows types types' → entry.IsReadable →
      entry.IsShown → Grows types (types'.insert entry).2

theorem Grows.trans (h : types.Grows types₁) (h' : types₁.Grows types₂) : types.Grows types₂ := by
  induction h' with
  | refl => exact h
  | insert entry _ hreadable hshown ih => exact ih.insert entry hreadable hshown

theorem Grows.readable (h : types.Grows types₁) (hreadable : types.Readable) : types₁.Readable := by
  induction h with
  | refl => exact hreadable
  | insert _ _ hentry _ ih => exact ih.insert hentry

theorem Grows.canonical (h : types.Grows types₁) (hcanonical : types.Canonical) :
    types₁.Canonical := by
  induction h with
  | refl => exact hcanonical
  | insert _ _ _ hentry ih => exact ih.insert hentry

/-! ## Reading types again -/

/-- The text of the type at a position is read as that type: reading takes all tokens, and entering
what was read finds the type and adds none. -/
def ReadsBack (types : TypeTable) (id : TypeId) : Prop :=
  ∃ tokens w last, readTokens (types.text id) = .ok tokens ∧
    Reader.type.run (.start tokens) = .ok (w, ⟨[], last⟩) ∧ intern w types = (id, types)

/-- Types that are read from one text are one. -/
theorem ReadsBack.eq_of_text {id id' : TypeId} (h : types.ReadsBack id) (h' : types.ReadsBack id')
    (heq : types.text id = types.text id') : id = id' := by
  obtain ⟨tokens, w, last, htokens, hread, hintern⟩ := h
  obtain ⟨tokens', w', last', htokens', hread', hintern'⟩ := h'
  rw [heq] at htokens
  obtain rfl := Except.ok.inj (htokens.symm.trans htokens')
  cases hread.symm.trans hread'
  exact congrArg Prod.fst (hintern.symm.trans hintern')

/-- **A type is read again from its text**, in a table whose types can be written and show all
names that they have. -/
theorem Readable.readsBack (hreadable : types.Readable) (hcanonical : types.Canonical)
    (hearlier : types.ComponentsEarlier) {id : Nat} (hid : id < types.size) :
    types.ReadsBack id := by
  obtain ⟨w, hw⟩ := hearlier.exists_written id hid
  have hform := hreadable.readable_of_written? hw
  have htext : types.text id = render w.pieces := by rw [text, pieces, hw]
  have hread := Reader.reads_type hform 1 []
  rw [List.append_nil] at hread
  refine ⟨onLine 1 w.pieces, w, _, ?_, hread _, hcanonical.intern_of_written? w hw⟩
  rw [htext, hform.readTokens_render]

end TypeTable

/-! ## Passes -/

namespace Module

variable {m m' m₁ : Module} {c : Compilation} {changed : Bool} {rows : List SamplerRow}

theorem grows_samplerAccessor (m : Module) : m.types.Grows m.samplerAccessor.2.types := by
  let scalar := m.insertShape (.scalar .u32)
  let sampler := scalar.2.insertShape .sampler
  let f : Function := { Function.declaration ReservedName.samplerAccessor
    [scalar.1, scalar.1, scalar.1] (some sampler.1) with isPure := true }
  have hscalar : m.types.Grows scalar.2.types :=
    .insert (.anonymous (.scalar .u32)) .refl rfl rfl
  have hentered : m.types.Grows sampler.2.types :=
    .insert (.anonymous .sampler) hscalar trivial rfl
  rw [show m.samplerAccessor = sampler.2.ensure f from rfl]
  rcases sampler.2.ensure_eq f with ⟨-, -, -, hsame⟩ | ⟨-, hpush⟩
  · rw [hsame]
    exact hentered
  · rw [hpush]
    exact hentered

theorem grows_bindSamplers (h : m.bindSamplers rows = .ok (m', changed)) :
    m.types.Grows m'.types := by
  rcases bindSamplers_ok h with ⟨-, rfl⟩ | ⟨maker, removed, m₁, -, hrewritten, hremove⟩
  · exact .refl
  · rw [types_remove hremove]
    rcases hrewritten with ⟨-, rfl⟩ | ⟨htypes, -⟩
    · exact .refl
    · exact htypes ▸ m.grows_samplerAccessor

theorem grows_insertCarrier (m : Module) (index : Nat) (data : TypeId) :
    m.types.Grows (m.insertCarrier index data).2.types := by
  let entry : TypeEntry := ⟨some (ReservedName.carrier index), .struct [⟨none, data⟩]⟩
  have hreadable : entry.IsReadable := by
    rintro _ ⟨⟩
    exact ReservedName.isName_carrier index
  have hshown : entry.IsShown := fun member hmember => by
    obtain rfl := List.mem_singleton.mp hmember
    rfl
  have hcarrier : m.types.Grows (m.types.insert entry).2 := .insert entry .refl hreadable hshown
  exact hcarrier.insert (.anonymous (.pointer _ .storageBuffer)) trivial rfl

theorem grows_insertAccessorResult (m : Module) (index : Nat) (type : TypeId) :
    m.types.Grows (m.insertAccessorResult index type).2.types := by
  unfold insertAccessorResult
  split
  · exact .refl
  · exact .refl
  · rename_i pointee space _
    have helements : m.types.Grows (m.insertShape (.array pointee none)).2.types :=
      .insert (.anonymous (.array pointee none)) .refl (by rintro _ ⟨⟩) rfl
    exact helements.trans (grows_insertCarrier _ index _)
  · exact m.grows_insertCarrier index type

theorem grows_addAccessors (keys : List Discriminant) : ∀ (m : Module) (index : Nat),
    m.types.Grows (m.addAccessors index keys).types := by
  induction keys with
  | nil => exact fun _ _ => .refl
  | cons key keys ih =>
    intro m index
    have hadded : m.types.Grows (m.addAccessor index key).types :=
      (m.grows_insertAccessorResult index key.type).insert (.anonymous (.scalar .u32)) rfl rfl
    exact hadded.trans (ih (m.addAccessor index key) (index + 1))

/-- **Allocation enters types that text has a form for.** -/
theorem grows_allocate (h : (m.allocate c).result = .ok (m', changed)) :
    m.types.Grows m'.types := by
  obtain ⟨m₁, changed₁, changed₂, hsamplers, harguments, -⟩ := allocate_ok h
  obtain ⟨planned, n, final, hbound, -⟩ := allocateArguments_ok harguments
  have hsampler : m.types.Grows m₁.types := by
    rcases allocateSamplers_ok hsamplers with ⟨-, -, rfl⟩ | ⟨-, hbind⟩
    · exact .refl
    · exact grows_bindSamplers hbind
  rw [hbound.module_eq, types_bindArguments]
  exact hsampler.trans (m₁.grows_addAccessors n.keys 0)

/-- **Runs of passes enter types that text has a form for**, and no others. -/
theorem grows_runPasses : ∀ {passes : List Pass} {m : Module} {c : Compilation} {changed : Bool},
    (runPasses passes m c).result = .ok (m', changed) → m.types.Grows m'.types
  | [], _, _, _, h => by
    cases h
    exact .refl
  | pass :: _, m, _, _, h => by
    obtain ⟨m₁, changed₁, changed₂, hfirst, hrest, -⟩ := runPasses_cons_ok h
    have hpass : m.types.Grows m₁.types := by
      cases pass with
      | reportBuffers => exact (reportBuffers_ok hfirst).1 ▸ .refl
      | allocate => exact grows_allocate hfirst
      | resolveParameters =>
        cases hfirst
        exact m.types_pass _ ▸ .refl
    exact hpass.trans (grows_runPasses hrest)

variable {source : String} {passes : List Pass}

/-- **The text of a type is read as that type**, in a module that was read and in what passes make
of it. So no two types of such a module have the same text. -/
theorem types_readBack (hread : Module.read source = .ok m)
    (hrun : (runPasses passes m c).result = .ok (m', changed)) :
    (∀ id : Nat, id < m'.types.size → m'.types.ReadsBack id) ∧
      ∀ id id' : Nat, id < m'.types.size → id' < m'.types.size →
        m'.types.text id = m'.types.text id' → id = id' := by
  have hgrows := grows_runPasses hrun
  have hreadable := hgrows.readable (readableTypes_of_read hread)
  have hcanonical := hgrows.canonical (canonical_of_read hread)
  have hearlier := ((visits_of_runPasses_ok hrun).wellFormed (wellFormed_of_read hread)).1.earlier
  have hback : ∀ id : Nat, id < m'.types.size → m'.types.ReadsBack id :=
    fun id hid => hreadable.readsBack hcanonical hearlier hid
  exact ⟨hback, fun id id' hid hid' => (hback id hid).eq_of_text (hback id' hid')⟩

end Module

/-- The structure around a bound buffer is read again from its text, and stands for no other
type. -/
theorem types_readBack_relay : ∃ m m', Module.read relaySource = .ok m ∧
    (runPasses (Pass.standard relayOptions) m (.start relayOptions [])).result = .ok (m', true) ∧
    m'.types.text (3 : Nat) = "struct %kernbind.resource.type.0\x7barray<f32>\x7d" ∧
    m'.types.ReadsBack (3 : Nat) ∧
    ∀ id : Nat, id < m'.types.size → m'.types.text id = m'.types.text (3 : Nat) → id = 3 := by
  have hcheck : (Module.read relaySource).toOption.any (fun m =>
      (runPasses (Pass.standard relayOptions) m (.start relayOptions [])).result.toOption.any
        fun r => r.2 && decide (3 < r.1.types.size) &&
          r.1.types.text (3 : Nat) == "struct %kernbind.resource.type.0\x7barray<f32>\x7d") := by
    decide +kernel
  obtain ⟨m, hread, hcheck⟩ := exists_of_any_toOption hcheck
  obtain ⟨⟨m', changed⟩, hrun, hcheck⟩ := exists_of_any_toOption hcheck
  obtain ⟨hcheck, htext⟩ := Bool.and_eq_true_iff.mp hcheck
  obtain ⟨hchanged, hsize⟩ := Bool.and_eq_true_iff.mp hcheck
  obtain rfl : changed = true := hchanged
  have hthird := of_decide_eq_true hsize
  obtain ⟨hback, hdistinct⟩ := Module.types_readBack hread hrun
  exact ⟨m, m', hread, hrun, eq_of_beq htext, hback 3 hthird,
    fun id hid => hdistinct id 3 hid hthird⟩

end ResourceBinding
