import ResourceBinding.Proofs.Binding.Interface
import ResourceBinding.Proofs.Listing.Names
import ResourceBinding.Proofs.Listing.Numbers
import ResourceBinding.Proofs.Listing.RoundTrip
import ResourceBinding.Proofs.WellFormed

/-!
# Bound modules can be listed

Whatever passes are run on a module that was read, the listing of what they yield can be read
again, and stays the same then (`Module.read_listing_bound`). This takes a source that leaves to the
listing the names that it makes up. No mark in it refers to the function that makes samplers, since
that one is removed.

What a pass has to keep for that is in `Module.Listable`. Each pass keeps it
(`Module.Listable.runPass`).
-/

namespace ResourceBinding

/-! ## Names of what is declared -/

namespace ReservedName

theorem isName_append_decimal {stem : String} (hstem : IsName stem) (i : Nat) :
    IsName (stem ++ String.ofList (Numeral.decimal i)) := by
  rw [IsName, String.toList_append, String.toList_ofList]
  refine ⟨List.append_ne_nil_of_left_ne_nil hstem.1 _, fun c hc => ?_⟩
  rcases List.mem_append.mp hc with hc | hc
  · exact hstem.2 c hc
  · have hdigit := Numeral.isDigit_of_mem_decimal hc
    simp [isNameChar, Char.isAlphanum, hdigit]

theorem isName_accessor (i : Nat) : IsName (accessor i) :=
  isName_append_decimal ⟨by decide, List.all_eq_true.mp (by decide)⟩ i

theorem isName_carrier (i : Nat) : IsName (carrier i) :=
  isName_append_decimal ⟨by decide, List.all_eq_true.mp (by decide)⟩ i

theorem isName_samplerAccessor : IsName samplerAccessor :=
  ⟨by decide, List.all_eq_true.mp (by decide)⟩

end ReservedName

/-! ## Functions that can be listed -/

/-- The names in the function can be told apart, its numbers are finite, and its marks refer to
functions that stay. -/
structure Function.Listable (names : List String) (f : Function) : Prop extends f.WellNamed where
  finite : f.Finite
  mark : ∀ p ∈ f.params, ∀ d, p.direct = some d →
    ∃ name, names[d.accessor]? = some name ∧ name ≠ ReservedName.samplerMaker

namespace Function

variable {names names' : List String} {f g : Function}

theorem Listable.mono (hf : f.Listable names)
    (hnames : ∀ (id : Nat) name, names[id]? = some name → names'[id]? = some name) :
    f.Listable names' := by
  refine { hf with mark := fun p hp d hd => ?_ }
  obtain ⟨name, hname, hne⟩ := hf.mark p hp d hd
  exact ⟨name, hnames _ name hname, hne⟩

/-- What keeps names apart and adds no infinite number can be listed, if its marks are kept. -/
theorem Listable.edit (hf : f.Listable names) (hkeeps : f.KeepsNames g) (hfinite : g.Finite)
    (hparams : g.params = f.params) : g.Listable names :=
  { hf.toWellNamed.keepsNames hkeeps with
    finite := hfinite
    mark := fun p hp => hf.mark p (hparams ▸ hp) }

theorem listable_declaration {name : String} (hname : IsName name) (types : List TypeId)
    (result : Option TypeId) (isPure : Bool) :
    ({ Function.declaration name types result with isPure } : Function).Listable names := by
  have hparam : ∀ p ∈ (Function.declaration name types result).params,
      p.name = none ∧ p.direct = none := by
    intro p hp
    obtain ⟨type, -, rfl⟩ := List.mem_map.mp hp
    exact ⟨rfl, rfl⟩
  refine { wellNamed_of_isDeclaration rfl rfl rfl hname fun other hother => ?_ with
    finite := fun id x hx => ?_
    mark := fun p hp d hd => ?_ }
  · obtain ⟨p, hp, heq⟩ := List.mem_map.mp hother
    cases (hparam p hp).1.symm.trans heq
  · simp [expr?, Function.declaration] at hx
  · cases (hparam p hp).2.symm.trans hd

/-! ### Edits -/

/-- **Binding its arguments keeps a kernel one that can be listed.** -/
theorem Listable.bindArguments (hf : f.Listable names) (hbody : f.body.isSome)
    (first : FunctionId) {rows : List ArgumentRow}
    (hnodup : (rows.map ArgumentRow.position).Nodup) :
    (f.bindArguments first rows).Listable names := by
  obtain ⟨σ, ρ, hb⟩ := binds_bindEach first rows f hnodup
  refine hf.edit (keepsNames_revise hb.revises hbody fun c hc op hop => ?_)
    (hf.finite.bindArguments first rows) ?_
  · obtain ⟨row, -, r, hfetch, -⟩ := exists_mem_of_forall₂ hb.fetches hc
    exact exists_literal_of_mem hfetch.operands hop
  · rw [(f.bindArguments_frame first hnodup).1]

/-- **Fetching a resource keeps a function one that can be listed.** -/
theorem Listable.fetchParameter (hf : f.Listable names) {index : Nat} {o : Provenance}
    (ho : ∀ x, some (.f32 x) ∈ o.operands → x.magnitude < Single.infinity)
    (h : f.fetchParameter index o = .ok g) : g.Listable names := by
  have hbody := isSome_body_of_fetchParameter h
  have hfinite := hf.finite.fetchParameter ho h
  obtain ⟨ls, ids, r, f₁, σ, -, hrev, hids, -, rfl⟩ := fetchParameter_ok h
  refine hf.edit (keepsNames_revise hrev hbody fun c hc op hop => ?_) hfinite ?_
  · obtain rfl := List.mem_singleton.mp hc
    exact exists_literal_of_mem hids hop
  · rw [prependCalls, hrev.frame]

/-- Marking a parameter keeps a function one that can be listed, if the mark refers to a function
that stays. -/
theorem Listable.setMark (hf : f.Listable names) (index : Nat) {mark : Option FixedResource}
    (hmark : ∀ d, mark = some d →
      ∃ name, names[d.accessor]? = some name ∧ name ≠ ReservedName.samplerMaker) :
    (f.setMark index mark).Listable names := by
  refine { hf.toWellNamed.keepsNames (f.keepsNames_setMark index mark) with
    finite := hf.finite
    mark := fun p hp d hd => ?_ }
  obtain ⟨i, hi⟩ := List.mem_iff_getElem?.mp hp
  rw [Function.setMark, List.getElem?_modify, Option.map_eq_map, Option.map_eq_some_iff] at hi
  obtain ⟨q, hq, rfl⟩ := hi
  split at hd
  · exact hmark d hd
  · exact hf.mark q (List.mem_of_getElem? hq) d hd

end Function

/-! ## Modules that can be listed -/

/-- The types of the module can be written, and its functions can be listed. -/
structure Module.Listable (m : Module) : Prop where
  types : m.types.Readable
  functions : ∀ f ∈ m.functions, f.Listable m.names

/-- The numbers of the module have 32 bits: literals, and the numbers in marks. -/
structure Module.Fits (m : Module) : Prop where
  literal : ∀ f ∈ m.functions, ∀ id l, f.expr? id = some (.literal l) → l.InRange
  mark : ∀ f ∈ m.functions, ∀ p ∈ f.params, ∀ d, p.direct = some d →
    d.set < 0x100000000 ∧ d.binding < 0x100000000 ∧ d.depth < 0x100000000

namespace Module

variable {m m' m₁ : Module} {f g : Function}

section Write

/-- A parameter is written by its name, its type and its mark. -/
theorem Listable.exists_writtenParam (h : m.Listable) (hm : m.WellFormed) (hfits : m.Fits)
    (hf : f ∈ m.functions) {p : Param} (hp : p ∈ f.params) :
    ∃ w : WrittenParam, w.Writes m.names m.types p ∧ w.Readable f.isDeclaration := by
  obtain ⟨type, htype⟩ := hm.earlier.exists_written p.type ((hm.functions f hf).param_type p hp)
  have hlist := h.functions f hf
  have hmark : ∃ direct : Option WrittenMark,
      direct.map (fun d => (some d.accessor, d.set, d.binding, d.depth))
        = p.direct.map (fun d => (m.names[d.accessor]?, d.set, d.binding, d.depth)) ∧
      ∀ d, direct = some d → d.Readable := by
    cases hd : p.direct with
    | none => exact ⟨none, rfl, by simp⟩
    | some d =>
      obtain ⟨name, hname, -⟩ := hlist.mark p hp d hd
      obtain ⟨hset, hbinding, hdepth⟩ := hfits.mark f hf p hp d hd
      refine ⟨some ⟨name, d.set, d.binding, d.depth, 0⟩, ?_, ?_⟩
      · rw [Option.map_some, Option.map_some, hname]
      · rintro _ ⟨⟩
        exact ⟨hset, hbinding, hdepth⟩
  obtain ⟨direct, hwrites, hreadable⟩ := hmark
  refine ⟨⟨p.name, type, direct⟩, ⟨rfl, htype, hwrites⟩, ?_, ?_, ?_, hreadable⟩
  · exact fun name hname => (hlist.param name (hname ▸ List.mem_map_of_mem hp)).1
  · intro hbody
    refine Option.ne_none_iff_isSome.mp fun hnone => hlist.param_named ?_ ?_
    · rwa [Function.isDeclaration, ← Option.not_isSome, Bool.not_eq_false'] at hbody
    · exact hnone ▸ List.mem_map_of_mem hp
  · exact h.types.readable_of_written? htype

/-- A function is written by its signature and its body. -/
theorem Listable.exists_writtenAs (h : m.Listable) (hm : m.WellFormed) (hfits : m.Fits)
    (hf : f ∈ m.functions) : ∃ w, f.WrittenAs m w := by
  obtain ⟨params, hparams⟩ : ∃ params : List WrittenParam, List.Forall₂
      (fun p w => WrittenParam.Writes m.names m.types w p ∧ w.Readable f.isDeclaration)
      f.params params :=
    exists_forall₂ fun p hp => h.exists_writtenParam hm hfits hf hp
  have hresult : ∃ result : Option WrittenType, result.map some = f.result.map m.types.written? ∧
      ∀ w, result = some w → w.Readable := by
    cases hr : f.result with
    | none => exact ⟨none, rfl, by simp⟩
    | some type =>
      obtain ⟨w, hw⟩ := hm.earlier.exists_written type ((hm.functions f hf).result_type type hr)
      refine ⟨some w, by rw [Option.map_some, Option.map_some, hw], ?_⟩
      rintro _ ⟨⟩
      exact h.types.readable_of_written? hw
  obtain ⟨result, hwrites, hreadable⟩ := hresult
  refine ⟨⟨⟨f.isDeclaration, f.convention, f.name, 0, params, result, f.isPure⟩,
    f.body.map fun b => (f.writeBlock m b []).1⟩,
    ⟨rfl, rfl, rfl, ?_, hwrites, rfl⟩, ⟨?_, ?_, ?_⟩, rfl⟩
  · exact (hparams.imp fun _ _ hw => hw.1).flip
  · exact (h.functions f hf).name
  · intro w hw
    obtain ⟨p, -, -, hw⟩ := exists_mem_of_forall₂ hparams hw
    exact hw
  · exact hreadable

/-- **A module that can be listed is written as a text that can be read**, if its numbers have 32
bits. -/
theorem Listable.writable (h : m.Listable) (hm : m.WellFormed) (hfits : m.Fits) : m.Writable := by
  refine ⟨hm.names, exists_forall₂ fun f hf => ?_, fun f hf => ?_⟩
  · exact h.exists_writtenAs hm hfits (Array.mem_def.mpr hf)
  · have hlist := h.functions f hf
    exact ⟨hlist.toWellNamed.legible (hfits.literal f hf), hm.functions f hf, hlist.finite,
      fun p hp name hname => (hlist.param name (hname ▸ List.mem_map_of_mem hp)).1⟩

end Write

/-! ## Declarations -/

theorem Listable.push (h : m.Listable) (hf : f.Listable m.names) : (m.push f).2.Listable := by
  have hnames : (m.push f).2.names = m.names ++ [f.name] := by simp [names, Module.push]
  have hold : ∀ (id : Nat) name, m.names[id]? = some name →
      (m.push f).2.names[id]? = some name := by
    intro id name hname
    rw [hnames, List.getElem?_append_left (List.getElem?_eq_some_iff.mp hname).1, hname]
  refine ⟨h.types, fun g hg => ?_⟩
  rcases Array.mem_push.mp hg with hg | rfl
  · exact (h.functions g hg).mono hold
  · exact hf.mono hold

/-- Entering types that can be written. -/
theorem Listable.insert (h : m.Listable) {entry : TypeEntry} (hentry : entry.IsReadable) :
    ({ m with types := (m.types.insert entry).2 } : Module).Listable :=
  ⟨h.types.insert hentry, h.functions⟩

theorem Listable.insertShape (h : m.Listable) (shape : Shape)
    (hshape : (TypeEntry.anonymous shape).IsReadable) : (m.insertShape shape).2.Listable :=
  h.insert hshape

theorem Listable.samplerAccessor (h : m.Listable) : m.samplerAccessor.2.Listable := by
  let scalar := m.insertShape (.scalar .u32)
  let sampler := scalar.2.insertShape .sampler
  let d : Function := { Function.declaration ReservedName.samplerAccessor
    [scalar.1, scalar.1, scalar.1] (some sampler.1) with isPure := true }
  have hsampler : sampler.2.Listable :=
    (h.insertShape (.scalar .u32) rfl).insertShape .sampler trivial
  rw [show m.samplerAccessor = sampler.2.ensure d from rfl]
  rcases sampler.2.ensure_eq d with ⟨-, -, -, hsame⟩ | ⟨-, hpush⟩
  · rw [hsame]
    exact hsampler
  · rw [hpush]
    exact hsampler.push (Function.listable_declaration ReservedName.isName_samplerAccessor _ _ _)

/-! ## Literal samplers -/

section Samplers

variable {rows : List SamplerRow} {c : Compilation} {changed : Bool} {initializer : FunctionId}

theorem Listable.rewrittenTo (h : m.Listable) (hm : m.WellFormed)
    (hrewritten : m.RewrittenTo rows initializer m₁) : m₁.Listable := by
  rcases hrewritten with ⟨-, rfl⟩ | ⟨htypes, hrewrites⟩
  · exact h
  have hdeclared := h.samplerAccessor
  have hnames : m.samplerAccessor.2.names = m₁.names :=
    names_eq_of_forall₂ hrewrites fun f g hfg => by rw [(SamplerBinding.rewrite_ok hfg).1]
  refine ⟨htypes ▸ hdeclared.types, fun g hg => ?_⟩
  obtain ⟨f, hf, hfg⟩ := exists_mem_of_forall₂ hrewrites (Array.mem_def.mp hg)
  have hlist := hdeclared.functions f (Array.mem_def.mpr hf)
  have hlinked := (hm.samplerAccessor.1.functions f (Array.mem_def.mpr hf)).toLinked
  rw [← hnames]
  refine hlist.edit (SamplerBinding.keepsNames_rewrite hlinked hfg)
    (SamplerBinding.finite_rewrite hlist.finite hfg) ?_
  rw [(SamplerBinding.rewrite_ok hfg).1]

/-- **Removing the function that makes samplers moves all marks along**, as none refers to it. -/
theorem Listable.remove (h : m.Listable)
    (hname : m.names[initializer]? = some ReservedName.samplerMaker)
    (hremove : m.remove initializer = .ok (f, m')) : m'.Listable := by
  obtain ⟨-, -, -, hnames, -⟩ := remove_ok hremove
  refine ⟨types_remove hremove ▸ h.types, fun g hg => ?_⟩
  obtain ⟨old, hold, rfl⟩ := exists_of_mem_remove hremove hg
  have hlist := h.functions old hold
  refine { hlist.toWellNamed.keepsNames (old.keepsNames_mapCallees _) with
    finite := hlist.finite.mapCallees _
    mark := fun p hp d hd => ?_ }
  obtain ⟨q, hq, rfl⟩ := List.mem_map.mp hp
  obtain ⟨mark, hmark, rfl⟩ := Option.map_eq_some_iff.mp hd
  obtain ⟨name, hname', hne⟩ := hlist.mark q hq mark hmark
  refine ⟨name, ?_, hne⟩
  have hother : mark.accessor ≠ initializer := by
    intro heq
    rw [heq, hname] at hname'
    exact hne (Option.some.inj hname').symm
  rw [hnames, ← hname']
  exact getElem?_eraseIdx_shift m.names hother

theorem Listable.bindSamplers (h : m.Listable) (hm : m.WellFormed)
    (hbind : m.bindSamplers rows = .ok (m', changed)) : m'.Listable := by
  rcases bindSamplers_ok hbind with
    ⟨-, rfl⟩ | ⟨initializer, removed, m₁, hfind, hrewritten, hremove⟩
  · exact h
  · refine (h.rewrittenTo hm hrewritten).remove ?_ hremove
    obtain ⟨declared, -, hnames, -⟩ := hrewritten.frame
    obtain ⟨g, hg, hname⟩ := function?_of_find? hfind
    have hold : m.names[initializer]? = some ReservedName.samplerMaker := by
      rw [getElem?_names, hg, Option.map_some, hname]
    rw [hnames, List.getElem?_append_left (List.getElem?_eq_some_iff.mp hold).1, hold]

theorem Listable.allocateSamplers (h : m.Listable) (hm : m.WellFormed)
    (hrun : (m.allocateSamplers c).2.result = .ok (m', changed)) : m'.Listable := by
  rcases allocateSamplers_ok hrun with ⟨-, -, rfl⟩ | ⟨-, hbind⟩
  · exact h
  · exact h.bindSamplers hm hbind

end Samplers

/-! ## Arguments of kernels -/

section Arguments

theorem Listable.insertCarrier (h : m.Listable) (index : Nat) (data : TypeId) :
    (m.insertCarrier index data).2.Listable := by
  have hcarrier : (⟨some (ReservedName.carrier index), .struct [⟨none, data⟩]⟩ :
      TypeEntry).IsReadable := by
    rintro _ ⟨⟩
    exact ReservedName.isName_carrier index
  exact (h.insert hcarrier).insertShape (.pointer _ .storageBuffer) trivial

theorem Listable.insertAccessorResult (h : m.Listable) (index : Nat) (type : TypeId) :
    (m.insertAccessorResult index type).2.Listable := by
  unfold Module.insertAccessorResult
  split
  · exact h
  · exact h
  · rename_i pointee space _
    exact (h.insertShape (.array pointee none) (by rintro _ ⟨⟩)).insertCarrier index _
  · exact h.insertCarrier index type

theorem Listable.addAccessor (h : m.Listable) (index : Nat) (key : Discriminant) :
    (m.addAccessor index key).Listable := by
  have hu32 := (h.insertAccessorResult index key.type).insertShape (.scalar .u32) rfl
  exact hu32.push (Function.listable_declaration (ReservedName.isName_accessor index) _ _ _)

theorem Listable.addAccessors (h : m.Listable) (index : Nat) (keys : List Discriminant) :
    (m.addAccessors index keys).Listable := by
  induction keys generalizing m index with
  | nil => exact h
  | cons key keys ih => exact ih (h.addAccessor index key) (index + 1)

/-- **Binding the arguments of the kernels keeps a module one that can be listed.** -/
theorem BoundBy.listable {next final : Nat} {planned : List (FunctionId × List ArgumentRow)}
    {n : Numbering} (hbound : m.BoundBy next planned n final m') (h : m.Listable) :
    m'.Listable := by
  have hnames : ∀ (id : Nat) name, m.names[id]? = some name → m'.names[id]? = some name := by
    intro id name hname
    rw [getElem?_names] at hname ⊢
    obtain ⟨f, hf, rfl⟩ := Option.map_eq_some_iff.mp hname
    obtain ⟨g, hg, hsignature⟩ := hbound.exists_function hf
    rw [hg]
    exact congrArg (fun s => some s.2.1) hsignature
  refine ⟨?_, fun g hg => ?_⟩
  · rw [hbound.module_eq, types_bindArguments]
    exact (h.addAccessors 0 n.keys).types
  obtain ⟨id, hid⟩ := mem_functions_iff.mp hg
  by_cases hold : (id : Nat) < m.functions.size
  · obtain ⟨f, hf⟩ := exists_function?_of_lt hold
    have hlist := (h.functions f (mem_functions_iff.mpr ⟨id, hf⟩)).mono hnames
    by_cases hkernel : f.isKernel
    · obtain ⟨s, rows, -, hrows, hkernel'⟩ := hbound.kernel hf hkernel
      obtain rfl := Option.some.inj (hid.symm.trans hkernel')
      exact hlist.bindArguments (Function.isKernel_iff.mp hkernel).2 _ hrows.nodup_position
    · obtain rfl := Option.some.inj (hid.symm.trans (hbound.other hf hkernel))
      exact hlist
  · obtain ⟨-, u32, result, rfl⟩ := hbound.declares_of_le (Nat.not_lt.mp hold) hid
    exact Function.listable_declaration (ReservedName.isName_accessor _) _ _ _

/-- **Allocation keeps a module one that can be listed.** -/
theorem Listable.allocate {c : Compilation} {changed : Bool} (h : m.Listable) (hm : m.WellFormed)
    (hrun : (m.allocate c).result = .ok (m', changed)) : m'.Listable := by
  obtain ⟨m₁, changed₁, changed₂, hsamplers, harguments, -⟩ := allocate_ok hrun
  obtain ⟨planned, n, final, hbound, -⟩ := allocateArguments_ok harguments
  exact hbound.listable (h.allocateSamplers hm hsamplers)

end Arguments

/-! ## Resolved parameters -/

theorem Listable.modify (h : m.Listable) {id : FunctionId} (hf : m.function? id = some f)
    {edit : Function → Function} (hname : (edit f).name = f.name)
    (hedit : (edit f).Listable m.names) : (m.modify id edit).Listable := by
  refine ⟨h.types, fun g hg => ?_⟩
  rw [names_modify hf hname]
  obtain ⟨i, hi⟩ := mem_functions_iff.mp hg
  rw [function?_modify] at hi
  split at hi
  · rename_i heq
    subst heq
    rw [hf] at hi
    cases hi
    exact hedit
  · exact h.functions g (mem_functions_iff.mpr ⟨i, hi⟩)

/-- Accessors are not removed. -/
theorem exists_name_of_isAccessor {id : FunctionId} (h : m.isAccessor id = true) :
    ∃ name, m.names[id]? = some name ∧ name ≠ ReservedName.samplerMaker := by
  obtain ⟨f, hf, haccessor⟩ := (Option.any_eq_true _ _).mp h
  refine ⟨f.name, by rw [getElem?_names, hf, Option.map_some], fun heq => ?_⟩
  rw [heq, ReservedName.isAccessor_samplerMaker] at haccessor
  exact absurd haccessor (by decide)

/-- A verdict leaves a mark that refers to an accessor. -/
theorem isAccessor_of_mark {id : FunctionId} {index : Nat} {d : FixedResource} (hm : m.Linked)
    (h : (m.verdict id index).mark = some d) : m.isAccessor d.accessor = true := by
  unfold verdict at h
  cases ho : m.parameterProvenance id index with
  | error reason =>
    rw [ho] at h
    cases h
  | ok o =>
    rw [ho] at h
    cases h
    exact (parameterProvenance_ok hm ho).1

end Module

namespace Resolution

variable {s : Resolution}

/-- **A step keeps the program one that can be listed.** -/
theorem listable_step (options : Options) (hs : s.program.WellFormed) (h : s.program.Listable)
    (id : FunctionId) (index : Nat) : (s.step options id index).program.Listable := by
  have hmarked : (s.program.modify id
      (·.setMark index (s.program.verdict id index).mark)).Listable := by
    cases hf : s.program.function? id with
    | none =>
      rw [Module.modify_eq_self fun f hsome => by cases hf.symm.trans hsome]
      exact h
    | some f =>
      have hlist := h.functions f (Module.mem_functions_iff.mpr ⟨id, hf⟩)
      refine h.modify hf rfl (hlist.setMark index ?_)
      exact fun d hd => Module.exists_name_of_isAccessor (Module.isAccessor_of_mark hs.linked hd)
  refine (step_keeps (fun m => m.Linked ∧ m.Listable) options s id index
    ⟨(hs.setMark id index _).linked, hmarked⟩ fun h ho hf hg => ?_).2
  obtain ⟨haccessor, ⟨caller, k, -, hk, hobtains⟩, -⟩ := Module.parameterProvenance_ok h.1 ho
  have hcaller := (h.2.functions k (Module.mem_functions_iff.mpr ⟨caller, hk⟩)).finite
  have hlist := h.2.functions _ (Module.mem_functions_iff.mpr ⟨id, hf⟩)
  refine ⟨((Module.Fetching.refl h.1).fetchParameter hf ho hg).linked, ?_⟩
  exact h.2.modify hf (congrArg Prod.fst (Function.role_fetchParameter hg))
    (hlist.fetchParameter (hcaller.obtains hobtains) hg)

/-- **A run keeps the program one that can be listed.** -/
theorem listable_run (options : Options) (candidates : List (FunctionId × Nat)) :
    ∀ {s : Resolution}, s.program.WellFormed → s.program.Listable →
      (s.run options candidates).program.Listable := by
  induction candidates with
  | nil => exact fun _ h => h
  | cons p candidates ih =>
    exact fun hs h => ih (wellFormed_step options hs p.1 p.2) (listable_step options hs h p.1 p.2)

end Resolution

/-! ## Runs -/

namespace Module

variable {m m' : Module} {c : Compilation} {changed : Bool}

/-- **Each pass keeps a module one that can be listed.** -/
theorem Listable.runPass (h : m.Listable) (hm : m.WellFormed) :
    ∀ pass : Pass, (pass.run m c).result = .ok (m', changed) → m'.Listable
  | .reportBuffers, hrun => (reportBuffers_ok hrun).1 ▸ h
  | .allocate, hrun => h.allocate hm hrun
  | .resolveParameters, hrun => by
    cases hrun
    exact Resolution.listable_run c.options _ hm h

theorem Listable.runPasses : ∀ {passes : List Pass} {m : Module} {c : Compilation} {changed : Bool},
    m.Listable → m.WellFormed →
    (ResourceBinding.runPasses passes m c).result = .ok (m', changed) → m'.Listable
  | [], _, _, _, h, _, hrun => by
    cases hrun
    exact h
  | pass :: _, _, _, _, h, hm, hrun => by
    obtain ⟨m₁, changed₁, changed₂, hfirst, hrest, -⟩ := runPasses_cons_ok hrun
    exact Listable.runPasses (h.runPass hm pass hfirst) (Pass.wellFormed_run hm pass hfirst) hrest

/-! ## Modules that were read -/

variable {source : String} {passes : List Pass}

/-- **A module that was read can be listed**, whatever is bound in it, if no name in it is made up
and no mark refers to the function that makes samplers. -/
theorem listable_of_read (h : Module.read source = .ok m) (hfinite : NumbersFinite source)
    (hnames : ∀ f ∈ m.functions, f.NamesChosen)
    (hmarks : ∀ f ∈ m.functions, ∀ p ∈ f.params, ∀ d, p.direct = some d →
      m.nameOf d.accessor ≠ ReservedName.samplerMaker) : m.Listable := by
  obtain ⟨signatures, hread⟩ := isRead_of_read h
  refine ⟨readableTypes_of_read h, fun f hf => ?_⟩
  obtain ⟨s, -, hs⟩ := hread.function hf
  have hname : IsName f.name := hs.writes.name ▸ hs.readable.name
  have hparam : ∀ p ∈ f.params, ∀ name, p.name = some name → IsName name ∧ ¬ IsMadeUp name := by
    intro p hp name hpname
    obtain ⟨w, hw, hwrites⟩ := exists_mem_of_forall₂ hs.writes.params hp
    exact ⟨(hs.readable.params w hw).name name (hwrites.name.trans hpname),
      (hnames f hf).param p hp name hpname⟩
  have hwellNamed : f.WellNamed := by
    rcases hs.body with ⟨hbody, hstore, hnone⟩ | ⟨b, d, hdrafted⟩
    · refine Function.wellNamed_of_isDeclaration hbody hstore hnone hname fun name hmem => ?_
      obtain ⟨p, hp, heq⟩ := List.mem_map.mp hmem
      exact hparam p hp name heq
    · refine hdrafted.wellNamed hname (fun p hp => ?_) (hnames f hf).value
      obtain ⟨w, hw, hwrites⟩ := exists_mem_of_forall₂ hs.writes.params hp
      have hdefined : s.isDeclaration = false := by
        rw [hs.writes.isDeclaration, Function.isDeclaration, hdrafted.body]
        rfl
      have hsome := (hs.readable.params w hw).named hdefined
      obtain ⟨name, hpname⟩ := Option.isSome_iff_exists.mp hsome
      exact ⟨name, hwrites.name ▸ hpname, hparam p hp name (hwrites.name ▸ hpname)⟩
  refine { hwellNamed with finite := finite_of_read h hfinite hf, mark := fun p hp d hd => ?_ }
  obtain ⟨w, -, hwrites⟩ := exists_mem_of_forall₂ hs.writes.params hp
  have hmark := hwrites.mark
  rw [hd, Option.map_some, Option.map_eq_some_iff] at hmark
  obtain ⟨mark, -, heq⟩ := hmark
  have haccessor : m.names[d.accessor]? = some mark.accessor := (congrArg Prod.fst heq).symm
  refine ⟨mark.accessor, haccessor, fun hmaker => hmarks f hf p hp d hd ?_⟩
  rw [nameOf_eq, haccessor, Option.getD_some, hmaker]

/-- **The listing of a module that was bound can be read again, and stays the same then**, whatever
passes were run and whatever their options were. The source leaves to the listing the names that it
makes up, and has no mark that refers to the function that makes samplers. -/
theorem read_listing_bound (h : Module.read source = .ok m) (hfinite : NumbersFinite source)
    (hnames : ∀ f ∈ m.functions, f.NamesChosen)
    (hmarks : ∀ f ∈ m.functions, ∀ p ∈ f.params, ∀ d, p.direct = some d →
      m.nameOf d.accessor ≠ ReservedName.samplerMaker)
    (hrun : (runPasses passes m c).result = .ok (m', changed)) (hfits : m'.Fits) :
    ∃ m'', Module.read m'.listing = .ok m'' ∧ m''.listing = m'.listing := by
  have hm := wellFormed_of_read h
  have hlist := (listable_of_read h hfinite hnames hmarks).runPasses hm hrun
  have hm' := ((visits_of_runPasses_ok hrun).wellFormed hm).1
  exact (hlist.writable hm' hfits).exists_read_listing

/-- A value has the name that the listing makes up for the call of the accessor. Then its listing
defines the name twice, and is refused. -/
example : (Module.read "kernel @main(%s: sampler) \x7b %_7 = add 1, 2 return %_7 \x7d").toOption.any
    (fun m => (m.allocate (.start Options.none [])).result.toOption.any fun bound =>
      bound.1.functions[0]?.any fun f => f.shownName 2 == f.shownName 7) := by
  decide +kernel

end Module

end ResourceBinding
