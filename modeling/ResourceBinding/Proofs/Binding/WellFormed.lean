import ResourceBinding.Proofs.Binding.Grants
import ResourceBinding.Proofs.Binding.Sets

/-!
# Binding keeps modules well-formed

Binding the literal samplers rewrites steps and removes a function; binding the arguments of the
kernels declares accessors and revises the kernels. Either way a well-formed module stays so
(`Module.WellFormed.allocate`).
-/

namespace ResourceBinding

theorem TypeTable.lt_size_of_argumentKind {types : TypeTable} {type : TypeId} {kind : ArgumentKind}
    (h : types.argumentKind type = .ok kind) : (type : Nat) < types.size := by
  obtain ⟨entry, hentry, -⟩ := argumentKind_eq_ok_iff.mp h
  exact lt_size_of_get? hentry

namespace Module

variable {m m' m₁ : Module} {rows samplers : List SamplerRow} {c : Compilation} {changed : Bool}

/-! ## Literal samplers -/

theorem Typed.samplerAccessor (hm : m.Typed) :
    m.samplerAccessor.2.Typed ∧ m.types.size ≤ m.samplerAccessor.2.types.size := by
  obtain ⟨hscalar, hu32⟩ := hm.insert (.anonymous (.scalar .u32)) fun _ hc =>
    absurd hc List.not_mem_nil
  obtain ⟨hboth, hsampler⟩ := hscalar.insert (.anonymous .sampler) fun _ hc =>
    absurd hc List.not_mem_nil
  have hle := Nat.le_trans hu32.size_le hsampler.size_le
  let d : Function := { Function.declaration ReservedName.samplerAccessor
    (List.replicate 3 (m.insertShape (.scalar .u32)).1)
    (some ((m.insertShape (.scalar .u32)).2.insertShape .sampler).1) with isPure := true }
  have heq : m.samplerAccessor.2 = (((m.insertShape (.scalar .u32)).2.insertShape .sampler).2.ensure
    d).2 := rfl
  rw [heq]
  rcases ensure_eq (((m.insertShape (.scalar .u32)).2.insertShape .sampler).2) d with
    ⟨g, -, -, hsame⟩ | ⟨-, hpush⟩
  · rw [hsame]
    exact ⟨hboth, hle⟩
  · rw [hpush]
    refine ⟨hboth.push (Function.typed_declaration (fun type htype => ?_) ?_ true), hle⟩
    · rw [List.eq_of_mem_replicate htype]
      exact Nat.lt_of_lt_of_le hu32.lt_size hsampler.size_le
    · rintro type htype
      cases htype
      exact hsampler.lt_size

theorem WellFormed.samplerAccessor (hm : m.WellFormed) : m.samplerAccessor.2.WellFormed ∧
    (m.samplerAccessor.1 : Nat) < m.samplerAccessor.2.functions.size := by
  obtain ⟨htyped, hle⟩ := hm.typed.samplerAccessor
  rcases m.samplerAccessor_eq with ⟨f, hf, -, hsame⟩ | ⟨-, hid, d, -, hbody, hstore, hpush⟩
  · refine ⟨⟨hm.names.samplerAccessor, htyped.earlier, fun g hg => ?_⟩, ?_⟩
    · rw [hsame] at hg ⊢
      exact (hm.functions g hg).mono (Nat.le_refl _) hle
    · rw [hsame]
      exact lt_size_of_function? hf
  · refine ⟨⟨hm.names.samplerAccessor, htyped.earlier, fun g hg => ?_⟩, ?_⟩
    · have hgtyped := htyped.functions g hg
      rw [hpush, Array.mem_push] at hg
      rw [hpush, Array.size_push]
      rcases hg with hold | rfl
      · exact (hm.functions g hold).mono (Nat.le_succ _) hle
      · exact Function.wellFormed_of_isDeclaration hbody hstore hgtyped
    · rw [hid, hpush, Array.size_push]
      exact Nat.lt_succ_self _

theorem RewrittenTo.wellFormed {initializer : FunctionId} (hm : m.WellFormed)
    (h : m.RewrittenTo rows initializer m₁) : m₁.WellFormed := by
  rcases h with ⟨-, rfl⟩ | ⟨htypes, hrewrites⟩
  · exact hm
  obtain ⟨hdeclared, hlt⟩ := hm.samplerAccessor
  have hsize : m₁.functions.size = m.samplerAccessor.2.functions.size := by
    simpa using (List.Forall₂.length_eq hrewrites).symm
  refine ⟨?_, htypes ▸ hdeclared.earlier, fun g hg => ?_⟩
  · rw [NamesDistinct, ← names_eq_of_forall₂ hrewrites fun f g hfg => by
      rw [(SamplerBinding.rewrite_ok hfg).1]]
    exact hdeclared.names
  · obtain ⟨f, hf, hfg⟩ := exists_mem_of_forall₂ hrewrites (Array.mem_def.mp hg)
    rw [hsize, htypes]
    exact SamplerBinding.rewrite_wellFormed (hdeclared.functions f (Array.mem_def.mpr hf)) hlt hfg

/-- **Binding the samplers keeps a module well-formed.** -/
theorem WellFormed.bindSamplers (hm : m.WellFormed)
    (h : m.bindSamplers rows = .ok (m', changed)) : m'.WellFormed := by
  rcases bindSamplers_ok h with ⟨-, rfl⟩ | ⟨initializer, removed, m₁, -, hrewritten, hremove⟩
  · exact hm
  · exact (hrewritten.wellFormed hm).remove hremove

theorem WellFormed.allocateSamplers (hm : m.WellFormed)
    (h : (m.allocateSamplers c).2.result = .ok (m₁, changed)) : m₁.WellFormed := by
  rcases allocateSamplers_ok h with ⟨-, -, rfl⟩ | ⟨-, hbind⟩
  · exact hm
  · exact hm.bindSamplers hbind

/-! ## Accessors -/

/-- What was entered is in the table, and the module is typed still. -/
structure Declares (m : Module) (id : TypeId) (m' : Module) : Prop where
  typed : m'.Typed
  enters : m.types.Enters id m'.types

theorem Typed.insertShape (hm : m.Typed) (shape : Shape)
    (hshape : ∀ c ∈ shape.components, (c : Nat) < m.types.size) :
    m.Declares (m.insertShape shape).1 (m.insertShape shape).2 :=
  have h := hm.insert (.anonymous shape) hshape
  ⟨h.1, h.2⟩

theorem Typed.insertCarrier (hm : m.Typed) (index : Nat) {data : TypeId}
    (hdata : (data : Nat) < m.types.size) :
    m.Declares (m.insertCarrier index data).1 (m.insertCarrier index data).2 := by
  obtain ⟨hstruct, hcarrier⟩ := hm.insert ⟨some (ReservedName.carrier index), .struct [⟨none, data⟩]⟩
    fun c hc => by
      obtain rfl := List.mem_singleton.mp hc
      exact hdata
  obtain ⟨hpointer, henters⟩ := hstruct.insertShape (.pointer _ .storageBuffer) fun c hc => by
    obtain rfl := List.mem_singleton.mp hc
    exact hcarrier.lt_size
  exact ⟨hpointer, hcarrier.trans henters⟩

theorem Typed.insertAccessorResult (hm : m.Typed) (index : Nat) {type : TypeId}
    (htype : (type : Nat) < m.types.size) :
    m.Declares (m.insertAccessorResult index type).1 (m.insertAccessorResult index type).2 := by
  have hself : m.Declares type m := ⟨hm, hm.earlier, htype, .refl _⟩
  unfold Module.insertAccessorResult
  split
  · exact hself
  · exact hself
  · rename_i pointee space heq
    obtain ⟨entry, hentry, hshape⟩ := Option.map_eq_some_iff.mp heq
    have hpointee := hm.earlier type entry hentry pointee (by simp [hshape, Shape.components])
    obtain ⟨helements, harray⟩ := hm.insertShape (.array pointee none) fun c hc => by
      obtain rfl := List.mem_singleton.mp hc
      exact Nat.lt_trans hpointee htype
    obtain ⟨hcarrier, henters⟩ := helements.insertCarrier index harray.lt_size
    exact ⟨hcarrier, harray.trans henters⟩
  · exact hm.insertCarrier index htype

theorem Typed.addAccessor (hm : m.Typed) (index : Nat) {key : Discriminant}
    (hkey : (key.type : Nat) < m.types.size) :
    (m.addAccessor index key).Typed ∧ m.types.size ≤ (m.addAccessor index key).types.size := by
  obtain ⟨hresult, henters⟩ := hm.insertAccessorResult index hkey
  obtain ⟨hscalar, hu32⟩ := hresult.insertShape (.scalar .u32) fun _ hc =>
    absurd hc List.not_mem_nil
  refine ⟨hscalar.push (Function.typed_declaration (fun type htype => ?_) (fun type htype => ?_)
    true), Nat.le_trans henters.size_le hu32.size_le⟩
  · rw [List.eq_of_mem_replicate (n := 4) htype]
    exact hu32.lt_size
  · cases htype
    exact Nat.lt_of_lt_of_le henters.lt_size hu32.size_le

theorem Typed.addAccessors : ∀ {keys : List Discriminant} {m : Module} (index : Nat), m.Typed →
    (∀ key ∈ keys, (key.type : Nat) < m.types.size) →
    (m.addAccessors index keys).Typed ∧ m.types.size ≤ (m.addAccessors index keys).types.size
  | [], _, _, hm, _ => ⟨hm, Nat.le_refl _⟩
  | key :: keys, m, index, hm, hkeys => by
    obtain ⟨hfirst, hle⟩ := hm.addAccessor index (hkeys key List.mem_cons_self)
    obtain ⟨hothers, hle'⟩ := Typed.addAccessors (index + 1) hfirst fun other hother =>
      Nat.lt_of_lt_of_le (hkeys other (List.mem_cons_of_mem _ hother)) hle
    exact ⟨hothers, Nat.le_trans hle hle'⟩

end Module

/-! ## Kernels -/

namespace Function

variable {f : Function} {first : FunctionId} {size types : Nat}

theorem resultIds_appendArgument (f : Function) (kind : ArgumentKind) (r : ExprId) :
    (f.appendArgument kind r).2.resultIds = f.resultIds := by
  cases kind with
  | buffer => exact f.resultIds_appendZeroAccess r 3
  | pod => exact (resultIds_append _ rfl).trans (f.resultIds_appendZeroAccess r 2)
  | _ => rfl

/-- Binding an argument adds the result of its call, and no other. -/
theorem resultIds_bindArgument (f : Function) (first : FunctionId) (row : ArgumentRow) :
    (f.bindArgument first row).2.resultIds
      = f.resultIds ++ (f.bindArgument first row).1.result.toList := by
  let literals : List Literal := [.u32 row.set, .u32 row.binding, .u32 row.kind.tag, .u32 row.position]
  let operands := appendLiterals literals f
  let result := operands.2.append (.result (first + row.discriminant))
  calc (f.bindArgument first row).2.resultIds
      = (result.2.appendArgument row.kind result.1).2.resultIds :=
        resultIds_substituteParameter _ _ _
    _ = result.2.resultIds := resultIds_appendArgument _ _ _
    _ = operands.2.resultIds ++ [operands.2.expressions.size] := resultIds_append_result _ _
    _ = f.resultIds ++ [operands.2.expressions.size] := by
        rw [resultIds_appendLiterals]

theorem resultIds_bindEach (first : FunctionId) (rows : List ArgumentRow) :
    ∀ f : Function, (bindEach first rows f).2.resultIds
      = f.resultIds ++ (bindEach first rows f).1.filterMap Call.result := by
  induction rows with
  | nil => exact fun f => (List.append_nil _).symm
  | cons row rows ih =>
    intro f
    have hothers : (bindEach first (row :: rows) f).2.resultIds = _ :=
      ih (f.bindArgument first row).2
    rw [hothers, resultIds_bindArgument, List.append_assoc]
    refine congrArg (f.resultIds ++ ·) ?_
    rw [show (bindEach first (row :: rows) f).1 = (f.bindArgument first row).1
      :: (bindEach first rows (f.bindArgument first row).2).1 from rfl, List.filterMap_cons]
    cases (f.bindArgument first row).1.result <;> rfl

/-- **Binding its arguments keeps a kernel well-formed.** -/
theorem WellFormed.bindArguments (hf : f.WellFormed size types) (hbody : f.body.isSome)
    {rows : List ArgumentRow} (hnodup : (rows.map ArgumentRow.position).Nodup)
    (hrows : ∀ row ∈ rows, (first + row.discriminant : Nat) < size) :
    (f.bindArguments first rows).WellFormed size types := by
  obtain ⟨σ, ρ, hb⟩ := binds_bindEach first rows f hnodup
  have hfetched : ∀ c ∈ (bindEach first rows f).1, ∃ row ∈ rows, ∃ r,
      (bindEach first rows f).2.Fetches first row c r := by
    intro c hc
    obtain ⟨row, hrow, r, hfetch, -⟩ := exists_mem_of_forall₂ hb.fetches hc
    exact ⟨row, hrow, r, hfetch⟩
  refine hf.revise hb.revises hbody ⟨resultIds_bindEach first rows f, fun c hc => ?_,
    fun c hc r hr => ?_, fun c hc => ?_⟩
  · obtain ⟨row, hrow, r, hfetch⟩ := hfetched c hc
    exact hfetch.callee ▸ hrows row hrow
  · obtain ⟨row, -, r', hfetch⟩ := hfetched c hc
    obtain rfl : r' = r := Option.some.inj (hfetch.result.symm.trans hr)
    exact hfetch.expr
  · obtain ⟨row, -, r, hfetch⟩ := hfetched c hc
    exact ⟨row.operands, hfetch.operands⟩

end Function

namespace Module

variable {m m' : Module} {samplers : List SamplerRow} {c : Compilation} {changed : Bool}

/-- **Binding the arguments keeps a module well-formed.** -/
theorem BoundBy.wellFormed {next final : Nat} {planned : List (FunctionId × List ArgumentRow)}
    {n : Numbering} (h : m.BoundBy next planned n final m') (hm : m.WellFormed) :
    m'.WellFormed := by
  have hkeys : ∀ key ∈ n.keys, (key.type : Nat) < m.types.size := by
    intro key hkey
    obtain ⟨kind, hkind⟩ := h.key_typed key hkey
    exact TypeTable.lt_size_of_argumentKind hkind
  obtain ⟨htyped, hle⟩ := hm.typed.addAccessors 0 hkeys
  have htypes : m'.types = (m.addAccessors 0 n.keys).types := by
    rw [h.module_eq, types_bindArguments]
  refine ⟨h.namesDistinct hm.names, htypes ▸ htyped.earlier, fun g hg => ?_⟩
  rw [htypes]
  obtain ⟨id, hid⟩ := mem_functions_iff.mp hg
  by_cases hold : (id : Nat) < m.functions.size
  · obtain ⟨f, hf⟩ := exists_function?_of_lt hold
    have hwf := (hm.function hf).mono h.size_le hle
    by_cases hkernel : f.isKernel
    · obtain ⟨s, rows, -, hrows, hbound⟩ := h.kernel hf hkernel
      obtain rfl := Option.some.inj (hid.symm.trans hbound)
      refine hwf.bindArguments (Function.isKernel_iff.mp hkernel).2 hrows.nodup_position
        fun row hrow => ?_
      obtain ⟨p, -, hbinds⟩ := exists_mem_of_forall₂ hrows hrow
      obtain ⟨a, -, ha⟩ := h.accessor (Numbering.lt_length_of_index? hbinds.discriminant)
      exact lt_size_of_function? ha
    · obtain rfl := Option.some.inj (hid.symm.trans (h.other hf hkernel))
      exact hwf
  · obtain ⟨-, u32, result, rfl⟩ := h.declares_of_le (Nat.not_lt.mp hold) hid
    rw [h.module_eq, function?_bindArguments_of_le h.nodup h.lt_size (Nat.not_lt.mp hold)] at hid
    exact Function.wellFormed_of_isDeclaration rfl rfl
      (htyped.functions _ (mem_functions_iff.mpr ⟨id, hid⟩))

/-- **Allocation keeps a module well-formed.** -/
theorem WellFormed.allocate (hm : m.WellFormed)
    (h : (m.allocate c).result = .ok (m', changed)) : m'.WellFormed := by
  obtain ⟨m₁, changed₁, changed₂, hsamplers, harguments, -⟩ := allocate_ok h
  obtain ⟨planned, n, final, hbound, -⟩ := allocateArguments_ok harguments
  exact hbound.wellFormed (hm.allocateSamplers hsamplers)

end Module

end ResourceBinding
