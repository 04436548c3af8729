import ResourceBinding.Proofs.Binding.Sets
import ResourceBinding.Proofs.Calls.Chain
import ResourceBinding.Proofs.FixedResource.Provenance

/-!
# Who may call the accessors, and with which operands

After an allocation, each call of an accessor passes the operands of a row. An argument of a kernel
is fetched by that kernel alone. In terms that outlast the allocation: by a function that the kernel
guards (`AllocationReport.Grants`).

* `AllocationReport.Grants.inherit`: what all callers of a function are granted for one set and
  binding, the function may be granted too.
* `Module.allocate_allocatedBy`: what an allocation leaves behind.
-/

namespace ResourceBinding

/-- The function `caller` may pass the operands to `callee`: they are those of a literal sampler, or
of an argument of a kernel that guards the caller. -/
inductive AllocationReport.Grants (report : AllocationReport) (m : Module)
    (caller callee : FunctionId) : List Literal → Prop
  | sampler {row : SamplerRow} :
      row ∈ report.samplers → m.nameOf callee = ReservedName.samplerAccessor →
      Grants report m caller callee row.operands
  | argument {row : ArgumentRow} {kernel : FunctionId} {k : Function} :
      row ∈ report.arguments → m.nameOf callee = ReservedName.accessor row.discriminant →
      m.function? kernel = some k → k.isKernel → k.name = row.kernel → m.Guards kernel caller →
      Grants report m caller callee row.operands

/-- The operands give a set and a binding. -/
def GivesSlot (ls : List Literal) (set binding : Nat) : Prop :=
  constantOperand (ls.map some) 0 = .ok set ∧ constantOperand (ls.map some) 1 = .ok binding

theorem SamplerRow.givesSlot_iff {row : SamplerRow} {set binding : Nat} :
    GivesSlot row.operands set binding ↔ row.set = set ∧ row.binding = binding := by
  change Except.ok row.set = Except.ok set ∧ Except.ok row.binding = Except.ok binding ↔ _
  simp

theorem ArgumentRow.givesSlot_iff {row : ArgumentRow} {set binding : Nat} :
    GivesSlot row.operands set binding ↔ row.set = set ∧ row.binding = binding := by
  change Except.ok row.set = Except.ok set ∧ Except.ok row.binding = Except.ok binding ↔ _
  simp

theorem AllocationReport.eq_of_slot {report : AllocationReport} (h : report.slots.Nodup)
    {row row' : ArgumentRow} (hrow : row ∈ report.arguments) (hrow' : row' ∈ report.arguments)
    (hset : row.set = row'.set) (hbinding : row.binding = row'.binding) : row = row' :=
  List.inj_on_of_nodup_map (List.nodup_append.mp h).2.1 hrow hrow'
    (Prod.ext hset hbinding)

/-- **What all callers of a function are granted the function is granted**, as far as one set and
binding go: these belong to one kernel, which guards all callers. -/
theorem AllocationReport.Grants.inherit {report : AllocationReport} {m : Module}
    (hslots : report.slots.Nodup) (hnames : m.NamesDistinct) {id callee caller : FunctionId}
    {ls : List Literal} {set binding : Nat}
    (hkernel : ∀ f, m.function? id = some f → ¬ f.isKernel)
    (hcallers : ∀ caller, m.Calls caller id →
      ∃ ls, report.Grants m caller callee ls ∧ GivesSlot ls set binding)
    (h : report.Grants m caller callee ls) (hslot : GivesSlot ls set binding) :
    report.Grants m id callee ls := by
  cases h with
  | sampler hrow hname => exact .sampler hrow hname
  | @argument row kernel k hrow hname hk hkk hkname _ =>
    refine .argument hrow hname hk hkk hkname (.of_callers hkernel fun other hother => ?_)
    obtain ⟨ls', hgrants, hslot'⟩ := hcallers other hother
    cases hgrants with
    | sampler _ hname' =>
      exact absurd (hname.symm.trans hname') (ReservedName.accessor_ne_samplerAccessor _)
    | @argument row' kernel' k' hrow' _ hk' _ hkname' hguards =>
      obtain ⟨hset, hbinding⟩ := ArgumentRow.givesSlot_iff.mp hslot
      obtain ⟨hset', hbinding'⟩ := ArgumentRow.givesSlot_iff.mp hslot'
      -- One set and binding, so one row and one kernel.
      obtain rfl := AllocationReport.eq_of_slot hslots hrow hrow' (hset.trans hset'.symm)
        (hbinding.trans hbinding'.symm)
      obtain rfl := hnames.eq_of_name hk hk' (hkname.trans hkname'.symm)
      exact hguards

/-! ## What an allocation leaves behind -/

/-- The call that stands at a place of a block, where only the statements of the block itself are
counted. -/
def Block.topCall? : Block → Nat → Option Call
  | nil, _ => none
  | cons (.call c) _, 0 => some c
  | cons _ _, 0 | branch _ _ _ _, 0 | loop _ _, 0 => none
  | cons _ rest, n + 1 | branch _ _ _ rest, n + 1 | loop _ rest, n + 1 => rest.topCall? n

theorem Block.topCall?_prepend (b : Block) {cs : List Call} {i : Nat} {c : Call}
    (h : cs[i]? = some c) : (b.prepend cs).topCall? i = some c := by
  induction cs generalizing i with
  | nil => cases h
  | cons first cs ih =>
    cases i with
    | zero =>
      cases h
      rfl
    | succ i => exact ih (by simpa using h)

/-- The statement at the position of the row is the call of its accessor with its operands. -/
def Function.FetchesAt (m : Module) (f : Function) (row : ArgumentRow) : Prop :=
  ∃ body c, f.body = some body ∧ body.topCall? row.position = some c ∧
    m.nameOf c.callee = ReservedName.accessor row.discriminant ∧
    c.arguments.map f.literal? = row.operands.map some

/-- The module is what the allocation with the report has made of one without accessors. -/
structure Module.AllocatedBy (m : Module) (report : AllocationReport) : Prop where
  names : m.NamesDistinct
  linked : m.Linked
  slots : report.slots.Nodup
  declared : ∀ id f, m.function? id = some f → m.isAccessor id → f.body = none
  granted : ∀ id f, m.function? id = some f →
    f.Accounts (m.isAccessor · = true) (report.Grants m id)
  fetched : ∀ row ∈ report.arguments, ∃ id f, m.function? id = some f ∧ f.isKernel ∧
    f.name = row.kernel ∧ f.FetchesAt m row

/-- No function of the module is an accessor. -/
def Module.AccessorFree (m : Module) : Prop :=
  ∀ f ∈ m.functions, f.name ≠ ReservedName.samplerAccessor ∧ ReservedName.isAccessor f.name = false

/-! ### Bound kernels -/

namespace Function

variable {f : Function} {first : FunctionId} {rows : List ArgumentRow} {size : Nat}
  {asked : FunctionId → Prop} {granted : FunctionId → List Literal → Prop}

theorem linked_bindArguments (hf : f.Linked size)
    (hnodup : (rows.map ArgumentRow.position).Nodup)
    (hrows : ∀ row ∈ rows, (first + row.discriminant : Nat) < size) :
    (f.bindArguments first rows).Linked size := by
  obtain ⟨σ, ρ, hb⟩ := binds_bindEach first rows f hnodup
  refine linked_prependCalls (hb.revises.linked hf) fun c hc => ?_
  obtain ⟨row, hrow, r, hfetch, -⟩ := exists_mem_of_forall₂ hb.fetches hc
  refine ⟨?_, fun r' hr' => ?_⟩
  · rw [hfetch.callee]
    exact hrows row hrow
  · rw [hfetch.result, Option.some.injEq] at hr'
    rw [← hr']
    exact hfetch.expr

/-- Binding arguments adds calls that pass the operands of the rows. -/
theorem accounts_bindArguments (hf : f.Accounts asked granted)
    (hnodup : (rows.map ArgumentRow.position).Nodup)
    (hrows : ∀ row ∈ rows, granted (first + row.discriminant) row.operands) :
    (f.bindArguments first rows).Accounts asked granted := by
  obtain ⟨σ, ρ, hb⟩ := binds_bindEach first rows f hnodup
  refine accounts_prependCalls (hb.revises.accounts hf) fun c hc _ => ?_
  obtain ⟨row, hrow, r, hfetch, -⟩ := exists_mem_of_forall₂ hb.fetches hc
  exact ⟨row.operands, hfetch.callee ▸ hrows row hrow, hfetch.operands⟩

/-- The arguments are fetched in front of the body, in the order of the rows. -/
theorem exists_topCall_bindArguments (hbody : f.body.isSome) (first : FunctionId)
    (hnodup : (rows.map ArgumentRow.position).Nodup) {i : Nat} {row : ArgumentRow}
    (hi : rows[i]? = some row) :
    ∃ body c r, (f.bindArguments first rows).body = some body ∧ body.topCall? i = some c ∧
      (f.bindArguments first rows).Fetches first row c r := by
  obtain ⟨σ, ρ, hb⟩ := binds_bindEach first rows f hnodup
  obtain ⟨c, hc, r, hfetch, -⟩ := exists_getElem?_of_forall₂ hb.fetches hi
  obtain ⟨body, hbody⟩ := Option.isSome_iff_exists.mp hbody
  refine ⟨(body.mapOperands σ).prepend (bindEach first rows f).1, c, r, ?_,
    Block.topCall?_prepend _ hc, ⟨hfetch.callee, hfetch.operands, hfetch.result, hfetch.expr⟩⟩
  change Option.map _ (bindEach first rows f).2.body = _
  rw [hb.revises.body, hbody]
  rfl

end Function

namespace Module.BoundBy

variable {m m' : Module} {next final : Nat} {planned : List (FunctionId × List ArgumentRow)}
  {n : Numbering}

theorem size_le (h : m.BoundBy next planned n final m') :
    m.functions.size ≤ m'.functions.size := by
  refine Nat.le_of_not_lt fun hlt => ?_
  obtain ⟨f, hf⟩ := exists_function?_of_lt hlt
  obtain ⟨g, hg, -⟩ := h.exists_function hf
  exact Nat.lt_irrefl _ (lt_size_of_function? hg)

/-- **Binding the arguments keeps the module linked.** -/
theorem linked (h : m.BoundBy next planned n final m') (hm : m.Linked) : m'.Linked := by
  intro g hg
  obtain ⟨id, hid⟩ := mem_functions_iff.mp hg
  by_cases hold : (id : Nat) < m.functions.size
  · obtain ⟨f, hf⟩ := exists_function?_of_lt hold
    have hlinked := (hm f (mem_functions_iff.mpr ⟨id, hf⟩)).mono h.size_le
    by_cases hkernel : f.isKernel
    · obtain ⟨s, rows, -, hrows, hbound⟩ := h.kernel hf hkernel
      obtain rfl := Option.some.inj (hid.symm.trans hbound)
      refine Function.linked_bindArguments hlinked hrows.nodup_position fun row hrow => ?_
      obtain ⟨p, -, hbinds⟩ := exists_mem_of_forall₂ hrows hrow
      obtain ⟨a, -, ha⟩ := h.accessor (Numbering.lt_length_of_index? hbinds.discriminant)
      exact lt_size_of_function? ha
    · obtain rfl := Option.some.inj (hid.symm.trans (h.other hf hkernel))
      exact hlinked
  · obtain ⟨-, u32, result, rfl⟩ := h.declares_of_le (Nat.not_lt.mp hold) hid
    exact Function.linked_of_isDeclaration rfl

/-- Each row is that of a kernel, among the rows that are bound there. -/
theorem exists_kernel (h : m.BoundBy next planned n final m') {row : ArgumentRow}
    (hrow : row ∈ planned.flatMap Prod.snd) :
    ∃ id f s rows, m.function? id = some f ∧ f.isKernel ∧ row ∈ rows ∧
      BindAll m n f s 0 f.params rows ∧
      m'.function? id = some (f.bindArguments m.functions.size rows) := by
  obtain ⟨⟨id, rows⟩, hplanned, hrow⟩ := List.mem_flatMap.mp hrow
  have hid : id ∈ m.kernels.map Prod.fst := h.plans.map_fst ▸ List.mem_map_of_mem hplanned
  obtain ⟨⟨id', f⟩, hf, rfl⟩ := List.mem_map.mp hid
  obtain ⟨hf, hkernel⟩ := mem_kernels.mp hf
  obtain ⟨s, rows', hplanned', hbinds, hbound⟩ := h.kernel hf hkernel
  obtain rfl := Option.some.inj
    ((lookup_of_mem h.nodup hplanned').symm.trans (lookup_of_mem h.nodup hplanned))
  exact ⟨id', f, s, rows', hf, hkernel, hrow, hbinds, hbound⟩

/-- The argument of a row is fetched at its position. -/
theorem fetched (h : m.BoundBy next planned n final m') {row : ArgumentRow}
    (hrow : row ∈ planned.flatMap Prod.snd) :
    ∃ id f, m'.function? id = some f ∧ f.isKernel ∧ f.name = row.kernel ∧
      f.FetchesAt m' row := by
  obtain ⟨id, f, s, rows, hf, hkernel, hmem, hbinds, hbound⟩ := h.exists_kernel hrow
  obtain ⟨g, hg, hsignature⟩ := h.exists_function hf
  obtain rfl := Option.some.inj (hbound.symm.trans hg)
  obtain ⟨i, hi⟩ := List.mem_iff_getElem?.mp hmem
  obtain ⟨body, c, r, hbody, hcall, hfetch⟩ := Function.exists_topCall_bindArguments
    (Function.isKernel_iff.mp hkernel).2 m.functions.size hbinds.nodup_position hi
  obtain ⟨p, hp⟩ : ∃ p, f.params[i]? = some p := by
    refine ⟨_, List.getElem?_eq_getElem ?_⟩
    rw [← hbinds.length_eq]
    exact (List.getElem?_eq_some_iff.mp hi).1
  obtain ⟨row', hrow', hbind⟩ := hbinds.getElem? hp
  obtain rfl := Option.some.inj (hrow'.symm.trans hi)
  rw [Nat.zero_add] at hbind
  refine ⟨id, _, hg, ?_, ?_, body, c, hbody, hbind.position ▸ hcall, ?_, hfetch.operands⟩
  · rw [← hkernel]
    exact congrArg Prod.fst hsignature
  · rw [hbind.kernel]
    exact congrArg (·.2.1) hsignature
  · rw [hfetch.callee]
    exact h.nameOf_accessor (Numbering.lt_length_of_index? hbind.discriminant)

end Module.BoundBy

/-! ### The whole module -/

namespace Module

variable {m m₁ m' : Module} {c : Compilation} {changed : Bool}

/-- Once the samplers of a module without accessors are bound, the accessor of literal samplers is
the only one. -/
theorem allocateSamplers_linked (hm : m.NamesDistinct) (hlinked : m.Linked)
    (hfree : m.AccessorFree) (h : (m.allocateSamplers c).2.result = .ok (m₁, changed)) :
    m₁.NamesDistinct ∧ m₁.Linked ∧
      m₁.Accounts ReservedName.samplerAccessor
        ((m.allocateSamplers c).1.map SamplerRow.operands) ∧
      ∀ g ∈ m₁.functions, ReservedName.isAccessor g.name = false ∧
        (g.name = ReservedName.samplerAccessor → g.body = none) := by
  have hnone : m.find? ReservedName.samplerAccessor = none :=
    find?_eq_none_iff.mpr fun f hf => (hfree f hf).1
  have hold : ∀ f ∈ m.functions, ∀ g : Function, f.name = g.name →
      ReservedName.isAccessor g.name = false ∧
        (g.name = ReservedName.samplerAccessor → g.body = none) := by
    intro f hf g hname
    rw [← hname]
    exact ⟨(hfree f hf).2, fun hsampler => absurd hsampler (hfree f hf).1⟩
  rcases allocateSamplers_ok h with ⟨-, -, rfl⟩ | ⟨-, hbind⟩
  · exact ⟨hm, hlinked, accounts_of_find? hlinked hnone, fun g hg => hold g hg g rfl⟩
  · obtain ⟨hlinked₁, haccounts, hfunctions⟩ := bindSamplers_linked hm hlinked hnone hbind
    refine ⟨hm.bindSamplers hbind, hlinked₁, haccounts, fun g hg => ?_⟩
    rcases hfunctions g hg with ⟨f, hf, hname⟩ | ⟨hname, hbody⟩
    · exact hold f hf g hname
    · exact ⟨hname ▸ ReservedName.isAccessor_samplerAccessor, fun _ => hbody⟩

/-- A call of what was there before the arguments were bound is of an accessor only if it is of the
one of literal samplers. -/
theorem BoundBy.accounts_of_old {next final : Nat}
    {planned : List (FunctionId × List ArgumentRow)} {n : Numbering}
    (hbound : m₁.BoundBy next planned n final m') (hlinked : m₁.Linked)
    {report : AllocationReport}
    (haccounts : m₁.Accounts ReservedName.samplerAccessor
      (report.samplers.map SamplerRow.operands))
    (hreserved : ∀ g ∈ m₁.functions, ReservedName.isAccessor g.name = false)
    {id : FunctionId} {f : Function} (hf : f ∈ m₁.functions) :
    f.Accounts (m'.isAccessor · = true) (report.Grants m' id) := by
  intro call hcall hasked
  have hlt := (hlinked f hf).callee_lt call hcall
  have hname := hbound.nameOf hlt
  obtain ⟨g, hg⟩ := exists_function?_of_lt hlt
  -- The callee has kept its name, which is not that of the accessor of a resource.
  have hnot := hreserved g (mem_functions_iff.mpr ⟨_, hg⟩)
  rw [← nameOf_of_function? hg, ← hname] at hnot
  rcases isAccessor_iff.mp hasked with haccessor | hsampler
  · exact absurd haccessor (by simp [hnot])
  · obtain ⟨ls, hls, hliterals⟩ := haccounts f hf call hcall (hname.symm.trans hsampler)
    obtain ⟨row, hrow, rfl⟩ := List.mem_map.mp hls
    exact ⟨row.operands, .sampler hrow hsampler, hliterals⟩

/-- After the arguments are bound, accessors are declared only. -/
theorem BoundBy.declared {next final : Nat} {planned : List (FunctionId × List ArgumentRow)}
    {n : Numbering} (hbound : m₁.BoundBy next planned n final m')
    (hreserved : ∀ g ∈ m₁.functions, ReservedName.isAccessor g.name = false ∧
      (g.name = ReservedName.samplerAccessor → g.body = none))
    {id : FunctionId} {f : Function} (hf : m'.function? id = some f)
    (haccessor : m'.isAccessor id = true) : f.body = none := by
  by_cases hold : (id : Nat) < m₁.functions.size
  · obtain ⟨g, hg⟩ := exists_function?_of_lt hold
    have hmem := mem_functions_iff.mpr ⟨id, hg⟩
    rw [isAccessor_iff, hbound.nameOf hold, nameOf_of_function? hg, (hreserved g hmem).1]
      at haccessor
    have hbody := (hreserved g hmem).2 (haccessor.resolve_left Bool.false_ne_true)
    have hkernel : ¬ g.isKernel := by simp [Function.isKernel, hbody]
    obtain rfl := Option.some.inj (hf.symm.trans (hbound.other hg hkernel))
    exact hbody
  · obtain ⟨-, u32, result, rfl⟩ := hbound.declares_of_le (Nat.not_lt.mp hold) hf
    rfl

/-- **After the arguments are bound, every call of an accessor is granted.** A kernel guards
itself, so that it may fetch its own arguments. -/
theorem BoundBy.granted {next final : Nat} {planned : List (FunctionId × List ArgumentRow)}
    {n : Numbering} (hbound : m₁.BoundBy next planned n final m') {report : AllocationReport}
    (hold : ∀ id, ∀ f ∈ m₁.functions, f.Accounts (m'.isAccessor · = true) (report.Grants m' id))
    (harguments : report.arguments = planned.flatMap Prod.snd) {id : FunctionId} {g : Function}
    (hg : m'.function? id = some g) :
    g.Accounts (m'.isAccessor · = true) (report.Grants m' id) := by
  by_cases hlt : (id : Nat) < m₁.functions.size
  · obtain ⟨f, hf⟩ := exists_function?_of_lt hlt
    have haccounts := hold id f (mem_functions_iff.mpr ⟨id, hf⟩)
    by_cases hkernel : f.isKernel
    · obtain ⟨s, rows, hplanned, hbinds, hg'⟩ := hbound.kernel hf hkernel
      obtain ⟨k, hk, hsignature⟩ := hbound.exists_function hf
      obtain rfl := Option.some.inj (hg.symm.trans hg')
      obtain rfl := Option.some.inj (hg.symm.trans hk)
      refine Function.accounts_bindArguments haccounts hbinds.nodup_position fun row hrow => ?_
      obtain ⟨p, -, hbind⟩ := exists_mem_of_forall₂ hbinds hrow
      refine .argument ?_ ?_ hg ?_ ?_ (Guards.refl m' id)
      · rw [harguments]
        exact List.mem_flatMap.mpr ⟨_, hplanned, hrow⟩
      · exact hbound.nameOf_accessor (Numbering.lt_length_of_index? hbind.discriminant)
      · exact (congrArg Prod.fst hsignature).trans hkernel
      · exact (congrArg (·.2.1) hsignature).trans hbind.kernel.symm
    · obtain rfl := Option.some.inj (hg.symm.trans (hbound.other hf hkernel))
      exact haccounts
  · obtain ⟨-, u32, result, rfl⟩ := hbound.declares_of_le (Nat.not_lt.mp hlt) hg
    exact Function.accounts_of_isDeclaration rfl

/-- **What an allocation leaves behind**, of a linked module without accessors: the calls of
accessors pass the operands of rows, each kernel those of its own arguments. -/
theorem allocate_allocatedBy (hm : m.NamesDistinct) (hlinked : m.Linked) (hfree : m.AccessorFree)
    (h : (m.allocate c).result = .ok (m', changed)) :
    ∃ report, (m.allocate c).compilation.allocation = some report ∧ m'.AllocatedBy report := by
  obtain ⟨report, hreport, hhands⟩ := allocate_handsOut h
  obtain ⟨m₁, changed₁, changed₂, hsamplers, harguments, hcompilation⟩ := allocate_ok h
  obtain ⟨hm₁, hlinked₁, haccounts, hreserved⟩ := allocateSamplers_linked hm hlinked hfree hsamplers
  obtain ⟨planned, n, final, hbound, hcompilation'⟩ := allocateArguments_ok harguments
  -- The report is made of the rows of the samplers and of the plan.
  have hrows := hreport
  rw [hcompilation, hcompilation'] at hrows
  obtain rfl := Option.some.inj hrows
  refine ⟨_, hreport, {
    names := hm.allocate h
    linked := hbound.linked hlinked₁
    slots := hhands.slots_nodup
    declared := fun id f hf => hbound.declared hreserved hf
    granted := fun id g hg => hbound.granted (fun id f hf => ?_) rfl hg
    fetched := fun row hrow => hbound.fetched hrow }⟩
  exact hbound.accounts_of_old hlinked₁ haccounts (fun g hg => (hreserved g hg).1) hf

end Module

end ResourceBinding
