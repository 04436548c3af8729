import ResourceBinding.Proofs.Binding.Agreement
import ResourceBinding.Proofs.Binding.Grants
import ResourceBinding.Proofs.Binding.SamplerCalls

/-!
# Accessors are shared by discriminant, and lead to the data

Each discriminant has an accessor and, for buffers and plain data, a carrier of its own. What is put
in place of an argument walks from what its accessor returns to the data of the argument:
`Module.dataType?` follows the types on that way.

* `TypeTable.Returns`: what an accessor returns for arguments of a type, and
  `TypeTable.Returns.dataType?_replacement`: where it leads.
* `Module.BoundBy.accessorOf`: the accessors of a module with bound arguments.
* `Module.allocate_sharesAccessors`: who shares an accessor.
-/

namespace ResourceBinding

/-! ## Ways to data -/

/-- The type that an index leads to inside a type: what a pointer points to, a member of a
structure, an element of an array. -/
def TypeTable.inside? (types : TypeTable) (type : TypeId) (index : Nat) : Option TypeId :=
  match (types.get? type).map TypeEntry.shape with
  | some (.pointer pointee _) => some pointee
  | some (.struct members) => members[index]?.map Member.type
  | some (.array element _) => some element
  | _ => none

/-- The type of the data of arguments of a type: what a pointer points to, or the type itself. -/
def TypeTable.dataType (types : TypeTable) (type : TypeId) : TypeId :=
  match (types.get? type).map TypeEntry.shape with
  | some (.pointer pointee _) => pointee
  | _ => type

/-- The number that an index is. -/
def ValueTree.index? : ValueTree → Option Nat
  | literal l => l.natural?
  | _ => none

/-- The type of the data that a tree leads to. It starts at the result of a call, each index leads
inside, and loading takes what is there. -/
def Module.dataType? (m : Module) : ValueTree → Option TypeId
  | .result callee _ => (m.function? callee).bind Function.result
  | .access base indices => do
    let type ← m.dataType? base
    (← indices.mapM ValueTree.index?).foldlM m.types.inside? type
  | .load pointer => m.dataType? pointer
  | .literal _ | .parameter _ | .binary _ _ _ => none

/-! ## What accessors return -/

namespace TypeTable

variable {types types' : TypeTable} {index index' : Nat} {type result carrier data : TypeId}

/-- The type `result` is a pointer to the carrier with a number, which has the data as its one
member. -/
structure Carries (types : TypeTable) (index : Nat) (result carrier data : TypeId) : Prop where
  pointer : types.get? result = some (.anonymous (.pointer carrier .storageBuffer))
  carrier : types.get? carrier = some ⟨some (ReservedName.carrier index), .struct [⟨none, data⟩]⟩

/-- What the accessor with a number returns for arguments of a type. -/
inductive Returns (types : TypeTable) (index : Nat) (type : TypeId) : TypeId → Prop
  /-- Samplers and images are returned as such. -/
  | handle {entry : TypeEntry} : types.get? type = some entry →
      (entry.shape = .sampler ∨ ∃ access, entry.shape = .image access) →
      Returns types index type type
  /-- What is behind a pointer is in an array in the carrier. -/
  | elements {entry : TypeEntry} {pointee elements carrier result : TypeId} {space : AddressSpace} :
      types.get? type = some entry → entry.shape = .pointer pointee space →
      types.get? elements = some (.anonymous (.array pointee none)) →
      types.Carries index result carrier elements → Returns types index type result
  /-- Plain data is in the carrier itself. -/
  | plain {entry : TypeEntry} {carrier result : TypeId} : types.get? type = some entry →
      entry.shape.isPlain → types.Carries index result carrier type →
      Returns types index type result

theorem inside?_of_get? {entry : TypeEntry} (h : types.get? type = some entry) (i : Nat) :
    types.inside? type i = match entry.shape with
      | .pointer pointee _ => some pointee
      | .struct members => members[i]?.map Member.type
      | .array element _ => some element
      | _ => none := by
  rw [inside?, h, Option.map_some]
  cases entry.shape <;> rfl

/-- What is no pointer is its own data. -/
theorem dataType_eq_self {entry : TypeEntry} (h : types.get? type = some entry)
    (hshape : ∀ pointee space, entry.shape ≠ .pointer pointee space) :
    types.dataType type = type := by
  rw [dataType, h, Option.map_some]
  split
  · rename_i pointee space heq
    exact absurd (Option.some.inj heq) (hshape pointee space)
  · rfl

/-- The first index leads over the pointer, the second one into the carrier. -/
theorem Carries.inside? (h : types.Carries index result carrier data) :
    types.inside? result 0 = some carrier ∧ types.inside? carrier 0 = some data :=
  ⟨inside?_of_get? h.pointer 0, inside?_of_get? h.carrier 0⟩

theorem Carries.mono (h : types.Carries index result carrier data) (hkept : types.Extends types') :
    types'.Carries index result carrier data :=
  ⟨hkept _ _ h.pointer, hkept _ _ h.carrier⟩

/-- **The carriers of two numbers are two types.** -/
theorem Carries.index_eq {result' data' : TypeId} (h : types.Carries index result carrier data)
    (h' : types.Carries index' result' carrier data') : index = index' := by
  have hentry := Option.some.inj (h.carrier.symm.trans h'.carrier)
  exact ReservedName.carrier_injective (Option.some.inj (congrArg TypeEntry.name hentry))

theorem Returns.mono (h : types.Returns index type result) (hkept : types.Extends types') :
    types'.Returns index type result := by
  cases h with
  | handle hentry hshape => exact .handle (hkept _ _ hentry) hshape
  | elements hentry hshape helements hcarries =>
    exact .elements (hkept _ _ hentry) hshape (hkept _ _ helements) (hcarries.mono hkept)
  | plain hentry hplain hcarries => exact .plain (hkept _ _ hentry) hplain (hcarries.mono hkept)

/-- Samplers and images are passed as such. -/
theorem ofShape?_of_handle {shape : Shape} {kind : ArgumentKind}
    (hhandle : shape = .sampler ∨ ∃ access, shape = .image access)
    (h : ArgumentKind.ofShape? shape = some kind) :
    kind = .sampler ∨ kind = .readOnlyImage ∨ kind = .writeOnlyImage := by
  rcases hhandle with rfl | ⟨access, rfl⟩
  · cases h
    exact .inl rfl
  · cases access with
    | read =>
      cases h
      exact .inr (.inl rfl)
    | write =>
      cases h
      exact .inr (.inr rfl)

/-- Buffers and plain data are returned in a carrier. -/
theorem Returns.exists_carrier {kind : ArgumentKind} (h : types.Returns index type result)
    (hkind : types.argumentKind type = .ok kind) (hdata : kind = .buffer ∨ kind = .pod) :
    ∃ carrier data, types.Carries index result carrier data := by
  cases h with
  | @handle entry hentry hhandle =>
    obtain ⟨found, hfound, hshape⟩ := argumentKind_eq_ok_iff.mp hkind
    cases hfound.symm.trans hentry
    rcases ofShape?_of_handle hhandle hshape with rfl | rfl | rfl <;>
      exact absurd hdata (by decide)
  | elements _ _ _ hcarries => exact ⟨_, _, hcarries⟩
  | plain _ _ hcarries => exact ⟨_, _, hcarries⟩

end TypeTable

namespace Module

variable {m m' : Module} {index : Nat} {type result : TypeId} {id : FunctionId} {f : Function}

theorem dataType?_zeroAccess {t : ValueTree} (h : m.dataType? t = some type) (n : Nat) :
    m.dataType? (.access t (List.replicate n (.literal (.u32 0))))
      = (List.replicate n 0).foldlM m.types.inside? type := by
  have hindices : (List.replicate n (ValueTree.literal (.u32 0))).mapM ValueTree.index?
      = some (List.replicate n 0) := by
    induction n with
    | zero => rfl
    | succ n ih => rw [List.replicate_succ, List.mapM_cons, ih]; rfl
  rw [dataType?, h, hindices]
  rfl

/-- **What is put in place of an argument leads to its data.** -/
theorem dataType?_replacement {kind : ArgumentKind} (h : m.types.Returns index type result)
    (hf : m.function? id = some f) (hresult : f.result = some result)
    (hkind : m.types.argumentKind type = .ok kind) (hbound : kind ≠ .workgroup) (r : ExprId) :
    m.dataType? (kind.replacement (.result id r)) = some (m.types.dataType type) := by
  have hstart : m.dataType? (.result id r) = some result := by
    rw [dataType?, hf, Option.bind_some, hresult]
  have hshape : ∀ entry, m.types.get? type = some entry →
      ArgumentKind.ofShape? entry.shape = some kind := by
    intro entry hentry
    obtain ⟨found, hfound, hshape⟩ := TypeTable.argumentKind_eq_ok_iff.mp hkind
    cases hfound.symm.trans hentry
    exact hshape
  cases h with
  | @handle entry hentry hhandle =>
    have hown : m.types.dataType type = type := by
      refine TypeTable.dataType_eq_self hentry fun pointee space hpointer => ?_
      rcases hhandle with hsampler | ⟨access, himage⟩
      · cases hpointer.symm.trans hsampler
      · cases hpointer.symm.trans himage
    have hsame : kind.replacement (.result id r) = .result id r := by
      rcases TypeTable.ofShape?_of_handle hhandle (hshape entry hentry) with rfl | rfl | rfl <;> rfl
    rw [hown, hsame, hstart]
  | @elements entry pointee elements carrier _ space hentry hpointer helements hcarries =>
    have hdata : m.types.dataType type = pointee := by
      rw [TypeTable.dataType, hentry, Option.map_some, hpointer]
    obtain rfl : kind = .buffer := by
      have hkind := hshape entry hentry
      rw [hpointer] at hkind
      cases space <;> cases hkind
      · rfl
      · rfl
      · exact absurd rfl hbound
    obtain ⟨hover, hmember⟩ := hcarries.inside?
    have helement : m.types.inside? elements 0 = some pointee :=
      TypeTable.inside?_of_get? helements 0
    rw [ArgumentKind.replacement, dataType?_zeroAccess hstart 3, hdata]
    simp [List.replicate, hover, hmember, helement]
  | @plain entry carrier _ hentry hplain hcarries =>
    have hown : m.types.dataType type = type := by
      refine TypeTable.dataType_eq_self hentry fun pointee space hpointer => ?_
      rw [hpointer] at hplain
      cases hplain
    obtain rfl : kind = .pod := Option.some.inj
      ((hshape entry hentry).symm.trans (ArgumentKind.ofShape?_eq_pod_iff.mpr hplain))
    obtain ⟨hover, hmember⟩ := hcarries.inside?
    rw [ArgumentKind.replacement, dataType?, dataType?_zeroAccess hstart 2, hown]
    simp [List.replicate, hover, hmember]

end Module

/-! ## Declarations -/

/-- The function fetches its argument at a position from the accessor: the statement at this place
at the front of its body is a call of it, with the position as the last operand. -/
def Function.FetchesFrom (f : Function) (position : Nat) (accessor : FunctionId) : Prop :=
  ∃ body c, f.body = some body ∧ body.topCall? position = some c ∧ c.callee = accessor ∧
    (c.arguments.map f.literal?).getLast? = some (some (.u32 position))

theorem Function.FetchesFrom.eq {f : Function} {position : Nat} {accessor accessor' : FunctionId}
    (h : f.FetchesFrom position accessor) (h' : f.FetchesFrom position accessor') :
    accessor = accessor' := by
  obtain ⟨body, c, hbody, hcall, rfl, -⟩ := h
  obtain ⟨body', c', hbody', hcall', rfl, -⟩ := h'
  cases hbody.symm.trans hbody'
  cases hcall.symm.trans hcall'
  rfl

/-- The function declares the accessor with a number for arguments of a type: it takes four numbers
and is pure. -/
def Function.DeclaresFor (types : TypeTable) (index : Nat) (type : TypeId) (f : Function) : Prop :=
  ∃ u32 result, types.get? u32 = some (.anonymous (.scalar .u32)) ∧
    types.Returns index type result ∧
    f = { Function.declaration (ReservedName.accessor index) [u32, u32, u32, u32] (some result) with
      isPure := true }

theorem Function.DeclaresFor.mono {types types' : TypeTable} {index : Nat} {type : TypeId}
    {f : Function} (h : f.DeclaresFor types index type) (hkept : types.Extends types') :
    f.DeclaresFor types' index type := by
  obtain ⟨u32, result, hu32, hreturns, rfl⟩ := h
  exact ⟨u32, result, hkept _ _ hu32, hreturns.mono hkept, rfl⟩

namespace Module

variable {m m' : Module} {index : Nat} {type : TypeId} {key : Discriminant}

theorem carries_insertCarrier (m : Module) (index : Nat) (data : TypeId) :
    let r := m.insertCarrier index data
    ∃ carrier, r.2.types.Carries index r.1 carrier data :=
  ⟨_, TypeTable.get?_insert _ _, TypeTable.extends_insert _ _ _ _ (TypeTable.get?_insert _ _)⟩

theorem returns_insertAccessorResult (index : Nat) {entry : TypeEntry}
    (h : m.types.get? type = some entry) :
    (m.insertAccessorResult index type).2.types.Returns index type
      (m.insertAccessorResult index type).1 := by
  have hkept := extends_insertAccessorResult m index type _ _ h
  obtain ⟨name, shape⟩ := entry
  rw [insertAccessorResult, h, Option.map_some] at hkept ⊢
  cases shape with
  | sampler => exact .handle h (.inl rfl)
  | image access => exact .handle h (.inr ⟨access, rfl⟩)
  | pointer pointee space =>
    obtain ⟨carrier, hcarries⟩ := carries_insertCarrier (m.insertShape (.array pointee none)).2
      index (m.insertShape (.array pointee none)).1
    have helements := extends_insertCarrier (m.insertShape (.array pointee none)).2 index
      (m.insertShape (.array pointee none)).1 _ _ (TypeTable.get?_insert m.types _)
    exact .elements hkept rfl helements hcarries
  | _ =>
    obtain ⟨carrier, hcarries⟩ := m.carries_insertCarrier index type
    exact .plain hkept rfl hcarries

/-- Declaring an accessor puts its declaration behind the functions. -/
theorem declaresFor_addAccessor (index : Nat) {entry : TypeEntry}
    (h : m.types.get? key.type = some entry) :
    ∃ f, (m.addAccessor index key).function? m.functions.size = some f ∧
      f.DeclaresFor (m.addAccessor index key).types index key.type := by
  have hreturns := returns_insertAccessorResult index h
  refine ⟨_, ?_, _, _, TypeTable.get?_insert _ _, hreturns.mono (TypeTable.extends_insert _ _), rfl⟩
  have hsize : (m.insertAccessorResult index key.type).2.functions = m.functions :=
    functions_insertAccessorResult m index key.type
  rw [← hsize]
  exact Array.getElem?_push_size

/-- **Each discriminant gets its declaration**, in the order of their numbers. -/
theorem declaresFor_addAccessors (keys : List Discriminant) : ∀ (m : Module) (index : Nat),
    (∀ key ∈ keys, ∃ entry, m.types.get? key.type = some entry) →
    ∀ (i : Nat) (key : Discriminant), keys[i]? = some key →
      ∃ f, (m.addAccessors index keys).function? (m.functions.size + i) = some f ∧
        f.DeclaresFor (m.addAccessors index keys).types (index + i) key.type := by
  induction keys with
  | nil => exact fun _ _ _ _ _ h => by cases h
  | cons first keys ih =>
    intro m index hkeys i key hi
    obtain ⟨entry, hentry⟩ := hkeys first List.mem_cons_self
    obtain ⟨f, hf, hdeclares⟩ := declaresFor_addAccessor index hentry
    cases i with
    | zero =>
      obtain rfl : first = key := Option.some.inj hi
      -- What is declared later stands behind.
      obtain ⟨fs, hfs, -, -⟩ := functions_addAccessors keys (m.addAccessor index first) (index + 1)
      refine ⟨f, ?_, hdeclares.mono (extends_addAccessors keys _ (index + 1))⟩
      have hlt := lt_size_of_function? hf
      rw [Nat.add_zero, addAccessors, function?, hfs, Array.getElem?_append_left hlt]
      exact hf
    | succ i =>
      obtain ⟨g, -, hg⟩ := m.functions_addAccessor index first
      have hsize : (m.addAccessor index first).functions.size = m.functions.size + 1 := by
        rw [hg, Array.size_push]
      have hkept : ∀ key ∈ keys, ∃ entry, (m.addAccessor index first).types.get? key.type
          = some entry := by
        intro key hkey
        obtain ⟨entry, hentry⟩ := hkeys key (List.mem_cons_of_mem _ hkey)
        exact ⟨entry, extends_addAccessors [first] m index _ _ hentry⟩
      have hrest := ih (m.addAccessor index first) (index + 1) hkept i key hi
      rw [hsize, Nat.add_right_comm, Nat.add_assoc index, Nat.add_comm 1] at hrest
      exact hrest

namespace BoundBy

variable {next final : Nat} {planned : List (FunctionId × List ArgumentRow)} {n : Numbering}

/-- **Each discriminant has its accessor** behind the functions that were there. -/
theorem accessorFor (h : m.BoundBy next planned n final m') {i : Nat}
    (hkey : n.keys[i]? = some key) :
    ∃ f, m'.function? (m.functions.size + i) = some f ∧ f.DeclaresFor m'.types i key.type := by
  have htyped : ∀ key ∈ n.keys, ∃ entry, m.types.get? key.type = some entry := by
    intro key hkey
    obtain ⟨kind, hkind⟩ := h.key_typed key hkey
    obtain ⟨entry, hentry, -⟩ := TypeTable.argumentKind_eq_ok_iff.mp hkind
    exact ⟨entry, hentry⟩
  obtain ⟨f, hf, hdeclares⟩ := declaresFor_addAccessors n.keys m 0 htyped i key hkey
  rw [Nat.zero_add] at hdeclares
  refine ⟨f, ?_, ?_⟩
  · rw [h.module_eq, function?_bindArguments_of_le h.nodup h.lt_size (Nat.le_add_right _ _)]
    exact hf
  · rw [h.module_eq, types_bindArguments]
    exact hdeclares

/-- Binding the arguments keeps the interfaces of the kernels. -/
theorem kernelInterfaces (h : m.BoundBy next planned n final m') :
    m'.kernelInterfaces = m.kernelInterfaces := by
  have hsignature : ∀ m : Module, m.kernelInterfaces
      = (m.functions.toList.map Function.signature).filterMap fun s =>
        if s.1 then some ⟨s.2.1, s.2.2.map fun p => (p.name, p.type)⟩ else none := by
    intro m
    rw [List.filterMap_map]
    rfl
  rw [hsignature, hsignature, h.filterMap_signature]
  exact fun s hkernel => if_neg (Bool.eq_false_iff.mp hkernel)

/-- A kernel fetches each of its arguments from the accessor of its discriminant. -/
theorem fetchesFrom (h : m.BoundBy next planned n final m') {id : FunctionId} {g : Function}
    (hg : m'.function? id = some g) (hkernel : g.isKernel) {i : Nat} {p : Param}
    (hp : g.params[i]? = some p) :
    ∃ index : Nat, n.index? ⟨p.type, i⟩ = some index ∧
      g.FetchesFrom i (m.functions.size + index) := by
  by_cases hold : (id : Nat) < m.functions.size
  · obtain ⟨f, hf⟩ := exists_function?_of_lt hold
    obtain ⟨g', hg', hsignature⟩ := h.exists_function hf
    obtain rfl := Option.some.inj (hg'.symm.trans hg)
    have hkernel' : f.isKernel := (congrArg Prod.fst hsignature).symm.trans hkernel
    have hparams : g'.params = f.params := congrArg (·.2.2) hsignature
    obtain ⟨s, rows, -, hrows, hbound⟩ := h.kernel hf hkernel'
    obtain rfl := Option.some.inj (hbound.symm.trans hg)
    obtain ⟨row, hrow, hbinds⟩ := hrows.getElem? (hparams ▸ hp)
    obtain ⟨body, c, r, hbody, hcall, hfetch⟩ := Function.exists_topCall_bindArguments
      (Function.isKernel_iff.mp hkernel').2 m.functions.size hrows.nodup_position hrow
    rw [Nat.zero_add] at hbinds
    refine ⟨row.discriminant, hbinds.discriminant, body, c, hbody, hcall, hfetch.callee, ?_⟩
    rw [hfetch.operands, ← hbinds.position]
    rfl
  · obtain ⟨-, u32, result, rfl⟩ := h.declares_of_le (Nat.not_lt.mp hold) hg
    cases hkernel

/-- **Arguments share an accessor if they have the same type and the same position**, and only
then. -/
theorem fetchesFrom_eq_iff (h : m.BoundBy next planned n final m') {id id' : FunctionId}
    {g g' : Function} (hg : m'.function? id = some g) (hg' : m'.function? id' = some g')
    (hkernel : g.isKernel) (hkernel' : g'.isKernel) {i i' : Nat} {p p' : Param}
    (hp : g.params[i]? = some p) (hp' : g'.params[i']? = some p') {a a' : FunctionId}
    (ha : g.FetchesFrom i a) (ha' : g'.FetchesFrom i' a') :
    a = a' ↔ p.type = p'.type ∧ i = i' := by
  obtain ⟨index, hindex, hfetches⟩ := h.fetchesFrom hg hkernel hp
  obtain ⟨index', hindex', hfetches'⟩ := h.fetchesFrom hg' hkernel' hp'
  rw [ha.eq hfetches, ha'.eq hfetches', Nat.add_left_cancel_iff]
  constructor
  · rintro rfl
    have hkey := (Numbering.getElem?_of_index? hindex).symm.trans
      (Numbering.getElem?_of_index? hindex')
    exact Discriminant.mk.inj (Option.some.inj hkey)
  · rintro ⟨htype, rfl⟩
    rw [htype] at hindex
    exact Option.some.inj (hindex.symm.trans hindex')

/-- What has a number has a row. -/
theorem exists_row (h : m.BoundBy next planned n final m')
    (hn : n = .ofKeys (m.kernelArguments.map KernelArgument.key)) (hkey : key ∈ n.keys) :
    ∃ row ∈ planned.flatMap Prod.snd, ∃ f s p, p.type = key.type ∧
      row.Binds m n f s key.position p := by
  rw [hn, (Numbering.nodup_ofKeys_and_mem_iff _).2, ← flatMap_kernels, List.mem_map] at hkey
  obtain ⟨a, ha, rfl⟩ := hkey
  obtain ⟨f, hf, ha⟩ := List.mem_flatMap.mp ha
  obtain ⟨⟨p, i⟩, hp, rfl⟩ := List.mem_map.mp ha
  obtain ⟨⟨id, f⟩, hkernel, rfl⟩ := List.mem_map.mp hf
  obtain ⟨s, rows, hplanned, hrows⟩ := h.plans.exists_rows hkernel
  obtain ⟨row, hrow, hbinds⟩ := hrows.getElem? (List.mk_mem_zipIdx_iff_getElem?.mp hp)
  rw [Nat.zero_add] at hbinds
  exact ⟨row, List.mem_flatMap.mpr ⟨_, hplanned, List.mem_of_getElem? hrow⟩, f, s, p, rfl, hbinds⟩

/-- What has a number is bound, and so not in the memory of a work group. -/
theorem exists_kind (h : m.BoundBy next planned n final m')
    (hn : n = .ofKeys (m.kernelArguments.map KernelArgument.key)) (hkey : key ∈ n.keys) :
    ∃ kind, m.types.argumentKind key.type = .ok kind ∧ kind ≠ .workgroup := by
  obtain ⟨row, -, f, s, p, htype, hbinds⟩ := h.exists_row hn hkey
  exact ⟨row.kind, htype ▸ Planner.argumentKind_of_kind hbinds.kind,
    Planner.ne_workgroup_of_kind hbinds.kind⟩

/-- What is put in place of an argument leads from its accessor to its data. -/
theorem exists_accessor (h : m.BoundBy next planned n final m')
    (hn : n = .ofKeys (m.kernelArguments.map KernelArgument.key)) {i : Nat}
    (hkey : n.keys[i]? = some key) :
    ∃ id f, m'.function? id = some f ∧ f.DeclaresFor m'.types i key.type ∧
      ∃ kind, m'.types.argumentKind key.type = .ok kind ∧
        ∀ r, m'.dataType? (kind.replacement (.result id r))
          = some (m'.types.dataType key.type) := by
  obtain ⟨f, hf, hdeclares⟩ := h.accessorFor hkey
  obtain ⟨kind, hkind, hbound⟩ := h.exists_kind hn (List.mem_of_getElem? hkey)
  have hkind' : m'.types.argumentKind key.type = .ok kind := by
    obtain ⟨entry, hentry, hshape⟩ := TypeTable.argumentKind_eq_ok_iff.mp hkind
    exact TypeTable.argumentKind_eq_ok_iff.mpr ⟨entry, h.extends _ _ hentry, hshape⟩
  refine ⟨_, f, hf, hdeclares, kind, hkind', fun r => ?_⟩
  obtain ⟨u32, result, -, hreturns, rfl⟩ := hdeclares
  exact dataType?_replacement hreturns hf rfl hkind' hbound r

end BoundBy

/-- Binding the samplers declares no function but their accessor. -/
theorem mem_names_of_allocateSamplers {m₁ : Module} {c : Compilation} {changed : Bool}
    (hm : m.NamesDistinct) (h : (m.allocateSamplers c).2.result = .ok (m₁, changed)) {name : String}
    (hname : name ∈ m₁.names) : name ∈ m.names ∨ name = ReservedName.samplerAccessor := by
  rcases allocateSamplers_ok h with ⟨-, -, rfl⟩ | ⟨-, hbind⟩
  · exact .inl hname
  rcases names_bindSamplers hm hbind with ⟨rfl, -⟩ | ⟨-, -, declared, hdeclared, hnames⟩
  · exact .inl hname
  rw [hnames, List.mem_append] at hname
  exact hname.imp List.mem_of_mem_erase (hdeclared name)

/-- The accessor with the number returns a pointer to the carrier with this number. -/
def HasCarrier (m : Module) (index : Nat) (carrier : TypeId) : Prop :=
  ∃ f ∈ m.functions, ∃ result data, f.name = ReservedName.accessor index ∧
    f.result = some result ∧ m.types.Carries index result carrier data

/-- No two accessors have one carrier. -/
theorem HasCarrier.index_eq {index' : Nat} {carrier : TypeId} (h : m.HasCarrier index carrier)
    (h' : m.HasCarrier index' carrier) : index = index' := by
  obtain ⟨f, -, result, data, -, -, hcarries⟩ := h
  obtain ⟨f', -, result', data', -, -, hcarries'⟩ := h'
  exact hcarries.index_eq hcarries'

/-- The accessors of the module `m'`, which has been made of `m`, are those of the keys, and the
arguments of kernels share them by their keys. -/
structure SharesAccessors (m m' : Module) (keys : List Discriminant) : Prop where
  names : m'.NamesDistinct
  /-- Each key has an accessor, which is new and leads to the data of its arguments. -/
  accessor : ∀ (index : Nat) key, keys[index]? = some key →
    m.find? (ReservedName.accessor index) = none ∧ ∃ id f, m'.function? id = some f ∧
      f.DeclaresFor m'.types index key.type ∧ ∃ kind, m'.types.argumentKind key.type = .ok kind ∧
        ∀ r, m'.dataType? (kind.replacement (.result id r)) = some (m'.types.dataType key.type)
  /-- No other function is new, but for the accessor of literal samplers. -/
  others : ∀ f ∈ m'.functions, f.name ∈ m.names ∨ f.name = ReservedName.samplerAccessor ∨
    ∃ index < keys.length, f.name = ReservedName.accessor index
  /-- Each argument is fetched from the accessor of its key. -/
  fetched : ∀ f ∈ m'.functions, f.isKernel → ∀ (i : Nat) p, f.params[i]? = some p →
    ∃ (index : Nat) (a : FunctionId), keys[index]? = some ⟨p.type, i⟩ ∧
      m'.nameOf a = ReservedName.accessor index ∧ f.FetchesFrom i a
  /-- Arguments share an accessor if they have one type and one position, and only then. -/
  shared : ∀ f ∈ m'.functions, ∀ f' ∈ m'.functions, f.isKernel → f'.isKernel →
    ∀ (i i' : Nat) p p' a a', f.params[i]? = some p → f'.params[i']? = some p' →
      f.FetchesFrom i a → f'.FetchesFrom i' a' → (a = a' ↔ p.type = p'.type ∧ i = i')
  /-- Buffers and plain data have carriers, no two keys the same. -/
  carrier : ∀ (index : Nat) key kind, keys[index]? = some key →
    m'.types.argumentKind key.type = .ok kind → kind = .buffer ∨ kind = .pod →
      ∃ carrier, m'.HasCarrier index carrier
  apart : ∀ (index index' : Nat) key key' carrier carrier', keys[index]? = some key →
    keys[index']? = some key' → key ≠ key' → m'.HasCarrier index carrier →
      m'.HasCarrier index' carrier' → carrier ≠ carrier'

/-- **Accessors and carriers are shared by discriminant.** The discriminants are the types and
positions of the arguments of the kernels that an allocation leaves, each once, in order. -/
theorem allocate_sharesAccessors {c : Compilation} {changed : Bool} (hm : m.NamesDistinct)
    (h : (m.allocate c).result = .ok (m', changed)) :
    ∃ report, (m.allocate c).compilation.allocation = some report ∧
      report.discriminants.keys = (m'.kernelArguments.map KernelArgument.key).eraseDups ∧
      m.SharesAccessors m' report.discriminants.keys := by
  obtain ⟨m₁, changed₁, changed₂, hsamplers, harguments, hcompilation⟩ := allocate_ok h
  obtain ⟨planned, n, final, hbound, hcompilation'⟩ := allocateArguments_ok harguments
  have hn : n = .ofKeys (m₁.kernelArguments.map KernelArgument.key) :=
    discriminants_of_allocateArguments harguments (by rw [hcompilation'])
  have hkept := samplersBound_of_allocateSamplers hsamplers
  refine ⟨_, by rw [hcompilation, hcompilation'], ?_, {
    names := hm.allocate h
    accessor := fun index key hkey => ⟨?_, hbound.exists_accessor hn hkey⟩
    others := fun f hf => ?_
    fetched := fun f hf hkernel i p hp => ?_
    shared := fun f hf f' hf' hkernel hkernel' i i' p p' a a' hp hp' ha ha' => ?_
    carrier := fun index key kind hkey hkind hdata => ?_
    apart := ?_ }⟩
  · rw [kernelArguments, hbound.kernelInterfaces, ← kernelArguments, ← Numbering.keys_ofKeys, ← hn]
  · exact (hkept.accessor index).mp
      (hbound.name_free index (List.getElem?_eq_some_iff.mp hkey).1)
  · have hname : f.name ∈ m'.names := mem_names.mpr ⟨f, hf, rfl⟩
    rw [hbound.names_eq, List.mem_append] at hname
    rcases hname with hold | hnew
    · exact (mem_names_of_allocateSamplers hm hsamplers hold).imp_right .inl
    · obtain ⟨i, hi, heq⟩ := List.mem_map.mp hnew
      exact .inr (.inr ⟨i, List.mem_range.mp hi, heq.symm⟩)
  · obtain ⟨id, hid⟩ := mem_functions_iff.mp hf
    obtain ⟨index, hindex, hfetches⟩ := hbound.fetchesFrom hid hkernel hp
    exact ⟨index, _, Numbering.getElem?_of_index? hindex,
      hbound.nameOf_accessor (Numbering.lt_length_of_index? hindex), hfetches⟩
  · obtain ⟨id, hid⟩ := mem_functions_iff.mp hf
    obtain ⟨id', hid'⟩ := mem_functions_iff.mp hf'
    exact hbound.fetchesFrom_eq_iff hid hid' hkernel hkernel' hp hp' ha ha'
  · obtain ⟨f, hf, u32, result, -, hreturns, rfl⟩ := hbound.accessorFor hkey
    obtain ⟨carrier, data, hcarries⟩ := hreturns.exists_carrier hkind hdata
    exact ⟨carrier, _, mem_functions_iff.mpr ⟨_, hf⟩, result, data, rfl, rfl, hcarries⟩
  · rintro index index' key key' carrier _ hkey hkey' hne hcarrier hcarrier' rfl
    obtain rfl := hcarrier.index_eq hcarrier'
    exact hne (Option.some.inj (hkey.symm.trans hkey'))

end Module

/-- Two kernels that write to buffers of one type at the same position. -/
def canvasSource : String :=
  "kernel @fill(%color: u32, %out: ptr<global, f32>) \x7b \x7d
kernel @draw(%in: image<read>, %out: ptr<global, f32>, %s: sampler) \x7b \x7d"

/-- They share the accessor of this buffer, and no other. -/
theorem allocate_canvas_sharesAccessors : ∃ m m' changed report,
    Module.read canvasSource = .ok m ∧ m.NamesDistinct ∧
    (m.allocate (.start .none [])).result = .ok (m', changed) ∧
    (m.allocate (.start .none [])).compilation.allocation = some report ∧
    report.discriminants.keys.map Discriminant.position = [0, 1, 0, 2] ∧
    report.discriminants.keys = (m'.kernelArguments.map KernelArgument.key).eraseDups ∧
    m.SharesAccessors m' report.discriminants.keys := by
  have hcheck : (Module.read canvasSource).toOption.any (fun m =>
      let final := m.allocate (.start .none [])
      final.result.toOption.any fun _ => final.compilation.allocation.any
        (·.discriminants.keys.map Discriminant.position == [0, 1, 0, 2])) := by
    decide +kernel
  obtain ⟨m, hread, hcheck⟩ := exists_of_any_toOption hcheck
  obtain ⟨⟨m', changed⟩, hrun, hcheck⟩ := exists_of_any_toOption hcheck
  have hnames := (Module.read_ok hread).1
  obtain ⟨report, hreport, hkeys, hshares⟩ := Module.allocate_sharesAccessors hnames hrun
  simp only [hreport, Option.any_some, beq_iff_eq] at hcheck
  exact ⟨m, m', changed, report, hread, hnames, hrun, hreport, hcheck, hkeys, hshares⟩

end ResourceBinding
