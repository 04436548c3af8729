import ResourceBinding.Proofs.Binding.Sets
import ResourceBinding.Proofs.Program.Edits

/-!
# The interface of the kernels

How arguments are bound depends on the kernels by their names, and on their parameters by position,
name and type (`Module.kernelInterfaces`). Binding the literal samplers leaves all of it as it is,
but for the function that makes samplers, which may be a kernel itself (`Module.SamplersBound`).
-/

namespace ResourceBinding

/-- A kernel, as far as the binding of its arguments depends on it: its name, and the names and
types of its parameters. -/
structure KernelInterface where
  name : String
  params : List (Option String × TypeId)

/-- An argument of a kernel. -/
structure KernelArgument where
  kernel : String
  position : Nat
  name : Option String
  type : TypeId

/-- The discriminant of an argument. -/
def KernelArgument.key (a : KernelArgument) : Discriminant :=
  ⟨a.type, a.position⟩

/-- The arguments of a kernel, in order. -/
def KernelInterface.arguments (k : KernelInterface) : List KernelArgument :=
  k.params.zipIdx.map fun ((name, type), position) => ⟨k.name, position, name, type⟩

/-- The interface of a function, if it is a kernel. -/
def Function.kernelInterface? (f : Function) : Option KernelInterface :=
  if f.isKernel then some ⟨f.name, f.params.map fun p => (p.name, p.type)⟩ else none

/-- The kernels among functions. -/
def kernelInterfaces (fs : List Function) : List KernelInterface :=
  fs.filterMap Function.kernelInterface?

namespace Module

/-- The kernels of a module, in the order of declaration. -/
def kernelInterfaces (m : Module) : List KernelInterface :=
  ResourceBinding.kernelInterfaces m.functions.toList

/-- The arguments of all kernels, in the order of declaration. -/
def kernelArguments (m : Module) : List KernelArgument :=
  m.kernelInterfaces.flatMap KernelInterface.arguments

/-- The kernels that are left once the samplers are bound: with a sampler map, the function that
makes samplers is removed. -/
def remainingKernels (m : Module) (samplers : SamplerMap) : List KernelInterface :=
  if samplers.isEmpty then m.kernelInterfaces
  else ResourceBinding.kernelInterfaces
    (m.functions.toList.eraseP (·.name == ReservedName.samplerMaker))

/-- The arguments of these kernels. -/
def remainingArguments (m : Module) (samplers : SamplerMap) : List KernelArgument :=
  (m.remainingKernels samplers).flatMap KernelInterface.arguments

/-- What is left of `m` once its samplers are bound by a map: the kernels, the types, and the names
of functions. -/
structure SamplersBound (m : Module) (samplers : SamplerMap) (m₁ : Module) : Prop where
  kernels : m₁.kernelInterfaces = m.remainingKernels samplers
  types : m.types.Extends m₁.types
  accessor : ∀ i, m₁.find? (ReservedName.accessor i) = none ↔
    m.find? (ReservedName.accessor i) = none

end Module

/-! ## Kernels -/

section Kernels

variable {f g : Function} {m : Module}

theorem Function.kernelInterface?_of_frame
    (h : g = { f with expressions := g.expressions, body := g.body })
    (hbody : g.body.isSome = f.body.isSome) : g.kernelInterface? = f.kernelInterface? := by
  have hsignature := signature_of_frame h hbody
  simp only [signature, Prod.mk.injEq] at hsignature
  obtain ⟨hkernel, hname, hparams⟩ := hsignature
  rw [kernelInterface?, kernelInterface?, hkernel, hname, hparams]

@[simp]
theorem Function.kernelInterface?_mapCallees (f : Function) (move : FunctionId → FunctionId) :
    (f.mapCallees move).kernelInterface? = f.kernelInterface? := by
  have hkernel : (f.mapCallees move).isKernel = f.isKernel := by
    simp only [isKernel, mapCallees, Option.isSome_map]
    rfl
  have hparams : (f.mapCallees move).params.map (fun p => (p.name, p.type))
      = f.params.map fun p => (p.name, p.type) := by
    simp only [mapCallees, List.map_map]
    rfl
  rw [kernelInterface?, kernelInterface?, hkernel, hparams]
  rfl

theorem Function.kernelInterface?_of_isDeclaration (h : f.body = none) :
    f.kernelInterface? = none := by
  unfold kernelInterface?
  rw [if_neg]
  simp [isKernel, h]

/-- The argument that stands for a parameter of a function, at a position. -/
def Function.argumentAt (f : Function) (p : Param × Nat) : KernelArgument :=
  ⟨f.name, p.2, p.1.name, p.1.type⟩

theorem KernelInterface.arguments_eq (f : Function) :
    KernelInterface.arguments ⟨f.name, f.params.map fun p => (p.name, p.type)⟩
      = f.params.zipIdx.map f.argumentAt := by
  rw [arguments, List.zipIdx_map, List.map_map]
  rfl

theorem Module.map_snd_kernels (m : Module) :
    m.kernels.map Prod.snd = m.functions.toList.filter (·.isKernel) := by
  have hall : m.indexed.map Prod.snd = m.functions.toList := by
    rw [indexed, List.map_map]
    exact List.zipIdx_map_fst 0 m.functions.toList
  rw [← hall, List.filter_map]
  rfl

/-- The interfaces of the kernels, one after the other. -/
theorem Module.kernelInterfaces_eq (m : Module) : m.kernelInterfaces
    = (m.kernels.map Prod.snd).map fun f => ⟨f.name, f.params.map fun p => (p.name, p.type)⟩ := by
  rw [map_snd_kernels, kernelInterfaces, ResourceBinding.kernelInterfaces]
  induction m.functions.toList with
  | nil => rfl
  | cons f fs ih =>
    rw [List.filter_cons, List.filterMap_cons, Function.kernelInterface?, ih]
    cases f.isKernel <;> rfl

/-- The parameters of the kernels, one after the other, are the arguments of the module. -/
theorem Module.flatMap_kernels (m : Module) :
    (m.kernels.map Prod.snd).flatMap (fun f => f.params.zipIdx.map f.argumentAt)
      = m.kernelArguments := by
  rw [kernelArguments, kernelInterfaces_eq]
  generalize m.kernels.map Prod.snd = fs
  rw [List.flatMap_map]
  exact congrArg (List.flatMap · fs) (funext fun f => (KernelInterface.arguments_eq f).symm)

end Kernels

/-! ## Binding the samplers -/

namespace Module

variable {m m' m₁ : Module} {id : FunctionId} {f : Function} {rows : List SamplerRow}

theorem find?_eq_none_iff_names {name : String} : m.find? name = none ↔ name ∉ m.names := by
  rw [find?_eq_none_iff, names, List.mem_map]
  simp only [Array.mem_def, ne_eq, not_exists, not_and]

/-- The first function with the name is at its position. -/
theorem eraseIdx_eq_eraseP {name : String} (h : m.find? name = some id) :
    m.functions.toList.eraseIdx id = m.functions.toList.eraseP (·.name == name) := by
  have hlist : m.functions.toList.findIdx? (·.name == name) = some id := by
    rw [← List.findIdx?_toArray, Array.toArray_toList]
    exact h
  rw [List.eraseP_eq_eraseIdx, hlist]

theorem functions_remove (h : m.remove id = .ok (f, m')) : m'.functions.toList
    = (m.functions.toList.eraseIdx id).map (·.mapCallees (shift id)) := by
  unfold remove at h
  split at h
  · cases h
  · by_cases hsites : (m.callsTo id).length = 0
    · simp only [hsites, if_true] at h
      cases h
      simp
    · simp only [hsites, if_false] at h
      cases h

/-- The types that the accessor needs are entered behind the others. -/
theorem extends_samplerAccessor (m : Module) : m.types.Extends m.samplerAccessor.2.types := by
  let scalar := m.insertShape (.scalar .u32)
  let sampler := scalar.2.insertShape .sampler
  let f : Function := { Function.declaration ReservedName.samplerAccessor
    [scalar.1, scalar.1, scalar.1] (some sampler.1) with isPure := true }
  have hentered : m.types.Extends sampler.2.types :=
    (m.types.extends_insert _).trans (scalar.2.types.extends_insert _)
  rw [show m.samplerAccessor = sampler.2.ensure f from rfl]
  rcases sampler.2.ensure_eq f with ⟨-, -, -, hsame⟩ | ⟨-, hpush⟩
  · rw [hsame]
    exact hentered
  · rw [hpush]
    exact hentered

/-- Binding the samplers leaves what it does not remove, by name and arguments. -/
theorem RewrittenTo.frame (h : m.RewrittenTo rows id m₁) :
    ∃ declared : List Function, (∀ f ∈ declared, f.body = none ∧
        f.name = ReservedName.samplerAccessor) ∧
      m₁.names = m.names ++ declared.map Function.name ∧
      m₁.functions.toList.map Function.kernelInterface?
        = m.functions.toList.map Function.kernelInterface? ++ declared.map Function.kernelInterface? ∧
      m.types.Extends m₁.types := by
  rcases h with ⟨-, rfl⟩ | ⟨htypes, hrewrites⟩
  · exact ⟨[], by simp, by simp, by simp, .refl _⟩
  · have hkept : m.types.Extends m₁.types := htypes ▸ m.extends_samplerAccessor
    have hnames : m.samplerAccessor.2.names = m₁.names :=
      names_eq_of_forall₂ hrewrites fun f g hfg => by rw [(SamplerBinding.rewrite_ok hfg).1]
    have hkernels : m₁.functions.toList.map Function.kernelInterface?
        = m.samplerAccessor.2.functions.toList.map Function.kernelInterface? := by
      refine map_eq_map_of_forall₂ (hrewrites.flip.imp fun g f hfg => ?_)
      obtain ⟨hframe, hbody, -⟩ := SamplerBinding.rewrite_ok hfg
      exact Function.kernelInterface?_of_frame hframe hbody
    rw [← hnames, hkernels]
    rcases m.samplerAccessor_eq with ⟨f, -, -, hsame⟩ | ⟨-, -, f, hname, hbody, -, hpush⟩
    · refine ⟨[], by simp, ?_, ?_, hkept⟩
      · rw [names, hsame]
        simp [names]
      · rw [hsame]
        simp
    · refine ⟨[f], by simp [hname, hbody], ?_, ?_, hkept⟩
      · rw [names, hpush]
        simp [names]
      · rw [hpush]
        simp

/-- **Binding the samplers keeps the interface of the kernels that are left.** -/
theorem samplersBound_of_bindSamplers {samplers : SamplerMap} {changed : Bool}
    (hsome : samplers ≠ []) (h : m.bindSamplers rows = .ok (m', changed)) :
    m.SamplersBound samplers m' := by
  have hremaining : m.remainingKernels samplers = ResourceBinding.kernelInterfaces
      (m.functions.toList.eraseP (·.name == ReservedName.samplerMaker)) := by
    rw [remainingKernels, if_neg (by simpa using hsome)]
  rcases bindSamplers_ok h with ⟨hnone, rfl⟩ | ⟨maker, removed, m₁, hmaker, hrewritten, hremove⟩
  · refine ⟨?_, .refl _, fun _ => .rfl⟩
    rw [hremaining, List.eraseP_of_forall_not, kernelInterfaces]
    intro f hf
    simpa using find?_eq_none_iff.mp hnone f (Array.mem_def.mpr hf)
  obtain ⟨declared, hdeclared, hnames, hkernels, htypes⟩ := hrewritten.frame
  obtain ⟨-, -, -, hnames', -⟩ := remove_ok hremove
  obtain ⟨f, hf, hname⟩ := function?_of_find? hmaker
  have hlt : (maker : Nat) < m.functions.size := lt_size_of_function? hf
  refine ⟨?_, types_remove hremove ▸ htypes, fun i => ?_⟩
  · have hnil : (declared.map Function.kernelInterface?).filterMap id = [] := by
      rw [List.filterMap_eq_nil_iff]
      rintro k hk
      obtain ⟨f, hf, rfl⟩ := List.mem_map.mp hk
      exact Function.kernelInterface?_of_isDeclaration (hdeclared f hf).1
    have hall : ∀ fs, ResourceBinding.kernelInterfaces fs
        = (fs.map Function.kernelInterface?).filterMap id := by
      intro fs
      rw [List.filterMap_map]
      rfl
    calc m'.kernelInterfaces
        = ((m₁.functions.toList.map Function.kernelInterface?).eraseIdx maker).filterMap id := by
          rw [kernelInterfaces, hall, functions_remove hremove, List.map_map, List.eraseIdx_map]
          simp only [Function.comp_def, Function.kernelInterface?_mapCallees]
      _ = ((m.functions.toList.eraseIdx maker).map Function.kernelInterface?).filterMap id := by
          rw [hkernels, List.eraseIdx_append_of_lt_length (by simpa using hlt),
            List.filterMap_append, hnil, List.append_nil, List.eraseIdx_map]
      _ = m.remainingKernels samplers := by
          rw [hremaining, eraseIdx_eq_eraseP hmaker, hall]
  -- The name of an accessor of arguments is neither that of the removed function nor a new one.
  · have hmaker_name : m.names[maker]? = some ReservedName.samplerMaker := by
      rw [getElem?_names, hf, Option.map_some, hname]
    rw [find?_eq_none_iff_names, find?_eq_none_iff_names, hnames', hnames,
      List.eraseIdx_append_of_lt_length (by rwa [length_names]), List.mem_append]
    refine not_congr ⟨fun hmem => hmem.elim List.mem_of_mem_eraseIdx fun hnew => ?_, fun hmem => ?_⟩
    · obtain ⟨f, hf, hnew⟩ := List.mem_map.mp hnew
      exact absurd (hnew.symm.trans (hdeclared f hf).2) (ReservedName.accessor_ne_samplerAccessor i)
    · obtain ⟨k, hk⟩ := List.mem_iff_getElem?.mp hmem
      refine .inl (List.mem_eraseIdx_iff_getElem?.mpr ⟨k, ?_, hk⟩)
      rintro rfl
      exact ReservedName.accessor_ne_samplerMaker i (Option.some.inj (hk.symm.trans hmaker_name))

theorem samplersBound_of_allocateSamplers {c : Compilation} {changed : Bool}
    (h : (m.allocateSamplers c).2.result = .ok (m₁, changed)) : m.SamplersBound c.samplers m₁ := by
  rcases allocateSamplers_ok h with ⟨hempty, -, rfl⟩ | ⟨hsome, hbind⟩
  · refine ⟨?_, .refl _, fun _ => .rfl⟩
    rw [remainingKernels, hempty]
    rfl
  · exact samplersBound_of_bindSamplers hsome hbind

end Module

end ResourceBinding
