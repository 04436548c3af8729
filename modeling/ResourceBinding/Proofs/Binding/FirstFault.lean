import ResourceBinding.Proofs.Binding.Planning
import ResourceBinding.Proofs.WellFormed

/-!
# Which fault ends a run

A standard run ends with the first fault of the module it is given, or succeeds if there is none
(`runPasses_standard_error_iff`). Each pass leaves alone what the next one looks at, so that all
faults are those of the module that was given.
-/

namespace ResourceBinding

/-! ## Allocation -/

theorem TypeTable.argumentKind_of_extends {types types' : TypeTable} (h : types.Extends types')
    {type : TypeId} {kind : ArgumentKind} (hkind : types.argumentKind type = .ok kind) :
    types'.argumentKind type = .ok kind := by
  obtain ⟨entry, hentry, hshape⟩ := argumentKind_eq_ok_iff.mp hkind
  exact argumentKind_eq_ok_iff.mpr ⟨entry, h type entry hentry, hshape⟩

namespace Module

variable {m m₁ : Module} {samplers : SamplerMap} {c : Compilation}

/-- Every argument has a type that is passed for some. -/
def Classified (m : Module) (args : List KernelArgument) : Prop :=
  ∀ a ∈ args, ∃ kind, m.types.argumentKind a.type = .ok kind

theorem classificationFault?_eq_none_iff :
    m.classificationFault? = none ↔ m.Classified m.kernelArguments := by
  rw [classificationFault?, List.findSome?_eq_none_iff]
  simp only [Option.map_eq_none_iff, errorOf_eq_none_iff]
  rfl

theorem remainingArguments_subset (m : Module) (samplers : SamplerMap) :
    m.remainingArguments samplers ⊆ m.kernelArguments := by
  have hkernels : m.remainingKernels samplers ⊆ m.kernelInterfaces := by
    unfold remainingKernels
    split
    · exact List.Subset.refl _
    · exact List.filterMap_subset _ List.eraseP_subset
  intro a ha
  obtain ⟨k, hk, hmem⟩ := List.mem_flatMap.mp ha
  exact List.mem_flatMap.mpr ⟨k, hkernels hk, hmem⟩

/-- Binding the samplers changes nothing about what is wrong with the arguments that are left. -/
theorem SamplersBound.argumentsFault?_eq (h : m.SamplersBound samplers m₁)
    {args : List KernelArgument} (hargs : m.Classified args) :
    ∀ before, m₁.argumentsFault? before args = m.argumentsFault? before args := by
  induction args with
  | nil => exact fun _ => rfl
  | cons a args ih =>
    intro before
    obtain ⟨kind, hkind⟩ := hargs a List.mem_cons_self
    have hfind : ∀ i, (m₁.find? (ReservedName.accessor i)).isSome
        = (m.find? (ReservedName.accessor i)).isSome := by
      intro i
      rw [Bool.eq_iff_iff, Option.isSome_iff_ne_none, Option.isSome_iff_ne_none]
      exact not_congr (h.accessor i)
    have hfirst : m₁.argumentFault? before a = m.argumentFault? before a := by
      unfold argumentFault?
      simp only [hkind, TypeTable.argumentKind_of_extends h.types hkind, hfind]
    rw [argumentsFault?, argumentsFault?, hfirst,
      ih fun b hb => hargs b (List.mem_cons_of_mem a hb)]

theorem errorOf_allocateArguments (m : Module) (c : Compilation) (rows : List SamplerRow) :
    errorOf (m.allocateArguments c rows).result
      = errorOf ((Planner.plan m c.options.traceBindings).run ⟨c.nextSet, .empty, []⟩).1 := by
  unfold allocateArguments
  obtain ⟨⟨fault | a, t⟩, ht⟩ :
      ∃ r, (Planner.plan m c.options.traceBindings).run ⟨c.nextSet, .empty, []⟩ = r := ⟨_, rfl⟩
  · simp only [ht]
    rfl
  · simp only [ht]
    rfl

theorem SamplersBound.arguments (h : m.SamplersBound samplers m₁) :
    m₁.kernelArguments = m.remainingArguments samplers := by
  rw [kernelArguments, h.kernels, remainingArguments]

/-- **Binding the arguments fails at the first that is wrong**, of those that are left. -/
theorem SamplersBound.errorOf_allocateArguments (h : m.SamplersBound samplers m₁)
    (hm : m.Classified m.kernelArguments) (c : Compilation) (rows : List SamplerRow) :
    errorOf (m₁.allocateArguments c rows).result
      = m.argumentsFault? [] (m.remainingArguments samplers) := by
  have hargs : m.Classified (m.remainingArguments samplers) := fun a ha =>
    hm a (m.remainingArguments_subset samplers ha)
  have hkinds : ∀ k ∈ m₁.kernels, ∀ p ∈ k.2.params,
      ∃ kind, m₁.types.argumentKind p.type = .ok kind := by
    intro k hk p hp
    obtain ⟨i, hi⟩ := List.mem_iff_getElem?.mp hp
    have hmem : k.2.argumentAt (p, i) ∈ m₁.kernelArguments := by
      rw [← flatMap_kernels, List.mem_flatMap]
      refine ⟨k.2, List.mem_map_of_mem hk, List.mem_map_of_mem ?_⟩
      exact List.mk_mem_zipIdx_iff_getElem?.mpr hi
    obtain ⟨kind, hkind⟩ := hargs _ (h.arguments ▸ hmem)
    exact ⟨kind, TypeTable.argumentKind_of_extends h.types hkind⟩
  have hplan : Planner.FailsBy m₁ [] _
      ((Planner.kernels m₁ c.options.traceBindings m₁.kernels).run ⟨c.nextSet, .empty, []⟩) :=
    Planner.failsBy_kernels [] hkinds rfl
  rw [Module.errorOf_allocateArguments, Planner.plan, hplan.fault, flatMap_kernels, h.arguments,
    h.argumentsFault?_eq hargs]

theorem errorOf_allocate (hm : m.OperandsPresent) (hkinds : m.Classified m.kernelArguments)
    (c : Compilation) : errorOf (m.allocate c).result
      = (m.samplersFault? c.samplers).or (m.argumentsFault? [] (m.remainingArguments c.samplers)) := by
  rw [← errorOf_allocateSamplers hm]
  cases hfirst : (m.allocateSamplers c).2.result with
  | error fault =>
    simp only [allocate, hfirst]
    rfl
  | ok r =>
    obtain ⟨m₁, changed⟩ := r
    have hbound := samplersBound_of_allocateSamplers hfirst
    simp only [allocate, hfirst, errorOf_map]
    exact hbound.errorOf_allocateArguments hkinds _ _

end Module

/-! ## Runs of passes -/

section Runs

variable {m : Module} {c : Compilation}

theorem Module.errorOf_reportBuffers (m : Module) (c : Compilation) :
    errorOf (m.reportBuffers c).result = m.classificationFault? := by
  have herror : m.classificationFault? = (errorOf m.bufferNumbering).map .unclassified := by
    rw [errorOf_bufferNumbering, List.map_findSome?]
    rfl
  rw [herror, reportBuffers]
  cases m.bufferNumbering <;> rfl

/-- A run of passes fails in its first pass, or else in those behind it. -/
theorem errorOf_runPasses_cons {pass : Pass} {others : List Pass} {rest : Option Fault}
    (h : ∀ m₁ changed, (pass.run m c).result = .ok (m₁, changed) →
      errorOf (runPasses others m₁ (pass.run m c).compilation).result = rest) :
    errorOf (runPasses (pass :: others) m c).result
      = (errorOf (pass.run m c).result).or rest := by
  rw [runPasses]
  cases hfirst : (pass.run m c).result with
  | error fault => rfl
  | ok r =>
    simp only [errorOf_map]
    exact h r.1 r.2 hfirst

/-- **A standard run ends with the first fault of the module it is given, and succeeds if there is
none.** -/
theorem runPasses_standard_error_iff (hm : m.OperandsPresent) (options : Options) (fault : Fault) :
    (runPasses (Pass.standard options) m c).result = .error fault
      ↔ m.fault? c.samplers = some fault := by
  have hpasses : Pass.standard options = .reportBuffers :: .allocate ::
      if options.resolve then [.resolveParameters] else [] := rfl
  -- Resolving parameters does not fail.
  have hresolve : ∀ m₂ c₂, errorOf (runPasses
      (if options.resolve then [.resolveParameters] else []) m₂ c₂).result = none := by
    intro m₂ c₂
    cases options.resolve <;> rfl
  have hallocate : ∀ m₁ changed, (Pass.reportBuffers.run m c).result = .ok (m₁, changed) →
      errorOf (runPasses (.allocate :: if options.resolve then [.resolveParameters] else []) m₁
        (Pass.reportBuffers.run m c).compilation).result
      = (m.samplersFault? c.samplers).or
        (m.argumentsFault? [] (m.remainingArguments c.samplers)) := by
    intro m₁ changed hok
    obtain ⟨rfl, numbering, -, hreport⟩ := Module.reportBuffers_ok hok
    have hsamplers : (m₁.reportBuffers c).compilation.samplers = c.samplers := by rw [hreport]
    have hnone : m₁.classificationFault? = none :=
      (m₁.errorOf_reportBuffers c).symm.trans (errorOf_eq_none_iff.mpr ⟨_, hok⟩)
    rw [errorOf_runPasses_cons fun m₂ _ _ => hresolve m₂ _, Option.or_none, ← hsamplers]
    exact Module.errorOf_allocate hm (Module.classificationFault?_eq_none_iff.mp hnone) _
  rw [← errorOf_eq_some_iff, hpasses, errorOf_runPasses_cons hallocate, Module.fault?]
  exact iff_of_eq (congrArg (fun first => Option.or first _ = some fault)
    (Module.errorOf_reportBuffers m c))

/-- In a well-formed module, the operands of calls are expressions. -/
theorem Module.WellFormed.operandsPresent (hm : m.WellFormed) : m.OperandsPresent := by
  intro f hf c hc op hop
  exact (hm.functions f hf).operand_lt op (Function.reads_of_mem_arguments hc hop)

/-- A kernel that makes a sampler, and has an argument in the memory of a work group. -/
def tileSource : String :=
  "declare @__translate_sampler_initializer(i32) -> sampler
kernel @main(%tile: ptr<local, f32>) \x7b
  if true \x7b %s = call @__translate_sampler_initializer(5) \x7d
\x7d"

/-- Its sampler is not listed, which is found out before its argument is. -/
theorem runPasses_tile_error : ∃ m, Module.read tileSource = .ok m ∧ m.OperandsPresent ∧
    ∀ options, (runPasses (Pass.standard options) m (.start options [⟨18, "18"⟩])).result
      = .error (.samplerNotListed 5 "main") := by
  have hcheck : (Module.read tileSource).toOption.any (fun m =>
      m.fault? [⟨18, "18"⟩] == some (.samplerNotListed 5 "main")) := by
    decide +kernel
  cases hread : Module.read tileSource with
  | error e =>
    rw [hread] at hcheck
    cases hcheck
  | ok m =>
    rw [hread] at hcheck
    have hm := (Module.wellFormed_of_read hread).operandsPresent
    exact ⟨m, rfl, hm, fun options =>
      (runPasses_standard_error_iff hm options _).mpr (eq_of_beq hcheck)⟩

end Runs

end ResourceBinding
