import ResourceBinding.Proofs.Binding.Agreement
import ResourceBinding.Proofs.Binding.FirstFault

/-!
# The buffers that are reported are those that are bound

The discriminants of buffers are numbered on their own, before anything is bound, and those of all
arguments once the samplers are bound. Numbering some keys comes to the same as numbering all and
leaving out the others (`Numbering.keys_ofKeys_filter`). As no type changes what it is passed for,
the first numbering has the buffers of the second one, in the same order
(`runPasses_buffers_eq_filter`).
-/

namespace ResourceBinding

/-! ## Numberings of some keys -/

namespace Numbering

/-- **First occurrences among some keys are the first occurrences of these keys.** -/
theorem keys_ofKeys_filter (p : Discriminant → Bool) (keys : List Discriminant) :
    (ofKeys (keys.filter p)).keys = (ofKeys keys).keys.filter p := by
  induction keys using List.reverseRecOn with
  | nil => rfl
  | append_singleton keys key ih =>
    rw [List.filter_append, ofKeys_append_singleton, keys_insert]
    by_cases hp : p key
    · rw [List.filter_cons_of_pos hp, List.filter_nil, ofKeys_append_singleton, keys_insert, ih]
      have hsame : key ∈ (ofKeys keys).keys.filter p ↔ key ∈ (ofKeys keys).keys := by
        rw [List.mem_filter, and_iff_left hp]
      simp only [hsame]
      split
      · rfl
      · rw [List.filter_append, List.filter_cons_of_pos hp, List.filter_nil]
    · rw [List.filter_cons_of_neg hp, List.filter_nil, List.append_nil, ih]
      split
      · rfl
      · rw [List.filter_append, List.filter_cons_of_neg hp, List.filter_nil, List.append_nil]

end Numbering

/-! ## Buffers among the arguments -/

/-- Whether arguments of the type are buffers. -/
def TypeTable.isBuffer (types : TypeTable) (type : TypeId) : Bool :=
  match types.argumentKind type with
  | .ok .buffer => true
  | _ => false

theorem TypeTable.isBuffer_of_extends {types types' : TypeTable} (h : types.Extends types')
    {type : TypeId} {kind : ArgumentKind} (hkind : types.argumentKind type = .ok kind) :
    types'.isBuffer type = types.isBuffer type := by
  rw [isBuffer, isBuffer, hkind, argumentKind_of_extends h hkind]

namespace Module

variable {m m' : Module} {c : Compilation} {changed : Bool} {numbering : Numbering}

/-- A scan numbers the discriminants of buffers. -/
theorem foldlM_insertBuffer_ok (keys : List Discriminant) : ∀ n : Numbering,
    keys.foldlM m.insertBuffer n = .ok numbering →
    numbering = (keys.filter fun key => m.types.isBuffer key.type).foldl
      (fun n key => (n.insert key).2) n := by
  induction keys with
  | nil =>
    rintro n ⟨⟩
    rfl
  | cons key keys ih =>
    intro n h
    rw [List.foldlM_cons] at h
    obtain ⟨n₁, hfirst, hrest⟩ := exists_of_bind_ok h
    obtain ⟨kind, hkind, hn₁⟩ := exists_of_bind_ok hfirst
    rw [List.filter_cons, ih n₁ hrest, TypeTable.isBuffer, hkind]
    cases kind <;> cases hn₁ <;> rfl

/-- Scanning the kernels numbers their buffers, and finds what every argument is passed for. -/
theorem bufferNumbering_ok (h : m.bufferNumbering = .ok numbering) :
    numbering = .ofKeys ((m.kernelArguments.map KernelArgument.key).filter
      fun key => m.types.isBuffer key.type) ∧ m.Classified m.kernelArguments := by
  refine ⟨foldlM_insertBuffer_ok _ _ (m.bufferNumbering_eq.symm.trans h), fun a ha => ?_⟩
  have hnone := (errorOf_bufferNumbering m).symm.trans (errorOf_eq_none_iff.mpr ⟨_, h⟩)
  exact errorOf_eq_none_iff.mp (List.findSome?_eq_none_iff.mp hnone a ha)

/-- Allocation numbers the arguments of all kernels, if none of them makes samplers. -/
theorem discriminants_of_allocate
    (hmaker : ∀ f ∈ m.functions, f.isKernel → f.name ≠ ReservedName.samplerMaker)
    (h : (m.allocate c).result = .ok (m', changed)) :
    ∃ report, (m.allocate c).compilation.allocation = some report ∧
      report.discriminants = .ofKeys (m.kernelArguments.map KernelArgument.key) ∧
      (m.allocate c).compilation.buffers = c.buffers ∧ m.types.Extends m'.types := by
  obtain ⟨m₁, changed₁, changed₂, hsamplers, harguments, hcompilation⟩ := allocate_ok h
  obtain ⟨planned, n, final, hbound, hcompilation'⟩ := allocateArguments_ok harguments
  have hkept := samplersBound_of_allocateSamplers hsamplers
  refine ⟨_, by rw [hcompilation, hcompilation'], ?_, ?_, hkept.types.trans hbound.extends⟩
  · rw [discriminants_of_allocateArguments harguments (by rw [hcompilation']), kernelArguments,
      hkept.kernels, remainingKernels_eq m _ hmaker, kernelArguments]
  · rw [hcompilation, hcompilation', compilation_allocateSamplers]

end Module

section Main

variable {m m' : Module} {options : Options} {c : Compilation} {changed : Bool}

/-- What follows an allocation leaves its report, that of the buffers, and the types. -/
theorem runPasses_resolve_ok {resolve : Bool}
    (h : (runPasses (if resolve then [.resolveParameters] else []) m c).result
      = .ok (m', changed)) :
    let final := (runPasses (if resolve then [.resolveParameters] else []) m c).compilation
    m'.types = m.types ∧ final.allocation = c.allocation ∧ final.buffers = c.buffers := by
  cases resolve with
  | false =>
    cases h
    exact ⟨rfl, rfl, rfl⟩
  | true =>
    obtain ⟨m₁, changed₁, changed₂, hrun, hrest, hfinal⟩ := runPasses_cons_ok h
    cases hrun
    cases hrest
    refine ⟨m.types_pass c.options, ?_, ?_⟩
    · exact congrArg (·.allocation) hfinal
    · exact congrArg (·.buffers) hfinal

/-- **The buffers that are reported are those that are bound.** The report has the discriminants of
buffers in the order in which the allocation has numbered them among all discriminants. -/
theorem runPasses_buffers_eq_filter
    (hmaker : ∀ f ∈ m.functions, f.isKernel → f.name ≠ ReservedName.samplerMaker)
    (hrun : (runPasses (Pass.standard options) m c).result = .ok (m', changed)) :
    let final := (runPasses (Pass.standard options) m c).compilation
    ∃ buffers report, final.buffers = some buffers ∧ final.allocation = some report ∧
      buffers.keys = report.discriminants.keys.filter fun key => m'.types.isBuffer key.type := by
  have hpasses : Pass.standard options = .reportBuffers :: .allocate ::
      if options.resolve then [.resolveParameters] else [] := rfl
  rw [hpasses] at hrun ⊢
  obtain ⟨m₁, changed₁, changed₂, hbuffers, hrun, hcompilation⟩ := runPasses_cons_ok hrun
  obtain ⟨rfl, numbering, hnumbering, hreported⟩ := Module.reportBuffers_ok hbuffers
  obtain ⟨m₂, changed₃, changed₄, hallocate, hrun, hcompilation'⟩ := runPasses_cons_ok hrun
  obtain ⟨report, hreport, hdiscriminants, hkept, htypes⟩ :=
    Module.discriminants_of_allocate hmaker hallocate
  obtain ⟨htypes', hallocation, hbuffers'⟩ := runPasses_resolve_ok hrun
  obtain ⟨hscanned, hclassified⟩ := Module.bufferNumbering_ok hnumbering
  refine ⟨numbering, report, ?_, ?_, ?_⟩
  · rw [hcompilation, hcompilation', hbuffers']
    exact hkept.trans (congrArg (·.buffers) hreported)
  · rw [hcompilation, hcompilation', hallocation]
    exact hreport
  · rw [hscanned, hdiscriminants, Numbering.keys_ofKeys_filter]
    refine List.filter_congr fun key hkey => ?_
    obtain ⟨a, ha, rfl⟩ := List.mem_map.mp ((Numbering.nodup_ofKeys_and_mem_iff _).2 key |>.mp hkey)
    obtain ⟨kind, hkind⟩ := hclassified a ha
    rw [htypes']
    exact (TypeTable.isBuffer_of_extends htypes hkind).symm

end Main

/-- Two kernels that share a position, but not what is passed there. -/
def mixedSource : String :=
  "kernel @fill(%n: u32, %out: ptr<global, f32>) \x7b \x7d
kernel @copy(%in: ptr<global, f32>, %out: ptr<global, f32>) \x7b \x7d"

/-- The number at position zero has no place among the buffers. -/
theorem runPasses_buffers_mixed : ∃ m m' changed buffers report,
    Module.read mixedSource = .ok m ∧
    (∀ f ∈ m.functions, f.isKernel → f.name ≠ ReservedName.samplerMaker) ∧
    (runPasses (Pass.standard .none) m (.start .none [])).result = .ok (m', changed) ∧
    (runPasses (Pass.standard .none) m (.start .none [])).compilation.buffers = some buffers ∧
    (runPasses (Pass.standard .none) m (.start .none [])).compilation.allocation = some report ∧
    buffers.keys.map Discriminant.position = [1, 0] ∧
    report.discriminants.keys.map Discriminant.position = [0, 1, 0] ∧
    buffers.keys = report.discriminants.keys.filter fun key => m'.types.isBuffer key.type := by
  have hcheck : (Module.read mixedSource).toOption.any (fun m =>
      m.functions.all (fun f => !f.isKernel || f.name != ReservedName.samplerMaker) &&
      let final := runPasses (Pass.standard .none) m (.start .none [])
      final.result.toOption.any fun _ =>
        final.compilation.buffers.any (·.keys.map Discriminant.position == [1, 0]) &&
        final.compilation.allocation.any
          (·.discriminants.keys.map Discriminant.position == [0, 1, 0])) := by
    decide +kernel
  obtain ⟨m, hread, hcheck⟩ := exists_of_any_toOption hcheck
  obtain ⟨hall, hcheck⟩ := Bool.and_eq_true_iff.mp hcheck
  obtain ⟨⟨m', changed⟩, hrun, hcheck⟩ := exists_of_any_toOption hcheck
  have hmaker : ∀ f ∈ m.functions, f.isKernel → f.name ≠ ReservedName.samplerMaker := by
    intro f hf hkernel
    simpa [hkernel] using Array.all_eq_true_iff_forall_mem.mp hall f hf
  obtain ⟨buffers, report, hbuffers, hreport, hsame⟩ := runPasses_buffers_eq_filter hmaker hrun
  simp only [hbuffers, hreport, Option.any_some, Bool.and_eq_true, beq_iff_eq] at hcheck
  exact ⟨m, m', changed, buffers, report, hread, hmaker, hrun, hbuffers, hreport, hcheck.1,
    hcheck.2, hsame⟩

end ResourceBinding
