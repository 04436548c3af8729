import ResourceBinding.Pipeline
import ResourceBinding.Proofs.FixedResource.Resolution
import ResourceBinding.Proofs.Reading.Program

/-!
# What the standard passes come to

A standard run on a module that was read and has no accessors of its own.

* `runPasses_report_describes`: every call of an accessor in the module that the run yields passes
  the operands of a row of the report, and every row is fetched by its kernel.
* `runPasses_isolates_kernels`: what a parameter was resolved to is a literal sampler, or belongs to
  one kernel, without which the function of the parameter is not reached.
-/

namespace ResourceBinding

/-! ## Runs of passes -/

section Runs

variable {m m' : Module} {c : Compilation} {changed : Bool} {options : Options}
  {samplers : SamplerMap}

/-- A run succeeds only if its first pass does, and the run of the others. -/
theorem runPasses_cons_ok {pass : Pass} {rest : List Pass}
    (h : (runPasses (pass :: rest) m c).result = .ok (m', changed)) :
    ∃ m₁ changed₁ changed₂, (pass.run m c).result = .ok (m₁, changed₁) ∧
      (runPasses rest m₁ (pass.run m c).compilation).result = .ok (m', changed₂) ∧
      (runPasses (pass :: rest) m c).compilation
        = (runPasses rest m₁ (pass.run m c).compilation).compilation := by
  rw [runPasses] at h
  cases hfirst : (pass.run m c).result with
  | error fault =>
    simp only [hfirst] at h
    cases h
  | ok r =>
    obtain ⟨m₁, changed₁⟩ := r
    simp only [hfirst] at h
    cases hrest : (runPasses rest m₁ (pass.run m c).compilation).result with
    | error fault =>
      rw [hrest] at h
      cases h
    | ok r =>
      rw [hrest] at h
      cases h
      refine ⟨m₁, changed₁, _, rfl, hrest, ?_⟩
      conv_lhs => rw [runPasses]
      simp only [hfirst]

theorem Module.reportBuffers_ok (h : (m.reportBuffers c).result = .ok (m', changed)) :
    m' = m ∧ ∃ numbering, m.bufferNumbering = .ok numbering ∧
      (m.reportBuffers c).compilation = { c with buffers := some numbering } := by
  unfold reportBuffers at h ⊢
  cases hnumbering : m.bufferNumbering with
  | error cause =>
    simp only [hnumbering] at h
    cases h
  | ok numbering =>
    simp only [hnumbering] at h
    cases h
    exact ⟨rfl, numbering, rfl, rfl⟩

theorem Module.verdicts_allocate (h : (m.allocate c).result = .ok (m', changed)) :
    (m.allocate c).compilation.verdicts = c.verdicts := by
  obtain ⟨m₁, changed₁, changed₂, -, harguments, hcompilation⟩ := allocate_ok h
  obtain ⟨planned, n, final, -, hcompilation'⟩ := allocateArguments_ok harguments
  rw [hcompilation, hcompilation', compilation_allocateSamplers]

/-- Resolving the parameters of an allocated module succeeds, and is sound. -/
theorem Module.AllocatedBy.resolveParameters_sound {report : AllocationReport}
    (hm : m.AllocatedBy report) (c : Compilation) :
    ∃ s : Resolution, s.Sound report m ∧
      (m.resolveParameters c).result = .ok (s.program, s.changed) ∧
      (m.resolveParameters c).compilation = { c with verdicts := c.verdicts ++ s.verdicts } := by
  let start : Resolution := ⟨m, [], m.callGraph.callersFirst.warnings, false⟩
  refine ⟨start.run c.options (m.candidates m.callGraph.callersFirst.toList), ?_, rfl, rfl⟩
  have hstart : start.Sound report m := ⟨.refl hm, by simp [start]⟩
  exact hstart.run hm c.options _ fun _ hp => resolvable_of_mem_candidates hp

/-- What follows an allocation is sound, be it the resolution of parameters or nothing. -/
theorem Module.AllocatedBy.runPasses_sound {report : AllocationReport} (hm : m.AllocatedBy report)
    (hallocation : c.allocation = some report) (hverdicts : c.verdicts = []) {resolve : Bool}
    (h : (runPasses (if resolve then [.resolveParameters] else []) m c).result
      = .ok (m', changed)) :
    ∃ s : Resolution, s.Sound report m ∧ m' = s.program ∧
      let final := runPasses (if resolve then [.resolveParameters] else []) m c
      final.compilation.allocation = some report ∧ final.compilation.verdicts = s.verdicts := by
  cases resolve with
  | false =>
    cases h
    exact ⟨⟨m, [], [], false⟩, ⟨.refl hm, by simp⟩, rfl, hallocation, hverdicts⟩
  | true =>
    obtain ⟨s, hsound, hresult, hcompilation⟩ := hm.resolveParameters_sound c
    obtain ⟨m₁, changed₁, changed₂, hrun, hrest, hfinal⟩ := runPasses_cons_ok h
    cases hresult.symm.trans hrun
    cases hrest
    refine ⟨s, hsound, rfl, ?_, ?_⟩
    · exact (congrArg (·.allocation) (hfinal.trans hcompilation)).trans hallocation
    · refine (congrArg (·.verdicts) (hfinal.trans hcompilation)).trans ?_
      simp only [hverdicts, List.nil_append]

/-- **A standard run allocates and resolves soundly.** -/
theorem runPasses_standard_sound (hm : m.NamesDistinct) (hlinked : m.Linked)
    (hfree : m.AccessorFree)
    (h : (runPasses (Pass.standard options) m (.start options samplers)).result
      = .ok (m', changed)) :
    ∃ report start s, start.AllocatedBy report ∧ Resolution.Sound report start s ∧
      m' = s.program ∧
      let final := runPasses (Pass.standard options) m (.start options samplers)
      final.compilation.allocation = some report ∧ final.compilation.verdicts = s.verdicts := by
  have hpasses : Pass.standard options = .reportBuffers :: .allocate ::
      if options.resolve then [.resolveParameters] else [] := rfl
  rw [hpasses] at h ⊢
  obtain ⟨m₁, changed₁, changed₂, hbuffers, h, hcompilation⟩ := runPasses_cons_ok h
  obtain ⟨rfl, numbering, -, hreport⟩ := Module.reportBuffers_ok hbuffers
  have hverdicts : (m₁.reportBuffers (.start options samplers)).compilation.verdicts = [] := by
    rw [hreport]
    rfl
  obtain ⟨start, changed₃, changed₄, hallocate, h, hcompilation'⟩ := runPasses_cons_ok h
  obtain ⟨report, hreport, hstart⟩ := Module.allocate_allocatedBy hm hlinked hfree hallocate
  obtain ⟨s, hsound, hprogram, hallocation, hfinal⟩ := hstart.runPasses_sound hreport
    ((Module.verdicts_allocate hallocate).trans hverdicts) h
  refine ⟨report, start, s, hstart, hsound, hprogram, ?_⟩
  simp only [hcompilation, hcompilation']
  exact ⟨hallocation, hfinal⟩

end Runs

/-! ### A run -/

/-- A kernel whose buffer is passed on twice. -/
def relaySource : String :=
  "fn @inner(%p: ptr<global, f32>) \x7b store %p, 1.0 \x7d
fn @outer(%p: ptr<global, f32>) \x7b call @inner(%p) \x7d
kernel @main(%data: ptr<global, f32>) \x7b call @outer(%data) \x7d"

/-- Parameters are to be resolved, and functions are to fetch what they are resolved to. -/
def relayOptions : Options :=
  { Options.none with resolve := true, fetch := true }

/-- Both functions get to fetch the buffer of the kernel themselves. -/
theorem runPasses_relay : ∃ m m', Module.read relaySource = .ok m ∧ m.AccessorFree ∧
    (runPasses (Pass.standard relayOptions) m (.start relayOptions [])).result = .ok (m', true) ∧
    (runPasses (Pass.standard relayOptions) m (.start relayOptions [])).compilation.verdicts
      = [⟨1, 0, .resolved ⟨3, 0, 0, 1⟩⟩, ⟨0, 0, .resolved ⟨3, 0, 0, 1⟩⟩] := by
  have hcheck : (Module.read relaySource).toOption.any (fun m =>
      m.functions.all (fun f =>
        f.name != ReservedName.samplerAccessor && !ReservedName.isAccessor f.name) &&
      let final := runPasses (Pass.standard relayOptions) m (.start relayOptions [])
      final.result.toOption.any (·.2) && final.compilation.verdicts ==
        [⟨1, 0, .resolved ⟨3, 0, 0, 1⟩⟩, ⟨0, 0, .resolved ⟨3, 0, 0, 1⟩⟩]) := by
    decide +kernel
  obtain ⟨m, hread, hcheck⟩ := exists_of_any_toOption hcheck
  obtain ⟨hfree, hrun⟩ := Bool.and_eq_true_iff.mp hcheck
  obtain ⟨hresult, hverdicts⟩ := Bool.and_eq_true_iff.mp hrun
  obtain ⟨⟨m', changed⟩, hfinal, hchanged⟩ := exists_of_any_toOption hresult
  obtain rfl : changed = true := hchanged
  refine ⟨m, m', hread, fun f hf => ?_, hfinal, eq_of_beq hverdicts⟩
  have hname := Array.all_eq_true_iff_forall_mem.mp hfree f hf
  simpa using hname

/-! ## The report and the module -/

/-- The module calls its accessors as the report says. -/
structure AllocationReport.Describes (report : AllocationReport) (m : Module) : Prop where
  names : m.NamesDistinct
  /-- A call of the accessor of a resource passes the operands of a row for that accessor. -/
  argument_call : ∀ f ∈ m.functions, ∀ c ∈ f.calls,
    ReservedName.isAccessor (m.nameOf c.callee) = true → ∃ row ∈ report.arguments,
      m.nameOf c.callee = ReservedName.accessor row.discriminant ∧
      c.arguments.map f.literal? = [some (.u32 row.set), some (.u32 row.binding),
        some (.u32 row.kind.tag), some (.u32 row.position)]
  sampler_call : ∀ f ∈ m.functions, ∀ c ∈ f.calls,
    m.nameOf c.callee = ReservedName.samplerAccessor → ∃ row ∈ report.samplers,
      c.arguments.map f.literal? = [some (.u32 row.set), some (.u32 row.binding),
        some (.u32 row.mapIndex)]
  /-- The argument of a row is fetched by its kernel, at its position. -/
  fetched : ∀ row ∈ report.arguments, ∃ f ∈ m.functions, f.isKernel ∧ f.name = row.kernel ∧
    f.FetchesAt m row

/-- The kernel has an argument that is bound at the set and the binding. -/
def AllocationReport.Owns (report : AllocationReport) (m : Module) (kernel : FunctionId)
    (set binding : Nat) : Prop :=
  ∃ k, m.function? kernel = some k ∧ k.isKernel ∧ ∃ row ∈ report.arguments,
    row.kernel = k.name ∧ row.set = set ∧ row.binding = binding

namespace AllocationReport.Covers

variable {report : AllocationReport} {start m : Module}

theorem describes (h : report.Covers start m) (hstart : start.AllocatedBy report) :
    report.Describes m where
  names := by
    rw [Module.NamesDistinct, h.names]
    exact hstart.names
  argument_call := by
    intro f hf c hc hname
    obtain ⟨id, hid⟩ := Module.mem_functions_iff.mp hf
    have haccessor := (h.isAccessor _).symm.trans (Module.isAccessor_iff.mpr (.inl hname))
    obtain ⟨ls, hgrants, hliterals⟩ := h.granted id f hid c hc haccessor
    rw [h.nameOf] at hname ⊢
    cases hgrants with
    | sampler _ hsampler =>
      rw [hsampler, ReservedName.isAccessor_samplerAccessor] at hname
      cases hname
    | @argument row _ _ hrow hrowname => exact ⟨row, hrow, hrowname, hliterals⟩
  sampler_call := by
    intro f hf c hc hname
    obtain ⟨id, hid⟩ := Module.mem_functions_iff.mp hf
    have haccessor := (h.isAccessor _).symm.trans (Module.isAccessor_iff.mpr (.inr hname))
    obtain ⟨ls, hgrants, hliterals⟩ := h.granted id f hid c hc haccessor
    rw [h.nameOf] at hname
    cases hgrants with
    | @sampler row hrow => exact ⟨row, hrow, hliterals⟩
    | argument _ hrowname =>
      exact absurd (hrowname.symm.trans hname) (ReservedName.accessor_ne_samplerAccessor _)
  fetched := by
    intro row hrow
    obtain ⟨id, f, hf, hkernel, hname, body, c, hbody, hcall, haccessor, hliterals⟩ :=
      hstart.fetched row hrow
    have hm := h.kernel id f hf (Function.isKernel_iff.mp hkernel).1
    refine ⟨f, Module.mem_functions_iff.mpr ⟨id, hm⟩, hkernel, hname, body, c, hbody, hcall, ?_,
      hliterals⟩
    rw [h.nameOf, haccessor]

/-- A kernel guards what it grants, also with all that functions fetch by now. -/
theorem guards (h : report.Covers start m) (hstart : start.AllocatedBy report)
    {gate id : FunctionId} (hid : start.Resolvable id) (hguards : start.Guards gate id) :
    m.Guards gate id := by
  intro path hpath
  refine hguards path (h.callChain hstart ?_ hpath)
  obtain ⟨f, hf, hbody, -⟩ := hid
  rw [Bool.eq_false_iff]
  intro haccessor
  rw [hstart.declared id f hf haccessor] at hbody
  cases hbody

/-- The slot of a row belongs to the kernel of the row, and to no other. -/
theorem owns_iff (h : report.Covers start m) (hstart : start.AllocatedBy report)
    {row : ArgumentRow} (hrow : row ∈ report.arguments) {kernel : FunctionId} {k : Function}
    (hk : start.function? kernel = some k) (hkernel : k.isKernel) (hname : k.name = row.kernel)
    (id : FunctionId) : report.Owns m id row.set row.binding ↔ id = kernel := by
  constructor
  · rintro ⟨g, hg, -, row', hrow', hname', hset, hbinding⟩
    obtain rfl := report.eq_of_slot hstart.slots hrow' hrow hset hbinding
    obtain ⟨f, hf, hrole⟩ := h.exists_of_function? hg
    refine hstart.names.eq_of_name hf hk ?_
    rw [hname, hname']
    exact congrArg Prod.fst hrole
  · rintro rfl
    have hm := h.kernel _ k hk (Function.isKernel_iff.mp hkernel).1
    exact ⟨k, hm, hkernel, row, hrow, hname.symm, rfl, rfl⟩

end AllocationReport.Covers

section Main

variable {source : String} {m m' : Module} {options : Options} {samplers : SamplerMap}
  {changed : Bool}

/-- **The report of a standard run describes the module that the run yields.** Each call of an
accessor, in any function and at any depth, passes the operands of a row, and each argument in the
report is fetched at its position by its kernel. -/
theorem runPasses_report_describes (hread : Module.read source = .ok m) (hfree : m.AccessorFree)
    (h : (runPasses (Pass.standard options) m (.start options samplers)).result
      = .ok (m', changed)) :
    ∃ report, (runPasses (Pass.standard options) m (.start options samplers)).compilation.allocation
      = some report ∧ report.Describes m' := by
  obtain ⟨hnames, hlinked⟩ := Module.read_ok hread
  obtain ⟨report, start, s, hstart, hsound, rfl, hallocation, -⟩ :=
    runPasses_standard_sound hnames hlinked hfree h
  exact ⟨report, hallocation, hsound.covers.describes hstart⟩

theorem runPasses_relay_describes : ∃ m m' report, Module.read relaySource = .ok m ∧
    m.AccessorFree ∧
    (runPasses (Pass.standard relayOptions) m (.start relayOptions [])).result = .ok (m', true) ∧
    (runPasses (Pass.standard relayOptions) m (.start relayOptions [])).compilation.allocation
      = some report ∧ report.Describes m' := by
  obtain ⟨m, m', hread, hfree, hrun, -⟩ := runPasses_relay
  obtain ⟨report, hreport, hdescribes⟩ := runPasses_report_describes hread hfree hrun
  exact ⟨m, m', report, hread, hfree, hrun, hreport, hdescribes⟩

/-- **Functions are bound to what one kernel alone passes on.** What a parameter was resolved to is
a literal sampler, or it belongs to one kernel, and every chain of calls from any kernel to the
function of the parameter passes through that one. -/
theorem runPasses_isolates_kernels (hread : Module.read source = .ok m) (hfree : m.AccessorFree)
    (h : (runPasses (Pass.standard options) m (.start options samplers)).result
      = .ok (m', changed)) :
    let final := (runPasses (Pass.standard options) m (.start options samplers)).compilation
    ∃ report, final.allocation = some report ∧
      ∀ v ∈ final.verdicts, ∀ d, v.verdict = .resolved d →
        (∃ row ∈ report.samplers, row.set = d.set ∧ row.binding = d.binding) ∨
        ∃ kernel, (∀ id, report.Owns m' id d.set d.binding ↔ id = kernel) ∧
          m'.Guards kernel v.function := by
  obtain ⟨hnames, hlinked⟩ := Module.read_ok hread
  obtain ⟨report, start, s, hstart, hsound, rfl, hallocation, hverdicts⟩ :=
    runPasses_standard_sound hnames hlinked hfree h
  refine ⟨report, hallocation, fun v hv d hd => ?_⟩
  obtain ⟨hresolvable, ls, hgrants, hslot⟩ := hsound.resolved v (hverdicts ▸ hv) d hd
  cases hgrants with
  | @sampler row hrow =>
    exact .inl ⟨row, hrow, SamplerRow.givesSlot_iff.mp hslot⟩
  | @argument row kernel k hrow _ hk hkernel hname hguards =>
    obtain ⟨hset, hbinding⟩ := ArgumentRow.givesSlot_iff.mp hslot
    refine .inr ⟨kernel, ?_, hsound.covers.guards hstart hresolvable hguards⟩
    rw [← hset, ← hbinding]
    exact hsound.covers.owns_iff hstart hrow hk hkernel hname

end Main

theorem runPasses_relay_isolates : ∃ m m' report v, Module.read relaySource = .ok m ∧
    m.AccessorFree ∧
    (runPasses (Pass.standard relayOptions) m (.start relayOptions [])).result = .ok (m', true) ∧
    v ∈ (runPasses (Pass.standard relayOptions) m (.start relayOptions [])).compilation.verdicts ∧
    v.verdict = .resolved ⟨3, 0, 0, 1⟩ ∧
    ((∃ row ∈ AllocationReport.samplers report, row.set = 0 ∧ row.binding = 0) ∨
      ∃ kernel, (∀ id, report.Owns m' id 0 0 ↔ id = kernel) ∧ m'.Guards kernel v.function) := by
  obtain ⟨m, m', hread, hfree, hrun, hverdicts⟩ := runPasses_relay
  obtain ⟨report, -, hisolates⟩ := runPasses_isolates_kernels hread hfree hrun
  have hv : (⟨0, 0, .resolved ⟨3, 0, 0, 1⟩⟩ : ParamVerdict) ∈
      (runPasses (Pass.standard relayOptions) m (.start relayOptions [])).compilation.verdicts := by
    rw [hverdicts]
    exact List.mem_cons_of_mem _ List.mem_cons_self
  exact ⟨m, m', report, _, hread, hfree, hrun, hv, rfl, hisolates _ hv _ rfl⟩

end ResourceBinding
