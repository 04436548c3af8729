import ResourceBinding.Proofs.Binding.Grants
import ResourceBinding.Proofs.Calls.Order
import ResourceBinding.Proofs.FixedResource.Fetching
import ResourceBinding.Proofs.FixedResource.Provenance

/-!
# Resolving parameters keeps the calls of accessors granted

The pass starts from the module that an allocation has left, and edits one function at a time. What
a function fetches was fetched by all of its callers, so that it was granted to all of them, and the
function is granted it too (`AllocationReport.Covers.grants`). Hence each step keeps what
`Resolution.Sound` says, and so does the run (`Resolution.Sound.run`).

The order in which parameters are taken matters to what is resolved, and not here: the calls of the
module as it is are all that a step looks at.
-/

namespace ResourceBinding

/-! ## What the pass leaves alone -/

/-- The module `m` is the allocated module `start` with more calls of accessors, all of which are
granted. The kernels are as they were. -/
structure AllocationReport.Covers (report : AllocationReport) (start m : Module) : Prop where
  role : ∀ id, (m.function? id).map Function.role = (start.function? id).map Function.role
  kernel : ∀ id f, start.function? id = some f → f.convention = .kernel → m.function? id = some f
  linked : m.Linked
  calls : ∀ caller callee, m.Calls caller callee →
    start.Calls caller callee ∨ start.isAccessor callee = true
  keeps : ∀ caller callee, start.Calls caller callee → m.Calls caller callee
  granted : ∀ id f, m.function? id = some f →
    f.Accounts (start.isAccessor · = true) (report.Grants start id)

/-- There is a function with a body at the position, and the host does not call it. -/
def Module.Resolvable (m : Module) (id : FunctionId) : Prop :=
  ∃ f, m.function? id = some f ∧ f.body.isSome ∧ f.convention ≠ .kernel

/-- **Parameters are resolved only of functions that have a body and are no kernels.** -/
theorem Module.resolvable_of_mem_candidates {m : Module} {id : FunctionId} {index : Nat}
    (h : (id, index) ∈ m.candidates m.callGraph.callersFirst.toList) : m.Resolvable id := by
  obtain ⟨id', hid', hmem⟩ := List.mem_flatMap.mp h
  obtain ⟨f, hf, hbody⟩ := isDefined_iff.mp (isDefined_of_mem_callersFirst hid')
  rw [hf] at hmem
  by_cases hconvention : f.convention = .kernel
  · simp only [hconvention, if_true] at hmem
    cases hmem
  · simp only [hconvention, if_false] at hmem
    obtain ⟨i, -, heq⟩ := List.mem_map.mp hmem
    cases heq
    exact ⟨f, hf, hbody, hconvention⟩

namespace AllocationReport.Covers

variable {report : AllocationReport} {start m : Module} {id : FunctionId}

theorem refl (h : start.AllocatedBy report) : report.Covers start start where
  role := fun _ => rfl
  kernel := fun _ _ hf _ => hf
  linked := h.linked
  calls := fun _ _ => .inl
  keeps := fun _ _ hcalls => hcalls
  granted := h.granted

theorem exists_function (h : report.Covers start m) {f : Function}
    (hf : start.function? id = some f) : ∃ g, m.function? id = some g ∧ g.role = f.role := by
  have hrole := h.role id
  rw [hf, Option.map_some] at hrole
  exact Option.map_eq_some_iff.mp hrole

theorem exists_of_function? (h : report.Covers start m) {g : Function}
    (hg : m.function? id = some g) : ∃ f, start.function? id = some f ∧ f.role = g.role := by
  have hrole := h.role id
  rw [hg, Option.map_some] at hrole
  exact Option.map_eq_some_iff.mp hrole.symm

/-- The functions keep their names. -/
theorem names (h : report.Covers start m) : m.names = start.names := by
  refine List.ext_getElem? fun id => ?_
  have hrole := congrArg (Option.map Prod.fst) (h.role id)
  rw [Module.getElem?_names, Module.getElem?_names]
  rw [Option.map_map, Option.map_map] at hrole
  exact hrole

theorem nameOf (h : report.Covers start m) (id : FunctionId) : m.nameOf id = start.nameOf id := by
  rw [Module.nameOf_eq, Module.nameOf_eq, h.names]

theorem isAccessor (h : report.Covers start m) (id : FunctionId) :
    m.isAccessor id = start.isAccessor id := by
  rw [Bool.eq_iff_iff, Module.isAccessor_iff, Module.isAccessor_iff, h.nameOf]

theorem resolvable (h : report.Covers start m) (hid : start.Resolvable id) : m.Resolvable id := by
  obtain ⟨f, hf, hbody, hconvention⟩ := hid
  obtain ⟨g, hg, hrole⟩ := h.exists_function hf
  refine ⟨g, hg, ?_, ?_⟩
  · rw [← hbody]
    exact congrArg (·.2.2) hrole
  · rw [show g.convention = f.convention from congrArg (·.2.1) hrole]
    exact hconvention

/-- **Editing a function that is no kernel** keeps the module covered, if the edit adds nothing but
granted calls of accessors. -/
theorem modify (h : report.Covers start m) {f : Function} {edit : Function → Function}
    (hf : m.function? id = some f) (hconvention : f.convention ≠ .kernel)
    (hcalling : f.Calling (start.isAccessor · = true) (edit f))
    (hlinked : (edit f).Linked m.functions.size)
    (hgranted : (edit f).Accounts (start.isAccessor · = true) (report.Grants start id)) :
    report.Covers start (m.modify id edit) := by
  -- Everything is shown for the edited function and for the others, which stay.
  have hself : (m.modify id edit).function? id = some (edit f) := by
    rw [Module.function?_modify, if_pos rfl, hf]
    rfl
  have hother : ∀ other, id ≠ other → (m.modify id edit).function? other = m.function? other :=
    fun other hne => by rw [Module.function?_modify, if_neg hne]
  have hsize : (m.modify id edit).functions.size = m.functions.size := by
    simp [Module.modify]
  refine ⟨fun other => ?_, fun other k hk hkc => ?_, fun g hg => ?_, fun caller callee => ?_,
    fun caller callee hcalls => ?_, fun other g hg => ?_⟩
  · by_cases heq : id = other
    · subst heq
      rw [hself, ← h.role id, hf, Option.map_some, Option.map_some, hcalling.role]
    · rw [hother other heq, h.role]
  · have hm := h.kernel other k hk hkc
    rw [hother other]
    · exact hm
    · rintro rfl
      obtain rfl := Option.some.inj (hf.symm.trans hm)
      exact hconvention hkc
  · obtain ⟨other, hget⟩ := Module.mem_functions_iff.mp hg
    rw [hsize]
    by_cases heq : id = other
    · subst heq
      obtain rfl := Option.some.inj (hself.symm.trans hget)
      exact hlinked
    · rw [hother other heq] at hget
      exact h.linked g (Module.mem_functions_iff.mpr ⟨other, hget⟩)
  · rintro ⟨g, hg, c, hc, rfl⟩
    by_cases heq : id = caller
    · subst heq
      obtain rfl := Option.some.inj (hself.symm.trans hg)
      rcases hcalling.calls c hc with ⟨old, hold, hcallee⟩ | hadded
      · exact h.calls id c.callee ⟨f, hf, old, hold, hcallee⟩
      · exact .inr hadded
    · rw [hother caller heq] at hg
      exact h.calls caller c.callee ⟨g, hg, c, hc, rfl⟩
  · obtain ⟨g, hg, c, hc, rfl⟩ := h.keeps caller callee hcalls
    by_cases heq : id = caller
    · subst heq
      obtain rfl := Option.some.inj (hf.symm.trans hg)
      obtain ⟨new, hnew, hcallee⟩ := hcalling.keeps c hc
      exact ⟨_, hself, new, hnew, hcallee⟩
    · exact ⟨g, (hother caller heq).trans hg, c, hc, rfl⟩
  · by_cases heq : id = other
    · subst heq
      obtain rfl := Option.some.inj (hself.symm.trans hg)
      exact hgranted
    · rw [hother other heq] at hg
      exact h.granted other g hg

/-- What a function obtains it is granted. -/
theorem grants_of_obtains (h : report.Covers start m) {f : Function} {o : Provenance}
    (hf : m.function? id = some f) (hobtains : f.Obtains o)
    (haccessor : m.isAccessor o.resource.accessor = true) :
    ∃ ls, o.operands = ls.map some ∧ report.Grants start id o.resource.accessor ls ∧
      GivesSlot ls o.resource.set o.resource.binding := by
  obtain ⟨c, hc, hcallee, hoperands, hset, hbinding⟩ := hobtains
  rw [h.isAccessor, ← hcallee] at haccessor
  obtain ⟨ls, hgrants, hliterals⟩ := h.granted id f hf c hc haccessor
  rw [hcallee] at hgrants
  rw [hliterals] at hoperands
  rw [hoperands] at hset hbinding
  exact ⟨ls, hoperands, hgrants, hset, hbinding⟩

/-- **What a parameter is resolved to is granted to its function.** -/
theorem grants (h : report.Covers start m) (hstart : start.AllocatedBy report)
    (hid : start.Resolvable id) {index : Nat} {o : Provenance}
    (ho : m.parameterProvenance id index = .ok o) :
    ∃ ls, o.operands = ls.map some ∧ report.Grants start id o.resource.accessor ls ∧
      GivesSlot ls o.resource.set o.resource.binding := by
  obtain ⟨haccessor, ⟨first, f, -, hf, hobtains⟩, hcallers⟩ :=
    Module.parameterProvenance_ok h.linked ho
  obtain ⟨ls, hoperands, hgrants, hslot⟩ := h.grants_of_obtains hf hobtains haccessor
  refine ⟨ls, hoperands, hgrants.inherit hstart.slots hstart.names (fun k hk hkernel => ?_)
    (fun caller hcaller => ?_) hslot, hslot⟩
  · obtain ⟨k', hk', -, hconvention⟩ := hid
    obtain rfl := Option.some.inj (hk.symm.trans hk')
    exact hconvention (Function.isKernel_iff.mp hkernel).1
  -- A caller in the allocated module calls still, so it obtains the resource too.
  · obtain ⟨g, o', hg, hobtains', hresource⟩ := hcallers caller (h.keeps caller id hcaller)
    obtain ⟨ls', -, hgrants', hslot'⟩ :=
      h.grants_of_obtains hg hobtains' (hresource ▸ haccessor)
    rw [hresource] at hgrants' hslot'
    exact ⟨ls', hgrants', hslot'⟩

/-- **The pass adds no chain of calls**, except to accessors. These are declared only, so that no
chain leads on from there. -/
theorem callChain (h : report.Covers start m) (hstart : start.AllocatedBy report)
    {path : List FunctionId} (hid : start.isAccessor id = false) (hpath : m.CallChain path id) :
    start.CallChain path id := by
  refine hpath.transfer (P := fun id => start.isAccessor id = false) (fun id g hg hkernel => ?_)
    (fun caller callee hcalls => ?_) (fun caller callee hcalls hcallee => ?_) hid
  · obtain ⟨f, hf, hrole⟩ := h.exists_of_function? hg
    exact ⟨f, hf, Function.isKernel_of_role hrole hkernel⟩
  · obtain ⟨g, hg, c, hc, -⟩ := hcalls
    obtain ⟨f, hf, hrole⟩ := h.exists_of_function? hg
    rw [Bool.eq_false_iff]
    intro haccessor
    have hsome := Function.isSome_body_of_mem_calls hc
    rw [← show f.body.isSome = g.body.isSome from congrArg (·.2.2) hrole,
      hstart.declared caller f hf haccessor] at hsome
    cases hsome
  · exact (h.calls caller callee hcalls).resolve_right (by simp [hcallee])

end AllocationReport.Covers

/-! ## The edits -/

namespace Function

variable {f g : Function} {asked : FunctionId → Prop}
  {granted : FunctionId → List Literal → Prop} {index : Nat} {o : Provenance} {ls : List Literal}

theorem accounts_setMark (hf : f.Accounts asked granted) (index : Nat)
    (mark : Option FixedResource) : (f.setMark index mark).Accounts asked granted :=
  hf

/-- The call that a function has more passes the operands of the origin. -/
theorem accounts_fetchParameter (h : f.fetchParameter index o = .ok g)
    (hf : f.Accounts asked granted) (hls : o.operands = ls.map some)
    (hgranted : granted o.resource.accessor ls) : g.Accounts asked granted := by
  obtain ⟨ls', ids, r, f₁, σ, hls', hrev, hids, -, rfl⟩ := fetchParameter_ok h
  obtain rfl : ls' = ls :=
    List.map_injective_iff.mpr (Option.some_injective _) (hls'.symm.trans hls)
  refine accounts_prependCalls (hrev.accounts hf) fun c hc _ => ?_
  obtain rfl := List.mem_singleton.mp hc
  exact ⟨ls', hgranted, hids⟩

end Function

/-! ## The steps -/

/-- The program is covered, and what the verdicts name was granted to the functions that they are
about. -/
structure Resolution.Sound (report : AllocationReport) (start : Module) (s : Resolution) : Prop where
  covers : report.Covers start s.program
  resolved : ∀ v ∈ s.verdicts, ∀ d, v.verdict = .resolved d → start.Resolvable v.function ∧
    ∃ ls, report.Grants start v.function d.accessor ls ∧ GivesSlot ls d.set d.binding

namespace Resolution

variable {report : AllocationReport} {start : Module} {s : Resolution} {id : FunctionId}
  {index : Nat}

theorem Sound.emit (h : s.Sound report start) (lines : Log) : (s.emit lines).Sound report start :=
  ⟨h.covers, h.resolved⟩

theorem Sound.record (h : s.Sound report start) {verdict : Verdict}
    (hid : ∀ d, verdict = .resolved d → start.Resolvable id ∧
      ∃ ls, report.Grants start id d.accessor ls ∧ GivesSlot ls d.set d.binding) :
    (s.record id index verdict).Sound report start := by
  refine ⟨h.covers, fun v hv d hd => ?_⟩
  rcases List.mem_append.mp hv with hold | hnew
  · exact h.resolved v hold d hd
  · obtain rfl := List.mem_singleton.mp hnew
    exact hid d hd

theorem Sound.mark (h : s.Sound report start) (hid : start.Resolvable id) (index : Nat)
    (mark : Option FixedResource) : (s.mark id index mark).Sound report start := by
  obtain ⟨f, hf, -, hconvention⟩ := h.covers.resolvable hid
  refine ⟨h.covers.modify hf hconvention (f.calling_setMark index mark) ?_ ?_, h.resolved⟩
  · exact Function.linked_setMark
      (h.covers.linked f (Module.mem_functions_iff.mpr ⟨id, hf⟩)) index mark
  · exact Function.accounts_setMark (h.covers.granted id f hf) index mark

/-- A function may fetch what it is granted. -/
theorem Sound.fetch (h : s.Sound report start) (hid : start.Resolvable id) {o : Provenance}
    {ls : List Literal} (hls : o.operands = ls.map some)
    (haccessor : start.isAccessor o.resource.accessor = true)
    (hgrants : report.Grants start id o.resource.accessor ls) :
    (s.fetch id index o).Sound report start := by
  obtain ⟨f, hf, -, hconvention⟩ := h.covers.resolvable hid
  unfold Resolution.fetch
  rw [hf]
  cases hfetch : f.fetchParameter index o with
  | ok g =>
    simp only [hfetch]
    refine ⟨h.covers.modify hf hconvention (Function.calling_fetchParameter hfetch haccessor)
      ?_ ?_, h.resolved⟩
    · exact Function.linked_fetchParameter hfetch
        (h.covers.linked f (Module.mem_functions_iff.mpr ⟨id, hf⟩))
        (Module.lt_size_of_isAccessor ((h.covers.isAccessor _).trans haccessor))
    · exact Function.accounts_fetchParameter hfetch (h.covers.granted id f hf) hls hgrants
  | error declined =>
    simp only [hfetch]
    split
    · exact h.emit _
    · exact h

/-- **A step keeps the module covered**, and gives a verdict that tells what was granted. -/
theorem Sound.step (h : s.Sound report start) (hstart : start.AllocatedBy report)
    (hid : start.Resolvable id) (options : Options) (index : Nat) :
    (s.step options id index).Sound report start := by
  unfold Resolution.step
  cases ho : s.program.parameterProvenance id index with
  | error reason => exact ((h.emit _).mark hid index none).record fun d hd => by cases hd
  | ok o =>
    obtain ⟨ls, hls, hgrants, hslot⟩ := h.covers.grants hstart hid ho
    have haccessor := (Module.parameterProvenance_ok h.covers.linked ho).1
    rw [h.covers.isAccessor] at haccessor
    refine Sound.record ?_ fun d hd => ?_
    · have hmarked := fun line => (h.emit [line]).mark hid index (some o.resource)
      by_cases hfetch : options.fetch
      · simp only [hfetch, if_true]
        exact (hmarked _).fetch hid hls haccessor hgrants
      · simp only [hfetch]
        exact hmarked _
    · cases hd
      exact ⟨hid, ls, hgrants, hslot⟩

/-- **A run keeps the module covered.** -/
theorem Sound.run (hstart : start.AllocatedBy report) (options : Options)
    (candidates : List (FunctionId × Nat)) :
    ∀ {s : Resolution}, s.Sound report start → (∀ p ∈ candidates, start.Resolvable p.1) →
      (s.run options candidates).Sound report start := by
  induction candidates with
  | nil => exact fun h _ => h
  | cons p candidates ih =>
    intro s h hresolvable
    exact ih (h.step hstart (hresolvable p List.mem_cons_self) options p.2)
      fun q hq => hresolvable q (List.mem_cons_of_mem _ hq)

end Resolution

end ResourceBinding
