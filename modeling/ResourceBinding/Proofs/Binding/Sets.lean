import ResourceBinding.Proofs.Binding.Allocation
import ResourceBinding.Proofs.Binding.LiteralSamplers

/-!
# Which sets and bindings an allocation hands out

Samplers come first and take a set of their own; then each kernel with parameters takes the next
set, and its parameters the bindings from zero on. A set that was handed out once is not handed out
again, neither in one run nor in another.
-/

namespace ResourceBinding

/-! ## Kernels keep their signatures -/

/-- The kernels with parameters, by name and number of parameters. -/
def Module.boundKernels (m : Module) : List (String × Nat) :=
  (m.kernels.filter (!·.2.params.isEmpty)).map fun (_, f) => (f.name, f.params.length)

namespace Module

variable {m m' : Module}

theorem boundKernels_eq (m : Module) : m.boundKernels
    = (m.functions.toList.map Function.signature).filterMap fun (kernel, name, params) =>
      if kernel && !params.isEmpty then some (name, params.length) else none := by
  unfold boundKernels kernels indexed
  generalize m.functions.toList = fs
  generalize 0 = i
  induction fs generalizing i with
  | nil => rfl
  | cons f fs ih =>
    simp only [List.zipIdx_cons, List.map_cons, List.filter_cons, List.filterMap_cons,
      Function.signature, ← ih (i + 1)]
    cases f.isKernel <;> cases h : f.params.isEmpty <;> simp [h]

/-- Signatures that are kept, and added functions that are no kernels, leave what is made of the
signatures of kernels as it is. -/
theorem filterMap_signature_eq {β : Type} {g : Bool × String × List Param → Option β}
    (hg : ∀ s, s.1 = false → g s = none)
    (hold : ∀ id : Nat, id < m.functions.size →
      (m'.function? id).map Function.signature = (m.function? id).map Function.signature)
    (hnew : ∀ (id : Nat) (f : Function), m.functions.size ≤ id → m'.function? id = some f →
      f.isKernel = false) :
    (m'.functions.toList.map Function.signature).filterMap g
      = (m.functions.toList.map Function.signature).filterMap g := by
  have hsplit : m'.functions.toList.map Function.signature
      = m.functions.toList.map Function.signature
        ++ (m'.functions.toList.drop m.functions.size).map Function.signature := by
    refine List.ext_getElem? fun i => ?_
    by_cases hi : i < m.functions.size
    · rw [List.getElem?_append_left (by simpa using hi)]
      simpa [function?] using hold i hi
    · rw [List.getElem?_append_right (by simpa using hi)]
      simp only [List.getElem?_map, List.getElem?_drop, List.length_map, Array.length_toList]
      rw [Nat.add_sub_cancel' (Nat.not_lt.mp hi)]
  rw [hsplit, List.filterMap_append]
  refine List.append_right_eq_self.mpr (List.filterMap_eq_nil_iff.mpr fun s hs => hg s ?_)
  obtain ⟨f, hf, rfl⟩ := List.mem_map.mp hs
  obtain ⟨i, hi⟩ := List.mem_iff_getElem?.mp hf
  rw [List.getElem?_drop] at hi
  exact hnew (m.functions.size + i) f (Nat.le_add_right _ _) (by simpa [function?] using hi)

theorem mem_boundKernels {name : String} {n : Nat} : (name, n) ∈ m.boundKernels ↔
    ∃ id f, m.function? id = some f ∧ f.isKernel ∧ f.params ≠ [] ∧ f.name = name ∧
      f.params.length = n := by
  simp [boundKernels, and_assoc]

theorem NamesDistinct.boundKernels (h : m.NamesDistinct) : (m.boundKernels.map Prod.fst).Nodup := by
  have hnames : m.names = m.indexed.map (·.2.name) := by
    rw [names, indexed, List.map_map]
    change _ = m.functions.toList.zipIdx.map (Function.name ∘ Prod.fst)
    rw [← List.map_map, List.zipIdx_map_fst]
  rw [NamesDistinct, hnames] at h
  refine List.Sublist.nodup ?_ h
  rw [Module.boundKernels, List.map_map]
  exact (List.filter_sublist.trans List.filter_sublist).map _

/-- Binding the arguments keeps what is made of the signatures of kernels. -/
theorem BoundBy.filterMap_signature {next final : Nat} {n : Numbering}
    {planned : List (FunctionId × List ArgumentRow)} (h : m.BoundBy next planned n final m')
    {β : Type} {g : Bool × String × List Param → Option β} (hg : ∀ s, s.1 = false → g s = none) :
    (m'.functions.toList.map Function.signature).filterMap g
      = (m.functions.toList.map Function.signature).filterMap g := by
  refine filterMap_signature_eq hg (fun id hid => ?_) fun id f hid hf => ?_
  · obtain ⟨f, hf⟩ := exists_function?_of_lt hid
    obtain ⟨g, hg, hsignature⟩ := h.exists_function hf
    rw [hg, hf, Option.map_some, Option.map_some, hsignature]
  · obtain ⟨-, u32, result, rfl⟩ := h.declares_of_le hid hf
    rfl

/-- Binding the arguments keeps the kernels with parameters. -/
theorem BoundBy.boundKernels {next final : Nat} {n : Numbering}
    {planned : List (FunctionId × List ArgumentRow)}
    (h : m.BoundBy next planned n final m') : m'.boundKernels = m.boundKernels := by
  rw [boundKernels_eq, boundKernels_eq, h.filterMap_signature]
  rintro ⟨kernel, name, params⟩ hkernel
  rw [show kernel = false from hkernel]
  rfl

end Module

/-! ## The places of the rows -/

/-- Where a row is bound: its kernel, its position, its set and its binding. -/
def ArgumentRow.place (row : ArgumentRow) : String × Nat × Nat × Nat :=
  (row.kernel, row.position, row.set, row.binding)

/-- The places of the arguments of kernels that take sets in turn, from `first` on: a kernel with
`n` arguments has the positions and the bindings below `n`. -/
def places (kernels : List (String × Nat)) (first : Nat) : List (String × Nat × Nat × Nat) :=
  (kernels.zipIdx first).flatMap fun ((name, n), set) =>
    (List.range n).map fun i => (name, i, set, i)

theorem places_cons (name : String) (n first : Nat) (kernels : List (String × Nat)) :
    places ((name, n) :: kernels) first
      = ((List.range n).map fun i => (name, i, first, i)) ++ places kernels (first + 1) := rfl

/-- A place is that of a kernel, whose set is counted from `first` on. -/
theorem mem_places {kernels : List (String × Nat)} {first : Nat}
    {place : String × Nat × Nat × Nat} : place ∈ places kernels first ↔
      ∃ k name n i, kernels[k]? = some (name, n) ∧ i < n ∧ place = (name, i, first + k, i) := by
  simp only [places, List.mem_flatMap, List.mem_map, List.mem_range, Prod.exists]
  constructor
  · rintro ⟨name, n, set, hmem, i, hi, rfl⟩
    obtain ⟨hle, hget⟩ := List.mk_mem_zipIdx_iff_le_and_getElem?_sub.mp hmem
    exact ⟨set - first, name, n, i, hget, hi, by rw [Nat.add_sub_cancel' hle]⟩
  · rintro ⟨k, name, n, i, hget, hi, rfl⟩
    refine ⟨name, n, first + k, List.mk_mem_zipIdx_iff_le_and_getElem?_sub.mpr ?_, i, hi, rfl⟩
    rw [Nat.add_sub_cancel_left]
    exact ⟨Nat.le_add_right _ _, hget⟩

/-- No two places have one set and binding. -/
theorem nodup_places (kernels : List (String × Nat)) (first : Nat) :
    ((places kernels first).map (·.2.2)).Nodup := by
  induction kernels generalizing first with
  | nil => exact .nil
  | cons kernel kernels ih =>
    obtain ⟨name, n⟩ := kernel
    rw [places_cons, List.map_append, List.map_map, List.nodup_append]
    refine ⟨List.nodup_range.map fun i j hij => ?_, ih (first + 1), fun a ha b hb => ?_⟩
    · simpa using hij
    · obtain ⟨i, -, rfl⟩ := List.mem_map.mp ha
      obtain ⟨place, hplace, rfl⟩ := List.mem_map.mp hb
      obtain ⟨k, name', n', j, -, -, rfl⟩ := mem_places.mp hplace
      simp only [Function.comp_apply, ne_eq, Prod.mk.injEq, not_and]
      omega

/-- The places of a kernel are its positions, in order. -/
theorem filter_places {kernels : List (String × Nat)} (hnodup : (kernels.map Prod.fst).Nodup)
    {name : String} {n : Nat} (hmem : (name, n) ∈ kernels) (first : Nat) :
    ((places kernels first).filter (·.1 == name)).map (fun p => (p.2.1, p.2.2.2))
      = (List.range n).map fun i => (i, i) := by
  induction kernels generalizing first with
  | nil => cases hmem
  | cons kernel kernels ih =>
    obtain ⟨other, k⟩ := kernel
    rw [List.map_cons, List.nodup_cons] at hnodup
    rw [places_cons, List.filter_append, List.map_append]
    rcases List.mem_cons.mp hmem with heq | hmem
    · cases heq
      have hnone : (places kernels (first + 1)).filter (·.1 == name) = [] := by
        refine List.filter_eq_nil_iff.mpr fun place hplace => ?_
        obtain ⟨j, name', n', i, hget, -, rfl⟩ := mem_places.mp hplace
        rw [beq_iff_eq]
        rintro rfl
        exact hnodup.1 (List.mem_map.mpr ⟨_, List.mem_of_getElem? hget, rfl⟩)
      rw [hnone, List.map_nil, List.append_nil, List.filter_eq_self.mpr (by simp), List.map_map]
      rfl
    · have hne : other ≠ name := by
        rintro rfl
        exact hnodup.1 (List.mem_map.mpr ⟨_, hmem, rfl⟩)
      rw [List.filter_eq_nil_iff.mpr (by simpa using fun _ _ => hne), List.map_nil, List.nil_append]
      exact ih hnodup.2 hmem (first + 1)

section Places

variable {m : Module} {n : Numbering} {f : Function} {s i next final first : Nat}
  {ps : List Param} {rows : List ArgumentRow} {ks : List (FunctionId × Function)}
  {planned : List (FunctionId × List ArgumentRow)} {kernels : List (String × Nat)}

theorem BindAll.map_place (h : BindAll m n f s i ps rows) :
    rows.map ArgumentRow.place = (List.range' i ps.length).map fun i => (f.name, i, s, i) := by
  induction ps generalizing i rows with
  | nil =>
    cases h
    rfl
  | cons p ps ih =>
    cases h with
    | cons hrow hrest =>
      rw [List.map_cons, ih hrest, ArgumentRow.place, hrow.kernel, hrow.position, hrow.set,
        hrow.binding]
      rfl

/-- **A plan gives the kernels with parameters one set each, in order.** -/
theorem Plans.map_place (h : Plans m n next ks planned final) :
    let bound := (ks.filter (!·.2.params.isEmpty)).map fun (_, f) => (f.name, f.params.length)
    (planned.flatMap Prod.snd).map ArgumentRow.place = places bound next ∧
      final = next + bound.length := by
  induction h with
  | nil => exact ⟨rfl, rfl⟩
  | @cons next final id f rows rest others hrows hrest ih =>
    have hplace := hrows.map_place
    rw [← List.range_eq_range'] at hplace
    simp only [List.flatMap_cons, List.map_append, hplace]
    unfold Function.setBehind at ih
    by_cases hempty : f.params.isEmpty
    · rw [List.isEmpty_iff.mp hempty]
      simpa [hempty] using ih
    · simp only [hempty, Bool.false_eq_true, if_false] at ih
      simp only [hempty, Bool.not_false, List.filter_cons_of_pos, List.map_cons, places_cons,
        ih.1, List.length_cons]
      exact ⟨trivial, by omega⟩

end Places

/-! ## One allocation -/

theorem SamplerRow.InSet.nodup {set : Nat} {rows : List SamplerRow} (h : InSet set rows) :
    (rows.map fun row => (row.set, row.binding)).Nodup := by
  rw [h]
  exact List.nodup_range.map fun i j hij => by simpa using hij

/-- Rows in the places of kernels have different slots. -/
theorem nodup_of_map_place {rows : List ArgumentRow} {kernels : List (String × Nat)} {first : Nat}
    (h : rows.map ArgumentRow.place = places kernels first) :
    (rows.map fun row => (row.set, row.binding)).Nodup := by
  have := nodup_places kernels first
  rwa [← h, List.map_map] at this

/-- Rows in the places of kernels are in one of their sets. -/
theorem set_of_map_place {rows : List ArgumentRow} {kernels : List (String × Nat)} {first : Nat}
    (h : rows.map ArgumentRow.place = places kernels first) {row : ArgumentRow} (hrow : row ∈ rows) :
    first ≤ row.set ∧ row.set < first + kernels.length := by
  have hplace : row.place ∈ places kernels first := h ▸ List.mem_map_of_mem hrow
  obtain ⟨k, name, n, i, hget, -, heq⟩ := mem_places.mp hplace
  have hset : row.set = first + k := congrArg (·.2.2.1) heq
  have hk := (List.getElem?_eq_some_iff.mp hget).1
  omega

/-- The set and the binding of each row, samplers first. -/
def AllocationReport.slots (report : AllocationReport) : List (Nat × Nat) :=
  report.samplers.map (fun row => (row.set, row.binding)) ++
    report.arguments.map fun row => (row.set, row.binding)

/-- The number of sets that samplers take. -/
def SamplerMap.setCount (samplers : SamplerMap) : Nat :=
  if samplers.isEmpty then 0 else 1

/-- The report hands out the sets from `next` up to `final`: to the samplers of the map, and then to
the kernels of the bound module `m`. -/
structure AllocationReport.HandsOut (report : AllocationReport) (m : Module)
    (samplers : SamplerMap) (next final : Nat) : Prop where
  samplers_eq_nil_iff : report.samplers = [] ↔ samplers = []
  samplers_set : ∀ row ∈ report.samplers, row.set = next
  /-- Kernels with parameters take the sets behind that of the samplers, in order. -/
  arguments_place :
    report.arguments.map ArgumentRow.place = places m.boundKernels (next + samplers.setCount)
  final_eq : final = next + samplers.setCount + m.boundKernels.length
  slots_nodup : report.slots.Nodup

namespace Module

variable {m m' m₁ : Module} {c : Compilation} {changed : Bool}

theorem allocateSamplers_rows (m : Module) (c : Compilation) :
    SamplerRow.InSet c.nextSet (m.allocateSamplers c).1 ∧
      ((m.allocateSamplers c).1 = [] ↔ c.samplers = []) ∧
      (m.allocateSamplers c).2.compilation.nextSet = c.nextSet + c.samplers.setCount := by
  unfold allocateSamplers SamplerMap.setCount
  by_cases hempty : c.samplers.isEmpty
  · simp only [hempty, if_true]
    cases m.samplerUser? <;> exact ⟨rfl, by simpa using hempty, rfl⟩
  · simp only [hempty]
    obtain ⟨hset, hnil⟩ := inSet_samplerRows c.nextSet c.samplers
    exact ⟨hset, hnil, rfl⟩

/-- Binding the samplers claims their set, and leaves the rest of the state as it is. -/
theorem compilation_allocateSamplers (m : Module) (c : Compilation) :
    (m.allocateSamplers c).2.compilation
      = { c with nextSet := c.nextSet + c.samplers.setCount } := by
  unfold allocateSamplers SamplerMap.setCount
  by_cases hempty : c.samplers.isEmpty
  · simp only [hempty, if_true]
    cases m.samplerUser? <;> rfl
  · simp only [hempty]
    rfl

theorem allocateSamplers_ok (h : (m.allocateSamplers c).2.result = .ok (m₁, changed)) :
    (c.samplers = [] ∧ m.samplerUser? = none ∧ m₁ = m) ∨
      (c.samplers ≠ [] ∧ m.bindSamplers (m.allocateSamplers c).1 = .ok (m₁, changed)) := by
  unfold allocateSamplers at h ⊢
  by_cases hempty : c.samplers.isEmpty
  · simp only [hempty, if_true] at h
    split at h
    · cases h
    · rename_i huser
      cases h
      exact .inl ⟨by simpa using hempty, huser, rfl⟩
  · simp only [hempty] at h ⊢
    exact .inr ⟨by simpa using hempty, h⟩

/-- **An allocation that succeeds has bound the samplers, and then the arguments.** -/
theorem allocate_ok (h : (m.allocate c).result = .ok (m', changed)) :
    ∃ m₁ changed₁ changed₂, (m.allocateSamplers c).2.result = .ok (m₁, changed₁) ∧
      (m₁.allocateArguments (m.allocateSamplers c).2.compilation (m.allocateSamplers c).1).result
        = .ok (m', changed₂) ∧
      (m.allocate c).compilation = (m₁.allocateArguments (m.allocateSamplers c).2.compilation
        (m.allocateSamplers c).1).compilation := by
  unfold allocate at h ⊢
  cases hfirst : (m.allocateSamplers c).2.result with
  | error fault =>
    simp only [hfirst] at h
    cases h
  | ok r =>
    obtain ⟨m₁, changed₁⟩ := r
    simp only [hfirst] at h ⊢
    cases hsecond : (m₁.allocateArguments (m.allocateSamplers c).2.compilation
        (m.allocateSamplers c).1).result with
    | error fault =>
      rw [hsecond] at h
      cases h
    | ok r =>
      rw [hsecond] at h
      cases h
      exact ⟨m₁, changed₁, _, rfl, hsecond, rfl⟩

/-- **An allocation hands out the free sets in order.** -/
theorem allocate_handsOut (h : (m.allocate c).result = .ok (m', changed)) :
    ∃ report, (m.allocate c).compilation.allocation = some report ∧
      report.HandsOut m' c.samplers c.nextSet (m.allocate c).compilation.nextSet := by
  obtain ⟨m₁, changed₁, changed₂, -, harguments, hcompilation⟩ := allocate_ok h
  obtain ⟨hset, hnil, hnext⟩ := m.allocateSamplers_rows c
  obtain ⟨planned, n, final, hbound, hcompilation'⟩ := allocateArguments_ok harguments
  obtain ⟨hplaces, hfinal⟩ := hbound.plans.map_place
  rw [hnext] at hplaces hfinal
  rw [hcompilation, hcompilation']
  have hkernels : m'.boundKernels = (m₁.kernels.filter (!·.2.params.isEmpty)).map
      fun (_, f) => (f.name, f.params.length) := hbound.boundKernels
  refine ⟨_, rfl, hnil, fun row hrow => hset.set_eq hrow, ?_, ?_, ?_⟩
  · rw [hkernels]
    exact hplaces
  · rw [hkernels]
    exact hfinal
  · refine List.nodup_append.mpr ⟨hset.nodup, nodup_of_map_place hplaces, fun a ha b hb => ?_⟩
    -- Where there are samplers, the sets of the kernels are behind theirs.
    obtain ⟨sampler, hsampler, rfl⟩ := List.mem_map.mp ha
    obtain ⟨row, hrow, rfl⟩ := List.mem_map.mp hb
    have hsome : c.samplers ≠ [] := fun hempty =>
      List.ne_nil_of_mem hsampler (hnil.mpr hempty)
    have hcount : c.samplers.setCount = 1 := by
      rw [SamplerMap.setCount, if_neg (by simpa using hsome)]
    have hge := (set_of_map_place hplaces hrow).1
    have heq := hset.set_eq hsampler
    rw [ne_eq, Prod.mk.injEq, not_and]
    omega

/-- An allocation keeps the names of the functions distinct. -/
theorem NamesDistinct.allocate (hm : m.NamesDistinct)
    (h : (m.allocate c).result = .ok (m', changed)) : m'.NamesDistinct := by
  obtain ⟨m₁, changed₁, changed₂, hsamplers, harguments, -⟩ := allocate_ok h
  have hm₁ : m₁.NamesDistinct := by
    rcases allocateSamplers_ok hsamplers with ⟨-, -, rfl⟩ | ⟨-, hbind⟩
    · exact hm
    · exact hm.bindSamplers hbind
  obtain ⟨planned, n, final, hbound, -⟩ := allocateArguments_ok harguments
  exact hbound.namesDistinct hm₁

end Module

/-- The positions and bindings of the rows for a name. -/
def AllocationReport.bindingsOf (report : AllocationReport) (name : String) : List (Nat × Nat) :=
  (report.arguments.filter (·.kernel == name)).map fun row => (row.position, row.binding)

/-- With distinct names, each kernel has its positions bound in order, and nothing else is bound. -/
theorem AllocationReport.HandsOut.bindingsOf {report : AllocationReport} {m : Module}
    {samplers : SamplerMap} {next final : Nat} (h : report.HandsOut m samplers next final)
    (hm : m.NamesDistinct) {id : FunctionId} {f : Function} (hf : m.function? id = some f) :
    report.bindingsOf f.name
      = if f.isKernel then (List.range f.params.length).map fun i => (i, i) else [] := by
  have hplaces : report.bindingsOf f.name
      = ((places m.boundKernels (next + samplers.setCount)).filter (·.1 == f.name)).map
        fun p => (p.2.1, p.2.2.2) := by
    rw [← h.arguments_place, List.filter_map, List.map_map]
    rfl
  rw [hplaces]
  by_cases hbound : f.isKernel ∧ f.params ≠ []
  · rw [if_pos hbound.1]
    exact filter_places hm.boundKernels
      (Module.mem_boundKernels.mpr ⟨id, f, hf, hbound.1, hbound.2, rfl, rfl⟩) _
  · have hnone : (places m.boundKernels (next + samplers.setCount)).filter (·.1 == f.name) = [] := by
      refine List.filter_eq_nil_iff.mpr fun place hplace => ?_
      obtain ⟨k, name, n, i, hget, -, rfl⟩ := mem_places.mp hplace
      obtain ⟨id', g, hg, hkernel, hparams, rfl, -⟩ :=
        Module.mem_boundKernels.mp (List.mem_of_getElem? hget)
      rw [beq_iff_eq]
      intro hname
      obtain rfl := hm.eq_of_name hg hf hname
      cases hf.symm.trans hg
      exact hbound ⟨hkernel, hparams⟩
    -- There is no place for the name: either `f` is no kernel, or it has no parameters.
    rw [hnone, List.map_nil]
    split
    · rename_i hkernel
      have hnil : f.params = [] := by
        by_contra hparams
        exact hbound ⟨hkernel, hparams⟩
      rw [hnil]
      rfl
    · rfl

/-! ## Allocations in sequence -/

/-- What the allocations of modules in turn come to, where each starts from the state that the one
before it has left, even if that has failed. -/
def allocateEach : List Module → Compilation → List Outcome
  | [], _ => []
  | m :: ms, c => m.allocate c :: allocateEach ms (m.allocate c).compilation

/-- The report of a run that has succeeded. -/
def Outcome.report? (o : Outcome) : Option AllocationReport :=
  match o.result with
  | .ok _ => o.compilation.allocation
  | .error _ => none

/-- The sets that occur in a report. -/
def AllocationReport.sets (report : AllocationReport) : List Nat :=
  report.slots.map Prod.fst

theorem AllocationReport.HandsOut.mem_sets {report : AllocationReport} {m : Module}
    {samplers : SamplerMap} {next final : Nat} (h : report.HandsOut m samplers next final) {s : Nat}
    (hs : s ∈ report.sets) : next ≤ s ∧ s < final := by
  have hfinal := h.final_eq
  rw [AllocationReport.sets, AllocationReport.slots, List.map_append, List.mem_append,
    List.map_map, List.map_map] at hs
  rcases hs with hs | hs
  · obtain ⟨row, hrow, rfl⟩ := List.mem_map.mp hs
    have hset : row.set = next := h.samplers_set row hrow
    have hsome : samplers ≠ [] := fun hempty =>
      List.ne_nil_of_mem hrow (h.samplers_eq_nil_iff.mpr hempty)
    have hcount : samplers.setCount = 1 := by
      rw [SamplerMap.setCount, if_neg (by simpa using hsome)]
    change next ≤ row.set ∧ row.set < final
    omega
  · obtain ⟨row, hrow, rfl⟩ := List.mem_map.mp hs
    have hset := set_of_map_place h.arguments_place hrow
    change next ≤ row.set ∧ row.set < final
    omega

section Runs

variable {m : Module} {c : Compilation}

theorem Module.nextSet_le_allocateArguments (m : Module) (c : Compilation)
    (samplers : List SamplerRow) :
    c.nextSet ≤ (m.allocateArguments c samplers).compilation.nextSet := by
  have hkeeps := Planner.keeps_kernels m c.options.traceBindings c.nextSet m.kernels
    ⟨c.nextSet, .empty, []⟩ (Nat.le_refl _)
  obtain ⟨⟨fault | planned, plan⟩, hrun⟩ :
      ∃ r, (Planner.plan m c.options.traceBindings).run ⟨c.nextSet, .empty, []⟩ = r := ⟨_, rfl⟩
  all_goals
    rw [← Planner.plan, hrun] at hkeeps
    simpa only [allocateArguments, hrun] using hkeeps

/-- Whatever comes of an allocation, it gives no set back. -/
theorem Module.nextSet_le_allocate (m : Module) (c : Compilation) :
    c.nextSet ≤ (m.allocate c).compilation.nextSet := by
  have hnext := (m.allocateSamplers_rows c).2.2
  cases hfirst : (m.allocateSamplers c).2.result with
  | error fault =>
    simp only [allocate, hfirst]
    omega
  | ok r =>
    have := r.1.nextSet_le_allocateArguments (m.allocateSamplers c).2.compilation
      (m.allocateSamplers c).1
    simp only [allocate, hfirst]
    omega

/-- The sets in the report of a run are those that were free before it and are not afterwards. -/
theorem Module.mem_sets_of_allocate {report : AllocationReport}
    (h : (m.allocate c).report? = some report) {s : Nat} (hs : s ∈ report.sets) :
    c.nextSet ≤ s ∧ s < (m.allocate c).compilation.nextSet := by
  unfold Outcome.report? at h
  split at h
  · rename_i r hresult
    obtain ⟨found, hfound, hhands⟩ := allocate_handsOut hresult
    obtain rfl : found = report := Option.some.inj (hfound.symm.trans h)
    exact hhands.mem_sets hs
  · cases h

/-- No run in a sequence hands out a set that was not free before the sequence. -/
theorem le_of_mem_allocateEach (ms : List Module) : ∀ (c : Compilation) (o : Outcome),
    o ∈ allocateEach ms c → ∀ report, o.report? = some report → ∀ s ∈ report.sets,
      c.nextSet ≤ s := by
  induction ms with
  | nil => exact fun c o ho => absurd ho List.not_mem_nil
  | cons m ms ih =>
    intro c o ho report hreport s hs
    rcases List.mem_cons.mp ho with rfl | ho
    · exact (Module.mem_sets_of_allocate hreport hs).1
    · exact Nat.le_trans (m.nextSet_le_allocate c) (ih _ o ho report hreport s hs)

/-- **No set is handed out by two runs.** -/
theorem pairwise_allocateEach (ms : List Module) : ∀ c : Compilation,
    (allocateEach ms c).Pairwise fun o o' => ∀ report report', o.report? = some report →
      o'.report? = some report' → ∀ s ∈ report.sets, s ∉ report'.sets := by
  induction ms with
  | nil => exact fun _ => .nil
  | cons m ms ih =>
    intro c
    refine List.pairwise_cons.mpr ⟨fun o ho report report' hreport hreport' s hs hs' => ?_, ih _⟩
    have hlt := (Module.mem_sets_of_allocate hreport hs).2
    have hge := le_of_mem_allocateEach ms _ o ho report' hreport' s hs'
    omega

end Runs

/-- **An allocation hands out each set once.** The samplers take the next set, if there are any;
then the kernels with parameters take one set each, in order, and bind their parameters in it from
zero on. Two runs never share a set, whatever becomes of the runs between them. -/
theorem allocate_hands_out_each_set_once :
    (∀ (m m' : Module) (c : Compilation) (changed : Bool), m.NamesDistinct →
      (m.allocate c).result = .ok (m', changed) →
      ∃ report, (m.allocate c).compilation.allocation = some report ∧
        report.HandsOut m' c.samplers c.nextSet (m.allocate c).compilation.nextSet ∧
        ∀ id f, m'.function? id = some f → report.bindingsOf f.name
          = if f.isKernel then (List.range f.params.length).map fun i => (i, i) else []) ∧
    ∀ (ms : List Module) (c : Compilation), (allocateEach ms c).Pairwise fun o o' =>
      ∀ report report', o.report? = some report → o'.report? = some report' →
        ∀ s ∈ report.sets, s ∉ report'.sets := by
  refine ⟨fun m m' c changed hm h => ?_, pairwise_allocateEach⟩
  obtain ⟨report, hreport, hhands⟩ := Module.allocate_handsOut h
  exact ⟨report, hreport, hhands, fun id f hf => hhands.bindingsOf (hm.allocate h) hf⟩

/-- The state of a compilation that has claimed three sets, and has a sampler to bind. -/
def claimedThree : Compilation :=
  { Compilation.start .none [⟨5, "5"⟩] with nextSet := 3 }

theorem allocate_scale_hands_out_each_set_once : scaleModule.NamesDistinct ∧
    ∃ m' report, (scaleModule.allocate claimedThree).result = .ok (m', true) ∧
      (scaleModule.allocate claimedThree).compilation.allocation = some report ∧
      report.HandsOut m' claimedThree.samplers 3
        (scaleModule.allocate claimedThree).compilation.nextSet := by
  have hdistinct : scaleModule.NamesDistinct := by
    unfold Module.NamesDistinct
    decide
  have hok : (scaleModule.allocate claimedThree).result.toOption.any (·.2) := by decide +kernel
  refine ⟨hdistinct, ?_⟩
  cases h : (scaleModule.allocate claimedThree).result with
  | error fault =>
    rw [h] at hok
    cases hok
  | ok r =>
    obtain ⟨m', changed⟩ := r
    rw [h] at hok
    obtain rfl : changed = true := hok
    obtain ⟨report, hreport, hhands, -⟩ :=
      allocate_hands_out_each_set_once.1 scaleModule m' claimedThree true hdistinct h
    exact ⟨m', report, rfl, hreport, hhands⟩

end ResourceBinding
