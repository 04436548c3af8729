import ResourceBinding.Binding.Allocation
import ResourceBinding.Proofs.Binding.Kernels
import ResourceBinding.Proofs.Binding.Plan
import ResourceBinding.Proofs.Binding.ReservedName

/-!
# What binding the arguments of the kernels comes to

A run that binds the arguments has made a plan, and has edited the module by it
(`Module.allocateArguments_ok`). Here is how the kernels of the module and the rows of the plan go
together.
-/

namespace ResourceBinding

/-! ## Kernels and their rows -/

section Rows

variable {m : Module} {n : Numbering} {f : Function} {s i next final : Nat} {ps : List Param}
  {rows : List ArgumentRow} {ks : List (FunctionId × Function)}
  {planned : List (FunctionId × List ArgumentRow)}

/-- The rows of a kernel stand in the order of its parameters. -/
theorem BindAll.map_position (h : BindAll m n f s i ps rows) :
    rows.map ArgumentRow.position = List.range' i ps.length := by
  induction ps generalizing i rows with
  | nil =>
    cases h
    rfl
  | cons p ps ih =>
    cases h with
    | cons hrow hrest =>
      rw [List.map_cons, hrow.position, ih hrest]
      rfl

theorem BindAll.nodup_position (h : BindAll m n f s i ps rows) :
    (rows.map ArgumentRow.position).Nodup := by
  rw [h.map_position]
  exact List.nodup_range'

/-- The parameter at place `k` has the row at place `k`. -/
theorem BindAll.getElem? (h : BindAll m n f s i ps rows) {k : Nat} {p : Param}
    (hp : ps[k]? = some p) : ∃ row, rows[k]? = some row ∧ row.Binds m n f s (i + k) p := by
  have hzip : (ps.zipIdx i)[k]? = some (p, i + k) := by
    rw [List.getElem?_zipIdx, hp]
    rfl
  exact exists_getElem?_of_forall₂ h hzip

theorem Plans.map_fst (h : Plans m n next ks planned final) :
    planned.map Prod.fst = ks.map Prod.fst := by
  induction h with
  | nil => rfl
  | cons _ _ ih => simp only [List.map_cons, ih]

/-- Each kernel has rows. -/
theorem Plans.exists_rows (h : Plans m n next ks planned final) {id : FunctionId}
    (hid : (id, f) ∈ ks) : ∃ s rows, (id, rows) ∈ planned ∧ BindAll m n f s 0 f.params rows := by
  induction h with
  | nil => cases hid
  | cons hrows _ ih =>
    rcases List.mem_cons.mp hid with heq | hmem
    · cases heq
      exact ⟨_, _, List.mem_cons_self, hrows⟩
    · obtain ⟨s, rows, hplanned, hbinds⟩ := ih hmem
      exact ⟨s, rows, List.mem_cons_of_mem _ hplanned, hbinds⟩

/-- What is no kernel has no rows. -/
theorem Plans.lookup_eq_none (h : Plans m n next ks planned final) {id : FunctionId}
    (hid : id ∉ ks.map Prod.fst) : planned.lookup id = none := by
  rw [List.lookup_eq_none_iff]
  intro p hp
  rw [bne_iff_ne]
  rintro rfl
  exact hid (h.map_fst ▸ List.mem_map_of_mem hp)

end Rows

/-! ## The run -/

/-- What the rows of a kernel depend on. -/
def Function.signature (f : Function) : Bool × String × List Param :=
  (f.isKernel, f.name, f.params)

theorem Function.signature_of_frame {f g : Function}
    (h : g = { f with expressions := g.expressions, body := g.body })
    (hbody : g.body.isSome = f.body.isSome) : g.signature = f.signature := by
  have hconvention : g.convention = f.convention := by rw [h]
  have hname : g.name = f.name := by rw [h]
  have hparams : g.params = f.params := by rw [h]
  simp only [signature, isKernel, hconvention, hname, hparams, hbody]

variable {m m' : Module} {c : Compilation} {samplers : List SamplerRow} {changed : Bool}

/-- A run that binds the arguments of the kernels `m.kernels` of `m`, and yields `m'`: the plan, the
numbering and the set that is free afterwards. -/
structure Module.BoundBy (m : Module) (next : Nat) (planned : List (FunctionId × List ArgumentRow))
    (n : Numbering) (final : Nat) (m' : Module) : Prop where
  plans : Plans m n next m.kernels planned final
  name_free : ∀ i < n.keys.length, m.find? (ReservedName.accessor i) = none
  key_typed : ∀ key ∈ n.keys, ∃ kind, m.types.argumentKind key.type = .ok kind
  module_eq : m' = m.bindArguments n.keys planned

/-- **A run that succeeds has made a plan, and has edited the module by it.** -/
theorem Module.allocateArguments_ok
    (h : (m.allocateArguments c samplers).result = .ok (m', changed)) :
    ∃ planned n final, m.BoundBy c.nextSet planned n final m' ∧
      (m.allocateArguments c samplers).compilation = { c with
        nextSet := final
        allocation := some ⟨samplers, planned.flatMap Prod.snd, n⟩ } := by
  unfold allocateArguments at h ⊢
  obtain ⟨⟨fault | planned, plan⟩, hrun⟩ :
      ∃ r, (Planner.plan m c.options.traceBindings).run ⟨c.nextSet, .empty, []⟩ = r := ⟨_, rfl⟩
  · simp only [hrun] at h
    cases h
  · simp only [hrun] at h ⊢
    cases h
    obtain ⟨hplans, hadv⟩ := Planner.kernels_ok hrun
    exact ⟨planned, plan.discriminants, plan.nextSet,
      ⟨hplans, fun i hi => hadv.name_free i (Nat.zero_le i) hi, fun key hkey =>
        (hadv.key_typed key hkey).resolve_left List.not_mem_nil, rfl⟩, rfl⟩

/-- Binding the arguments tells whether there are any. -/
theorem Module.changed_allocateArguments
    (h : (m.allocateArguments c samplers).result = .ok (m', changed)) :
    ∃ report, (m.allocateArguments c samplers).compilation.allocation = some report ∧
      changed = !report.arguments.isEmpty := by
  unfold allocateArguments at h ⊢
  obtain ⟨⟨fault | planned, plan⟩, hrun⟩ :
      ∃ r, (Planner.plan m c.options.traceBindings).run ⟨c.nextSet, .empty, []⟩ = r := ⟨_, rfl⟩
  · simp only [hrun] at h
    cases h
  · simp only [hrun] at h ⊢
    cases h
    exact ⟨_, rfl, rfl⟩

namespace Module.BoundBy

variable {next final : Nat} {planned : List (FunctionId × List ArgumentRow)} {n : Numbering}

theorem nodup (h : m.BoundBy next planned n final m') : (planned.map Prod.fst).Nodup := by
  rw [h.plans.map_fst]
  exact m.nodup_kernels

theorem lt_size (h : m.BoundBy next planned n final m') :
    ∀ p ∈ planned, (p.1 : Nat) < m.functions.size := by
  intro p hp
  have hmem : p.1 ∈ m.kernels.map Prod.fst := h.plans.map_fst ▸ List.mem_map_of_mem hp
  obtain ⟨⟨id, f⟩, hf, heq⟩ := List.mem_map.mp hmem
  rw [← heq]
  exact lt_size_of_function? (mem_kernels.mp hf).1

/-- A kernel becomes itself with the arguments of its rows bound. -/
theorem kernel (h : m.BoundBy next planned n final m') {id : FunctionId} {f : Function}
    (hf : m.function? id = some f) (hkernel : f.isKernel) :
    ∃ s rows, (id, rows) ∈ planned ∧ BindAll m n f s 0 f.params rows ∧
      m'.function? id = some (f.bindArguments m.functions.size rows) := by
  obtain ⟨s, rows, hplanned, hbinds⟩ := h.plans.exists_rows (mem_kernels.mpr ⟨hf, hkernel⟩)
  refine ⟨s, rows, hplanned, hbinds, ?_⟩
  rw [h.module_eq, function?_bindArguments h.nodup (lt_size_of_function? hf), hf,
    lookup_of_mem h.nodup hplanned]
  rfl

/-- Every other function stays as it is. -/
theorem other (h : m.BoundBy next planned n final m') {id : FunctionId} {f : Function}
    (hf : m.function? id = some f) (hkernel : ¬ f.isKernel) : m'.function? id = some f := by
  have hnone : planned.lookup id = none := by
    refine h.plans.lookup_eq_none fun hmem => ?_
    obtain ⟨⟨id', g⟩, hg, heq⟩ := List.mem_map.mp hmem
    cases heq
    obtain ⟨hg, hgk⟩ := mem_kernels.mp hg
    cases hf.symm.trans hg
    exact hkernel hgk
  rw [h.module_eq, function?_bindArguments h.nodup (lt_size_of_function? hf), hf, hnone]
  rfl

/-- Behind the functions that were there is the accessor of each discriminant. -/
theorem accessor (h : m.BoundBy next planned n final m') {i : Nat} (hi : i < n.keys.length) :
    ∃ f, f.DeclaresAccessor i ∧ m'.function? (m.functions.size + i) = some f := by
  rw [h.module_eq]
  exact (function?_bindArguments_add h.nodup h.lt_size i).1 hi

/-- Nothing else has been added. -/
theorem declares_of_le (h : m.BoundBy next planned n final m') {id : Nat} {f : Function}
    (hid : m.functions.size ≤ id) (hf : m'.function? id = some f) :
    id - m.functions.size < n.keys.length ∧ f.DeclaresAccessor (id - m.functions.size) := by
  obtain ⟨i, rfl⟩ := Nat.exists_eq_add_of_le hid
  rw [Nat.add_sub_cancel_left]
  by_cases hi : i < n.keys.length
  · obtain ⟨g, hg, hget⟩ := h.accessor hi
    cases hget.symm.trans hf
    exact ⟨hi, hg⟩
  · rw [h.module_eq, (function?_bindArguments_add h.nodup h.lt_size i).2 (Nat.not_lt.mp hi)] at hf
    cases hf

/-- No function that was there changes its signature. -/
theorem exists_function (h : m.BoundBy next planned n final m') {id : FunctionId} {f : Function}
    (hf : m.function? id = some f) :
    ∃ g, m'.function? id = some g ∧ g.signature = f.signature := by
  by_cases hkernel : f.isKernel
  · obtain ⟨s, rows, -, hrows, hg⟩ := h.kernel hf hkernel
    obtain ⟨hframe, hbody⟩ := f.bindArguments_frame m.functions.size hrows.nodup_position
    exact ⟨_, hg, Function.signature_of_frame hframe hbody⟩
  · exact ⟨f, h.other hf hkernel, rfl⟩

/-- The functions that were there keep their names. -/
theorem nameOf (h : m.BoundBy next planned n final m') {id : Nat} (hid : id < m.functions.size) :
    m'.nameOf id = m.nameOf id := by
  obtain ⟨f, hf⟩ := exists_function?_of_lt hid
  obtain ⟨g, hg, hsignature⟩ := h.exists_function hf
  rw [nameOf_of_function? hg, nameOf_of_function? hf]
  exact congrArg (·.2.1) hsignature

/-- Each accessor has the name for its number. -/
theorem nameOf_accessor (h : m.BoundBy next planned n final m') {i : Nat}
    (hi : i < n.keys.length) : m'.nameOf (m.functions.size + i) = ReservedName.accessor i := by
  obtain ⟨f, ⟨u32, result, rfl⟩, hf⟩ := h.accessor hi
  rw [nameOf_of_function? hf]
  rfl

/-- The names of the accessors stand behind those that were there. -/
theorem names_eq (h : m.BoundBy next planned n final m') :
    m'.names = m.names ++ (List.range n.keys.length).map ReservedName.accessor := by
  refine List.ext_getElem? fun i => ?_
  rw [getElem?_names]
  by_cases hi : i < m.functions.size
  · obtain ⟨f, hf⟩ := exists_function?_of_lt hi
    obtain ⟨g, hg, hsignature⟩ := h.exists_function hf
    rw [List.getElem?_append_left (m.length_names.symm ▸ hi), getElem?_names, hf, hg]
    exact congrArg (fun signature => some signature.2.1) hsignature
  · obtain ⟨j, rfl⟩ := Nat.exists_eq_add_of_le (Nat.not_lt.mp hi)
    rw [← m.length_names, List.getElem?_append_right (Nat.le_add_right _ _),
      Nat.add_sub_cancel_left, List.getElem?_map, m.length_names]
    by_cases hj : j < n.keys.length
    · obtain ⟨f, ⟨u32, result, rfl⟩, hf⟩ := h.accessor hj
      rw [hf, List.getElem?_range hj]
      rfl
    · have hnone : m'.function? (m.functions.size + j) = none := by
        rw [h.module_eq]
        exact (function?_bindArguments_add h.nodup h.lt_size j).2 (Nat.not_lt.mp hj)
      rw [hnone, List.getElem?_eq_none (by simpa using hj)]
      rfl

/-- **Binding the arguments keeps the names distinct.** The plan has found the names of the
accessors free. -/
theorem namesDistinct (h : m.BoundBy next planned n final m') (hm : m.NamesDistinct) :
    m'.NamesDistinct := by
  rw [NamesDistinct, h.names_eq]
  have haccessors : ((List.range n.keys.length).map ReservedName.accessor).Nodup :=
    List.nodup_range.map fun _ _ => ReservedName.accessor_injective
  refine List.nodup_append.mpr ⟨hm, haccessors, fun name hname other hother heq => ?_⟩
  obtain ⟨i, hi, rfl⟩ := List.mem_map.mp hother
  subst heq
  exact find?_eq_none_iff_not_mem.mp (h.name_free i (List.mem_range.mp hi)) hname

end Module.BoundBy

/-! ## A module with one kernel -/

/-- A kernel that multiplies an element of its buffer by a number. -/
def scaleKernel : Function where
  name := "scale"
  convention := .kernel
  params := [⟨some "data", 1, none⟩, ⟨some "factor", 0, none⟩]
  result := none
  isPure := false
  expressions := #[.parameter 0, .literal (.u32 2), .access 0 [1], .load 2, .parameter 1,
    .binary .mul 3 4]
  names := []
  body := some (.cons (.store 2 5) (.cons (.ret none) .nil))

/-- The module of that kernel alone. -/
def scaleModule : Module where
  types := ⟨#[.anonymous (.scalar .f32), .anonymous (.pointer 0 .global)]⟩
  functions := #[scaleKernel]

end ResourceBinding
