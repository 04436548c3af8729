import ResourceBinding.Proofs.Binding.Planning
import ResourceBinding.Proofs.Listing.Legible

/-!
# Bindings depend on the interface of the kernels alone

Two modules may place their types and functions differently, and still be alike to the host: the
kernels have the same names, and arguments with the same names and types as text
(`Module.interfaceText`). Both then get the same bindings, rows and numbers alike
(`Module.allocate_eq_of_interfaceText`).

In modules that were read, types with the same text are written alike, and no other type of the
module is (`TypeTable.Alike`, `TypeTable.Canonical.biUnique_alike`). So discriminants are first seen
in the same places.
-/

namespace ResourceBinding

open Relator

/-! ## Types that are written alike -/

namespace TypeTable

/-- The two types, of two tables, are written alike. -/
def Alike (types types' : TypeTable) (type type' : TypeId) : Prop :=
  ∃ w, types.written? type = some w ∧ types'.written? type' = some w

variable {types types' larger larger' : TypeTable} {type type' : TypeId}

theorem Alike.mono (h : types.Alike types' type type') (hkept : types.Extends larger)
    (hkept' : types'.Extends larger') : larger.Alike larger' type type' := by
  obtain ⟨w, hw, hw'⟩ := h
  exact ⟨w, hkept.written? hw, hkept'.written? hw'⟩

theorem Alike.text_eq (h : types.Alike types' type type') :
    types.text type = types'.text type' := by
  obtain ⟨w, hw, hw'⟩ := h
  rw [text, text, pieces, pieces, hw, hw']

/-- **A type is alike to at most one**, where no two types of a table are written alike. -/
theorem Canonical.biUnique_alike (h : types.Canonical) (h' : types'.Canonical) :
    BiUnique (types.Alike types') := by
  refine ⟨fun a b c ⟨w, ha, hc⟩ ⟨w', hb, hc'⟩ => ?_, fun a b c ⟨w, ha, hb⟩ ⟨w', ha', hc⟩ => ?_⟩
  · obtain rfl : w = w' := Option.some.inj (hc.symm.trans hc')
    exact h.written?_injective ha hb
  · obtain rfl : w = w' := Option.some.inj (ha.symm.trans ha')
    exact h'.written?_injective hb hc

/-- What is passed for an argument can be told from its type as it is written. -/
theorem ofShape?_of_shows {look look' : TypeId → Option WrittenType} {shape shape' : Shape}
    {w : WrittenType} (h : Shows look shape w) (h' : Shows look' shape' w) :
    ArgumentKind.ofShape? shape = ArgumentKind.ofShape? shape' := by
  cases w with
  | array element count =>
    obtain ⟨c, -, rfl⟩ := h
    obtain ⟨c', -, rfl⟩ := h'
    rfl
  | struct name ws =>
    obtain ⟨members, -, rfl⟩ := h
    obtain ⟨members', -, rfl⟩ := h'
    rfl
  | pointer space pointee =>
    obtain ⟨c, -, rfl⟩ := h
    obtain ⟨c', -, rfl⟩ := h'
    rfl
  | _ => rw [show shape = shape' from Eq.trans h (Eq.symm h')]

theorem exists_shows {w : WrittenType} (h : types.written? type = some w) :
    ∃ entry look, types.get? type = some entry ∧ Shows look entry.shape w := by
  obtain ⟨entry, hentry⟩ : ∃ entry, types.get? type = some entry :=
    ⟨_, Array.getElem?_eq_getElem (lt_size_of_written? h)⟩
  rw [written?_eq_writeEntry hentry] at h
  exact ⟨entry, _, hentry, shows_of_writeEntry h⟩

/-- **Types that are written alike are passed alike.** -/
theorem Alike.argumentKind_eq (h : types.Alike types' type type') :
    types.argumentKind type = types'.argumentKind type' := by
  have htext := h.text_eq
  obtain ⟨w, hw, hw'⟩ := h
  obtain ⟨entry, look, hentry, hshows⟩ := exists_shows hw
  obtain ⟨entry', look', hentry', hshows'⟩ := exists_shows hw'
  rw [argumentKind, argumentKind, hentry, hentry', Option.bind_some, Option.bind_some,
    ofShape?_of_shows hshows hshows', htext]

end TypeTable

/-! ## Numberings -/

namespace Numbering

variable {R : Discriminant → Discriminant → Prop} {n n' : Numbering} {key key' : Discriminant}

/-- Keys that are related have the same number, where the other keys are. -/
theorem index?_eq_of_forall₂ (hR : BiUnique R) (hn : List.Forall₂ R n.keys n'.keys)
    (hkey : R key key') : n.index? key = n'.index? key' := by
  have hsame : ∀ {keys keys' : List Discriminant}, List.Forall₂ R keys keys' →
      keys.idxOf? key = keys'.idxOf? key' := by
    intro keys keys' h
    induction h with
    | nil => rfl
    | @cons a b keys keys' hab _ ih =>
      have heq : (a == key) = (b == key') := by
        rw [Bool.eq_iff_iff, beq_iff_eq, beq_iff_eq]
        exact rel_eq hR hab hkey
      rw [List.idxOf?_cons, List.idxOf?_cons, heq, ih]
  exact hsame hn

/-- **Keys that are related are numbered in the same order.** -/
theorem forall₂_ofKeys (hR : BiUnique R) {keys keys' : List Discriminant}
    (h : List.Forall₂ R keys keys') : List.Forall₂ R (ofKeys keys).keys (ofKeys keys').keys := by
  refine List.rel_foldl (P := fun n n' : Numbering => List.Forall₂ R n.keys n'.keys)
    (fun n n' hn key key' hkey => ?_) .nil h
  unfold Numbering.insert
  rw [index?_eq_of_forall₂ hR hn hkey]
  cases n'.index? key' with
  | some i => exact hn
  | none => exact List.rel_append hn (.cons hkey .nil)

end Numbering

/-! ## Kernels -/

/-- The interface of a kernel as the host knows it: its name, and the names of its parameters with
the texts of their types. -/
def KernelInterface.text (types : TypeTable) (k : KernelInterface) :
    String × List (Option String × String) :=
  (k.name, k.params.map fun (name, type) => (name, types.text type))

/-- The interfaces of the kernels as the host knows them, in the order of declaration. -/
def Module.interfaceText (m : Module) : List (String × List (Option String × String)) :=
  m.kernelInterfaces.map (KernelInterface.text m.types)

/-- The two kernels are the same to the host, with types that are written alike. -/
structure KernelInterface.Alike (types types' : TypeTable) (k k' : KernelInterface) : Prop where
  name : k.name = k'.name
  params : List.Forall₂ (fun p p' => p.1 = p'.1 ∧ types.Alike types' p.2 p'.2) k.params k'.params

section Interfaces

variable {source source' : String} {m m' : Module}

/-- The types of arguments in a module that was read can be written. -/
theorem Module.readable_of_read (h : Module.read source = .ok m) {k : KernelInterface}
    (hk : k ∈ m.kernelInterfaces) {p : Option String × TypeId} (hp : p ∈ k.params) :
    ∃ w : WrittenType, w.Readable ∧ m.types.written? p.2 = some w := by
  obtain ⟨signatures, hread⟩ := isRead_of_read h
  obtain ⟨f, hf, hinterface⟩ := List.mem_filterMap.mp hk
  obtain ⟨s, -, hfread⟩ := hread.function (Array.mem_def.mpr hf)
  rw [Function.kernelInterface?] at hinterface
  split at hinterface
  · cases hinterface
    obtain ⟨param, hparam, rfl⟩ := List.mem_map.mp hp
    obtain ⟨w, hw, hwrites⟩ := exists_mem_of_forall₂ hfread.writes.params hparam
    exact ⟨w.type, (hfread.readable.params w hw).type, hwrites.type⟩
  · cases hinterface

/-- **Kernels that are the same as text have types that are written alike.** -/
theorem Module.alike_of_interfaceText (h : Module.read source = .ok m)
    (h' : Module.read source' = .ok m') (htext : m.interfaceText = m'.interfaceText) :
    List.Forall₂ (KernelInterface.Alike m.types m'.types) m.kernelInterfaces
      m'.kernelInterfaces := by
  refine (forall₂_of_map_eq htext).imp fun k k' ⟨hk, hk', heq⟩ => ?_
  obtain ⟨hname, hparams⟩ := Prod.mk.inj heq
  refine ⟨hname, (forall₂_of_map_eq hparams).imp fun p p' ⟨hp, hp', heq⟩ => ?_⟩
  obtain ⟨hname, htype⟩ := Prod.mk.inj heq
  obtain ⟨w, hreadable, hw⟩ := readable_of_read h hk hp
  obtain ⟨w', hreadable', hw'⟩ := readable_of_read h' hk' hp'
  simp only [TypeTable.text, TypeTable.pieces, hw, hw'] at htype
  exact ⟨hname, w, hw, hreadable.eq_of_render hreadable' htype ▸ hw'⟩

end Interfaces

/-! ## Rows -/

/-- Related types of two modules are bound alike, where their discriminants are numbered. -/
structure BindsAlike (m m' : Module) (n n' : Numbering) (R : TypeId → TypeId → Prop) : Prop where
  kind : ∀ type type', R type type' → m.types.argumentKind type = m'.types.argumentKind type'
  number : ∀ type type' (i : Nat), R type type' → n.index? ⟨type, i⟩ = n'.index? ⟨type', i⟩

/-- The two functions are the same kernel, with related types. -/
structure Function.SameKernel (R : TypeId → TypeId → Prop) (f f' : Function) : Prop where
  name : f.name = f'.name
  params : List.Forall₂ (fun p p' : Param => p.name = p'.name ∧ R p.type p'.type) f.params f'.params

section Rows

variable {m m' : Module} {n n' : Numbering} {R : TypeId → TypeId → Prop} {f f' : Function}
  {s i : Nat}

theorem Function.SameKernel.setBehind_eq (h : SameKernel R f f') (next : Nat) :
    f.setBehind next = f'.setBehind next := by
  have hempty : f.params.isEmpty = f'.params.isEmpty := by
    rw [Bool.eq_iff_iff, List.isEmpty_iff_length_eq_zero, List.isEmpty_iff_length_eq_zero,
      h.params.length_eq]
  simp only [setBehind, hempty]

theorem ArgumentRow.Binds.eq_of_bindsAlike (h : BindsAlike m m' n n' R) (hf : f.name = f'.name)
    {p p' : Param} (hp : p.name = p'.name) (htype : R p.type p'.type) {row row' : ArgumentRow}
    (hrow : row.Binds m n f s i p) (hrow' : row'.Binds m' n' f' s i p') : row = row' := by
  have hkind := (Planner.argumentKind_of_kind hrow.kind).symm.trans
    ((h.kind _ _ htype).trans (Planner.argumentKind_of_kind hrow'.kind))
  have hnumber := hrow.discriminant.symm.trans
    ((h.number _ _ i htype).trans hrow'.discriminant)
  obtain ⟨kernel, position, name, kind, set, binding, discriminant⟩ := row
  obtain ⟨kernel', position', name', kind', set', binding', discriminant'⟩ := row'
  cases hkind
  cases hnumber
  obtain rfl : kernel = kernel' := hrow.kernel.trans (hf.trans hrow'.kernel.symm)
  obtain rfl : name = name' := hrow.name.trans (hp.trans hrow'.name.symm)
  obtain rfl : position = position' := hrow.position.trans hrow'.position.symm
  obtain rfl : set = set' := hrow.set.trans hrow'.set.symm
  obtain rfl : binding = binding' := hrow.binding.trans hrow'.binding.symm
  rfl

theorem BindAll.eq_of_bindsAlike (h : BindsAlike m m' n n' R) (hf : f.name = f'.name)
    {ps ps' : List Param}
    (hps : List.Forall₂ (fun p p' : Param => p.name = p'.name ∧ R p.type p'.type) ps ps') :
    ∀ {i : Nat} {rows rows' : List ArgumentRow}, BindAll m n f s i ps rows →
      BindAll m' n' f' s i ps' rows' → rows = rows' := by
  induction hps with
  | nil =>
    intro i rows rows' hrows hrows'
    cases hrows
    cases hrows'
    rfl
  | cons hp _ ih =>
    intro i rows rows' hrows hrows'
    cases hrows with
    | cons hrow hrows =>
      cases hrows' with
      | cons hrow' hrows' =>
        rw [hrow.eq_of_bindsAlike h hf hp.1 hp.2 hrow', ih hrows hrows']

/-- **Modules with the same kernels are planned alike.** -/
theorem Plans.eq_of_bindsAlike (h : BindsAlike m m' n n' R)
    {ks ks' : List (FunctionId × Function)}
    (hks : List.Forall₂ (fun k k' => Function.SameKernel R k.2 k'.2) ks ks') :
    ∀ {next final final' : Nat} {planned planned' : List (FunctionId × List ArgumentRow)},
      Plans m n next ks planned final → Plans m' n' next ks' planned' final' →
      planned.flatMap Prod.snd = planned'.flatMap Prod.snd ∧ final = final' := by
  induction hks with
  | nil =>
    intro next final final' planned planned' hplans hplans'
    cases hplans
    cases hplans'
    exact ⟨rfl, rfl⟩
  | @cons k k' ks ks' hk _ ih =>
    intro next final final' planned planned' hplans hplans'
    cases hplans with
    | @cons _ _ id f rows _ others hrows hplans =>
      cases hplans' with
      | @cons _ _ id' f' rows' _ others' hrows' hplans' =>
        rw [← Function.SameKernel.setBehind_eq hk] at hplans'
        obtain ⟨hothers, hfinal⟩ := ih hplans hplans'
        rw [List.flatMap_cons, List.flatMap_cons, hothers,
          BindAll.eq_of_bindsAlike h hk.name hk.params hrows hrows']
        exact ⟨rfl, hfinal⟩

end Rows

/-! ## Allocation -/

section Arguments

variable {R : TypeId → TypeId → Prop} {m m' : Module}

/-- The discriminants are at the same position, with related types. -/
def Discriminant.Related (R : TypeId → TypeId → Prop) (key key' : Discriminant) : Prop :=
  R key.type key'.type ∧ key.position = key'.position

theorem Discriminant.biUnique_related (hR : BiUnique R) : BiUnique (Related R) :=
  ⟨fun _ _ _ h h' => congrArg₂ Discriminant.mk (hR.1 h.1 h'.1) (h.2.trans h'.2.symm),
    fun _ _ _ h h' => congrArg₂ Discriminant.mk (hR.2 h.1 h'.1) (h.2.symm.trans h'.2)⟩

/-- The same kernels have the same discriminants, one for one. -/
theorem forall₂_keys (hkernels : List.Forall₂ (fun f f' => Function.SameKernel R f f')
      (m.kernels.map Prod.snd) (m'.kernels.map Prod.snd)) :
    List.Forall₂ (Discriminant.Related R) (m.kernelArguments.map KernelArgument.key)
      (m'.kernelArguments.map KernelArgument.key) := by
  rw [← Module.flatMap_kernels, ← Module.flatMap_kernels, List.map_flatMap, List.map_flatMap]
  refine List.rel_flatMap hkernels fun f f' h => ?_
  have hall : ∀ {ps ps' : List Param} (i : Nat),
      List.Forall₂ (fun p p' : Param => p.name = p'.name ∧ R p.type p'.type) ps ps' →
      List.Forall₂ (Discriminant.Related R)
        (((ps.zipIdx i).map f.argumentAt).map KernelArgument.key)
        (((ps'.zipIdx i).map f'.argumentAt).map KernelArgument.key) := by
    intro ps ps' i h
    induction h generalizing i with
    | nil => exact .nil
    | cons hp _ ih => exact .cons ⟨hp.2, rfl⟩ (ih (i + 1))
  exact hall 0 h.params

end Arguments

/-- Erasing an element that is mapped to nothing changes nothing about what is mapped. -/
theorem filterMap_eraseP {α β : Type} {f : α → Option β} {p : α → Bool} :
    ∀ {as : List α}, (∀ a ∈ as, p a → f a = none) → (as.eraseP p).filterMap f = as.filterMap f
  | [], _ => rfl
  | a :: as, h => by
    cases hp : p a with
    | true => rw [List.eraseP_cons_of_pos hp, List.filterMap_cons_none (h a List.mem_cons_self hp)]
    | false =>
      rw [List.eraseP_cons_of_neg (by simp [hp]), List.filterMap_cons, List.filterMap_cons,
        filterMap_eraseP fun b hb => h b (List.mem_cons_of_mem a hb)]

namespace Module

variable {m m' r r' : Module} {c c' : Compilation} {samplers samplers' : List SamplerRow}
  {changed changed' : Bool}

/-- Binding the arguments numbers their discriminants in order. -/
theorem discriminants_of_allocateArguments
    (h : (m.allocateArguments c samplers).result = .ok (m', changed)) {report : AllocationReport}
    (hreport : (m.allocateArguments c samplers).compilation.allocation = some report) :
    report.discriminants = .ofKeys (m.kernelArguments.map KernelArgument.key) := by
  obtain ⟨planned, n, final, hbound, -⟩ := allocateArguments_ok h
  have hkinds : ∀ k ∈ m.kernels, ∀ p ∈ k.2.params,
      ∃ kind, m.types.argumentKind p.type = .ok kind := by
    intro k hk p hp
    obtain ⟨s, rows, -, hrows⟩ := hbound.plans.exists_rows hk
    obtain ⟨i, hi⟩ := List.mem_iff_getElem?.mp hp
    obtain ⟨row, -, hrow⟩ := hrows.getElem? hi
    exact ⟨_, Planner.argumentKind_of_kind hrow.kind⟩
  have hplan : Planner.FailsBy m [] _
      ((Planner.kernels m c.options.traceBindings m.kernels).run ⟨c.nextSet, .empty, []⟩) :=
    Planner.failsBy_kernels [] hkinds rfl
  have hnumbered := hplan.numbered
  rw [List.nil_append, flatMap_kernels] at hnumbered
  unfold allocateArguments at h hreport
  obtain ⟨⟨fault | rows, plan⟩, hrun⟩ :
      ∃ r, (Planner.plan m c.options.traceBindings).run ⟨c.nextSet, .empty, []⟩ = r := ⟨_, rfl⟩
  · simp only [hrun] at h
    cases h
  · simp only [hrun] at hreport
    cases hreport
    rw [show (Planner.kernels m c.options.traceBindings m.kernels).run ⟨c.nextSet, .empty, []⟩
      = _ from hrun] at hnumbered
    exact hnumbered rows rfl

/-! ### Tables of types only grow -/

theorem extends_insertCarrier (m : Module) (index : Nat) (data : TypeId) :
    m.types.Extends (m.insertCarrier index data).2.types :=
  (m.types.extends_insert _).trans (TypeTable.extends_insert _ _)

theorem extends_insertAccessorResult (m : Module) (index : Nat) (type : TypeId) :
    m.types.Extends (m.insertAccessorResult index type).2.types := by
  unfold insertAccessorResult
  split
  · exact .refl _
  · exact .refl _
  · rename_i pointee _ _
    exact (m.types.extends_insert _).trans
      (extends_insertCarrier (m.insertShape (.array pointee none)).2 index _)
  · exact extends_insertCarrier _ _ _

theorem extends_addAccessors : ∀ (keys : List Discriminant) (m : Module) (index : Nat),
    m.types.Extends (m.addAccessors index keys).types
  | [], m, _ => .refl m.types
  | key :: keys, m, index =>
    ((extends_insertAccessorResult m index key.type).trans (TypeTable.extends_insert _ _)).trans
      (extends_addAccessors keys (m.addAccessor index key) (index + 1))

theorem BoundBy.extends {next final : Nat} {planned : List (FunctionId × List ArgumentRow)}
    {n : Numbering} (h : m.BoundBy next planned n final m') : m.types.Extends m'.types := by
  rw [h.module_eq, types_bindArguments]
  exact extends_addAccessors n.keys m 0

/-! ### Two allocations -/

/-- If no kernel makes samplers, no kernel is removed with what makes them. -/
theorem remainingKernels_eq (m : Module) (samplers : SamplerMap)
    (h : ∀ f ∈ m.functions, f.isKernel → f.name ≠ ReservedName.samplerMaker) :
    m.remainingKernels samplers = m.kernelInterfaces := by
  unfold remainingKernels
  split
  · rfl
  · refine filterMap_eraseP fun f hf hname => ?_
    rw [Function.kernelInterface?, if_neg fun hkernel =>
      h f (Array.mem_def.mpr hf) hkernel (beq_iff_eq.mp hname)]

/-- **The arguments of the same kernels are bound alike**, where types are related one to one. -/
theorem allocateArguments_eq {R : TypeId → TypeId → Prop} (hR : BiUnique R)
    (hkind : ∀ type type', R type type' → m.types.argumentKind type = m'.types.argumentKind type')
    (hkernels : List.Forall₂ (fun f f' => Function.SameKernel R f f')
      (m.kernels.map Prod.snd) (m'.kernels.map Prod.snd))
    (hset : c.nextSet = c'.nextSet)
    (h : (m.allocateArguments c samplers).result = .ok (r, changed))
    (h' : (m'.allocateArguments c' samplers').result = .ok (r', changed')) :
    ∃ rows final, ∃ n n' : Numbering,
      (m.allocateArguments c samplers).compilation
        = { c with nextSet := final, allocation := some ⟨samplers, rows, n⟩ } ∧
      (m'.allocateArguments c' samplers').compilation
        = { c' with nextSet := final, allocation := some ⟨samplers', rows, n'⟩ } ∧
      List.Forall₂ (Discriminant.Related R) n.keys n'.keys := by
  obtain ⟨planned, n, final, hbound, hcompilation⟩ := allocateArguments_ok h
  obtain ⟨planned', n', final', hbound', hcompilation'⟩ := allocateArguments_ok h'
  have hn : n = .ofKeys _ := discriminants_of_allocateArguments h (by rw [hcompilation])
  have hn' : n' = .ofKeys _ := discriminants_of_allocateArguments h' (by rw [hcompilation'])
  have hrelated : BiUnique (Discriminant.Related R) := Discriminant.biUnique_related hR
  have hkeys : List.Forall₂ (Discriminant.Related R) n.keys n'.keys := by
    rw [hn, hn']
    exact Numbering.forall₂_ofKeys hrelated (forall₂_keys hkernels)
  have halike : BindsAlike m m' n n' R :=
    ⟨hkind, fun type type' i htype =>
      Numbering.index?_eq_of_forall₂ hrelated hkeys ⟨htype, rfl⟩⟩
  have hks : List.Forall₂ (fun k k' => Function.SameKernel R k.2 k'.2) m.kernels m'.kernels := by
    rw [List.forall₂_map_left_iff, List.forall₂_map_right_iff] at hkernels
    exact hkernels
  have hplans := hbound.plans
  rw [hset] at hplans
  obtain ⟨hrows, hfinal⟩ := hplans.eq_of_bindsAlike halike hks hbound'.plans
  refine ⟨_, _, n, n', hcompilation, ?_, hkeys⟩
  rw [hcompilation', hrows, hfinal]

theorem allocateSamplers_rows_eq (m : Module) (c : Compilation) : (m.allocateSamplers c).1
    = if c.samplers.isEmpty then [] else samplerRows c.nextSet c.samplers := by
  unfold allocateSamplers
  split
  · cases m.samplerUser? <;> rfl
  · rfl

/-- The kernels of modules with alike interfaces are the same. -/
theorem sameKernels_of_alike {types types' : TypeTable}
    (h : List.Forall₂ (KernelInterface.Alike types types') m.kernelInterfaces m'.kernelInterfaces) :
    List.Forall₂ (fun f f' => Function.SameKernel (types.Alike types') f f')
      (m.kernels.map Prod.snd) (m'.kernels.map Prod.snd) := by
  rw [kernelInterfaces_eq, kernelInterfaces_eq, List.forall₂_map_left_iff,
    List.forall₂_map_right_iff] at h
  refine h.imp fun f f' halike => ⟨halike.name, ?_⟩
  have hparams := halike.params
  rw [List.forall₂_map_left_iff, List.forall₂_map_right_iff] at hparams
  exact hparams

end Module

/-- The discriminants of a report, with the texts of their types. -/
def AllocationReport.discriminantTexts (report : AllocationReport) (types : TypeTable) :
    List (String × Nat) :=
  report.discriminants.keys.map fun key => (types.text key.type, key.position)

/-- **Allocation depends on the interface of the kernels alone**: in modules whose kernels have the
same names, and arguments with the same names and texts of types, samplers and arguments get the
same rows, the discriminants are the same as text, and the same set is free afterwards. -/
theorem Module.allocate_eq_of_interfaceText {source source' : String} {m m' r r' : Module}
    {c c' : Compilation} {changed changed' : Bool} (hread : Module.read source = .ok m)
    (hread' : Module.read source' = .ok m') (htext : m.interfaceText = m'.interfaceText)
    (hmaker : ∀ f ∈ m.functions, f.isKernel → f.name ≠ ReservedName.samplerMaker)
    (hmaker' : ∀ f ∈ m'.functions, f.isKernel → f.name ≠ ReservedName.samplerMaker)
    (hsamplers : c.samplers = c'.samplers) (hset : c.nextSet = c'.nextSet)
    (h : (m.allocate c).result = .ok (r, changed))
    (h' : (m'.allocate c').result = .ok (r', changed')) :
    ∃ report report', (m.allocate c).compilation.allocation = some report ∧
      (m'.allocate c').compilation.allocation = some report' ∧
      report.samplers = report'.samplers ∧ report.arguments = report'.arguments ∧
      report.discriminantTexts r.types = report'.discriminantTexts r'.types ∧
      (m.allocate c).compilation.nextSet = (m'.allocate c').compilation.nextSet := by
  obtain ⟨m₁, changed₁, changed₂, hfirst, harguments, hcompilation⟩ := allocate_ok h
  obtain ⟨m₁', changed₁', changed₂', hfirst', harguments', hcompilation'⟩ := allocate_ok h'
  have hbound := samplersBound_of_allocateSamplers hfirst
  have hbound' := samplersBound_of_allocateSamplers hfirst'
  -- Types are related as they are written before the samplers are bound.
  have hkernels : List.Forall₂ (fun f f' => Function.SameKernel (m.types.Alike m'.types) f f')
      (m₁.kernels.map Prod.snd) (m₁'.kernels.map Prod.snd) := by
    refine sameKernels_of_alike ?_
    rw [hbound.kernels, hbound'.kernels, remainingKernels_eq m _ hmaker,
      remainingKernels_eq m' _ hmaker']
    exact alike_of_interfaceText hread hread' htext
  have hunique := (canonical_of_read hread).biUnique_alike (canonical_of_read hread')
  have hnext : (m.allocateSamplers c).2.compilation.nextSet
      = (m'.allocateSamplers c').2.compilation.nextSet := by
    rw [(m.allocateSamplers_rows c).2.2, (m'.allocateSamplers_rows c').2.2, hsamplers, hset]
  obtain ⟨rows, final, n, n', hreport, hreport', hkeys⟩ := allocateArguments_eq hunique
    (fun _ _ htype => (htype.mono hbound.types hbound'.types).argumentKind_eq) hkernels hnext
    harguments harguments'
  rw [hcompilation, hcompilation', hreport, hreport']
  refine ⟨_, _, rfl, rfl, ?_, rfl, ?_, rfl⟩
  · rw [allocateSamplers_rows_eq, allocateSamplers_rows_eq, hsamplers, hset]
  · obtain ⟨_, _, _, hedited, -⟩ := allocateArguments_ok harguments
    obtain ⟨_, _, _, hedited', -⟩ := allocateArguments_ok harguments'
    have hkept := hbound.types.trans hedited.extends
    have hkept' := hbound'.types.trans hedited'.extends
    exact map_eq_map_of_forall₂ (hkeys.imp fun key key' hkey =>
      Prod.ext (hkey.1.mono hkept hkept').text_eq hkey.2)

/-- A kernel with a buffer and a number, and nothing else. -/
def blankSource : String :=
  "kernel @k(%a: ptr<global, f32>, %n: u32) \x7b \x7d"

/-- The same kernel with a body, below a function that is the first to use one of its types. -/
def filledSource : String :=
  "fn @f(%n: u32) \x7b \x7d
kernel @k(%a: ptr<global, f32>, %n: u32) \x7b call @f(%n) \x7d"

/-- Both are bound alike, behind a sampler that neither of them uses. -/
theorem allocate_filled_eq_blank : ∃ m m' r r' changed changed',
    Module.read blankSource = .ok m ∧ Module.read filledSource = .ok m' ∧
    m.interfaceText = m'.interfaceText ∧
    (∀ f ∈ m.functions, f.isKernel → f.name ≠ ReservedName.samplerMaker) ∧
    (∀ f ∈ m'.functions, f.isKernel → f.name ≠ ReservedName.samplerMaker) ∧
    (m.allocate (.start .none [⟨18, "18"⟩])).result = .ok (r, changed) ∧
    (m'.allocate (.start .none [⟨18, "18"⟩])).result = .ok (r', changed') ∧
    ∃ report report',
      (m.allocate (.start .none [⟨18, "18"⟩])).compilation.allocation = some report ∧
      (m'.allocate (.start .none [⟨18, "18"⟩])).compilation.allocation = some report' ∧
      report.samplers = report'.samplers ∧ report.arguments = report'.arguments ∧
      report.discriminantTexts r.types = report'.discriminantTexts r'.types ∧
      (m.allocate (.start .none [⟨18, "18"⟩])).compilation.nextSet
        = (m'.allocate (.start .none [⟨18, "18"⟩])).compilation.nextSet := by
  have hcheck : (Module.read blankSource).toOption.any (fun m =>
      (Module.read filledSource).toOption.any fun m' =>
        (m.allocate (.start .none [⟨18, "18"⟩])).result.toOption.any fun _ =>
          (m'.allocate (.start .none [⟨18, "18"⟩])).result.toOption.any fun _ =>
            m.interfaceText == m'.interfaceText &&
              (m.functions.all (fun f => !f.isKernel || f.name != ReservedName.samplerMaker) &&
              m'.functions.all (fun f => !f.isKernel || f.name != ReservedName.samplerMaker))) := by
    decide +kernel
  obtain ⟨m, hread, hcheck⟩ := exists_of_any_toOption hcheck
  obtain ⟨m', hread', hcheck⟩ := exists_of_any_toOption hcheck
  obtain ⟨⟨r, changed⟩, h, hcheck⟩ := exists_of_any_toOption hcheck
  obtain ⟨⟨r', changed'⟩, h', hcheck⟩ := exists_of_any_toOption hcheck
  obtain ⟨htext, hcheck⟩ := Bool.and_eq_true_iff.mp hcheck
  obtain ⟨hmaker, hmaker'⟩ := Bool.and_eq_true_iff.mp hcheck
  have hordinary : ∀ {m : Module},
      m.functions.all (fun f => !f.isKernel || f.name != ReservedName.samplerMaker) →
      ∀ f ∈ m.functions, f.isKernel → f.name ≠ ReservedName.samplerMaker := by
    intro m hall f hf hkernel
    simpa [hkernel] using Array.all_eq_true_iff_forall_mem.mp hall f hf
  exact ⟨m, m', r, r', changed, changed', hread, hread', eq_of_beq htext, hordinary hmaker,
    hordinary hmaker', h, h', Module.allocate_eq_of_interfaceText hread hread' (eq_of_beq htext)
      (hordinary hmaker) (hordinary hmaker') rfl rfl h h'⟩

end ResourceBinding
