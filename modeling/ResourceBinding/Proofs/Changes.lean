import ResourceBinding.Proofs.Binding.Accessors
import ResourceBinding.Proofs.FixedResource.Settled
import ResourceBinding.Proofs.WellFormed
import Mathlib.Data.Prod.Lex

/-!
# Whether a run has changed its module

A pass tells whether it has changed its module, and a run tells whether one of its passes has. That
is the case exactly if the run leaves another module than it was given: what one pass has changed,
no later one undoes.

* `Module.progress`: what binding and fetching leave more of. No pass leaves less of it.
* `Module.Becomes`: a module may advance, or be settled where only marks change, or stay as it is.
* `Pass.becomes_run`: with each pass it does one of the three, and the pass tells so.
* `runPasses_changed_iff`: a run tells whether it has changed its module.
-/

namespace ResourceBinding

namespace Module

variable {m m' m₁ m₂ : Module} {c : Compilation} {changed changed₁ changed₂ : Bool}

/-! ## Progress -/

/-- How far a module has been bound. Its samplers have been when the function that makes them is
gone, and its arguments when they have an accessor. -/
def stage (m : Module) : Nat :=
  (if ReservedName.samplerMaker ∈ m.names then 0 else 1) +
    if ReservedName.accessor 0 ∈ m.names then 1 else 0

/-- How far a module has been bound and then how many expressions its functions have. Binding moves
functions, so that these can be compared only where nothing has been bound in between. -/
def progress (m : Module) : Nat ×ₗ (FunctionId → Nat) :=
  toLex (m.stage, m.sizes)

theorem stage_congr (h : m'.names = m.names) : m'.stage = m.stage := by
  rw [stage, stage, h]

theorem progress_lt_of_stage (h : m.stage < m'.stage) : m.progress < m'.progress :=
  Prod.Lex.toLex_lt_toLex.mpr (.inl h)

theorem progress_lt_of_sizes (hnames : m'.names = m.names) (h : m.sizes < m'.sizes) :
    m.progress < m'.progress :=
  Prod.Lex.toLex_lt_toLex.mpr (.inr ⟨(stage_congr hnames).symm, h⟩)

theorem progress_settled (m : Module) : m.settled.progress = m.progress := by
  rw [progress, progress, sizes_settled, stage_congr m.names_settled]

/-! ## What a pass may do -/

/-- What a module may become, and what is told of that. -/
inductive Becomes (m : Module) : Module → Bool → Prop
  | same : Becomes m m false
  | settled : m.settled ≠ m → Becomes m m.settled true
  | advanced {m' : Module} : m.progress < m'.progress → Becomes m m' true

/-- **What is told is whether the module has become another one.** -/
theorem Becomes.changed_iff (h : m.Becomes m' changed) : changed = true ↔ m' ≠ m := by
  cases h with
  | same => simp
  | settled hne => exact iff_of_true rfl hne
  | advanced hlt =>
    refine iff_of_true rfl fun heq => ?_
    subst heq
    exact lt_irrefl _ hlt

/-- **What a module has become, it does not cease to be.** A settled module is not settled again,
and none of the three takes progress back. -/
theorem Becomes.trans (hm : m.Linked) (h₁ : m.Becomes m₁ changed₁) (h₂ : m₁.Becomes m₂ changed₂) :
    m.Becomes m₂ (changed₁ || changed₂) := by
  cases h₁ with
  | same => exact h₂
  | settled hne =>
    cases h₂ with
    | same => exact .settled hne
    | settled hagain => exact absurd (settled_settled hm) hagain
    | advanced hlt => exact .advanced (m.progress_settled ▸ hlt)
  | advanced hlt =>
    cases h₂ with
    | same => exact .advanced hlt
    | settled => exact .advanced (m₁.progress_settled.symm ▸ hlt)
    | advanced hlt' => exact .advanced (hlt.trans hlt')

/-! ## Binding -/

/-- Once its samplers are bound, a module has advanced. -/
theorem becomes_bindSamplers {rows : List SamplerRow} (hm : m.NamesDistinct)
    (h : m.bindSamplers rows = .ok (m', changed)) : m.Becomes m' changed := by
  rcases names_bindSamplers hm h with ⟨rfl, rfl⟩ | ⟨hmaker, rfl, declared, hdeclared, hnames⟩
  · exact .same
  have hgone : ReservedName.samplerMaker ∉ m'.names := by
    rw [hnames, List.mem_append]
    rintro (hkept | hnew)
    · exact List.Nodup.not_mem_erase hm hkept
    · exact absurd (hdeclared _ hnew) (by decide)
  have haccessor : ReservedName.accessor 0 ∈ m'.names ↔ ReservedName.accessor 0 ∈ m.names := by
    rw [hnames, List.mem_append, List.mem_erase_of_ne (ReservedName.accessor_ne_samplerMaker 0)]
    exact or_iff_left fun hnew => ReservedName.accessor_ne_samplerAccessor 0 (hdeclared _ hnew)
  refine .advanced (progress_lt_of_stage ?_)
  simp only [stage, haccessor, if_pos hmaker, if_neg hgone]
  omega

theorem becomes_allocateSamplers (hm : m.NamesDistinct)
    (h : (m.allocateSamplers c).2.result = .ok (m', changed)) : m.Becomes m' changed := by
  unfold allocateSamplers at h
  by_cases hempty : c.samplers.isEmpty
  · simp only [hempty, if_true] at h
    split at h
    · cases h
    · cases h
      exact .same
  · simp only [hempty] at h
    exact becomes_bindSamplers hm h

namespace BoundBy

variable {next final : Nat} {planned : List (FunctionId × List ArgumentRow)} {n : Numbering}

/-- The plan has rows if it has numbers, and only then. -/
theorem keys_eq_nil_iff (h : m.BoundBy next planned n final m')
    (hn : n = .ofKeys (m.kernelArguments.map KernelArgument.key)) :
    n.keys = [] ↔ planned.flatMap Prod.snd = [] := by
  constructor
  · intro hkeys
    refine List.eq_nil_iff_forall_not_mem.mpr fun row hrow => ?_
    obtain ⟨id, f, s, rows, -, -, hmem, hbinds, -⟩ := h.exists_kernel hrow
    obtain ⟨p, -, hbind⟩ := exists_mem_of_forall₂ hbinds hmem
    have hlt := Numbering.lt_length_of_index? hbind.discriminant
    rw [hkeys] at hlt
    cases hlt
  · intro hrows
    refine List.eq_nil_iff_forall_not_mem.mpr fun key hkey => ?_
    obtain ⟨row, hrow, -⟩ := h.exists_row hn hkey
    rw [hrows] at hrow
    cases hrow

/-- Without numbers there is nothing to bind. -/
theorem eq_self (h : m.BoundBy next planned n final m') (hkeys : n.keys = [])
    (hrows : planned.flatMap Prod.snd = []) : m' = m := by
  rw [h.module_eq, hkeys, bindArguments]
  refine List.foldlRecOn (motive := (· = m)) planned _ rfl fun bound hbound ⟨id, rows⟩ hp => ?_
  obtain rfl : rows = [] := List.flatMap_eq_nil_iff.mp hrows _ hp
  subst hbound
  exact modify_eq_self fun f _ => f.bindArguments_nil _

end BoundBy

/-- Once its arguments are bound, a module has advanced. -/
theorem becomes_allocateArguments {rows : List SamplerRow}
    (h : (m.allocateArguments c rows).result = .ok (m', changed)) : m.Becomes m' changed := by
  obtain ⟨planned, n, final, hbound, hcompilation⟩ := allocateArguments_ok h
  have hn : n = .ofKeys (m.kernelArguments.map KernelArgument.key) :=
    discriminants_of_allocateArguments h (by rw [hcompilation])
  obtain ⟨report, hreport, hchanged⟩ := changed_allocateArguments h
  rw [hcompilation] at hreport
  obtain rfl := Option.some.inj hreport
  by_cases hkeys : n.keys = []
  · have hrows := (hbound.keys_eq_nil_iff hn).mp hkeys
    obtain rfl := hbound.eq_self hkeys hrows
    rw [hchanged, hrows]
    exact .same
  have htold : changed = true := by
    rw [hchanged, Bool.not_eq_true', List.isEmpty_eq_false_iff]
    exact mt (hbound.keys_eq_nil_iff hn).mpr hkeys
  have hpos : 0 < n.keys.length := List.length_pos_iff.mpr hkeys
  have hfree : ReservedName.accessor 0 ∉ m.names :=
    find?_eq_none_iff_not_mem.mp (hbound.name_free 0 hpos)
  have haccessor : ReservedName.accessor 0 ∈ m'.names := by
    rw [hbound.names_eq]
    exact List.mem_append_right _ (List.mem_map.mpr ⟨0, List.mem_range.mpr hpos, rfl⟩)
  have hmaker : ReservedName.samplerMaker ∈ m'.names ↔ ReservedName.samplerMaker ∈ m.names := by
    rw [hbound.names_eq, List.mem_append]
    refine or_iff_left fun hnew => ?_
    obtain ⟨i, -, heq⟩ := List.mem_map.mp hnew
    exact ReservedName.accessor_ne_samplerMaker i heq
  rw [htold]
  refine .advanced (progress_lt_of_stage ?_)
  simp only [stage, hmaker, if_pos haccessor, if_neg hfree]
  omega

/-- An allocation tells whether one of its halves has changed the module. -/
theorem result_allocate (m : Module) (c : Compilation) : (m.allocate c).result = (do
    let (m₁, changed) ← (m.allocateSamplers c).2.result
    let second := m₁.allocateArguments (m.allocateSamplers c).2.compilation (m.allocateSamplers c).1
    (fun (m', changedAgain) => (m', changed || changedAgain)) <$> second.result) := by
  unfold allocate
  cases hfirst : (m.allocateSamplers c).2.result with
  | error fault =>
    simp only [hfirst]
    rfl
  | ok r =>
    simp only [hfirst]
    rfl

theorem becomes_allocate (hm : m.WellFormed) (h : (m.allocate c).result = .ok (m', changed)) :
    m.Becomes m' changed := by
  rw [result_allocate] at h
  obtain ⟨⟨m₁, changed₁⟩, hsamplers, h⟩ := exists_of_bind_ok h
  obtain ⟨⟨m₂, changed₂⟩, harguments, heq⟩ := exists_of_map_ok h
  cases heq
  exact (becomes_allocateSamplers hm.names hsamplers).trans hm.linked
    (becomes_allocateArguments harguments)

/-! ## Resolving and reporting -/

theorem becomes_resolveParameters (hm : m.Linked)
    (h : (m.resolveParameters c).result = .ok (m', changed)) : m.Becomes m' changed := by
  have hnames : m'.names = m.names := by
    cases h
    exact m.names_pass c.options
  rcases resolveParameters_settles hm h with ⟨hsizes, rfl⟩ | ⟨rfl, hchanged⟩
  · exact .advanced (progress_lt_of_sizes hnames hsizes)
  cases changed with
  | true => exact .settled (hchanged.mp rfl)
  | false =>
    have hsame : m.settled = m := not_not.mp (mt hchanged.mpr Bool.false_ne_true)
    rw [hsame]
    exact .same

theorem becomes_reportBuffers (h : (m.reportBuffers c).result = .ok (m', changed)) :
    m.Becomes m' changed := by
  unfold reportBuffers at h
  split at h
  · cases h
  · cases h
    exact .same

end Module

/-! ## Runs -/

variable {m m' : Module} {c : Compilation} {changed : Bool} {passes : List Pass}

/-- **Each pass tells what it has done.** -/
theorem Pass.becomes_run (hm : m.WellFormed) :
    ∀ pass : Pass, (pass.run m c).result = .ok (m', changed) → m.Becomes m' changed
  | reportBuffers, h => Module.becomes_reportBuffers h
  | allocate, h => Module.becomes_allocate hm h
  | resolveParameters, h => Module.becomes_resolveParameters hm.linked h

/-- A run tells whether its first pass has changed the module, or the others. -/
theorem result_runPasses_cons (pass : Pass) (rest : List Pass) (m : Module) (c : Compilation) :
    (runPasses (pass :: rest) m c).result = (do
      let (m₁, changed) ← (pass.run m c).result
      (fun (m', changedLater) => (m', changed || changedLater)) <$>
        (runPasses rest m₁ (pass.run m c).compilation).result) := by
  rw [runPasses]
  cases (pass.run m c).result <;> rfl

/-- **A run becomes what its passes make of it in turn.** -/
theorem runPasses_becomes : ∀ {passes : List Pass} {m : Module} {c : Compilation} {changed : Bool},
    m.WellFormed → (runPasses passes m c).result = .ok (m', changed) → m.Becomes m' changed
  | [], _, _, _, _, h => by
    cases h
    exact .same
  | pass :: rest, m, c, _, hm, h => by
    rw [result_runPasses_cons] at h
    obtain ⟨⟨m₁, changed₁⟩, hfirst, h⟩ := exists_of_bind_ok h
    obtain ⟨⟨m₂, changed₂⟩, hrest, heq⟩ := exists_of_map_ok h
    cases heq
    exact (pass.becomes_run hm hfirst).trans hm.linked
      (runPasses_becomes (pass.wellFormed_run hm hfirst) hrest)

/-- **A run tells whether it has changed its module.** -/
theorem runPasses_changed_iff (hm : m.WellFormed)
    (h : (runPasses passes m c).result = .ok (m', changed)) : changed = true ↔ m' ≠ m :=
  (runPasses_becomes hm h).changed_iff

/-- Binding in between changes the module. Reporting buffers and resolving parameters that nothing
is known of do not. -/
theorem runPasses_changed_iff_relay : ∃ m m' m'', Module.read relaySource = .ok m ∧ m.WellFormed ∧
    (runPasses [.resolveParameters, .allocate, .resolveParameters, .resolveParameters] m
      (.start relayOptions [])).result = .ok (m', true) ∧ m' ≠ m ∧
    (runPasses [.resolveParameters, .reportBuffers, .resolveParameters] m
      (.start relayOptions [])).result = .ok (m'', false) ∧ m'' = m := by
  have hcheck : (Module.read relaySource).toOption.any (fun m =>
      (runPasses [.resolveParameters, .allocate, .resolveParameters, .resolveParameters] m
        (.start relayOptions [])).result.toOption.any Prod.snd &&
      (runPasses [.resolveParameters, .reportBuffers, .resolveParameters] m
        (.start relayOptions [])).result.toOption.any fun r => !r.2) := by
    decide +kernel
  obtain ⟨m, hread, hcheck⟩ := exists_of_any_toOption hcheck
  rw [Bool.and_eq_true] at hcheck
  obtain ⟨⟨m', changed⟩, hbound, hchanged⟩ := exists_of_any_toOption hcheck.1
  obtain ⟨⟨m'', changed'⟩, hsame, hunchanged⟩ := exists_of_any_toOption hcheck.2
  obtain rfl : changed = true := hchanged
  obtain rfl : changed' = false := Bool.not_eq_true' _ ▸ hunchanged
  have hm := Module.wellFormed_of_read hread
  refine ⟨m, m', m'', hread, hm, hbound, (runPasses_changed_iff hm hbound).mp rfl, hsame, ?_⟩
  exact not_not.mp (mt (runPasses_changed_iff hm hsame).mpr Bool.false_ne_true)

end ResourceBinding
