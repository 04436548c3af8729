import ResourceBinding.Binding.Allocation
import ResourceBinding.Proofs.Calls.Levels
import ResourceBinding.Proofs.FixedResource.Stability
import ResourceBinding.Proofs.Reading.Program

/-!
# The verdicts are true of the module that is left

Each verdict is taken on the module as it is at that step, and later steps edit the module further.
The verdicts are true nevertheless of the module that is left in the end:

* A parameter that was resolved is so in the end, to the same resource, and it is marked with it.
* If the calls form no cycle, a parameter that was not resolved is not resolved in the end. The
  order has callers first, so that the callers of a function are not edited any more. They stay
  the callers, unless the function is an accessor: then it may have come to be called by
  functions that fetch a resource, and the reason may have become another one.

All of it is proved of one step first, and of a run by induction on the parameters that are left
(`Resolution.Truthful.run`, `Resolution.KeepsUnresolved.run`).
-/

namespace ResourceBinding

/-- The mark that a verdict leaves at its parameter. -/
def Verdict.mark : Verdict → Option FixedResource
  | resolved resource => some resource
  | unresolved _ => none

theorem Verdict.mark_eq_some_iff {v : Verdict} {d : FixedResource} :
    v.mark = some d ↔ v = .resolved d := by
  cases v <;> simp [mark]

/-- The parameter that a verdict is about. -/
def ParamVerdict.param (v : ParamVerdict) : FunctionId × Nat :=
  (v.function, v.index)

/-! ## What a run keeps of the module -/

/-- The module `m` is `start` with marks on parameters, and with more calls of accessors, which pass
literals alone. -/
structure Module.Fetching (start m : Module) : Prop where
  role : ∀ id, (m.function? id).map Function.role = (start.function? id).map Function.role
  params : ∀ id, (m.function? id).map (·.params.length) = (start.function? id).map (·.params.length)
  linked : m.Linked
  calls : ∀ id g, m.function? id = some g → ∀ c ∈ g.calls,
    start.Calls id c.callee ∨ (start.isAccessor c.callee = true ∧ g.PassesLiterals c)

namespace Module.Fetching

variable {start m : Module} {id : FunctionId} {index : Nat} {f g : Function} {o : Provenance}

theorem refl (h : start.Linked) : start.Fetching start where
  role := fun _ => rfl
  params := fun _ => rfl
  linked := h
  calls := fun _ g hg c hc => .inl ⟨g, hg, c, hc, rfl⟩

theorem isAccessor (h : start.Fetching m) (id : FunctionId) :
    m.isAccessor id = start.isAccessor id := by
  have hname := congrArg (Option.map Prod.fst) (h.role id)
  rw [Option.map_map, Option.map_map] at hname
  exact isAccessor_congr hname

/-- An edit of one function that keeps its signature, and adds nothing but calls of accessors with
literals, keeps the rest. -/
theorem modify (h : start.Fetching m) (hf : m.function? id = some f)
    {edit : Function → Function} (hrole : (edit f).role = f.role)
    (hparams : (edit f).params.length = f.params.length)
    (hlinked : (edit f).Linked m.functions.size)
    (hcalls : ∀ c ∈ (edit f).calls, start.Calls id c.callee ∨
      (start.isAccessor c.callee = true ∧ (edit f).PassesLiterals c)) :
    start.Fetching (m.modify id edit) := by
  have hself : (m.modify id edit).function? id = some (edit f) := by
    rw [Module.function?_modify, if_pos rfl, hf, Option.map_some]
  have hother : ∀ other, id ≠ other → (m.modify id edit).function? other = m.function? other :=
    fun other hne => by rw [Module.function?_modify, if_neg hne]
  refine ⟨fun other => ?_, fun other => ?_, fun g hg => ?_, fun other g hg => ?_⟩
  · by_cases heq : id = other
    · subst heq
      rw [hself, ← h.role id, hf, Option.map_some, Option.map_some, hrole]
    · rw [hother other heq, h.role]
  · by_cases heq : id = other
    · subst heq
      rw [hself, ← h.params id, hf, Option.map_some, Option.map_some, hparams]
    · rw [hother other heq, h.params]
  · obtain ⟨other, hget⟩ := Module.mem_functions_iff.mp hg
    rw [show (m.modify id edit).functions.size = m.functions.size by simp [Module.modify]]
    by_cases heq : id = other
    · subst heq
      obtain rfl := Option.some.inj (hself.symm.trans hget)
      exact hlinked
    · rw [hother other heq] at hget
      exact h.linked g (Module.mem_functions_iff.mpr ⟨other, hget⟩)
  · by_cases heq : id = other
    · subst heq
      obtain rfl := Option.some.inj (hself.symm.trans hg)
      exact hcalls
    · rw [hother other heq] at hg
      exact h.calls other g hg

theorem setMark (h : start.Fetching m) (id : FunctionId) (index : Nat)
    (mark : Option FixedResource) : start.Fetching (m.modify id (·.setMark index mark)) := by
  cases hf : m.function? id with
  | none =>
    rwa [Module.modify_eq_self fun f hf' => by cases hf.symm.trans hf']
  | some f =>
    refine h.modify hf rfl (by simp [Function.setMark]) ?_ (h.calls id f hf)
    exact Function.linked_setMark (h.linked f (Module.mem_functions_iff.mpr ⟨id, hf⟩)) index mark

theorem fetchParameter (h : start.Fetching m) (hf : m.function? id = some f)
    (ho : m.parameterProvenance id index = .ok o) (hg : f.fetchParameter index o = .ok g) :
    start.Fetching (m.modify id fun _ => g) := by
  have haccessor := (parameterProvenance_ok h.linked ho).1
  refine h.modify hf (Function.role_fetchParameter hg) ?_
    (Function.linked_fetchParameter hg (h.linked f (Module.mem_functions_iff.mpr ⟨id, hf⟩))
      (Module.lt_size_of_isAccessor haccessor)) ?_
  · obtain ⟨ls, ids, r, f₁, σ, -, hrev, -, -, rfl⟩ := Function.fetchParameter_ok hg
    rw [Function.prependCalls, hrev.frame]
  · obtain ⟨F⟩ := Function.exists_fetch hg
    intro c hc
    rw [F.calls_eq] at hc
    rcases List.mem_cons.mp hc with rfl | hc
    · exact .inr ⟨h.isAccessor _ ▸ haccessor, F.passesLiterals⟩
    · obtain ⟨old, hold, rfl⟩ := List.mem_map.mp hc
      exact (h.calls id f hf old hold).imp_right (And.imp_right F.passesLiterals_of)

end Module.Fetching

/-! ## Steps -/

namespace Resolution

variable {options : Options} {start : Module} {s : Resolution} {id : FunctionId} {index : Nat}

/-- A step takes the verdict on the program as it is. -/
theorem verdicts_step (options : Options) (s : Resolution) (id : FunctionId) (index : Nat) :
    (s.step options id index).verdicts
      = s.verdicts ++ [⟨id, index, s.program.verdict id index⟩] := by
  unfold step Module.verdict
  cases s.program.parameterProvenance id index with
  | error reason => rfl
  | ok o =>
    simp only [record]
    split
    · unfold fetch
      split
      · rfl
      · split
        · rfl
        · split <;> rfl
    · rfl

/-- A step marks the parameter by its verdict. If that is asked for, it lets the function fetch the
resource. It tells whether the mark was another one, or something was fetched. -/
theorem step_cases (options : Options) (s : Resolution) (id : FunctionId) (index : Nat) :
    let marked := s.program.modify id (·.setMark index (s.program.verdict id index).mark)
    ((s.step options id index).program = marked ∧ (s.step options id index).changed
        = (s.changed || s.program.mark? id index != (s.program.verdict id index).mark)) ∨
      options.fetch = true ∧ ∃ o f g, s.program.parameterProvenance id index = .ok o ∧
        marked.function? id = some f ∧ f.fetchParameter index o = .ok g ∧
        (s.step options id index).program = (marked.modify id fun _ => g) ∧
        (s.step options id index).changed = true := by
  unfold step Module.verdict
  cases ho : s.program.parameterProvenance id index with
  | error reason => exact .inl ⟨rfl, rfl⟩
  | ok o =>
    by_cases hfetch : options.fetch
    · simp only [hfetch, if_true, record, Verdict.mark]
      unfold fetch
      split
      · exact .inl ⟨rfl, rfl⟩
      · rename_i f hf
        split
        · rename_i g hg
          exact .inr ⟨trivial, o, f, g, rfl, hf, hg, rfl, rfl⟩
        · split <;> exact .inl ⟨rfl, rfl⟩
    · simp only [hfetch]
      exact .inl ⟨rfl, rfl⟩

theorem program_step (options : Options) (s : Resolution) (id : FunctionId) (index : Nat) :
    let marked := s.program.modify id (·.setMark index (s.program.verdict id index).mark)
    (s.step options id index).program = marked ∨
      options.fetch = true ∧ ∃ o f g, s.program.parameterProvenance id index = .ok o ∧
        marked.function? id = some f ∧ f.fetchParameter index o = .ok g ∧
        (s.step options id index).program = marked.modify id fun _ => g := by
  rcases step_cases options s id index with ⟨hsame, -⟩ | ⟨hfetch, o, f, g, ho, hf, hg, hsame, -⟩
  · exact .inl hsame
  · exact .inr ⟨hfetch, o, f, g, ho, hf, hg, hsame⟩

/-- **What holds of the module with the mark, and what fetching keeps, holds after the step.** -/
theorem step_keeps (P : Module → Prop) (options : Options) (s : Resolution) (id : FunctionId)
    (index : Nat)
    (hmark : P (s.program.modify id (·.setMark index (s.program.verdict id index).mark)))
    (hfetch : ∀ {m o f g}, P m → m.parameterProvenance id index = .ok o →
      m.function? id = some f → f.fetchParameter index o = .ok g → P (m.modify id fun _ => g)) :
    P (s.step options id index).program := by
  rcases program_step options s id index with hsame | ⟨-, o, f, g, ho, hf, hg, hsame⟩
  · rw [hsame]
    exact hmark
  · rw [hsame]
    refine hfetch hmark ?_ hf hg
    rw [Module.parameterProvenance_setMark, ho]

end Resolution

/-! ## Verdicts that are true of a module -/

/-- The module `m`, to which a run has come from `start`, is as these verdicts say. -/
structure Module.Bears (start m : Module) (verdicts : List ParamVerdict) : Prop where
  fetching : start.Fetching m
  mark : ∀ v ∈ verdicts, m.mark? v.function v.index = v.verdict.mark
  resolved : ∀ v ∈ verdicts, ∀ d, v.verdict = .resolved d →
    m.verdict v.function v.index = .resolved d

/-- In the module `m`, no parameter is resolved that was not by these verdicts. The reason is the
same, but for the parameters of accessors. -/
def Module.KeepsUnresolved (m : Module) (verdicts : List ParamVerdict) : Prop :=
  ∀ v ∈ verdicts, ∀ reason, v.verdict = .unresolved reason →
    ∃ reason', m.verdict v.function v.index = .unresolved reason' ∧
      (m.isAccessor v.function = false → reason' = reason)

namespace Module

variable {start m : Module} {verdicts : List ParamVerdict} {id : FunctionId} {index : Nat}
  {f g : Function} {o : Provenance}

/-- A parameter is marked by its verdict. -/
theorem Bears.setMark (h : start.Bears m verdicts) (hf : m.function? id = some f)
    (hindex : index < f.params.length) (hnew : (id, index) ∉ verdicts.map ParamVerdict.param) :
    start.Bears (m.modify id (·.setMark index (m.verdict id index).mark))
      (verdicts ++ [⟨id, index, m.verdict id index⟩]) where
  fetching := h.fetching.setMark id index _
  mark := by
    intro v hv
    rcases List.mem_append.mp hv with hv | hv
    · rw [mark?_setMark_of_ne, h.mark v hv]
      intro heq
      exact hnew (heq ▸ List.mem_map_of_mem hv)
    · obtain rfl := List.mem_singleton.mp hv
      exact mark?_setMark hf hindex _
  resolved := by
    intro v hv d hd
    rw [verdict_setMark]
    rcases List.mem_append.mp hv with hv | hv
    · exact h.resolved v hv d hd
    · obtain rfl := List.mem_singleton.mp hv
      exact hd

theorem Bears.fetchParameter (h : start.Bears m verdicts) (hf : m.function? id = some f)
    (ho : m.parameterProvenance id index = .ok o) (hg : f.fetchParameter index o = .ok g) :
    start.Bears (m.modify id fun _ => g) verdicts where
  fetching := h.fetching.fetchParameter hf ho hg
  mark := fun v hv => (mark?_fetchParameter hf hg).trans (h.mark v hv)
  resolved := fun v hv d hd =>
    verdict_fetchParameter_of_resolved h.fetching.linked hf ho hg (h.resolved v hv d hd)

theorem KeepsUnresolved.setMark (h : m.KeepsUnresolved verdicts) (id : FunctionId) (index : Nat)
    (mark : Option FixedResource) : (m.modify id (·.setMark index mark)).KeepsUnresolved
      (verdicts ++ [⟨id, index, m.verdict id index⟩]) := by
  intro v hv reason hreason
  rw [verdict_setMark]
  rcases List.mem_append.mp hv with hv | hv
  · obtain ⟨reason', hreason', hsame⟩ := h v hv reason hreason
    refine ⟨reason', hreason', fun hfalse => hsame ?_⟩
    rwa [isAccessor_setMark] at hfalse
  · obtain rfl := List.mem_singleton.mp hv
    exact ⟨reason, hreason, fun _ => rfl⟩

/-- A function may fetch a resource if it did not call, from the start, any of the functions that a
verdict has left a parameter of unresolved. -/
theorem KeepsUnresolved.fetchParameter (h : m.KeepsUnresolved verdicts)
    (hfetching : start.Fetching m) (hf : m.function? id = some f)
    (ho : m.parameterProvenance id index = .ok o) (hg : f.fetchParameter index o = .ok g)
    (hcalls : ∀ v ∈ verdicts, ∀ reason, v.verdict = .unresolved reason →
      ¬ start.Calls id v.function) :
    (m.modify id fun _ => g).KeepsUnresolved verdicts := by
  intro v hv reason hreason
  obtain ⟨reason₁, hreason₁, hsame₁⟩ := h v hv reason hreason
  obtain ⟨reason₂, hreason₂, hsame₂⟩ :=
    verdict_fetchParameter_of_unresolved hfetching.linked hf ho hg (fun c hc hcallee => by
      rw [← hcallee, hfetching.isAccessor]
      exact (hfetching.calls id f hf c hc).resolve_left (hcallee ▸ hcalls v hv reason hreason))
      hreason₁
  refine ⟨reason₂, hreason₂, fun hfalse => ?_⟩
  rw [isAccessor_fetchParameter hf hg] at hfalse
  exact (hsame₂ hfalse).trans (hsame₁ hfalse)

end Module

/-! ## Runs -/

namespace Resolution

variable {options : Options} {start : Module} {s : Resolution} {id : FunctionId} {index : Nat}

/-- A step keeps the functions and the number of their parameters, and adds nothing but calls of
accessors with literals. -/
theorem fetching_step (options : Options) (hs : start.Fetching s.program)
    (id : FunctionId) (index : Nat) : start.Fetching (s.step options id index).program :=
  step_keeps start.Fetching options s id index (hs.setMark id index _)
    fun h ho hf hg => h.fetchParameter hf ho hg

theorem bears_step (h : start.Bears s.program s.verdicts) {f : Function}
    (hf : start.function? id = some f) (hindex : index < f.params.length)
    (hnew : (id, index) ∉ s.verdicts.map ParamVerdict.param) :
    start.Bears (s.step options id index).program (s.step options id index).verdicts := by
  have hparams := h.fetching.params id
  rw [hf, Option.map_some, Option.map_eq_some_iff] at hparams
  obtain ⟨g, hg, hlength⟩ := hparams
  rw [verdicts_step]
  exact step_keeps (start.Bears · _) options s id index (h.setMark hg (hlength ▸ hindex) hnew)
    fun h ho hf hg => h.fetchParameter hf ho hg

theorem keepsUnresolved_step (h : s.program.KeepsUnresolved s.verdicts)
    (hfetching : start.Fetching s.program)
    (hcalls : ∀ v ∈ s.verdicts, ¬ start.Calls id v.function) :
    (s.step options id index).program.KeepsUnresolved (s.step options id index).verdicts := by
  have hmarked := h.setMark id index (s.program.verdict id index).mark
  rw [verdicts_step]
  rcases program_step options s id index with hsame | ⟨-, o, f, g, ho, hf, hg, hsame⟩
  · rw [hsame]
    exact hmarked
  · rw [hsame]
    have ho' : (s.program.modify id
        (·.setMark index (s.program.verdict id index).mark)).parameterProvenance id index
          = .ok o := by
      rw [Module.parameterProvenance_setMark, ho]
    refine hmarked.fetchParameter (hfetching.setMark _ _ _) hf ho' hg fun v hv reason hreason => ?_
    rcases List.mem_append.mp hv with hv | hv
    · exact hcalls v hv
    -- What is fetched was resolved.
    · obtain rfl := List.mem_singleton.mp hv
      rw [Module.verdict, ho] at hreason
      cases hreason

/-- What each step on one of the parameters keeps, a run keeps. -/
theorem run_induction (P : Resolution → Prop) (candidates : List (FunctionId × Nat))
    (hstep : ∀ s, ∀ p ∈ candidates, P s → P (s.step options p.1 p.2)) :
    ∀ {s : Resolution}, P s → P (s.run options candidates) := by
  induction candidates with
  | nil => exact fun h => h
  | cons p candidates ih =>
    exact fun h => ih (fun s q hq => hstep s q (List.mem_cons_of_mem _ hq))
      (hstep _ p List.mem_cons_self h)

theorem run_append (s : Resolution) (before after : List (FunctionId × Nat)) :
    s.run options (before ++ after) = (s.run options before).run options after :=
  List.foldl_append

theorem fetching_run (options : Options) (candidates : List (FunctionId × Nat)) :
    ∀ {s : Resolution}, start.Fetching s.program →
      start.Fetching (s.run options candidates).program :=
  run_induction (start.Fetching ·.program) candidates fun _ p _ h =>
    fetching_step options h p.1 p.2

theorem params_run (options : Options) (candidates : List (FunctionId × Nat)) :
    ∀ s : Resolution, (s.run options candidates).verdicts.map ParamVerdict.param
      = s.verdicts.map ParamVerdict.param ++ candidates := by
  induction candidates with
  | nil => exact fun s => (List.append_nil _).symm
  | cons p candidates ih =>
    intro s
    refine (ih _).trans ?_
    rw [verdicts_step, List.map_append, List.append_assoc]
    rfl

/-- **The verdicts of a run are true of the program that it leaves**, as far as they say that a
parameter is resolved. No two are of one parameter. -/
theorem bears_run (options : Options) (candidates : List (FunctionId × Nat)) :
    ∀ {s : Resolution}, start.Bears s.program s.verdicts →
      (∀ p ∈ candidates, ∃ f, start.function? p.1 = some f ∧ p.2 < f.params.length) →
      (s.verdicts.map ParamVerdict.param ++ candidates).Nodup →
      start.Bears (s.run options candidates).program (s.run options candidates).verdicts := by
  induction candidates with
  | nil => exact fun h _ _ => h
  | cons p candidates ih =>
    intro s h hvalid hnodup
    obtain ⟨f, hf, hindex⟩ := hvalid p List.mem_cons_self
    have hnew : p ∉ s.verdicts.map ParamVerdict.param := fun hmem =>
      (List.nodup_append.mp hnodup).2.2 p hmem p List.mem_cons_self rfl
    refine ih (bears_step h hf hindex hnew) (fun q hq => hvalid q (List.mem_cons_of_mem _ hq)) ?_
    rw [verdicts_step, List.map_append, List.append_assoc]
    exact hnodup

/-- **With callers first, what a run leaves unresolved is so in the end.** -/
theorem keepsUnresolved_run (options : Options) (candidates : List (FunctionId × Nat)) :
    ∀ {s : Resolution}, s.program.KeepsUnresolved s.verdicts → start.Bears s.program s.verdicts →
      (∀ p ∈ candidates, ∃ f, start.function? p.1 = some f ∧ p.2 < f.params.length) →
      (s.verdicts.map ParamVerdict.param ++ candidates).Nodup →
      (s.verdicts.map ParamVerdict.param ++ candidates).Pairwise
        (fun p q => ¬ start.Calls q.1 p.1) →
      (s.run options candidates).program.KeepsUnresolved (s.run options candidates).verdicts := by
  induction candidates with
  | nil => exact fun h _ _ _ _ => h
  | cons p candidates ih =>
    intro s h hbears hvalid hnodup hpairwise
    obtain ⟨f, hf, hindex⟩ := hvalid p List.mem_cons_self
    have hnew : p ∉ s.verdicts.map ParamVerdict.param := fun hmem =>
      (List.nodup_append.mp hnodup).2.2 p hmem p List.mem_cons_self rfl
    have hcalls : ∀ v ∈ s.verdicts, ¬ start.Calls p.1 v.function := fun v hv =>
      (List.pairwise_append.mp hpairwise).2.2 _ (List.mem_map_of_mem hv) p List.mem_cons_self
    refine ih (keepsUnresolved_step h hbears.fetching hcalls) (bears_step hbears hf hindex hnew)
      (fun q hq => hvalid q (List.mem_cons_of_mem _ hq)) ?_ ?_
    · rw [verdicts_step, List.map_append, List.append_assoc]
      exact hnodup
    · rw [verdicts_step, List.map_append, List.append_assoc]
      exact hpairwise

end Resolution

/-! ## Candidates -/

namespace Module

variable {m : Module} {id : FunctionId} {index : Nat}

theorem mem_candidates {order : List FunctionId} : (id, index) ∈ m.candidates order ↔
    id ∈ order ∧ ∃ f, m.function? id = some f ∧ f.convention ≠ .kernel ∧
      index ∈ f.resourceParams m.types := by
  unfold candidates
  rw [List.mem_flatMap]
  constructor
  · rintro ⟨id', hid', hmem⟩
    cases hf : m.function? id' with
    | none =>
      rw [hf] at hmem
      cases hmem
    | some f =>
      rw [hf] at hmem
      by_cases hconvention : f.convention = .kernel
      · simp only [hconvention, if_true] at hmem
        cases hmem
      · simp only [hconvention, if_false] at hmem
        obtain ⟨i, hi, heq⟩ := List.mem_map.mp hmem
        cases heq
        exact ⟨hid', f, hf, hconvention, hi⟩
  · rintro ⟨hid, f, hf, hconvention, hindex⟩
    refine ⟨id, hid, ?_⟩
    rw [hf]
    simp only [hconvention, if_false]
    exact List.mem_map.mpr ⟨index, hindex, rfl⟩

theorem lt_length_of_mem_resourceParams {f : Function} {types : TypeTable}
    (h : index ∈ f.resourceParams types) : index < f.params.length :=
  List.mem_range.mp (List.mem_filter.mp h).1

/-- The parameters of one function. -/
theorem nodup_candidatesOf (m : Module) (id : FunctionId) : (m.candidates [id]).Nodup := by
  unfold candidates
  rw [List.flatMap_singleton]
  split
  · split
    · exact .nil
    · refine List.Nodup.map (fun a b h => (Prod.mk.inj h).2) ?_
      exact List.nodup_range.filter _
  · exact .nil

theorem candidates_cons (m : Module) (id : FunctionId) (order : List FunctionId) :
    m.candidates (id :: order) = m.candidates [id] ++ m.candidates order := by
  simp only [candidates, List.flatMap_cons, List.flatMap_nil, List.append_nil]

/-- The parameters of different functions are taken in the order of the functions. -/
theorem pairwise_candidates {R : FunctionId → FunctionId → Prop} {order : List FunctionId}
    (hself : ∀ id ∈ order, R id id) (h : order.Pairwise R) :
    (m.candidates order).Pairwise fun p q => R p.1 q.1 := by
  induction order with
  | nil => exact .nil
  | cons first order ih =>
    rw [List.pairwise_cons] at h
    rw [candidates_cons, List.pairwise_append]
    have hfirst : ∀ p ∈ m.candidates [first], p.1 = first := fun p hp =>
      List.mem_singleton.mp (mem_candidates.mp hp).1
    refine ⟨?_, ih (fun id hid => hself id (List.mem_cons_of_mem _ hid)) h.2, ?_⟩
    · refine List.pairwise_of_forall_mem_list fun p hp q hq => ?_
      rw [hfirst p hp, hfirst q hq]
      exact hself first List.mem_cons_self
    · intro p hp q hq
      rw [hfirst p hp]
      exact h.1 _ (mem_candidates.mp hq).1

theorem nodup_candidates {order : List FunctionId} (h : order.Nodup) :
    (m.candidates order).Nodup := by
  induction order with
  | nil => exact .nil
  | cons first order ih =>
    rw [List.nodup_cons] at h
    rw [candidates_cons]
    refine List.nodup_append.mpr ⟨m.nodup_candidatesOf first, ih h.2, fun p hp q hq heq => ?_⟩
    subst heq
    have hfirst := List.mem_singleton.mp (mem_candidates.mp hp).1
    exact h.1 (hfirst ▸ (mem_candidates.mp hq).1)

end Module

namespace Resolution

variable {options : Options} {s : Resolution}

theorem step_of_not_fetch (hfetch : options.fetch = false) (s : Resolution) (id : FunctionId)
    (index : Nat) :
    (s.step options id index).program
        = s.program.modify id (·.setMark index (s.program.verdict id index).mark) ∧
      (s.step options id index).changed
        = (s.changed || s.program.mark? id index != (s.program.verdict id index).mark) := by
  rcases step_cases options s id index with hmarks | ⟨hfetches, -⟩
  · exact hmarks
  · cases hfetch.symm.trans hfetches

/-- A run that only marks leaves the order, the parameters and the verdicts as they are. -/
theorem run_of_not_fetch (hfetch : options.fetch = false) (candidates : List (FunctionId × Nat)) :
    ∀ s : Resolution, (s.run options candidates).program.callGraph = s.program.callGraph ∧
      (s.run options candidates).program.candidates = s.program.candidates ∧
      (s.run options candidates).program.verdict = s.program.verdict ∧
      (s.run options candidates).verdicts
        = s.verdicts ++ candidates.map fun p => ⟨p.1, p.2, s.program.verdict p.1 p.2⟩ := by
  induction candidates with
  | nil => exact fun s => ⟨rfl, rfl, rfl, (List.append_nil _).symm⟩
  | cons p candidates ih =>
    intro s
    obtain ⟨hgraph, hcandidates, hverdict, hverdicts⟩ := ih (s.step options p.1 p.2)
    obtain ⟨hprogram, -⟩ := step_of_not_fetch hfetch s p.1 p.2
    rw [hprogram] at hgraph hcandidates hverdict hverdicts
    refine ⟨hgraph.trans (Module.callGraph_setMark _ _ _ _),
      hcandidates.trans (Module.candidates_setMark _ _ _ _),
      hverdict.trans (Module.verdict_setMark _ _ _ _), hverdicts.trans ?_⟩
    rw [verdicts_step, Module.verdict_setMark, List.append_assoc]
    rfl

/-- A run that only marks changes nothing where the marks are what the verdicts leave. -/
theorem run_of_marked (hfetch : options.fetch = false) (candidates : List (FunctionId × Nat)) :
    ∀ s : Resolution, (∀ p ∈ candidates,
        s.program.mark? p.1 p.2 = (s.program.verdict p.1 p.2).mark) →
      (s.run options candidates).program = s.program ∧
      (s.run options candidates).changed = s.changed := by
  induction candidates with
  | nil => exact fun s _ => ⟨rfl, rfl⟩
  | cons p candidates ih =>
    intro s hmarked
    have hmark := hmarked p List.mem_cons_self
    obtain ⟨hprogram, hchanged⟩ := step_of_not_fetch hfetch s p.1 p.2
    rw [← hmark, Module.setMark_mark?] at hprogram
    rw [← hmark, bne_self_eq_false, Bool.or_false] at hchanged
    obtain ⟨hprogram', hchanged'⟩ := ih (s.step options p.1 p.2) fun q hq => by
      rw [hprogram]
      exact hmarked q (List.mem_cons_of_mem _ hq)
    exact ⟨hprogram'.trans hprogram, hchanged'.trans hchanged⟩

end Resolution

/-! ## The pass -/

namespace Module

variable {m : Module}

/-- The parameters that the pass takes, in its order. -/
def visits (m : Module) : List (FunctionId × Nat) :=
  m.candidates m.callGraph.callersFirst.toList

/-- The pass on the module, before its first step. -/
def beforePass (m : Module) : Resolution :=
  ⟨m, [], m.callGraph.callersFirst.warnings, false⟩

theorem nodup_visits (m : Module) : m.visits.Nodup :=
  nodup_candidates m.nodup_callersFirst

theorem exists_param_of_visits (m : Module) : ∀ p ∈ m.visits,
    ∃ f, m.function? p.1 = some f ∧ p.2 < f.params.length := by
  intro p hp
  obtain ⟨-, f, hf, -, hindex⟩ := mem_candidates.mp hp
  exact ⟨f, hf, lt_length_of_mem_resourceParams hindex⟩

/-- Without cycles, a function is taken before those that it calls. -/
theorem CallsAcyclic.pairwise_visits (hacyclic : m.CallsAcyclic) :
    m.visits.Pairwise fun p q => ¬ m.Calls q.1 p.1 :=
  pairwise_candidates hacyclic.not_calls.1 hacyclic.not_calls.2

theorem bears_start (hm : m.Linked) : m.Bears m [] :=
  ⟨.refl hm, by simp, by simp⟩

theorem bears_pass (hm : m.Linked) (options : Options) :
    m.Bears (m.beforePass.run options m.visits).program
      (m.beforePass.run options m.visits).verdicts :=
  Resolution.bears_run options m.visits (s := m.beforePass) (bears_start hm)
    m.exists_param_of_visits m.nodup_visits

/-- The pass leaves the types as they are. -/
theorem types_pass (m : Module) (options : Options) :
    (m.beforePass.run options m.visits).program.types = m.types :=
  Resolution.run_induction (fun s => s.program.types = m.types) m.visits
    (fun s p _ hs => Resolution.step_keeps (fun program => program.types = m.types) options s
      p.1 p.2 hs fun hprogram _ _ _ => hprogram) rfl

end Module

/-- The verdicts on the parameters of the module `m`, which the pass has left as `m'`, and what is
true of them. -/
structure Module.JudgedBy (m m' : Module) (verdicts : List ParamVerdict) : Prop where
  /-- Functions are taken with callers first, and the parameters of one in order. -/
  order : verdicts.map ParamVerdict.param = m.candidates m.callGraph.callersFirst.toList
  once : (verdicts.map ParamVerdict.param).Nodup
  /-- The parameters are those that resources are passed for, of the functions that are reached from
  kernels and are none. -/
  mem_iff : ∀ id index, (id, index) ∈ verdicts.map ParamVerdict.param ↔
    m.Reached id ∧ ∃ f, m.function? id = some f ∧ f.convention ≠ .kernel ∧
      index ∈ f.resourceParams m.types
  mark : ∀ v ∈ verdicts, m'.mark? v.function v.index = v.verdict.mark
  /-- What was resolved is so in the end, also where calls form cycles. -/
  resolved : ∀ v ∈ verdicts, ∀ d, v.verdict = .resolved d →
    m'.verdict v.function v.index = .resolved d
  /-- Without cycles, what was not resolved is not so in the end either. -/
  unresolved : m.CallsAcyclic → ∀ v ∈ verdicts, ∀ reason, v.verdict = .unresolved reason →
    ∃ reason', m'.verdict v.function v.index = .unresolved reason'
  /-- Without cycles, the verdicts with their reasons are those on the module that is left, but for
  the reasons at accessors. -/
  final : m.CallsAcyclic → ∀ v ∈ verdicts, m.isAccessor v.function = false →
    m'.verdict v.function v.index = v.verdict

/-- Where the marks are what the verdicts leave, a run that only marks changes nothing. -/
theorem Module.resolveParameters_of_marked {m : Module} {c : Compilation}
    (hfetch : c.options.fetch = false)
    (hmarked : ∀ p ∈ m.candidates m.callGraph.callersFirst.toList,
      m.mark? p.1 p.2 = (m.verdict p.1 p.2).mark) :
    (m.resolveParameters c).result = .ok (m, false) ∧
      (m.resolveParameters c).compilation = { c with
        verdicts := c.verdicts ++ (m.candidates m.callGraph.callersFirst.toList).map
          (fun p => ⟨p.1, p.2, m.verdict p.1 p.2⟩) } := by
  obtain ⟨hprogram, hchanged⟩ := Resolution.run_of_marked hfetch _
    ⟨m, [], m.callGraph.callersFirst.warnings, false⟩ hmarked
  obtain ⟨-, -, -, hverdicts⟩ := Resolution.run_of_not_fetch hfetch
    (m.candidates m.callGraph.callersFirst.toList)
    ⟨m, [], m.callGraph.callersFirst.warnings, false⟩
  refine ⟨?_, ?_⟩
  · unfold resolveParameters
    simp only [hprogram, hchanged]
  · unfold resolveParameters
    simp only [hverdicts, List.nil_append]

/-- The pass is a run from the module as it is. -/
theorem Module.exists_run {m : Module} (hm : m.Linked) (c : Compilation) :
    ∃ s : Resolution, (m.resolveParameters c).result = .ok (s.program, s.changed) ∧
      (m.resolveParameters c).compilation = { c with verdicts := c.verdicts ++ s.verdicts } ∧
      s.verdicts.map ParamVerdict.param = m.candidates m.callGraph.callersFirst.toList ∧
      m.Bears s.program s.verdicts ∧
      (m.CallsAcyclic → s.program.KeepsUnresolved s.verdicts) ∧
      (c.options.fetch = false → s.program.callGraph = m.callGraph ∧
        s.program.candidates = m.candidates ∧ s.program.verdict = m.verdict ∧
        s.verdicts = (m.candidates m.callGraph.callersFirst.toList).map
          fun p => ⟨p.1, p.2, m.verdict p.1 p.2⟩) := by
  refine ⟨m.beforePass.run c.options m.visits, rfl, rfl,
    Resolution.params_run c.options m.visits m.beforePass, bears_pass hm c.options,
    fun hacyclic => ?_, fun hfetch => ?_⟩
  · exact Resolution.keepsUnresolved_run c.options m.visits (s := m.beforePass)
      (by simp [beforePass, KeepsUnresolved]) (bears_start hm) m.exists_param_of_visits
      m.nodup_visits hacyclic.pairwise_visits
  · exact Resolution.run_of_not_fetch hfetch m.visits m.beforePass

/-- **The verdicts are true of the module that the pass leaves.** If the pass only marks, it leaves
that module as it is when it is run again, and gives the same verdicts. -/
theorem Module.resolveParameters_judges {m : Module} (hm : m.Linked) (c : Compilation) :
    ∃ m' changed verdicts, (m.resolveParameters c).result = .ok (m', changed) ∧
      (m.resolveParameters c).compilation = { c with verdicts := c.verdicts ++ verdicts } ∧
      m.JudgedBy m' verdicts ∧
      (c.options.fetch = false → ∀ c' : Compilation, c'.options = c.options →
        (m'.resolveParameters c').result = .ok (m', false) ∧
        (m'.resolveParameters c').compilation
          = { c' with verdicts := c'.verdicts ++ verdicts }) := by
  obtain ⟨s, hresult, hcompilation, horder, hbears, hkeeps, hmarks⟩ := exists_run hm c
  refine ⟨s.program, s.changed, s.verdicts, hresult, hcompilation, ⟨horder,
    horder ▸ nodup_candidates m.nodup_callersFirst, fun id index => ?_, hbears.mark,
    hbears.resolved, fun hacyclic v hv reason hreason => ?_, fun hacyclic v hv hfalse => ?_⟩,
    fun hfetch c' hc' => ?_⟩
  · rw [horder, mem_candidates, mem_callersFirst_iff]
  · obtain ⟨reason', hreason', -⟩ := hkeeps hacyclic v hv reason hreason
    exact ⟨reason', hreason'⟩
  · cases hverdict : v.verdict with
    | resolved d => exact hbears.resolved v hv d hverdict
    | unresolved reason =>
      obtain ⟨reason', hreason', hsame⟩ := hkeeps hacyclic v hv reason hverdict
      rw [hreason', hsame ((hbears.fetching.isAccessor _).trans hfalse)]
  -- A second run takes the same parameters, and finds each of them marked by its verdict.
  · obtain ⟨hgraph, hcandidates, hverdict, hverdicts⟩ := hmarks hfetch
    have hsame : s.program.candidates s.program.callGraph.callersFirst.toList
        = m.candidates m.callGraph.callersFirst.toList := by
      rw [hcandidates, hgraph]
    obtain ⟨hresult', hcompilation'⟩ := resolveParameters_of_marked (m := s.program) (c := c')
      (hc' ▸ hfetch) fun p hp => by
        have hv : (⟨p.1, p.2, m.verdict p.1 p.2⟩ : ParamVerdict) ∈ s.verdicts := by
          rw [hverdicts]
          exact List.mem_map_of_mem (hsame ▸ hp)
        rw [hverdict]
        exact hbears.mark _ hv
    rw [hsame, hverdict, ← hverdicts] at hcompilation'
    exact ⟨hresult', hcompilation'⟩

/-! ### An accessor with a body -/

/-- A program with an accessor that has a body, and a function that is passed what the accessor
returns. -/
def ownAccessorSource : String :=
  "fn @kernbind.resource.9(%a: sampler) \x7b \x7d
fn @g(%s: sampler) \x7b \x7d
kernel @k() \x7b
  %q = access 1, 1
  call @kernbind.resource.9(%q)
  %r = call @kernbind.resource.9(0u, 1u)
  call @g(%r)
\x7d"

/-- Functions are to fetch what their parameters are resolved to. -/
def fetchOptions : Options :=
  { Options.none with resolve := true, fetch := true }

/-- The pass records that the accessor is passed a value at an offset. Then it lets the other
function call the accessor, and that call comes first. -/
theorem resolveParameters_ownAccessor : ∃ m m', Module.read ownAccessorSource = .ok m ∧
    m.callGraph.callersFirst.caught = [] ∧
    (m.allocate (.start fetchOptions [])).result.toOption.map Prod.fst = some m ∧
    (m.resolveParameters (.start fetchOptions [])).result = .ok (m', true) ∧
    (m.resolveParameters (.start fetchOptions [])).compilation.verdicts
      = [⟨0, 0, .unresolved .offset⟩, ⟨1, 0, .resolved ⟨0, 0, 1, 0⟩⟩] ∧
    m'.verdict 0 0 = .unresolved .otherOrigin := by
  have hcheck : (Module.read ownAccessorSource).toOption.any (fun m =>
      m.callGraph.callersFirst.caught == [] &&
      (m.allocate (.start fetchOptions [])).result.toOption.map Prod.fst == some m &&
      (m.resolveParameters (.start fetchOptions [])).compilation.verdicts
        == [⟨0, 0, .unresolved .offset⟩, ⟨1, 0, .resolved ⟨0, 0, 1, 0⟩⟩] &&
      (m.resolveParameters (.start fetchOptions [])).result.toOption.any fun r =>
        r.2 && r.1.verdict 0 0 == .unresolved .otherOrigin) := by
    decide +kernel
  obtain ⟨m, hread, hcheck⟩ := exists_of_any_toOption hcheck
  simp only [Bool.and_eq_true, beq_iff_eq] at hcheck
  obtain ⟨⟨⟨hcaught, hallocate⟩, hverdicts⟩, hfinal⟩ := hcheck
  obtain ⟨r, hresult, hfinal⟩ := exists_of_any_toOption hfinal
  simp only [Bool.and_eq_true, beq_iff_eq] at hfinal
  obtain ⟨hchanged, hverdict⟩ := hfinal
  exact ⟨m, r.1, hread, hcaught, hallocate, by rw [hresult, ← hchanged], hverdicts, hverdict⟩

/-- The reason of a verdict on a parameter of an accessor need not last, though no calls form a
cycle. -/
theorem ownAccessor_reason_changes : ∃ m m', Module.read ownAccessorSource = .ok m ∧
    m.CallsAcyclic ∧
    (m.allocate (.start fetchOptions [])).result.toOption.map Prod.fst = some m ∧
    (m.resolveParameters (.start fetchOptions [])).result = .ok (m', true) ∧
    ∃ v ∈ (m.resolveParameters (.start fetchOptions [])).compilation.verdicts,
      m'.verdict v.function v.index ≠ v.verdict := by
  obtain ⟨m, m', hread, hcaught, hallocate, hresult, hverdicts, hverdict⟩ :=
    resolveParameters_ownAccessor
  refine ⟨m, m', hread, Module.callsAcyclic_iff.mpr hcaught, hallocate, hresult,
    ⟨0, 0, .unresolved .offset⟩, hverdicts ▸ List.mem_cons_self, ?_⟩
  rw [hverdict]
  decide

theorem resolveParameters_judges_ownAccessor : ∃ m m' changed verdicts,
    Module.read ownAccessorSource = .ok m ∧ m.Linked ∧
    (m.resolveParameters (.start fetchOptions [])).result = .ok (m', changed) ∧
    verdicts = [⟨0, 0, .unresolved .offset⟩, ⟨1, 0, .resolved ⟨0, 0, 1, 0⟩⟩] ∧
    m.JudgedBy m' verdicts := by
  obtain ⟨m, -, hread, -, -, -, hverdicts, -⟩ := resolveParameters_ownAccessor
  have hlinked := (Module.read_ok hread).2
  obtain ⟨m', changed, verdicts, hresult, hcompilation, hjudged, -⟩ :=
    Module.resolveParameters_judges hlinked (.start fetchOptions [])
  refine ⟨m, m', changed, verdicts, hread, hlinked, hresult, ?_, hjudged⟩
  rw [hcompilation] at hverdicts
  exact hverdicts

end ResourceBinding
