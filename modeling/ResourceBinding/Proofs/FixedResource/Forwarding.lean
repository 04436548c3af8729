import ResourceBinding.Proofs.FixedResource.Relay

/-!
# One pass is enough

A parameter that a caller passes on has no origin, unless the caller fetches it first. Without
cycles the order has callers first, so that at each step all callers are done with, and are as they
will be in the end. Hence a parameter is left unresolved for being passed on only where the caller
keeps its own, for a reason of its own (`Module.Keeps`), and a resource is passed down a chain of
functions of any length in one pass (`Module.Relayed`).

* `Resolution.fed_run`, `Resolution.waits_run`, `Resolution.unused_run`,
  `Resolution.parameterProvenance_run`: what a run keeps.
* `Module.exists_keeps_of_forwarded`, `Module.Relayed.resolved`: the two halves.
* `Module.resolveParameters_forwarding`: both, of the pass.
-/

namespace ResourceBinding

/-! ## Runs -/

/-- Nothing in the function reads the parameter. -/
def Module.Unused (m : Module) (id : FunctionId) (index : Nat) : Prop :=
  ∀ f, m.function? id = some f → f.Unused index

/-- A parameter that is resolved keeps its origin when another function fetches a resource, unless
this function calls that of the parameter. -/
theorem Module.Fetching.parameterProvenance_fetch {start m : Module} {id other : FunctionId}
    {index i : Nat} {o o' : Provenance} {f g : Function} (hm : start.Fetching m)
    (ho : m.parameterProvenance id index = .ok o) (hf : m.function? other = some f)
    (ho' : m.parameterProvenance other i = .ok o') (hg : f.fetchParameter i o' = .ok g)
    (hcalls : ¬ start.Calls other id) :
    (m.modify other fun _ => g).parameterProvenance id index = m.parameterProvenance id index := by
  -- Each call passes the resource, so no call passes literals alone.
  have hliterals : ∀ caller k c, m.function? caller = some k → c ∈ k.calls →
      k.PassesLiterals c → c.callee ≠ id := by
    intro caller k c hk hc hpasses hcallee
    obtain ⟨reason, hreason⟩ :=
      Module.exists_unresolved_of_passesLiterals index hk hc hcallee hpasses
    rw [Module.verdict, ho] at hreason
    cases hreason
  refine Module.parameterProvenance_fetchParameter hf hg ?_ fun c hc hcallee => ?_
  · obtain ⟨caller, k, c, hk, hc, hcallee, hpasses⟩ :=
      Module.exists_passesLiterals hm.linked ho' hg
    rw [← hcallee]
    exact hliterals caller k c hk hc hpasses
  · rcases hm.calls other f hf c hc with hold | ⟨-, hpasses⟩
    · exact hcalls (hcallee ▸ hold)
    · exact hliterals other f c hf hc hpasses hcallee

namespace Resolution

variable {options : Options} {start : Module} {s : Resolution}
  {id other caller : FunctionId} {index i extra : Nat} {d : FixedResource} {o : Provenance}
  {candidates before after : List (FunctionId × Nat)}

theorem fed_run (h : s.program.Fed id index caller d) (hs : start.Fetching s.program)
    (candidates : List (FunctionId × Nat)) :
    (s.run options candidates).program.Fed id index caller d :=
  (run_induction (fun t => start.Fetching t.program ∧ t.program.Fed id index caller d) candidates
    (fun _ p _ ht => ⟨fetching_step options ht.1 p.1 p.2, fed_step ht.2 ht.1.linked p.1 p.2⟩)
    ⟨hs, h⟩).2

theorem waits_run (h : s.program.Waits id index caller i extra) (hs : start.Fetching s.program)
    (hnone : (caller, i) ∉ candidates) :
    (s.run options candidates).program.Waits id index caller i extra :=
  (run_induction (fun t => start.Fetching t.program ∧ t.program.Waits id index caller i extra)
    candidates (fun _ p hp ht => ⟨fetching_step options ht.1 p.1 p.2,
      waits_step ht.2 ht.1.linked fun heq => hnone (heq ▸ hp)⟩) ⟨hs, h⟩).2

theorem verdicts_run {v : ParamVerdict} (hv : v ∈ s.verdicts)
    (candidates : List (FunctionId × Nat)) : v ∈ (s.run options candidates).verdicts := by
  refine run_induction (v ∈ ·.verdicts) candidates (fun t p _ hv => ?_) hv
  rw [verdicts_step]
  exact List.mem_append_left _ hv

/-- A verdict is that of the step on its parameter. -/
theorem exists_step_of_mem_verdicts (options : Options) {v : ParamVerdict}
    (candidates : List (FunctionId × Nat)) : ∀ {s : Resolution},
      v ∈ (s.run options candidates).verdicts → v ∈ s.verdicts ∨
        ∃ before after, candidates = before ++ (v.function, v.index) :: after ∧
          v.verdict = (s.run options before).program.verdict v.function v.index := by
  induction candidates with
  | nil => exact fun hv => .inl hv
  | cons p candidates ih =>
    intro s hv
    rcases ih hv with hv | ⟨before, after, rfl, hverdict⟩
    · rw [verdicts_step] at hv
      rcases List.mem_append.mp hv with hv | hv
      · exact .inl hv
      · obtain rfl := List.mem_singleton.mp hv
        exact .inr ⟨[], candidates, rfl, rfl⟩
    · exact .inr ⟨p :: before, after, rfl, hverdict⟩

/-- The verdict of a step is one of the run. -/
theorem mem_verdicts_run (options : Options) (s : Resolution)
    (before after : List (FunctionId × Nat)) (id : FunctionId) (index : Nat) :
    ⟨id, index, (s.run options before).program.verdict id index⟩
      ∈ (s.run options (before ++ (id, index) :: after)).verdicts := by
  rw [run_append]
  refine verdicts_run ?_ after
  rw [verdicts_step]
  exact List.mem_append_right _ (List.mem_singleton_self _)

/-- A step edits no other function. -/
theorem function?_step (hne : other ≠ id) :
    (s.step options other i).program.function? id = s.program.function? id := by
  refine step_keeps (fun m => m.function? id = s.program.function? id) options s other i ?_
    fun hkept _ _ _ => ?_
  · rw [Module.function?_modify, if_neg hne]
  · rw [Module.function?_modify, if_neg hne, hkept]

theorem function?_run (hnone : ∀ p ∈ candidates, p.1 ≠ id) :
    (s.run options candidates).program.function? id = s.program.function? id := by
  refine run_induction (fun t => t.program.function? id = s.program.function? id) candidates
    (fun t p hp ht => ?_) (Eq.refl _)
  rw [function?_step (hnone p hp), ht]

/-- **A parameter that is unused stays so.** -/
theorem unused_step (h : s.program.Unused id index) (other : FunctionId) (i : Nat) :
    (s.step options other i).program.Unused id index := by
  refine step_keeps (Module.Unused · id index) options s other i ?_ fun h _ hf hg => ?_
  · intro f hf
    rw [Module.function?_setMark, Option.map_eq_some_iff] at hf
    obtain ⟨old, hold, rfl⟩ := hf
    split
    · exact h old hold
    · exact h old hold
  · intro k hk
    rw [Module.function?_replace hf] at hk
    split at hk
    · rename_i heq
      subst heq
      cases hk
      obtain ⟨F⟩ := Function.exists_fetch hg
      exact F.unused_of_unused (h _ hf)
    · exact h k hk

theorem unused_run (h : s.program.Unused id index) (candidates : List (FunctionId × Nat)) :
    (s.run options candidates).program.Unused id index :=
  run_induction (·.program.Unused id index) candidates
    (fun _ p _ ht => unused_step ht p.1 p.2) h

/-- The origin of a parameter stays when a function is edited that does not call its function. -/
theorem parameterProvenance_step (hs : start.Fetching s.program)
    (ho : s.program.parameterProvenance id index = .ok o) (hcalls : ¬ start.Calls other id) :
    (s.step options other i).program.parameterProvenance id index = .ok o := by
  refine (step_keeps (fun m => start.Fetching m ∧ m.parameterProvenance id index = .ok o) options s
    other i ⟨hs.setMark other i _, ?_⟩ fun h ho' hf hg => ⟨h.1.fetchParameter hf ho' hg, ?_⟩).2
  · rw [Module.parameterProvenance_setMark, ho]
  · rw [h.1.parameterProvenance_fetch h.2 hf ho' hg hcalls, h.2]

theorem parameterProvenance_run (hs : start.Fetching s.program)
    (ho : s.program.parameterProvenance id index = .ok o)
    (hnone : ∀ p ∈ candidates, ¬ start.Calls p.1 id) :
    (s.run options candidates).program.parameterProvenance id index = .ok o :=
  (run_induction (fun t => start.Fetching t.program ∧
      t.program.parameterProvenance id index = .ok o) candidates
    (fun _ p hp ht => ⟨fetching_step options ht.1 p.1 p.2,
      parameterProvenance_step ht.1 ht.2 (hnone p hp)⟩) ⟨hs, ho⟩).2

/-- If that is asked for, a step on a parameter that is resolved leaves it unused. If not, an
operand is unknown or the calls differ in their accesses, and the step only marks. -/
theorem unused_or_marked (hfetch : options.fetch = true)
    (ho : s.program.parameterProvenance id index = .ok o)
    (hid : ∃ f, s.program.function? id = some f ∧ f.body.isSome) :
    (s.step options id index).program.Unused id index ∨
      ((s.step options id index).program
          = s.program.modify id (·.setMark index (some o.resource)) ∧
        (none ∈ o.operands ∨ o.indexCounts.length ≠ o.resource.depth)) := by
  obtain ⟨f, hf, hbody⟩ := hid
  rcases program_step_of_ok hfetch ho hf hbody with ⟨f', g, hf', hg, hsame⟩ | hmarked
  · refine .inl fun k hk => ?_
    rw [hsame, Module.function?_replace hf', if_pos rfl] at hk
    cases hk
    obtain ⟨F⟩ := Function.exists_fetch hg
    exact F.unused
  · exact .inr hmarked

end Resolution

/-! ## The order of the pass -/

namespace Module

variable {m : Module} {id caller : FunctionId} {index i extra : Nat} {d : FixedResource}
  {p : FunctionId × Nat} {before after : List (FunctionId × Nat)}

/-- A resource is passed for the parameter, and the host does not call the function. -/
def Takes (m : Module) (id : FunctionId) (index : Nat) : Prop :=
  ∃ f, m.function? id = some f ∧ f.body.isSome ∧ f.convention ≠ .kernel ∧
    index ∈ f.resourceParams m.types

theorem mem_visits : (id, index) ∈ m.visits ↔ m.Reached id ∧ m.Takes id index := by
  rw [visits, mem_candidates, mem_callersFirst_iff]
  constructor
  · rintro ⟨hreached, f, hf, hconvention, hindex⟩
    obtain ⟨f', hf', hbody⟩ := isDefined_iff.mp hreached.1
    cases hf.symm.trans hf'
    exact ⟨hreached, f, hf, hbody, hconvention, hindex⟩
  · rintro ⟨hreached, f, hf, -, hconvention, hindex⟩
    exact ⟨hreached, f, hf, hconvention, hindex⟩

/-- **From a parameter on, the pass takes no caller of its function any more.** -/
theorem CallsAcyclic.not_calls_of_visits (hacyclic : m.CallsAcyclic)
    (hsplit : m.visits = before ++ p :: after) : ∀ q ∈ p :: after, ¬ m.Calls q.1 p.1 := by
  have hp : p ∈ m.visits := hsplit ▸ List.mem_append_right _ List.mem_cons_self
  have hordered := hacyclic.pairwise_visits
  rw [hsplit] at hordered
  refine List.forall_mem_cons.mpr ⟨?_, ?_⟩
  · exact hacyclic.not_calls.1 p.1 (mem_candidates.mp hp).1
  · exact (List.pairwise_cons.mp (List.pairwise_append.mp hordered).2.1).1

/-- Parameters of a caller are taken before. -/
theorem CallsAcyclic.exists_split (hacyclic : m.CallsAcyclic)
    (hsplit : m.visits = before ++ (id, index) :: after) (hcalls : m.Calls caller id)
    (hcaller : (caller, i) ∈ m.visits) :
    ∃ first between, before = first ++ (caller, i) :: between := by
  refine List.append_of_mem ?_
  rw [hsplit] at hcaller
  refine (List.mem_append.mp hcaller).resolve_right fun hlater => ?_
  exact hacyclic.not_calls_of_visits hsplit _ hlater hcalls

/-- A parameter is taken once. -/
theorem not_mem_of_visits (hsplit : m.visits = before ++ p :: after) : p ∉ before := by
  have hnodup := m.nodup_visits
  rw [hsplit] at hnodup
  exact fun hp => (List.nodup_append.mp hnodup).2.2 p hp p List.mem_cons_self rfl

theorem fetching_beforePass (hm : m.Linked) (options : Options)
    (visits : List (FunctionId × Nat)) : m.Fetching (m.beforePass.run options visits).program :=
  Resolution.fetching_run options visits (.refl hm)

/-- A function with a body has one throughout. -/
theorem Fetching.exists_body {start : Module} (h : start.Fetching m) (hid : start.isDefined id) :
    ∃ f, m.function? id = some f ∧ f.body.isSome := by
  obtain ⟨f, hf, hbody⟩ := isDefined_iff.mp hid
  have hrole := h.role id
  rw [hf, Option.map_some] at hrole
  obtain ⟨g, hg, hrole⟩ := Option.map_eq_some_iff.mp hrole
  have hsame : g.body.isSome = f.body.isSome := congrArg (·.2.2) hrole
  exact ⟨g, hg, hsame.trans hbody⟩

/-! ## Parameters that stay -/

/-- Why a function keeps a parameter, in the module `m'` that the pass makes of `m`. -/
inductive Keeps (m m' : Module) (verdicts : List ParamVerdict) (id : FunctionId) (index : Nat) :
    Prop
  | kernel {f : Function} : m.function? id = some f → f.convention = .kernel →
      Keeps m m' verdicts id index
  | unreached : ¬ m.Reached id → Keeps m m' verdicts id index
  | noResource {f : Function} : m.function? id = some f → index ∉ f.resourceParams m.types →
      Keeps m m' verdicts id index
  | unresolved {reason : Obstacle} : ⟨id, index, .unresolved reason⟩ ∈ verdicts →
      Keeps m m' verdicts id index
  | accessesDiffer {d : FixedResource} {site site' : FunctionId × Call} {o o' : Provenance} :
      ⟨id, index, .resolved d⟩ ∈ verdicts → site ∈ m'.callsTo id → site' ∈ m'.callsTo id →
      m'.argumentProvenance index site = .ok o → m'.argumentProvenance index site' = .ok o' →
      o.indexCounts ≠ o'.indexCounts → Keeps m m' verdicts id index
  | unknownOperand {d : FixedResource} {site : FunctionId × Call} {o : Provenance} :
      ⟨id, index, .resolved d⟩ ∈ verdicts → site ∈ m'.callsTo id →
      m'.argumentProvenance index site = .ok o → none ∈ o.operands → Keeps m m' verdicts id index

/-- **A function that has not fetched what a parameter resolved to has a reason.** -/
theorem keeps_of_declined {m' : Module} {verdicts : List ParamVerdict} {o : Provenance}
    (hverdict : ⟨id, index, .resolved d⟩ ∈ verdicts)
    (ho : m'.parameterProvenance id index = .ok o)
    (hreason : none ∈ o.operands ∨ o.indexCounts.length ≠ o.resource.depth) :
    m.Keeps m' verdicts id index := by
  rcases hreason with hunknown | hdepth
  · obtain ⟨site, sites, first, hsites, hfirst, hcommon⟩ := parameterProvenance_first ho
    rw [(commonProvenance_ok hcommon).2.1] at hunknown
    exact .unknownOperand hverdict (hsites ▸ List.mem_cons_self) hfirst hunknown
  · obtain ⟨-, site, hsite, site', hsite', o, o', ho, ho', hdiffers⟩ :=
      (parameterProvenance_indexCounts ho).resolve_left fun h => hdepth h.1
    exact .accessesDiffer hverdict hsite hsite' ho ho' hdiffers

/-! ## Parameters that are passed on -/

/-- A call in the caller passes on a parameter of the caller, through accesses at zero indices. -/
def PassesOn (m : Module) (id : FunctionId) (index : Nat) (caller : FunctionId) (i : Nat) : Prop :=
  ∃ k c value counts origin, (caller, c) ∈ m.callsTo id ∧ m.function? caller = some k ∧
    c.arguments[index]? = some value ∧ k.Peels counts value origin ∧
    k.expr? origin = some (.parameter i)

theorem exists_passesOn_of_forwarded (h : m.verdict id index = .unresolved .forwarded) :
    ∃ caller i, m.PassesOn id index caller i := by
  rcases verdict_eq_unresolved_iff_misses.mp h with
    ⟨-, heq⟩ | ⟨before, site, after, hsites, -, hmisses | ⟨heq, -⟩⟩
  · cases heq
  · cases hmisses with
    | @strays value k _ hvalue hk hstrays =>
      cases hstrays with
      | @forwarded counts origin i hpeels horigin =>
        refine ⟨site.1, i, k, site.2, value, counts, origin, ?_, hk, hvalue, hpeels, horigin⟩
        rw [hsites]
        exact List.mem_append_right _ List.mem_cons_self
  · cases heq

/-- The call is not one that the pass has added, as these pass literals. -/
theorem PassesOn.calls {m' : Module} (h : m'.PassesOn id index caller i) (hm' : m.Fetching m') :
    m.Calls caller id := by
  obtain ⟨k, c, value, counts, origin, hsite, hk, hvalue, hpeels, horigin⟩ := h
  obtain ⟨k', hk', hc, hcallee⟩ := mem_callsTo.mp hsite
  cases hk.symm.trans hk'
  rcases hm'.calls caller k hk c hc with hcalls | ⟨-, ls, hls⟩
  · exact hcallee ▸ hcalls
  · obtain ⟨l, hl⟩ := Function.exists_literal_of_mem hls (List.mem_of_getElem? hvalue)
    exact absurd hl (hpeels.not_literal horigin (by simp) l)

/-- The call stays as it is while other functions are edited. -/
theorem PassesOn.run {s : Resolution} {options : Options}
    (h : s.program.PassesOn id index caller i) (hnone : ∀ q ∈ after, q.1 ≠ caller) :
    (s.run options after).program.PassesOn id index caller i := by
  obtain ⟨k, c, value, counts, origin, hsite, hk, hvalue, hpeels, horigin⟩ := h
  obtain ⟨k', hk', hc, hcallee⟩ := mem_callsTo.mp hsite
  cases hk.symm.trans hk'
  have hstays : (s.run options after).program.function? caller = some k :=
    (Resolution.function?_run hnone).trans hk
  exact ⟨k, c, value, counts, origin, mem_callsTo.mpr ⟨k, hstays, hc, hcallee⟩, hstays, hvalue,
    hpeels, horigin⟩

/-- **A parameter that the pass has taken and that is passed on in the end is kept.** -/
theorem PassesOn.keeps {options : Options} {callee : FunctionId} {j : Nat}
    (h : (m.beforePass.run options m.visits).program.PassesOn callee j id index) (hm : m.Linked)
    (hacyclic : m.CallsAcyclic) (hfetch : options.fetch = true)
    (hsplit : m.visits = before ++ (id, index) :: after) :
    m.Keeps (m.beforePass.run options m.visits).program
      (m.beforePass.run options m.visits).verdicts id index := by
  have hs := fetching_beforePass hm options before
  have hlater := (List.forall_mem_cons.mp (hacyclic.not_calls_of_visits hsplit)).2
  have hvisit : (id, index) ∈ m.visits := hsplit ▸ List.mem_append_right _ List.mem_cons_self
  have hbody := hs.exists_body (mem_visits.mp hvisit).1.1
  have hverdict := Resolution.mem_verdicts_run options m.beforePass before after id index
  rw [← hsplit] at hverdict
  have hfinal : m.beforePass.run options m.visits
      = ((m.beforePass.run options before).step options id index).run options after := by
    rw [hsplit, Resolution.run_append]
    rfl
  cases ho : (m.beforePass.run options before).program.parameterProvenance id index with
  | error reason =>
    rw [Module.verdict, ho] at hverdict
    exact .unresolved hverdict
  | ok o =>
    rw [Module.verdict, ho] at hverdict
    rcases Resolution.unused_or_marked hfetch ho hbody with hunused | ⟨hsame, hreason⟩
    -- What has been fetched is not passed on any more.
    · obtain ⟨k, c, value, counts, origin, hsite, hk, hvalue, hpeels, horigin⟩ := h
      obtain ⟨k', hk', hc, -⟩ := mem_callsTo.mp hsite
      cases hk.symm.trans hk'
      rw [hfinal] at hk
      have hnot := (Resolution.unused_run hunused after k hk).not_passes hc
        (List.mem_of_getElem? hvalue) hpeels
      exact absurd horigin hnot
    -- Nothing is edited that calls the function, so that its calls are the same in the end.
    · refine keeps_of_declined hverdict ?_ hreason
      rw [hfinal]
      refine Resolution.parameterProvenance_run
        (Resolution.fetching_step options hs id index) ?_ hlater
      rw [hsame, parameterProvenance_setMark, ho]

/-- **What is left unresolved for being passed on is passed on by a caller that keeps its
parameter.** -/
theorem exists_keeps_of_forwarded {options : Options} {v : ParamVerdict} (hm : m.Linked)
    (hacyclic : m.CallsAcyclic) (hfetch : options.fetch = true)
    (hv : v ∈ (m.beforePass.run options m.visits).verdicts)
    (hforwarded : v.verdict = .unresolved .forwarded) : ∃ caller i,
      (m.beforePass.run options m.visits).program.PassesOn v.function v.index caller i ∧
      m.Keeps (m.beforePass.run options m.visits).program
        (m.beforePass.run options m.visits).verdicts caller i := by
  obtain ⟨before, after, hsplit, hverdict⟩ :=
    (Resolution.exists_step_of_mem_verdicts options m.visits hv).resolve_left List.not_mem_nil
  obtain ⟨caller, i, hpasses⟩ := exists_passesOn_of_forwarded (hverdict.symm.trans hforwarded)
  have hcalls := hpasses.calls (fetching_beforePass hm options before)
  -- From here on, no caller of the function is taken.
  have hfinal :
      (m.beforePass.run options m.visits).program.PassesOn v.function v.index caller i := by
    rw [hsplit, Resolution.run_append]
    refine hpasses.run fun q hq heq => ?_
    exact hacyclic.not_calls_of_visits hsplit q hq (heq ▸ hcalls)
  refine ⟨caller, i, hfinal, ?_⟩
  by_cases hcaller : (caller, i) ∈ m.visits
  · obtain ⟨first, between, hbefore⟩ := hacyclic.exists_split hsplit hcalls hcaller
    rw [hbefore, List.append_assoc] at hsplit
    exact hfinal.keeps hm hacyclic hfetch hsplit
  · rw [mem_visits] at hcaller
    obtain ⟨k, hk, c, hc, -⟩ := hcalls
    have hbody := Function.isSome_body_of_mem_calls hc
    by_cases hreached : m.Reached caller
    · by_cases hconvention : k.convention = .kernel
      · exact .kernel hk hconvention
      · exact .noResource hk fun hi => hcaller ⟨hreached, k, hk, hbody, hconvention, hi⟩
    · exact .unreached hreached

/-! ## Chains of functions that pass a resource on -/

/-- A resource is passed down a chain of functions, each of which has one call: the first is passed
what an accessor returns, by a kernel or another function that is reached, and the others what their
caller is passed. -/
inductive Relayed (m : Module) : FunctionId → Nat → FixedResource → Prop
  | first {id caller : FunctionId} {index : Nat} {d : FixedResource} :
      m.Reached caller → m.Fed id index caller d → m.Takes id index → Relayed m id index d
  | next {id caller : FunctionId} {index i extra : Nat} {d : FixedResource} :
      Relayed m caller i d → m.Waits id index caller i extra → m.Takes id index →
      Relayed m id index { d with depth := d.depth + extra }

theorem PassedOnce.calls {k : Function} {value : ExprId}
    (h : m.PassedOnce id index caller k value) : m.Calls caller id := by
  obtain ⟨c, hcalls, -⟩ := h
  exact calls_iff_mem_callsTo.mpr ⟨c, hcalls ▸ List.mem_singleton_self _⟩

theorem Fed.calls (h : m.Fed id index caller d) : m.Calls caller id := by
  obtain ⟨_, _, _, hpassed, -⟩ := h
  exact hpassed.calls

theorem Waits.calls (h : m.Waits id index caller i extra) : m.Calls caller id := by
  obtain ⟨_, _, _, _, hpassed, -⟩ := h
  exact hpassed.calls

/-- The pass takes the parameter of a function that is called by one that is reached. -/
theorem Takes.mem_visits (h : m.Takes id index) (hcaller : m.Reached caller)
    (hcalls : m.Calls caller id) : (id, index) ∈ m.visits := by
  have hdefined : m.isDefined id := by
    obtain ⟨f, hf, hbody, -⟩ := h
    exact isDefined_iff.mpr ⟨f, hf, hbody⟩
  exact Module.mem_visits.mpr ⟨hcaller.of_calls hdefined hcalls, h⟩

theorem Relayed.mem_visits (h : m.Relayed id index d) : (id, index) ∈ m.visits := by
  induction h with
  | first hcaller hfed htakes => exact htakes.mem_visits hcaller hfed.calls
  | next _ hwaits htakes ih => exact htakes.mem_visits (Module.mem_visits.mp ih).1 hwaits.calls

/-- **When it is the turn of a function on the chain, it is fed.** -/
theorem Relayed.fed {options : Options} (h : m.Relayed id index d) (hm : m.Linked)
    (hacyclic : m.CallsAcyclic) (hfetch : options.fetch = true) :
    ∀ {before after}, m.visits = before ++ (id, index) :: after →
      ∃ caller, (m.beforePass.run options before).program.Fed id index caller d := by
  induction h with
  | @first _ caller _ _ _ hfed _ =>
    exact fun {before} _ _ =>
      ⟨caller, Resolution.fed_run (s := m.beforePass) hfed (.refl hm) before⟩
  | @next _ caller _ i _ _ hrelayed hwaits _ ih =>
    intro before after hsplit
    -- The caller has had its turn, and was fed then.
    obtain ⟨first, between, rfl⟩ :=
      hacyclic.exists_split hsplit hwaits.calls hrelayed.mem_visits
    rw [List.append_assoc] at hsplit
    obtain ⟨above, hfed⟩ := ih hsplit
    have hs := fetching_beforePass hm options first
    have hwaiting : (m.beforePass.run options first).program.Waits _ _ caller i _ :=
      Resolution.waits_run hwaits (.refl hm) (not_mem_of_visits hsplit)
    refine ⟨caller, ?_⟩
    rw [Resolution.run_append]
    exact Resolution.fed_run (Resolution.feed_step hfetch hwaiting hfed hs.linked)
      (Resolution.fetching_step options hs caller i) between

/-- **A resource that is passed down a chain of functions is resolved all the way**, and no
parameter on the chain is used any more. -/
theorem Relayed.resolved {options : Options} (h : m.Relayed id index d) (hm : m.Linked)
    (hacyclic : m.CallsAcyclic) (hfetch : options.fetch = true) :
    ⟨id, index, .resolved d⟩ ∈ (m.beforePass.run options m.visits).verdicts ∧
      (m.beforePass.run options m.visits).program.Unused id index := by
  obtain ⟨before, after, hsplit⟩ := List.append_of_mem h.mem_visits
  obtain ⟨caller, hfed⟩ := h.fed hm hacyclic hfetch hsplit
  obtain ⟨o, ho, hknown, hcounts, rfl⟩ := hfed.parameterProvenance
  have hverdict := Resolution.mem_verdicts_run options m.beforePass before after id index
  rw [← hsplit, Module.verdict, ho] at hverdict
  have hbody := (fetching_beforePass hm options before).exists_body (Module.mem_visits.mp h.mem_visits).1.1
  refine ⟨hverdict, ?_⟩
  rw [hsplit, Resolution.run_append]
  rcases Resolution.unused_or_marked hfetch ho hbody with hunused | ⟨-, hreason⟩
  · exact Resolution.unused_run hunused after
  · exact (hreason.elim hknown (absurd hcounts)).elim

/-- **One pass is enough for parameters that are passed on**, if functions fetch what their
parameters resolve to and calls form no cycle. What is left unresolved for being passed on is passed
on by a caller that keeps its own parameter, for a reason of its own; and a resource that is passed
down a chain of functions is resolved all the way. -/
theorem resolveParameters_forwarding (hm : m.Linked) (hacyclic : m.CallsAcyclic) (c : Compilation)
    (hfetch : c.options.fetch = true) :
    ∃ m' changed verdicts, (m.resolveParameters c).result = .ok (m', changed) ∧
      (m.resolveParameters c).compilation = { c with verdicts := c.verdicts ++ verdicts } ∧
      (∀ v ∈ verdicts, v.verdict = .unresolved .forwarded → ∃ caller i,
        m'.PassesOn v.function v.index caller i ∧ m.Keeps m' verdicts caller i) ∧
      ∀ id index d, m.Relayed id index d →
        ⟨id, index, .resolved d⟩ ∈ verdicts ∧ m'.Unused id index :=
  ⟨_, _, _, rfl, rfl,
    fun _ hv hforwarded => exists_keeps_of_forwarded hm hacyclic hfetch hv hforwarded,
    fun _ _ _ h => h.resolved hm hacyclic hfetch⟩

end Module

/-! ### A chain of two -/

/-- A kernel passes what an accessor returns to a function that passes it on, behind an access, and
passes its own argument to another function. -/
def chainSource : String :=
  "declare @kernbind.resource.0(u32, u32) -> ptr<global, f32> pure
fn @inner(%p: ptr<global, f32>) \x7b \x7d
fn @outer(%p: ptr<global, f32>) \x7b
  %q = access %p, 0
  call @inner(%q)
\x7d
fn @other(%p: ptr<global, f32>) \x7b \x7d
kernel @k(%own: ptr<global, f32>) \x7b
  %r = call @kernbind.resource.0(0u, 1u)
  call @outer(%r)
  call @other(%own)
\x7d"

/-- The chain ends at a function that is passed the resource at a depth of one. -/
theorem chainSource_relayed : ∃ m, Module.read chainSource = .ok m ∧ m.CallsAcyclic ∧
    (m.resolveParameters (.start fetchOptions [])).compilation.verdicts
      = [⟨2, 0, .resolved ⟨0, 0, 1, 0⟩⟩, ⟨3, 0, .unresolved .forwarded⟩,
        ⟨1, 0, .resolved ⟨0, 0, 1, 1⟩⟩] ∧
    m.Relayed 1 0 ⟨0, 0, 1, 1⟩ := by
  have hcheck : (Module.read chainSource).toOption.any (fun m =>
      m.callGraph.callersFirst.caught == [] &&
      m.callGraph.callersFirst.toList == [4, 2, 3, 1] &&
      m.visits == [(2, 0), (3, 0), (1, 0)] &&
      (m.resolveParameters (.start fetchOptions [])).compilation.verdicts
        == [⟨2, 0, .resolved ⟨0, 0, 1, 0⟩⟩, ⟨3, 0, .unresolved .forwarded⟩,
          ⟨1, 0, .resolved ⟨0, 0, 1, 1⟩⟩] &&
      m.callsTo 2 == [(4, ⟨2, [2], none⟩)] && m.callsTo 1 == [(2, ⟨1, [2], none⟩)] &&
      ((m.argumentProvenance 0 (4, ⟨2, [2], none⟩)).toOption.any fun o =>
        decide (none ∉ o.operands ∧ o.resource = ⟨0, 0, 1, 0⟩)) &&
      (m.function? 2).any fun f => f.expr? 2 == some (.access 0 [1]) &&
        [1].all f.isZeroIndex && f.expr? 0 == some (.parameter 0)) := by
    decide +kernel
  obtain ⟨m, hread, hcheck⟩ := exists_of_any_toOption hcheck
  simp only [Bool.and_eq_true, beq_iff_eq] at hcheck
  obtain ⟨⟨⟨⟨⟨⟨⟨hcaught, horder⟩, hvisits⟩, hverdicts⟩, houter⟩, hinner⟩, hfed⟩, hwaits⟩ := hcheck
  obtain ⟨o, ho, hfed⟩ := exists_of_any_toOption hfed
  obtain ⟨f, hf, hwaits⟩ := (Option.any_eq_true _ _).mp hwaits
  simp only [Bool.and_eq_true, beq_iff_eq] at hwaits
  have hkernel : m.Reached 4 := Module.mem_callersFirst_iff.mp (by simp [horder])
  have htakes : m.Takes 2 0 ∧ m.Takes 1 0 :=
    ⟨(Module.mem_visits.mp (by simp [hvisits])).2, (Module.mem_visits.mp (by simp [hvisits])).2⟩
  have hfirst : m.Fed 2 0 4 ⟨0, 0, 1, 0⟩ :=
    Module.fed_iff.mpr ⟨_, o, houter, ho, of_decide_eq_true hfed⟩
  have hnext : m.Waits 1 0 2 0 1 :=
    ⟨f, 2, [1], 0, ⟨_, hinner, hf, rfl⟩, .access hwaits.1 .here, rfl, hwaits.2⟩
  exact ⟨m, hread, Module.callsAcyclic_iff.mpr hcaught, hverdicts,
    .next (.first hkernel hfirst htakes.1) hnext htakes.2⟩

theorem resolveParameters_forwarding_chain : ∃ m m' changed verdicts,
    Module.read chainSource = .ok m ∧ m.Linked ∧ m.CallsAcyclic ∧
    (m.resolveParameters (.start fetchOptions [])).result = .ok (m', changed) ∧
    verdicts = [⟨2, 0, .resolved ⟨0, 0, 1, 0⟩⟩, ⟨3, 0, .unresolved .forwarded⟩,
      ⟨1, 0, .resolved ⟨0, 0, 1, 1⟩⟩] ∧
    (∃ caller i, m'.PassesOn 3 0 caller i ∧ m.Keeps m' verdicts caller i) ∧
    m.Relayed 1 0 ⟨0, 0, 1, 1⟩ ∧ m'.Unused 1 0 := by
  obtain ⟨m, hread, hacyclic, hverdicts, hrelayed⟩ := chainSource_relayed
  have hlinked := (Module.read_ok hread).2
  obtain ⟨m', changed, verdicts, hresult, hcompilation, hforwarded, hresolved⟩ :=
    Module.resolveParameters_forwarding hlinked hacyclic (.start fetchOptions []) rfl
  rw [hcompilation] at hverdicts
  have hsame : verdicts = [⟨2, 0, .resolved ⟨0, 0, 1, 0⟩⟩, ⟨3, 0, .unresolved .forwarded⟩,
    ⟨1, 0, .resolved ⟨0, 0, 1, 1⟩⟩] := hverdicts
  refine ⟨m, m', changed, verdicts, hread, hlinked, hacyclic, hresult, hsame, ?_, hrelayed,
    (hresolved 1 0 _ hrelayed).2⟩
  exact hforwarded ⟨3, 0, .unresolved .forwarded⟩ (by simp [hsame]) rfl

end ResourceBinding
