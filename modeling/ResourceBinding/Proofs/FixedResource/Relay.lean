import ResourceBinding.Proofs.FixedResource.Repetition
import ResourceBinding.Proofs.FixedResource.Verdicts
import ResourceBinding.Proofs.Program.ValueTree

/-!
# Passing resources on

What one step of the pass does to a function that passes on its own parameter. Once the function
fetches the resource, nothing in it reads the parameter any more (`Function.Unused`), and what led
to the parameter leads to the accessor.

A function is *fed* if it has one call, and this call passes it a resource that it can fetch. It
*waits* for a parameter of its caller if its one call passes on that parameter.

* `Resolution.fed_step`, `Resolution.waits_step`: a step on another parameter keeps both.
* `Resolution.feed_step`: the step on the parameter that a function waits for feeds it, if the
  caller is fed.
-/

namespace ResourceBinding

/-! ## Functions -/

namespace Function

variable {f g : Function} {counts : List Nat} {value origin : ExprId} {index i : Nat}
  {o : Provenance}

/-- Nothing in the function reads the parameter. -/
def Unused (f : Function) (index : Nat) : Prop :=
  ∀ op, f.expr? op = some (.parameter index) → ¬ f.Reads op

/-- What is read leads to what is read. -/
theorem Peels.reads (h : f.Peels counts value origin) (hvalue : f.Reads value) :
    f.Reads origin := by
  induction h with
  | here => exact hvalue
  | access haccess _ ih => exact ih (.inl ⟨_, _, haccess.1, List.mem_cons_self⟩)

/-- A call does not pass on a parameter that is unused. -/
theorem Unused.not_passes (h : f.Unused index) {c : Call} (hc : c ∈ f.calls)
    (hvalue : value ∈ c.arguments) (hpeels : f.Peels counts value origin) :
    f.expr? origin ≠ some (.parameter index) := fun horigin =>
  h origin horigin (hpeels.reads (reads_of_mem_arguments hc hvalue))

namespace Fetch

variable (F : Fetch index o f g)

include F

/-- **Once it is fetched, the parameter is unused.** -/
theorem unused : g.Unused index := by
  intro op hop
  rw [F.expr?_eq] at hop
  rw [F.eq]
  refine not_reads_prependCalls (fun c hc => ?_) hop
    (F.revises.not_reads_parameter (fun id hid => ?_) hop)
  · obtain rfl := List.mem_singleton.mp hc
    exact ⟨F.literals, F.passes⟩
  · rw [redirectParameter, if_pos hid]
    exact F.target_new

/-- A parameter that is unused stays so. -/
theorem unused_of_unused (h : f.Unused i) : g.Unused i := by
  intro op hop
  rw [F.expr?_eq] at hop
  have hold := F.revises.parameter_iff.mp hop
  rw [F.eq]
  refine not_reads_prependCalls (fun c hc => ?_) hop fun hreads => ?_
  · obtain rfl := List.mem_singleton.mp hc
    exact ⟨F.literals, F.passes⟩
  · have hlt := lt_size_of_expr? hold
    rcases F.revises.reads hreads with hge | ⟨source, hsource, rfl⟩
    · exact absurd hlt (Nat.not_lt.mpr hge)
    · rcases F.revises.lands source with hstays | ⟨hge, -⟩
      · exact h source (hstays ▸ hold) hsource
      · exact absurd hlt (Nat.not_lt.mpr hge)

end Fetch

end Function

namespace Module

variable {m m' : Module} {f g k : Function} {counts : List Nat} {value origin : ExprId}
  {index : Nat} {o o' : Provenance}

/-- **What led to the parameter leads to what is fetched.** -/
theorem traces_of_fetch (F : f.Fetch index o g)
    (haccessor : m.isAccessor o.resource.accessor = true)
    (hset : constantOperand o.operands 0 = .ok o.resource.set)
    (hbinding : constantOperand o.operands 1 = .ok o.resource.binding)
    (hpeels : f.Peels counts value origin) (horigin : f.expr? origin = some (.parameter index)) :
    m.Traces g (f.redirectParameter index F.target value) (o.behind counts) := by
  have htarget : f.redirectParameter index F.target origin = F.target := if_pos horigin
  have hlead := F.redirects hpeels
  rw [htarget] at hlead
  have hoperands : F.operands.map g.literal? = o.operands := by
    rw [F.literal?_eq, F.passes, F.known]
  refine ⟨F.result, ⟨o.resource.accessor, F.operands, some F.result⟩,
    hlead.trans (F.peels.mono fun _ _ he => by rwa [F.expr?_eq]), ?_, ?_,
    ⟨?_, haccessor, ?_, ?_⟩, hoperands.symm⟩
  · simp only [Provenance.behind, List.length_append, F.depth]
    exact Nat.add_comm _ _
  · rw [Function.callOf?, F.calls_eq, List.find?_cons_of_pos (by simp)]
  · rw [F.expr?_eq]
    exact F.expr_result
  · rw [Function.hasOperand_iff, hoperands]
    exact hset
  · rw [Function.hasOperand_iff, hoperands]
    exact hbinding

/-! ## Functions with one call -/

variable {id other caller : FunctionId} {i j extra : Nat} {d : FixedResource}
  {mark : Option FixedResource}

/-- The function has one call, and the value is this argument of it. -/
def PassedOnce (m : Module) (id : FunctionId) (index : Nat) (caller : FunctionId) (k : Function)
    (value : ExprId) : Prop :=
  ∃ c, m.callsTo id = [(caller, c)] ∧ m.function? caller = some k ∧ c.arguments[index]? = some value

/-- The function has one call, which passes the resource. All operands of the accessor are known. -/
def Fed (m : Module) (id : FunctionId) (index : Nat) (caller : FunctionId) (d : FixedResource) :
    Prop :=
  ∃ k value o, m.PassedOnce id index caller k value ∧ m.Traces k value o ∧ none ∉ o.operands ∧
    o.resource = d

/-- The function has one call, which passes on a parameter of the caller, behind so many accesses at
zero indices. -/
def Waits (m : Module) (id : FunctionId) (index : Nat) (caller : FunctionId) (i extra : Nat) :
    Prop :=
  ∃ k value counts origin, m.PassedOnce id index caller k value ∧
    k.Peels counts value origin ∧ counts.length = extra ∧ k.expr? origin = some (.parameter i)

/-- The caller has a body. -/
theorem PassedOnce.exists_caller (h : m.PassedOnce id index caller k value) :
    m.function? caller = some k ∧ k.body.isSome := by
  obtain ⟨c, hcalls, hk, -⟩ := h
  have hsite : (caller, c) ∈ m.callsTo id := by simp [hcalls]
  obtain ⟨k', hk', hc, -⟩ := mem_callsTo.mp hsite
  cases hk.symm.trans hk'
  exact ⟨hk, Function.isSome_body_of_mem_calls hc⟩

theorem PassedOnce.setMark (h : m.PassedOnce id index caller k value) (other : FunctionId) (i : Nat)
    (mark : Option FixedResource) : ∃ k', k'.expressions = k.expressions ∧ k'.body = k.body ∧
      (m.modify other (·.setMark i mark)).PassedOnce id index caller k' value := by
  obtain ⟨c, hcalls, hk, hvalue⟩ := h
  refine ⟨if other = caller then k.setMark i mark else k, ?_, ?_, c, ?_, ?_, hvalue⟩
  · split <;> rfl
  · split <;> rfl
  · rw [callsTo_setMark, hcalls]
  · rw [function?_setMark, hk, Option.map_some]

/-- Another function that fetches a resource leaves the call as it is, and the caller has the same
call of the function afterwards. The new call is one of an accessor that has passed literals alone
before, and this function has been passed something else. -/
theorem PassedOnce.fetch (h : m.PassedOnce id index caller k value)
    (hliteral : ∀ l, k.literal? value ≠ some l) (hm : m.Linked)
    (hf : m.function? other = some f) (ho : m.parameterProvenance other i = .ok o)
    (hg : f.fetchParameter i o = .ok g) (F : f.Fetch i o g) :
    (other ≠ caller ∧ (m.modify other fun _ => g).PassedOnce id index caller k value) ∨
      (other = caller ∧ k = f ∧ (m.modify other fun _ => g).PassedOnce id index caller g
        (f.redirectParameter i F.target value)) := by
  obtain ⟨c, hcalls, hk, hvalue⟩ := h
  have hne : o.resource.accessor ≠ id := by
    rintro rfl
    obtain ⟨caller', k', c', hk', hc', hcallee, ls, hls⟩ := exists_passesLiterals hm ho hg
    have hsite := mem_callsTo.mpr ⟨k', hk', hc', hcallee⟩
    rw [hcalls, List.mem_singleton] at hsite
    cases hsite
    cases hk.symm.trans hk'
    obtain ⟨l, hl⟩ := Function.exists_literal_of_mem hls (List.mem_of_getElem? hvalue)
    exact hliteral l hl
  have hcalls' : (m.modify other fun _ => g).callsTo id = [(caller, if other = caller then
      { c with arguments := c.arguments.map (f.redirectParameter i F.target) } else c)] := by
    rw [callsTo_fetch hf F hne, hcalls]
    rfl
  by_cases hcaller : other = caller
  · subst hcaller
    cases hf.symm.trans hk
    refine .inr ⟨rfl, rfl, _, hcalls', ?_, ?_⟩
    · rw [function?_replace hf, if_pos rfl]
    · rw [if_pos rfl, List.getElem?_map, hvalue, Option.map_some]
  · refine .inl ⟨hcaller, c, ?_, ?_, hvalue⟩
    · rw [hcalls', if_neg hcaller]
    · rw [function?_replace hf, if_neg hcaller, hk]

theorem Linked.setMark (hm : m.Linked) (id : FunctionId) (index : Nat)
    (mark : Option FixedResource) : (m.modify id (·.setMark index mark)).Linked :=
  ((Fetching.refl hm).setMark id index mark).linked

/-- A function is fed still when a parameter is marked. -/
theorem Fed.setMark (h : m.Fed id index caller d) (other : FunctionId) (i : Nat)
    (mark : Option FixedResource) : (m.modify other (·.setMark i mark)).Fed id index caller d := by
  obtain ⟨k, value, o, hpassed, htraces, hknown, hresource⟩ := h
  obtain ⟨k', hexpressions, hbody, hpassed'⟩ := hpassed.setMark other i mark
  exact ⟨k', value, o, hpassed',
    htraces.congr (m.isAccessor_setMark other i mark) hexpressions hbody, hknown, hresource⟩

theorem Waits.setMark (h : m.Waits id index caller j extra) (other : FunctionId) (i : Nat)
    (mark : Option FixedResource) :
    (m.modify other (·.setMark i mark)).Waits id index caller j extra := by
  obtain ⟨k, value, counts, origin, hpassed, hpeels, hextra, horigin⟩ := h
  obtain ⟨k', hexpressions, -, hpassed'⟩ := hpassed.setMark other i mark
  have hexpr : k'.expr? = k.expr? := funext fun id => by
    rw [Function.expr?, Function.expr?, hexpressions]
  refine ⟨k', value, counts, origin, hpassed', hpeels.mono fun _ _ he => ?_, hextra, ?_⟩
  · rwa [hexpr]
  · rwa [hexpr]

/-- **A function is fed still when any function fetches a resource.** -/
theorem Fed.fetch (h : m.Fed id index caller d) (hm : m.Linked) (hf : m.function? other = some f)
    (ho : m.parameterProvenance other i = .ok o) (hg : f.fetchParameter i o = .ok g) :
    (m.modify other fun _ => g).Fed id index caller d := by
  obtain ⟨k, value, o', hpassed, htraces, hknown, hresource⟩ := h
  have haccessor := isAccessor_fetchParameter hf hg
  obtain ⟨F⟩ := Function.exists_fetch hg
  rcases hpassed.fetch htraces.not_literal hm hf ho hg F with
    ⟨-, hpassed'⟩ | ⟨rfl, rfl, hpassed'⟩
  · exact ⟨k, value, o', hpassed', htraces.congr haccessor rfl rfl, hknown, hresource⟩
  · obtain ⟨operands, hfetched, hsame⟩ := htraces.fetch F haccessor
    rw [hsame hknown] at hfetched
    exact ⟨g, _, o', hpassed', hfetched, hknown, hresource⟩

/-- A function waits still when another parameter than the one that it waits for is fetched. -/
theorem Waits.fetch (h : m.Waits id index caller j extra) (hne : (other, i) ≠ (caller, j))
    (hm : m.Linked) (hf : m.function? other = some f)
    (ho : m.parameterProvenance other i = .ok o) (hg : f.fetchParameter i o = .ok g) :
    (m.modify other fun _ => g).Waits id index caller j extra := by
  obtain ⟨k, value, counts, origin, hpassed, hpeels, hextra, horigin⟩ := h
  obtain ⟨F⟩ := Function.exists_fetch hg
  rcases hpassed.fetch (hpeels.not_literal horigin (by simp)) hm hf ho hg F with
    ⟨-, hpassed'⟩ | ⟨rfl, rfl, hpassed'⟩
  · exact ⟨k, value, counts, origin, hpassed', hpeels, hextra, horigin⟩
  · -- The parameter is another one of the same function, so it is not moved.
    have hstays : k.redirectParameter i F.target origin = origin := by
      refine if_neg fun hi => hne ?_
      cases horigin.symm.trans hi
      rfl
    have hlead := F.redirects hpeels
    rw [hstays] at hlead
    refine ⟨g, _, counts, origin, hpassed', hlead, hextra, ?_⟩
    rw [F.expr?_eq]
    exact F.revises.parameter_iff.mpr horigin

/-- **The function that waits is fed when the parameter is fetched.** -/
theorem Waits.feed (h : m.Waits id index caller j extra) (hm : m.Linked)
    (hf : m.function? caller = some f) (ho : m.parameterProvenance caller j = .ok o)
    (hg : f.fetchParameter j o = .ok g) : (m.modify caller fun _ => g).Fed id index caller
      { o.resource with depth := o.resource.depth + extra } := by
  obtain ⟨k, value, counts, origin, hpassed, hpeels, rfl, horigin⟩ := h
  have haccessor := isAccessor_fetchParameter hf hg
  obtain ⟨F⟩ := Function.exists_fetch hg
  obtain ⟨hisAccessor, ⟨_, _, -, -, _, -, -, -, hset, hbinding⟩, -⟩ := parameterProvenance_ok hm ho
  rcases hpassed.fetch (hpeels.not_literal horigin (by simp)) hm hf ho hg F with
    ⟨hne, -⟩ | ⟨-, rfl, hpassed'⟩
  · exact absurd rfl hne
  · refine ⟨g, _, o.behind counts, hpassed', ?_, ?_, rfl⟩
    · exact traces_of_fetch F ((haccessor _).trans hisAccessor) hset hbinding hpeels horigin
    · rw [show (o.behind counts).operands = o.operands from rfl, F.known]
      simp

theorem fed_iff : m.Fed id index caller d ↔ ∃ c o, m.callsTo id = [(caller, c)] ∧
    m.argumentProvenance index (caller, c) = .ok o ∧ none ∉ o.operands ∧ o.resource = d := by
  simp only [argumentProvenance_eq_ok_iff]
  constructor
  · rintro ⟨k, value, o, ⟨c, hcalls, hk, hvalue⟩, htraces, hknown, hresource⟩
    exact ⟨c, o, hcalls, ⟨value, k, hvalue, hk, htraces⟩, hknown, hresource⟩
  · rintro ⟨c, o, hcalls, ⟨value, k, hvalue, hk, htraces⟩, hknown, hresource⟩
    exact ⟨k, value, o, ⟨c, hcalls, hk, hvalue⟩, htraces, hknown, hresource⟩

/-- **A function that is fed resolves its parameter**, and has what it takes to fetch the
resource. -/
theorem Fed.parameterProvenance (h : m.Fed id index caller d) : ∃ o,
    m.parameterProvenance id index = .ok o ∧ none ∉ o.operands ∧
      o.indexCounts.length = o.resource.depth ∧ o.resource = d := by
  obtain ⟨c, o, hcalls, ho, hknown, hresource⟩ := fed_iff.mp h
  refine ⟨o, ?_, hknown, length_indexCounts ho, hresource⟩
  rw [Module.parameterProvenance, hcalls]
  simp [ho, bind, Except.bind, commonProvenance]

end Module

/-! ## Steps -/

namespace Resolution

variable {options : Options} {s : Resolution} {id other caller above : FunctionId}
  {index i j extra : Nat} {d : FixedResource} {f : Function} {o : Provenance}

/-- If that is asked for, a step on a parameter that is resolved lets the function fetch the
resource, unless an operand is unknown or the calls differ in their accesses. -/
theorem program_step_of_ok (hfetch : options.fetch = true)
    (ho : s.program.parameterProvenance id index = .ok o) (hf : s.program.function? id = some f)
    (hbody : f.body.isSome) :
    let marked := s.program.modify id (·.setMark index (some o.resource))
    (∃ f' g, marked.function? id = some f' ∧ f'.fetchParameter index o = .ok g ∧
      (s.step options id index).program = marked.modify id fun _ => g) ∨
    ((s.step options id index).program = marked ∧
      (none ∈ o.operands ∨ o.indexCounts.length ≠ o.resource.depth)) := by
  have hmarked : (s.program.modify id (·.setMark index (some o.resource))).function? id
      = some (f.setMark index (some o.resource)) := by
    rw [Module.function?_setMark, hf, Option.map_some, if_pos rfl]
  unfold step
  simp only [ho, hfetch, if_true, record, fetch, mark, emit, hmarked]
  rcases Function.fetchParameter_or (f := f.setMark index (some o.resource)) index o hbody with
    ⟨g, hg⟩ | ⟨⟨declined, hdeclined⟩, hreason⟩
  · exact .inl ⟨_, g, rfl, hg, by simp only [hg]⟩
  · refine .inr ⟨?_, hreason⟩
    simp only [hdeclined]
    split <;> rfl

theorem fed_step (h : s.program.Fed id index caller d) (hs : s.program.Linked) (other : FunctionId)
    (i : Nat) : (s.step options other i).program.Fed id index caller d :=
  (step_keeps (fun m => s.program.Fetching m ∧ m.Fed id index caller d) options s other i
    ⟨(Module.Fetching.refl hs).setMark other i _, h.setMark other i _⟩
    fun h ho hf hg => ⟨h.1.fetchParameter hf ho hg, h.2.fetch h.1.linked hf ho hg⟩).2

theorem waits_step (h : s.program.Waits id index caller j extra) (hs : s.program.Linked)
    (hne : (other, i) ≠ (caller, j)) :
    (s.step options other i).program.Waits id index caller j extra :=
  (step_keeps (fun m => s.program.Fetching m ∧ m.Waits id index caller j extra) options s other i
    ⟨(Module.Fetching.refl hs).setMark other i _, h.setMark other i _⟩
    fun h ho hf hg => ⟨h.1.fetchParameter hf ho hg, h.2.fetch hne h.1.linked hf ho hg⟩).2

/-- **The step on the parameter of a fed function feeds the one that waits for it.** -/
theorem feed_step (hfetch : options.fetch = true) (h : s.program.Waits id index caller j extra)
    (hfed : s.program.Fed caller j above d) (hs : s.program.Linked) :
    (s.step options caller j).program.Fed id index caller { d with depth := d.depth + extra } := by
  obtain ⟨o, ho, hknown, hcounts, rfl⟩ := hfed.parameterProvenance
  have hcaller : ∃ k, s.program.function? caller = some k ∧ k.body.isSome := by
    obtain ⟨k, value, counts, origin, hpassed, -⟩ := h
    exact ⟨k, hpassed.exists_caller⟩
  obtain ⟨k, hk, hbody⟩ := hcaller
  rcases program_step_of_ok hfetch ho hk hbody with ⟨f, g, hf, hg, hsame⟩ | ⟨-, hreason⟩
  · rw [hsame]
    refine (h.setMark caller j _).feed (Module.Linked.setMark hs _ _ _) hf ?_ hg
    rw [Module.parameterProvenance_setMark, ho]
  · exact (hreason.elim hknown (absurd hcounts)).elim

end Resolution

end ResourceBinding
