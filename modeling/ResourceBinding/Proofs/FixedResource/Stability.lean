import ResourceBinding.Proofs.FixedResource.Fetching
import ResourceBinding.Proofs.FixedResource.Marks

/-!
# Verdicts that last

What a function that fetches a resource does to the verdicts on its parameters, and on those of
other functions. It has the uses of a parameter moved and one call more.

* `Module.verdict_fetchParameter_of_resolved`: a parameter that is resolved stays so. What leads to
  an accessor passes by no parameter, so that it is not moved; and the call that is new is not one
  of the function in question, since it passes literals alone.
* `Module.verdict_fetchParameter_of_unresolved`: so does one that is not, unless the function that
  is edited called its function from the start. The reason may become another one only if the
  function in question is an accessor itself.
-/

namespace ResourceBinding

/-- The call passes nothing but literals. -/
def Function.PassesLiterals (f : Function) (c : Call) : Prop :=
  ∃ ls : List Literal, c.arguments.map f.literal? = ls.map some

namespace Module

variable {m m' : Module} {id other : FunctionId} {index : Nat} {d : FixedResource}
  {f g : Function}

/-! ## Verdicts by the calls -/

/-- The call passes the resource as this argument. -/
def Passes (m : Module) (index : Nat) (d : FixedResource) (site : FunctionId × Call) : Prop :=
  ∃ o, m.argumentProvenance index site = .ok o ∧ o.resource = d

theorem exists_commonProvenance {sites : List (FunctionId × Call)} :
    ∀ {first : Provenance}, first.resource = d → (∀ site ∈ sites, m.Passes index d site) →
      ∃ o, m.commonProvenance index first sites = .ok o ∧ o.resource = d := by
  induction sites with
  | nil => exact fun {first} hfirst _ => ⟨first, rfl, hfirst⟩
  | cons site sites ih =>
    intro first hfirst hsites
    obtain ⟨other, hother, hresource⟩ := hsites site List.mem_cons_self
    have hrest : ∀ site ∈ sites, m.Passes index d site := fun s hs =>
      hsites s (List.mem_cons_of_mem _ hs)
    unfold commonProvenance
    rw [hother]
    change ∃ o, (first.merge other >>= (m.commonProvenance index · sites)) = .ok o ∧ _
    unfold Provenance.merge
    rw [if_neg (not_not_intro (hfirst.trans hresource.symm))]
    split
    · exact ih hfirst hrest
    · exact ih hfirst hrest

/-- **A parameter is resolved if its function is called, and every call passes the resource.** -/
theorem verdict_eq_resolved_iff : m.verdict id index = .resolved d ↔
    m.callsTo id ≠ [] ∧ ∀ site ∈ m.callsTo id, m.Passes index d site := by
  unfold verdict parameterProvenance
  cases hsites : m.callsTo id with
  | nil => simp
  | cons site sites =>
    simp only [ne_eq, reduceCtorEq, not_false_eq_true, true_and, List.mem_cons,
      forall_eq_or_imp]
    constructor
    · intro h
      cases hfirst : m.argumentProvenance index site with
      | error reason => simp [hfirst, bind, Except.bind] at h
      | ok first =>
        simp only [hfirst, bind, Except.bind] at h
        cases hcommon : m.commonProvenance index first sites with
        | error reason => simp [hcommon] at h
        | ok o =>
          rw [hcommon] at h
          obtain ⟨hresource, -, hothers⟩ := commonProvenance_ok hcommon
          obtain rfl : o.resource = d := by simpa using h
          exact ⟨⟨first, hfirst, hresource.symm⟩, hothers⟩
    · rintro ⟨⟨first, hfirst, hresource⟩, hothers⟩
      obtain ⟨o, ho, rfl⟩ := exists_commonProvenance hresource hothers
      simp [hfirst, bind, Except.bind, ho]

/-- A literal is no resource, so a call that passes literals alone passes none. -/
theorem not_passes_of_passesLiterals {site : FunctionId × Call}
    (hf : m.function? site.1 = some f) (h : f.PassesLiterals site.2) :
    ¬ m.Passes index d site := by
  rintro ⟨o, ho, -⟩
  obtain ⟨value, caller, hvalue, hcaller, htraces⟩ := argumentProvenance_eq_ok_iff.mp ho
  cases hf.symm.trans hcaller
  obtain ⟨ls, hls⟩ := h
  obtain ⟨l, hl⟩ := Function.exists_literal_of_mem hls (List.mem_of_getElem? hvalue)
  exact htraces.not_literal l hl

theorem exists_unresolved_of_passesLiterals (index : Nat) {c : Call} (hf : m.function? other = some f)
    (hc : c ∈ f.calls) (hcallee : c.callee = id) (h : f.PassesLiterals c) :
    ∃ reason, m.verdict id index = .unresolved reason := by
  cases hverdict : m.verdict id index with
  | unresolved reason => exact ⟨reason, rfl⟩
  | resolved d =>
    have hsite := mem_callsTo.mpr ⟨f, hf, hc, hcallee⟩
    exact absurd ((verdict_eq_resolved_iff.mp hverdict).2 _ hsite)
      (not_passes_of_passesLiterals hf h)

end Module

/-! ## A function that fetches -/

namespace Function

variable {f g : Function} {index : Nat} {o : Provenance} {c : Call}

theorem PassesLiterals.revises {σ : ExprId → ExprId} (hrev : Revises σ f g)
    (h : f.PassesLiterals c) : g.PassesLiterals { c with arguments := c.arguments.map σ } := by
  obtain ⟨ls, hls⟩ := h
  refine ⟨ls, ?_⟩
  rw [hrev.map_eq_self hls]
  exact map_literal?_mono (fun _ _ => hrev.literal?) hls

/-- The new call passes literals, and those of before that do so do so still. -/
theorem Fetch.passesLiterals (F : Fetch index o f g) :
    g.PassesLiterals ⟨o.resource.accessor, F.operands, some F.result⟩ :=
  ⟨F.literals, by rw [F.literal?_eq, F.passes]⟩

theorem Fetch.passesLiterals_of (F : Fetch index o f g) (h : f.PassesLiterals c) :
    g.PassesLiterals { c with
      arguments := c.arguments.map (f.redirectParameter index F.target) } := by
  obtain ⟨ls, hls⟩ := h.revises F.revises
  exact ⟨ls, by rw [F.literal?_eq, hls]⟩

/-- The call that a result comes from is found still, as the new one has a result of its own. -/
theorem Fetch.callOf? (F : Fetch index o f g) {value : ExprId}
    (hvalue : (value : Nat) < f.expressions.size) (h : f.callOf? value = some c) :
    g.callOf? value = some { c with
      arguments := c.arguments.map (f.redirectParameter index F.target) } := by
  have hne : F.result ≠ value := fun heq => absurd hvalue (heq ▸ Nat.not_lt.mpr F.result_new)
  rw [Function.callOf?, F.calls_eq, List.find?_cons_of_neg, List.find?_map]
  · exact congrArg (Option.map _) h
  · simpa using hne

end Function

namespace Module

variable {m : Module} {id other : FunctionId} {index i : Nat} {d : FixedResource}
  {f g : Function} {o : Provenance}

theorem function?_replace (hf : m.function? id = some f) (g : Function) (caller : FunctionId) :
    (m.modify id fun _ => g).function? caller
      = if id = caller then some g else m.function? caller := by
  rw [function?_modify]
  split
  · rename_i h
    rw [← h, hf, Option.map_some]
  · rfl

theorem isAccessor_fetchParameter (hf : m.function? id = some f)
    (hg : f.fetchParameter index o = .ok g) (caller : FunctionId) :
    (m.modify id fun _ => g).isAccessor caller = m.isAccessor caller := by
  obtain ⟨ls, ids, r, f₁, σ, -, hrev, -, -, rfl⟩ := Function.fetchParameter_ok hg
  refine isAccessor_congr ?_
  rw [function?_replace hf]
  split
  · rename_i h
    rw [← h, hf, Option.map_some, Option.map_some, Function.prependCalls, hrev.frame]
  · rfl

theorem mark?_fetchParameter (hf : m.function? id = some f)
    (hg : f.fetchParameter index o = .ok g) :
    (m.modify id fun _ => g).mark? other i = m.mark? other i := by
  obtain ⟨ls, ids, r, f₁, σ, -, hrev, -, -, rfl⟩ := Function.fetchParameter_ok hg
  unfold mark?
  rw [function?_replace hf]
  split
  · rename_i h
    subst h
    rw [hf, Function.prependCalls, hrev.frame]
    rfl
  · rfl

/-- The accessor of what a function fetches was called with literals alone before. -/
theorem exists_passesLiterals (hm : m.Linked) (ho : m.parameterProvenance id index = .ok o)
    (hg : f.fetchParameter index o = .ok g) :
    ∃ caller k c, m.function? caller = some k ∧ c ∈ k.calls ∧ c.callee = o.resource.accessor ∧
      k.PassesLiterals c := by
  obtain ⟨ls, ids, r, f₁, σ, hls, -⟩ := Function.fetchParameter_ok hg
  obtain ⟨-, ⟨caller, k, -, hk, c, hc, hcallee, hoperands, -⟩, -⟩ := parameterProvenance_ok hm ho
  exact ⟨caller, k, c, hk, hc, hcallee, ls, hoperands.symm.trans hls⟩

/-- The calls of a function other than the accessor are those of before, in the same order. -/
theorem callsTo_fetch (hf : m.function? id = some f) (F : f.Fetch index o g)
    {callee : FunctionId} (hne : o.resource.accessor ≠ callee) :
    (m.modify id fun _ => g).callsTo callee
      = (m.callsTo callee).map fun site => (site.1, if id = site.1 then { site.2 with
          arguments := site.2.arguments.map (f.redirectParameter index F.target) } else site.2) := by
  refine callsTo_map (fun caller c => if id = caller then { c with
    arguments := c.arguments.map (f.redirectParameter index F.target) } else c) fun caller => ?_
  rw [function?_replace hf]
  by_cases hcaller : id = caller
  · subst hcaller
    simp only [if_true, hf, Option.map_some, F.calls_eq, List.filter_cons,
      beq_eq_false_iff_ne.mpr hne, Bool.false_eq_true, if_false, List.filter_map]
    rfl
  · simp [hcaller]

/-- A parameter has the same origin, if its function is not called by the one that fetches a
resource, neither before nor then. -/
theorem parameterProvenance_fetchParameter (hf : m.function? id = some f)
    (hg : f.fetchParameter index o = .ok g) (hnew : o.resource.accessor ≠ other)
    (hcalls : ∀ c ∈ f.calls, c.callee ≠ other) :
    (m.modify id fun _ => g).parameterProvenance other i = m.parameterProvenance other i := by
  have haccessor := isAccessor_fetchParameter hf hg
  have hne : ∀ site ∈ m.callsTo other, id ≠ site.1 := by
    rintro ⟨caller, c⟩ hsite rfl
    obtain ⟨k, hk, hc, hcallee⟩ := mem_callsTo.mp hsite
    obtain rfl := Option.some.inj (hf.symm.trans hk)
    exact hcalls c hc hcallee
  obtain ⟨F⟩ := Function.exists_fetch hg
  refine parameterProvenance_congr ?_ fun site hsite => ?_
  · rw [callsTo_fetch hf F hnew]
    refine (List.map_congr_left fun site hsite => ?_).trans (List.map_id _)
    rw [if_neg (hne site hsite), id_eq]
  · obtain ⟨k, hk, -, -⟩ := mem_callsTo.mp hsite
    refine argumentProvenance_congr haccessor hk ?_ rfl rfl
    rw [function?_replace hf, if_neg (hne site hsite), hk]

/-- **What led to a resource leads to it still** in a function that fetches one. The operands of
the accessor are the same if they are known. -/
theorem Traces.fetch {m' : Module} {value : ExprId} {o' : Provenance} (h : m.Traces f value o')
    (F : f.Fetch index o g) (haccessor : ∀ id, m'.isAccessor id = m.isAccessor id) :
    ∃ operands, m'.Traces g (f.redirectParameter index F.target value)
        { o' with operands := operands } ∧ (none ∉ o'.operands → operands = o'.operands) := by
  obtain ⟨result, c, hpeels, hdepth, hcall, hobtained, hoperands⟩ := h
  -- Neither the result nor the constants of its call are parameters, so they stay.
  have hresult : f.redirectParameter index F.target result = result :=
    F.revises.stays_of_expr? hobtained.result (by simp)
  have hconstant : ∀ {i n}, f.HasOperand c i n → g.HasOperand
      { c with arguments := c.arguments.map (f.redirectParameter index F.target) } i n := by
    rintro i n ⟨a, l, ha, hl, hn⟩
    have hstays := F.revises.stays_of_expr? (Function.literal?_eq_some_iff.mp hl) (by simp)
    refine ⟨a, l, ?_, ?_, hn⟩
    · rw [List.getElem?_map, ha, Option.map_some, hstays]
    · rw [F.literal?_eq]
      exact F.revises.literal? hl
  refine ⟨(c.arguments.map (f.redirectParameter index F.target)).map g.literal?,
    ⟨result, _, ?_, hdepth, ?_,
      ⟨?_, ?_, hconstant hobtained.set, hconstant hobtained.binding⟩, rfl⟩, fun hknown => ?_⟩
  · have hlead := F.redirects hpeels
    rwa [hresult] at hlead
  · exact F.callOf? (Function.lt_size_of_expr? hobtained.result) hcall
  · rw [F.expr?_eq]
    exact F.revises.expr?_result hobtained.result
  · rw [haccessor]
    exact hobtained.accessor
  · obtain ⟨ls, hls⟩ := exists_mapM_of_not_mem hknown
    replace hls : c.arguments.map f.literal? = ls.map some :=
      hoperands.symm.trans (eq_map_some_of_mapM hls)
    rw [hoperands, F.revises.map_eq_self hls, hls, F.literal?_eq]
    exact Function.map_literal?_mono (fun _ _ => F.revises.literal?) hls

/-- **A parameter that is resolved stays so when a function fetches a resource**, be it of the same
function or of another one. -/
theorem verdict_fetchParameter_of_resolved (hm : m.Linked) (hf : m.function? id = some f)
    (ho : m.parameterProvenance id index = .ok o) (hg : f.fetchParameter index o = .ok g)
    (h : m.verdict other i = .resolved d) :
    (m.modify id fun _ => g).verdict other i = .resolved d := by
  have haccessor := isAccessor_fetchParameter hf hg
  -- The new call is of another function, as all calls of this one pass a resource.
  have hne : o.resource.accessor ≠ other := by
    rintro rfl
    obtain ⟨caller, k, c, hk, hc, hcallee, hliterals⟩ := exists_passesLiterals hm ho hg
    obtain ⟨reason, hreason⟩ := exists_unresolved_of_passesLiterals i hk hc hcallee hliterals
    cases h.symm.trans hreason
  obtain ⟨F⟩ := Function.exists_fetch hg
  obtain ⟨hnonempty, hsites⟩ := verdict_eq_resolved_iff.mp h
  refine verdict_eq_resolved_iff.mpr ?_
  rw [callsTo_fetch hf F hne]
  refine ⟨by simpa using hnonempty, fun site' hsite' => ?_⟩
  obtain ⟨⟨caller, c⟩, hsite, rfl⟩ := List.mem_map.mp hsite'
  obtain ⟨o', ho', hresource⟩ := hsites _ hsite
  obtain ⟨value, k, hvalue, hk, htraces⟩ := argumentProvenance_eq_ok_iff.mp ho'
  by_cases hcaller : id = caller
  · subst hcaller
    cases hf.symm.trans hk
    obtain ⟨operands, hfetched, -⟩ := htraces.fetch F haccessor
    refine ⟨_, argumentProvenance_eq_ok_iff.mpr ⟨_, g, ?_, ?_, hfetched⟩, hresource⟩
    · rw [if_pos rfl, List.getElem?_map, hvalue, Option.map_some]
    · rw [function?_replace hf, if_pos rfl]
  · refine ⟨o', argumentProvenance_eq_ok_iff.mpr
      ⟨value, k, ?_, ?_, htraces.congr haccessor rfl rfl⟩, hresource⟩
    · rwa [if_neg hcaller]
    · rw [function?_replace hf, if_neg hcaller, hk]

/-- **A parameter that is not resolved stays so**, if the function that fetches a resource calls the
one in question, an accessor then, with literals alone. Where that is no accessor, the reason
stays too. -/
theorem verdict_fetchParameter_of_unresolved (hm : m.Linked) (hf : m.function? id = some f)
    (ho : m.parameterProvenance id index = .ok o) (hg : f.fetchParameter index o = .ok g)
    (hcalls : ∀ c ∈ f.calls, c.callee = other →
      m.isAccessor other = true ∧ f.PassesLiterals c) {reason : Obstacle}
    (h : m.verdict other i = .unresolved reason) :
    ∃ reason', (m.modify id fun _ => g).verdict other i = .unresolved reason' ∧
      (m.isAccessor other = false → reason' = reason) := by
  have hisAccessor := (parameterProvenance_ok hm ho).1
  have hself := function?_replace hf g id
  rw [if_pos rfl] at hself
  obtain ⟨F⟩ := Function.exists_fetch hg
  -- With a call that passes literals, the parameter is not resolved; its function is an accessor.
  have hliteral : ∀ c ∈ g.calls, c.callee = other → m.isAccessor other = true →
      g.PassesLiterals c → ∃ reason', (m.modify id fun _ => g).verdict other i
        = .unresolved reason' ∧ (m.isAccessor other = false → reason' = reason) := by
    intro c hc hcallee htrue hpasses
    obtain ⟨reason', hreason'⟩ := exists_unresolved_of_passesLiterals i hself hc hcallee hpasses
    exact ⟨reason', hreason', fun hfalse => absurd htrue (by simp [hfalse])⟩
  by_cases hnew : o.resource.accessor = other
  · refine hliteral ⟨o.resource.accessor, F.operands, some F.result⟩ ?_ hnew (hnew ▸ hisAccessor)
      F.passesLiterals
    rw [F.calls_eq]
    exact List.mem_cons_self
  by_cases hany : ∃ c ∈ f.calls, c.callee = other
  · obtain ⟨c, hc, hcallee⟩ := hany
    obtain ⟨htrue, hpasses⟩ := hcalls c hc hcallee
    refine hliteral { c with arguments := c.arguments.map (f.redirectParameter index F.target) } ?_
      hcallee htrue (F.passesLiterals_of hpasses)
    rw [F.calls_eq]
    exact List.mem_cons_of_mem _ (List.mem_map.mpr ⟨c, hc, rfl⟩)
  -- Otherwise the calls of the function are the same, and in the same callers.
  refine ⟨reason, ?_, fun _ => rfl⟩
  rw [← h, verdict, verdict, parameterProvenance_fetchParameter hf hg hnew fun c hc hcallee =>
    hany ⟨c, hc, hcallee⟩]

end Module

end ResourceBinding
