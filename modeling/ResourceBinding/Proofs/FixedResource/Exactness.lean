import ResourceBinding.Proofs.FixedResource.Stability
import ResourceBinding.Proofs.Program.WellFormed

/-!
# Exactly which verdict

What a parameter is resolved to, and why it is not, in terms of the calls of its function. A call
receives a resource if the argument leads to it (`Module.Traces`), and misses one if the argument is
not there, or goes astray (`Module.Strays`).

* `Module.verdict_exact`: a parameter is resolved if it receives the resource at each of at least
  one call. If not, the first call that fails on its own or differs from the first one tells why.

The call that a result comes from is the first one in the body that has it. In a module that is well
formed there is no other (`Module.WellFormed.receivesFromAny_iff`).
-/

namespace ResourceBinding

namespace Module

variable {m : Module} {caller : Function} {id : FunctionId} {index : Nat}
  {site : FunctionId × Call} {d : FixedResource} {reason : Obstacle}

/-! ## The calls of a function -/

/-- The call has the argument, and it leads to the resource. -/
def Receives (m : Module) (index : Nat) (d : FixedResource) (site : FunctionId × Call) : Prop :=
  ∃ value caller o, site.2.arguments[index]? = some value ∧ m.function? site.1 = some caller ∧
    m.Traces caller value o ∧ o.resource = d

/-- Why the call passes no resource, whatever the others pass. -/
inductive Misses (m : Module) (index : Nat) (site : FunctionId × Call) : Obstacle → Prop
  | tooFewArguments : site.2.arguments[index]? = none → Misses m index site .tooFewArguments
  | strays {value : ExprId} {caller : Function} {reason : Obstacle} :
      site.2.arguments[index]? = some value → m.function? site.1 = some caller →
      m.Strays caller value reason → Misses m index site reason

theorem passes_iff : m.Passes index d site ↔ m.Receives index d site := by
  simp only [Passes, Receives, argumentProvenance_eq_ok_iff]
  constructor
  · rintro ⟨o, ⟨value, caller, hvalue, hcaller, htraces⟩, hresource⟩
    exact ⟨value, caller, o, hvalue, hcaller, htraces, hresource⟩
  · rintro ⟨value, caller, o, hvalue, hcaller, htraces, hresource⟩
    exact ⟨o, ⟨value, caller, hvalue, hcaller, htraces⟩, hresource⟩

theorem argumentProvenance_eq_error_iff (hcaller : m.function? site.1 = some caller) :
    m.argumentProvenance index site = .error reason ↔ m.Misses index site reason := by
  unfold argumentProvenance
  rw [hcaller]
  constructor
  · intro h
    cases hvalue : site.2.arguments[index]? with
    | none =>
      rw [hvalue] at h
      cases h
      exact .tooFewArguments hvalue
    | some value =>
      simp only [hvalue] at h
      exact .strays hvalue hcaller (provenance_eq_error_iff.mp h)
  · rintro (hnone | ⟨hvalue, hcaller', hstrays⟩)
    · rw [hnone]
    · cases hcaller.symm.trans hcaller'
      simp only [hvalue]
      exact hstrays.provenance

/-- The first element that is found, where those before it are passed over, is the head or one of
the tail. -/
theorem exists_first_cons {α : Type} {skipped found : α → Prop} {x : α} {xs : List α} :
    (∃ before y after, x :: xs = before ++ y :: after ∧ (∀ a ∈ before, skipped a) ∧ found y) ↔
      found x ∨ skipped x ∧
        ∃ before y after, xs = before ++ y :: after ∧ (∀ a ∈ before, skipped a) ∧ found y := by
  constructor
  · rintro ⟨before, y, after, heq, hbefore, hy⟩
    cases before with
    | nil =>
      cases heq
      exact .inl hy
    | cons a before =>
      cases heq
      exact .inr ⟨hbefore _ List.mem_cons_self, before, y, after, rfl,
        fun a ha => hbefore a (List.mem_cons_of_mem _ ha), hy⟩
  · rintro (hx | ⟨hx, before, y, after, rfl, hbefore, hy⟩)
    · exact ⟨[], x, xs, rfl, by simp, hx⟩
    · exact ⟨x :: before, y, after, rfl, List.forall_mem_cons.mpr ⟨hx, hbefore⟩, hy⟩

/-- The origins at calls have nothing in common if one of the calls has none, or leads to another
resource, where those before it lead to the one that is given. -/
theorem commonProvenance_eq_error_iff {sites : List (FunctionId × Call)} :
    ∀ {first : Provenance}, first.resource = d →
      (m.commonProvenance index first sites = .error reason ↔
        ∃ before site after, sites = before ++ site :: after ∧
          (∀ s ∈ before, m.Passes index d s) ∧
          (m.argumentProvenance index site = .error reason ∨
            reason = .conflict ∧ ∃ d', m.Passes index d' site ∧ d' ≠ d)) := by
  induction sites with
  | nil =>
    intro first _
    simp [commonProvenance]
  | cons next sites ih =>
    intro first hfirst
    rw [exists_first_cons, commonProvenance]
    cases hnext : m.argumentProvenance index next with
    | error reason' => simp [hnext, Passes, bind, Except.bind]
    | ok other =>
      have hpasses : ∀ d', m.Passes index d' next ↔ other.resource = d' := by
        simp [Passes, hnext]
      by_cases hsame : other.resource = d
      · have hmerge : ∃ merged, first.merge other = .ok merged ∧ merged.resource = d := by
          unfold Provenance.merge
          rw [if_neg (not_not_intro (hfirst.trans hsame.symm))]
          split
          · exact ⟨_, rfl, hfirst⟩
          · exact ⟨_, rfl, hfirst⟩
        obtain ⟨merged, hmerge, hmerged⟩ := hmerge
        simp only [bind, Except.bind, hmerge, ih hmerged, hpasses, hsame]
        simp
      · have hmerge : first.merge other = .error .conflict := by
          unfold Provenance.merge
          rw [if_pos fun h => hsame (h.symm.trans hfirst)]
        simp only [bind, Except.bind, hmerge, hpasses]
        simp [hsame, eq_comm]

/-- The verdict tells the reason of the first call, or what the others have in common with it. -/
theorem verdict_eq_unresolved_iff {sites : List (FunctionId × Call)}
    (hsites : m.callsTo id = site :: sites) :
    m.verdict id index = .unresolved reason ↔ m.argumentProvenance index site = .error reason ∨
      ∃ first, m.argumentProvenance index site = .ok first ∧
        m.commonProvenance index first sites = .error reason := by
  unfold verdict parameterProvenance
  rw [hsites]
  cases hfirst : m.argumentProvenance index site with
  | error reason' => simp [hfirst, bind, Except.bind]
  | ok first =>
    cases hcommon : m.commonProvenance index first sites <;>
      simp [hfirst, hcommon, bind, Except.bind]

/-- **If a parameter is not resolved, the first call that misses a resource or receives another one
than the first tells why.** -/
theorem verdict_eq_unresolved_iff_misses : m.verdict id index = .unresolved reason ↔
    (m.callsTo id = [] ∧ reason = .neverCalled) ∨
    ∃ before site after, m.callsTo id = before ++ site :: after ∧
      (∃ d, ∀ s ∈ before, m.Receives index d s) ∧
      (m.Misses index site reason ∨ reason = .conflict ∧ ∃ first d d',
        before.head? = some first ∧ m.Receives index d first ∧ m.Receives index d' site ∧
          d' ≠ d) := by
  cases hsites : m.callsTo id with
  | nil => simp [verdict, parameterProvenance, hsites, eq_comm]
  | cons site sites =>
    have hcaller : ∀ s ∈ site :: sites, ∃ f, m.function? s.1 = some f := by
      rintro ⟨caller, c⟩ hs
      obtain ⟨f, hf, -⟩ := mem_callsTo.mp (hsites ▸ hs)
      exact ⟨f, hf⟩
    have herror : ∀ s ∈ site :: sites, ∀ {reason}, m.Misses index s reason →
        m.argumentProvenance index s = .error reason := fun s hs _ h =>
      (argumentProvenance_eq_error_iff (hcaller s hs).choose_spec).mpr h
    rw [verdict_eq_unresolved_iff hsites]
    constructor
    · rintro (hfirst | ⟨first, hfirst, hcommon⟩)
      · obtain ⟨f, hf⟩ := hcaller site List.mem_cons_self
        exact .inr ⟨[], site, sites, rfl, ⟨⟨id, 0, 0, 0⟩, by simp⟩,
          .inl ((argumentProvenance_eq_error_iff hf).mp hfirst)⟩
      · have hreceives : m.Receives index first.resource site :=
          passes_iff.mp ⟨first, hfirst, rfl⟩
        obtain ⟨before, other, after, rfl, hbefore, hother⟩ :=
          (commonProvenance_eq_error_iff rfl).mp hcommon
        obtain ⟨f, hf⟩ := hcaller other (by simp)
        refine .inr ⟨site :: before, other, after, rfl, ⟨first.resource, ?_⟩, ?_⟩
        · exact List.forall_mem_cons.mpr ⟨hreceives, fun s hs => passes_iff.mp (hbefore s hs)⟩
        · rcases hother with hother | ⟨rfl, d', hother, hne⟩
          · exact .inl ((argumentProvenance_eq_error_iff hf).mp hother)
          · exact .inr ⟨rfl, site, _, d', rfl, hreceives, passes_iff.mp hother, hne⟩
    · rintro (⟨hnil, -⟩ | ⟨before, other, after, heq, ⟨d, hbefore⟩, hother⟩)
      · cases hnil
      cases before with
      | nil =>
        cases heq
        rcases hother with hmisses | ⟨-, first, d, d', hhead, -⟩
        · exact .inl (herror site List.mem_cons_self hmisses)
        · cases hhead
      | cons s before =>
        cases heq
        obtain ⟨first, hfirst, rfl⟩ := passes_iff.mpr (hbefore site List.mem_cons_self)
        refine .inr ⟨first, hfirst, (commonProvenance_eq_error_iff rfl).mpr ⟨before, other, after,
          rfl, fun s hs => passes_iff.mpr (hbefore s (List.mem_cons_of_mem _ hs)), ?_⟩⟩
        rcases hother with hmisses | ⟨hconflict, _, d, d', hhead, hd, hother, hne⟩
        · exact .inl (herror other (by simp) hmisses)
        · cases hhead
          -- The first call receives one resource only.
          obtain ⟨o, ho, rfl⟩ := passes_iff.mpr hd
          cases hfirst.symm.trans ho
          exact .inr ⟨hconflict, d', passes_iff.mpr hother, hne⟩

/-- **A parameter is resolved exactly if its function is called, and each call receives the
resource; and if it is not, the first call that misses one or receives another one than the first
tells why.** -/
theorem verdict_exact (m : Module) (id : FunctionId) (index : Nat) :
    (∀ d, m.verdict id index = .resolved d ↔
      m.callsTo id ≠ [] ∧ ∀ site ∈ m.callsTo id, m.Receives index d site) ∧
    ∀ reason, m.verdict id index = .unresolved reason ↔
      (m.callsTo id = [] ∧ reason = .neverCalled) ∨
      ∃ before site after, m.callsTo id = before ++ site :: after ∧
        (∃ d, ∀ s ∈ before, m.Receives index d s) ∧
        (m.Misses index site reason ∨ reason = .conflict ∧ ∃ first d d',
          before.head? = some first ∧ m.Receives index d first ∧ m.Receives index d' site ∧
            d' ≠ d) := by
  refine ⟨fun d => ?_, fun reason => verdict_eq_unresolved_iff_misses⟩
  rw [verdict_eq_resolved_iff]
  simp only [passes_iff]

/-! ## Results that several calls have -/

/-- The call has the argument, and it leads to a result that is obtained by any of the calls that
have it. -/
def ReceivesFromAny (m : Module) (index : Nat) (d : FixedResource) (site : FunctionId × Call) :
    Prop :=
  ∃ value caller counts result c, site.2.arguments[index]? = some value ∧
    m.function? site.1 = some caller ∧ caller.Peels counts value result ∧
    counts.length = d.depth ∧ c ∈ caller.calls ∧ c.result = some result ∧
    m.Obtained caller result c d

end Module

theorem Function.callOf?_of_once {f : Function} {r : ExprId} {c : Call}
    (honce : (f.calls.filterMap Call.result).count r = 1) (hc : c ∈ f.calls)
    (hresult : c.result = some r) : f.callOf? r = some c := by
  obtain ⟨before, after, hcalls⟩ := List.append_of_mem hc
  rw [hcalls, List.filterMap_append, List.filterMap_cons_some hresult, List.count_append,
    List.count_cons_self] at honce
  have hbefore : r ∉ before.filterMap Call.result := List.count_eq_zero.mp (by omega)
  rw [callOf?, hcalls, List.find?_append, List.find?_eq_none.mpr, Option.none_or,
    List.find?_cons_of_pos (by simp [hresult])]
  intro other hother heq
  exact hbefore (List.mem_filterMap.mpr ⟨other, hother, by simpa using heq⟩)

namespace Module

/-- In a well-formed module there is one call to each result. -/
theorem WellFormed.receivesFromAny_iff {m : Module} (hm : m.WellFormed) {index : Nat}
    {d : FixedResource} {site : FunctionId × Call} :
    m.ReceivesFromAny index d site ↔ m.Receives index d site := by
  constructor
  · rintro ⟨value, caller, counts, result, c, hvalue, hcaller, hpeels, hdepth, hc, hresult, h⟩
    have honce := (hm.functions caller (mem_functions_iff.mpr ⟨_, hcaller⟩)).made_once _ _ h.result
    exact ⟨value, caller, ⟨d, counts, _⟩, hvalue, hcaller, ⟨result, c, hpeels, hdepth,
      Function.callOf?_of_once honce hc hresult, h, rfl⟩, rfl⟩
  · rintro ⟨value, caller, o, hvalue, hcaller, ⟨result, c, hpeels, hdepth, hcall, h, -⟩, rfl⟩
    exact ⟨value, caller, o.indexCounts, result, c, hvalue, hcaller, hpeels, hdepth,
      List.mem_of_find?_eq_some hcall, by simpa using List.find?_some hcall, h⟩

/-- A module that is not: two calls have one result, and only the second one names a slot. -/
def twiceObtained : Module where
  types := .empty
  functions := #[
    .declaration "kernbind.resource.0" [] none,
    { Function.declaration "g" [] none with body := some .nil },
    { Function.declaration "k" [] none with
      convention := .kernel
      expressions := #[.literal (.u32 2), .literal (.u32 1), .binary .add 0 1, .result 0]
      body := some <| .cons (.call ⟨0, [2, 1], some 3⟩) <| .cons (.call ⟨0, [0, 1], some 3⟩) <|
        .cons (.call ⟨1, [3], none⟩) .nil }]

/-- There the parameter is not resolved, though a call of the accessor that has the argument as its
result names the slot. -/
theorem twiceObtained_verdict : ¬ ∀ d, twiceObtained.verdict 1 0 = .resolved d ↔
    twiceObtained.callsTo 1 ≠ [] ∧
      ∀ site ∈ twiceObtained.callsTo 1, twiceObtained.ReceivesFromAny 0 d site := by
  intro h
  have hcalls : twiceObtained.callsTo 1 = [(2, ⟨1, [3], none⟩)] := by decide +kernel
  have hverdict : twiceObtained.verdict 1 0 = .unresolved .unknownBinding := by decide +kernel
  have hresolved := (h ⟨0, 2, 1, 0⟩).mpr ⟨by simp [hcalls], fun site hsite => ?_⟩
  · cases hresolved.symm.trans hverdict
  · obtain rfl := List.mem_singleton.mp (hcalls ▸ hsite)
    refine ⟨3, _, [], 3, ⟨0, [0, 1], some 3⟩, rfl, rfl, .here, rfl, by decide, rfl, ?_⟩
    exact ⟨rfl, by decide +kernel, ⟨0, .u32 2, rfl, rfl, rfl⟩, ⟨1, .u32 1, rfl, rfl, rfl⟩⟩

end Module

end ResourceBinding
