import ResourceBinding.Proofs.FixedResource.Tracing
import ResourceBinding.Proofs.Program.ValueTree

/-!
# Rounds of following

A value is followed in rounds. Each looks at one value, and goes on with the base if that is an
access at zero indices (`Module.follow`). A bound ends this where more accesses have been passed
than there are expressions. The rounds may also be taken without the bound, and then they end only
where following stops (`Module.Follows`).

* `Module.meetsBound_iff`: the bound is met only where following comes back to an expression.
* `Module.provenance_follows`: the rounds end in time, with the origin of the value, and the bound
  makes no difference to rounds that end by themselves.
-/

namespace ResourceBinding

/-! ## Stores without cycles -/

namespace Function

variable {f : Function} {counts : List Nat} {value base origin : ExprId}

theorem Peels.transGen_uses (h : f.Peels counts value origin) (hne : counts ≠ []) :
    Relation.TransGen f.Uses value origin := by
  induction h with
  | here => exact absurd rfl hne
  | @access counts value base origin indices haccess hrest ih =>
    have huses : f.Uses value base := ⟨_, haccess.1, List.mem_cons_self⟩
    cases counts with
    | nil =>
      cases hrest
      exact .single huses
    | cons count counts => exact .head huses (ih (List.cons_ne_nil _ _))

theorem Acyclic.not_revisits (h : f.Acyclic) (value : ExprId) : ¬ f.Revisits value := by
  rintro ⟨-, round, origin, -, hround, hback⟩
  exact h origin (hback.transGen_uses hround)

/-- Where following does not stop, there is an access at zero indices. -/
theorem exists_zeroAccess_of_not_stops (h : ¬ f.Stops value) :
    ∃ base indices, f.ZeroAccess value base indices := by
  unfold Stops at h
  push Not at h
  exact h

end Function

/-! ## Rounds -/

/-- How far following has come: the numbers of indices of the accesses that were passed, the
outermost first, and the value behind them. -/
structure Trail where
  counts : List Nat
  value : ExprId

namespace Module

variable {m : Module} {caller : Function} {bounded : Bool} {value origin base : ExprId}
  {indices : List ExprId} {counts passed : List Nat} {t t' last : Trail} {n : Nat}
  {r : Except Obstacle Provenance}

/-- One round: it goes on with another value, or ends with an origin or the reason why there is
none. The bound on the accesses that were passed may be left out. -/
def follow (m : Module) (caller : Function) (bounded : Bool) (t : Trail) :
    Trail ⊕ Except Obstacle Provenance :=
  match caller.expr? t.value with
  | some (.access base indices) =>
    if !indices.all caller.isZeroIndex then .inr (.error .offset)
    else if bounded && caller.expressions.size < t.counts.length then .inr (.error .otherOrigin)
    else .inl ⟨t.counts ++ [indices.length], base⟩
  | some (.parameter _) => .inr (.error .forwarded)
  | some (.result callee) =>
    .inr ((m.callProvenance caller t.value callee).map (·.behind t.counts))
  | _ => .inr (.error .otherOrigin)

/-- There are `n` rounds from `t` on, the last of them at `last`, and they end with `r`. -/
inductive Follows (m : Module) (caller : Function) (bounded : Bool) :
    Nat → Trail → Trail → Except Obstacle Provenance → Prop
  | done {t : Trail} {r : Except Obstacle Provenance} :
      m.follow caller bounded t = .inr r → Follows m caller bounded 1 t t r
  | next {n : Nat} {t t' last : Trail} {r : Except Obstacle Provenance} :
      m.follow caller bounded t = .inl t' → Follows m caller bounded n t' last r →
      Follows m caller bounded (n + 1) t last r

/-- A round goes on at an access at zero indices, unless it meets the bound. -/
theorem follow_of_zeroAccess (h : caller.ZeroAccess t.value base indices) :
    m.follow caller bounded t = if bounded && caller.expressions.size < t.counts.length
      then .inr (.error .otherOrigin) else .inl ⟨t.counts ++ [indices.length], base⟩ := by
  unfold follow
  rw [h.1]
  simp only [h.2, Bool.not_true, Bool.false_eq_true, if_false]

/-- The bound is not met by so few accesses. -/
theorem follow_of_le (haccess : caller.ZeroAccess t.value base indices)
    (hbound : bounded = true → t.counts.length ≤ caller.expressions.size) :
    m.follow caller bounded t = .inl ⟨t.counts ++ [indices.length], base⟩ := by
  rw [follow_of_zeroAccess haccess, if_neg]
  rw [Bool.and_eq_true, decide_eq_true_eq]
  exact fun h => absurd (hbound h.1) (Nat.not_le.mpr h.2)

/-- Elsewhere a round ends, with what the value tells. -/
theorem follow_of_stops (h : caller.Stops t.value) :
    m.follow caller bounded t
      = .inr ((m.provenanceWithin caller 0 t.value).map (·.behind t.counts)) := by
  unfold follow
  rw [provenanceWithin.eq_def]
  cases hvalue : caller.expr? t.value with
  | none => rfl
  | some e =>
    cases e with
    | access base indices =>
      simp only [h.not_access hvalue, Bool.not_false, if_true]
      rfl
    | _ => rfl

theorem follow_eq_inl (h : m.follow caller bounded t = .inl t') :
    ∃ base indices, caller.ZeroAccess t.value base indices ∧
      t' = ⟨t.counts ++ [indices.length], base⟩ := by
  by_cases hstops : caller.Stops t.value
  · rw [follow_of_stops hstops] at h
    cases h
  · obtain ⟨base, indices, haccess⟩ := Function.exists_zeroAccess_of_not_stops hstops
    rw [follow_of_zeroAccess haccess] at h
    split at h
    · cases h
    · exact ⟨base, indices, haccess, (Sum.inl.inj h).symm⟩

namespace Follows

/-- There is one way of taking the rounds. -/
theorem unique (h : m.Follows caller bounded n t last r) :
    ∀ {n' : Nat} {last' : Trail} {r' : Except Obstacle Provenance},
      m.Follows caller bounded n' t last' r' → n = n' ∧ last = last' ∧ r = r' := by
  induction h with
  | done hdone =>
    rintro n' last' r' (hdone' | ⟨hnext', -⟩)
    · exact ⟨rfl, rfl, Sum.inr.inj (hdone.symm.trans hdone')⟩
    · cases hdone.symm.trans hnext'
  | next hnext _ ih =>
    rintro n' last' r' (hdone' | ⟨hnext', hrest'⟩)
    · cases hnext.symm.trans hdone'
    · obtain rfl := Sum.inl.inj (hnext.symm.trans hnext')
      obtain ⟨rfl, rfl, rfl⟩ := ih hrest'
      exact ⟨rfl, rfl, rfl⟩

/-- **Accesses are passed one by one**, as long as the bound allows. -/
theorem of_peels (h : caller.Peels counts value origin)
    (hlast : m.follow caller bounded ⟨passed ++ counts, origin⟩ = .inr r)
    (hbound : bounded = true → passed.length + counts.length ≤ caller.expressions.size + 1) :
    m.Follows caller bounded (counts.length + 1) ⟨passed, value⟩ ⟨passed ++ counts, origin⟩ r := by
  induction h generalizing passed with
  | here =>
    rw [List.append_nil] at hlast ⊢
    exact .done hlast
  | @access counts value base origin indices haccess _ ih =>
    rw [List.length_cons] at hbound ⊢
    have hnext : m.follow caller bounded ⟨passed, value⟩
        = .inl ⟨passed ++ [indices.length], base⟩ :=
      follow_of_le (t := ⟨passed, value⟩) haccess fun hbounded => by
        have hle := hbound hbounded
        simp only
        omega
    rw [List.append_cons] at hlast ⊢
    refine .next hnext (ih hlast fun hbounded => ?_)
    have hle := hbound hbounded
    rw [List.length_append, List.length_singleton]
    omega

/-- The rounds have passed accesses, of which there is one less than rounds. -/
theorem exists_peels (h : m.Follows caller bounded n t last r) :
    m.follow caller bounded last = .inr r ∧ ∃ counts, caller.Peels counts t.value last.value ∧
      last.counts = t.counts ++ counts ∧ n = counts.length + 1 := by
  induction h with
  | @done t r hdone => exact ⟨hdone, [], .here, (List.append_nil _).symm, rfl⟩
  | next hnext _ ih =>
    obtain ⟨base, indices, haccess, rfl⟩ := follow_eq_inl hnext
    obtain ⟨hlast, counts, hpeels, hcounts, rfl⟩ := ih
    refine ⟨hlast, _, .access haccess hpeels, ?_, rfl⟩
    rw [hcounts, List.append_assoc, List.singleton_append]

end Follows

/-! ## How the rounds end -/

/-- **Where following stops, the rounds end with the origin of the value**, with the bound or
without. -/
theorem follows_of_stops (h : caller.Peels counts value origin) (hstops : caller.Stops origin) :
    m.Follows caller bounded (counts.length + 1) ⟨[], value⟩ ⟨counts, origin⟩
      (m.provenance caller value) := by
  refine .of_peels h ?_ fun _ => ?_
  · rw [List.nil_append, follow_of_stops hstops, provenance_of_peels h hstops]
  · rw [List.length_nil, Nat.zero_add]
    exact Nat.le_succ_of_le (h.length_le_size hstops)

/-- Where it comes back, the bound ends them behind one access more than there are expressions. -/
theorem exists_follows_of_revisits (h : caller.Revisits value) : ∃ last base indices,
    m.Follows caller true (caller.expressions.size + 2) ⟨[], value⟩ last
      (m.provenance caller value) ∧
    caller.ZeroAccess last.value base indices ∧ caller.expressions.size < last.counts.length := by
  have hendless := Function.endless_iff_revisits.mpr h
  obtain ⟨counts, origin, hlength, hpeels⟩ := hendless (caller.expressions.size + 1)
  obtain ⟨base, indices, haccess⟩ :=
    Function.exists_zeroAccess_of_not_stops (hendless.not_stops hpeels)
  have hlt : caller.expressions.size < counts.length := hlength ▸ Nat.lt_succ_self _
  refine ⟨⟨counts, origin⟩, base, indices, ?_, haccess, hlt⟩
  have hlast : m.follow caller true ⟨counts, origin⟩ = .inr (m.provenance caller value) := by
    rw [follow_of_zeroAccess haccess, provenance_of_endless hendless, if_pos (by simpa using hlt)]
  have hfollows : m.Follows caller true (counts.length + 1) ⟨[], value⟩ ⟨[] ++ counts, origin⟩
      (m.provenance caller value) := .of_peels hpeels hlast fun _ => by simp [hlength]
  rwa [hlength] at hfollows

/-- In one of the rounds an access at zero indices is not followed, because of the bound. -/
def MeetsBound (m : Module) (caller : Function) (value : ExprId) : Prop :=
  ∃ n last r base indices, m.Follows caller true n ⟨[], value⟩ last r ∧
    caller.ZeroAccess last.value base indices ∧ caller.expressions.size < last.counts.length

/-- **The bound is met only where following comes back to an expression.** -/
theorem meetsBound_iff : m.MeetsBound caller value ↔ caller.Revisits value := by
  constructor
  · rintro ⟨n, last, r, base, indices, hfollows, -, hlt⟩
    obtain ⟨-, counts, hpeels, hcounts, -⟩ := hfollows.exists_peels
    rw [hcounts, List.nil_append] at hlt
    exact hpeels.length_le_or_revisits.resolve_left (Nat.not_le.mpr hlt)
  · intro h
    obtain ⟨last, base, indices, hfollows, haccess, hlt⟩ := exists_follows_of_revisits h
    exact ⟨_, last, _, base, indices, hfollows, haccess, hlt⟩

/-- **Rounds without the bound end as those with it**, unless following comes back, and then they do
not end. -/
theorem follows_unbounded_iff : m.Follows caller false n ⟨[], value⟩ last r ↔
    ¬ caller.Revisits value ∧ m.Follows caller true n ⟨[], value⟩ last r := by
  constructor
  · intro h
    obtain ⟨hlast, counts, hpeels, -, -⟩ := h.exists_peels
    have hstops : caller.Stops last.value := fun base indices haccess => by
      rw [follow_of_le haccess (by simp)] at hlast
      cases hlast
    obtain ⟨hn, hlast, hr⟩ := h.unique (follows_of_stops hpeels hstops)
    rw [hn, hlast, hr]
    exact ⟨hpeels.not_revisits hstops, follows_of_stops hpeels hstops⟩
  · rintro ⟨hrevisits, h⟩
    obtain ⟨counts, origin, hpeels, hstops⟩ := (caller.stops_or_endless value).resolve_right
      (mt Function.endless_iff_revisits.mp hrevisits)
    obtain ⟨rfl, rfl, rfl⟩ := h.unique (follows_of_stops hpeels hstops)
    exact follows_of_stops hpeels hstops

/-- **Following ends, and the bound costs no verdict.** Whatever the expressions are, the rounds are
at most two more than there are expressions, and end with the origin of the value. The bound is met
exactly if the accesses come back to one of them. The rounds without the bound end otherwise, and as
those with it do; so it is in a store without cycles, be it that every expression is passed. -/
theorem provenance_follows (m : Module) (caller : Function) (value : ExprId) :
    (∃ n last, n ≤ caller.expressions.size + 2 ∧
      m.Follows caller true n ⟨[], value⟩ last (m.provenance caller value)) ∧
    (m.MeetsBound caller value ↔ caller.Revisits value) ∧
    (∀ n last r, m.Follows caller false n ⟨[], value⟩ last r ↔
      ¬ caller.Revisits value ∧ m.Follows caller true n ⟨[], value⟩ last r) ∧
    (caller.Acyclic → ∃ n last,
      m.Follows caller false n ⟨[], value⟩ last (m.provenance caller value)) := by
  refine ⟨?_, meetsBound_iff, fun n last r => follows_unbounded_iff, fun hacyclic => ?_⟩
  · rcases caller.stops_or_endless value with ⟨counts, origin, hpeels, hstops⟩ | hendless
    · refine ⟨_, _, ?_, follows_of_stops hpeels hstops⟩
      have hle := hpeels.length_le_size hstops
      omega
    · obtain ⟨last, -, -, hfollows, -⟩ :=
        exists_follows_of_revisits (Function.endless_iff_revisits.mp hendless)
      exact ⟨_, last, Nat.le_refl _, hfollows⟩
  · obtain ⟨counts, origin, hpeels, hstops⟩ := (caller.stops_or_endless value).resolve_right
      (mt Function.endless_iff_revisits.mp (hacyclic.not_revisits value))
    exact ⟨_, _, follows_of_stops hpeels hstops⟩

/-- A function in which a parameter stands behind two accesses, and which has no other
expressions. -/
def nestedAccesses : Function where
  name := "nested"
  convention := .ordinary
  params := [⟨some "p", 0, none⟩]
  result := none
  isPure := false
  expressions := #[.parameter 0, .access 0 [], .access 1 []]
  names := [(2, "b"), (1, "a")]
  body := some .nil

theorem acyclic_nestedAccesses : nestedAccesses.Acyclic := by
  refine Function.acyclic_of_lt fun id op huses => ?_
  obtain ⟨e, he, hop⟩ := huses
  match id with
  | 0 =>
    cases he
    cases hop
  | 1 | 2 =>
    cases he
    obtain rfl := List.mem_singleton.mp hop
    decide
  | id + 3 => cases he

/-- All expressions are passed, and the parameter behind them is found without the bound. -/
theorem nestedAccesses_follows : nestedAccesses.Acyclic ∧ ∃ n last,
    Follows ⟨.empty, #[nestedAccesses]⟩ nestedAccesses false n ⟨[], 2⟩ last (.error .forwarded) :=
  ⟨acyclic_nestedAccesses,
    (provenance_follows ⟨.empty, #[nestedAccesses]⟩ nestedAccesses 2).2.2.2 acyclic_nestedAccesses⟩

end Module

end ResourceBinding
