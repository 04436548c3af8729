import ResourceBinding.Proofs.Calls.Reach
import Mathlib.Data.Fintype.Order
import Mathlib.Data.List.Nodup
import Mathlib.Order.Bounds.Basic
import Mathlib.Order.ConditionallyCompleteLattice.Basic
import Mathlib.Order.Lattice.Nat
import Mathlib.Order.WellFounded

/-!
# Levels of calls

A function that no cycle of calls leads to has a *depth*: the length of the longest chain of calls
that leads to it from a kernel. The order with callers first sorts such functions by their depth,
and by the breadth-first order within one depth. The others, which a cycle has caught, follow in
the breadth-first order (`Module.callersFirst_levelOrder`). So it catches functions if and only if
the calls form a cycle (`Module.callsAcyclic_iff`), and else no function of it is called by itself
or by one behind it (`Module.CallsAcyclic.not_calls`).

Functions are taken away in rounds. After so many of them, chains to what is gone have at most that
length, and chains to what remains get longer (`Module.Round`).
-/

namespace ResourceBinding

namespace CallGraph

end CallGraph

namespace Module

variable {m : Module} {id : FunctionId}

/-- The function lies on a cycle of calls among the functions that are reached, or calls lead to it
from such a cycle. -/
def BehindCycle (m : Module) (id : FunctionId) : Prop :=
  ∃ on, m.Reached on ∧ Relation.TransGen m.Calls on on ∧ Relation.ReflTransGen m.Calls on id

/-- How many functions there are on the chains of calls that lead to a function. -/
def chainLengths (m : Module) (id : FunctionId) : Set Nat :=
  { n | ∃ path, m.CallChain path id ∧ path.length = n }

/-- How many functions there are on the longest chain of calls that leads to a function. -/
noncomputable def depth (m : Module) (id : FunctionId) : Nat :=
  sSup (m.chainLengths id)

/-- The function has a smaller depth than the other, or the same and is discovered before it. -/
def IsAbove (m : Module) (id other : FunctionId) : Prop :=
  m.depth id < m.depth other ∨
    m.depth id = m.depth other ∧ [id, other].Sublist m.callGraph.breadthFirst

/-! ## Chains and cycles -/

theorem CallChain.length_pos {path : List FunctionId} (h : m.CallChain path id) :
    0 < path.length :=
  List.length_pos_of_mem h.mem

/-- A chain goes on along calls. -/
theorem CallChain.exists_of_reflTransGen {path : List FunctionId} {other : FunctionId}
    (h : m.CallChain path id) (hcalls : Relation.ReflTransGen m.Calls id other) :
    ∃ longer, m.CallChain longer other ∧ path.length ≤ longer.length := by
  induction hcalls with
  | refl => exact ⟨path, h, Nat.le_refl _⟩
  | tail _ hcall ih =>
    obtain ⟨longer, hlonger, hle⟩ := ih
    refine ⟨_, .call hlonger hcall, ?_⟩
    rw [List.length_append]
    omega

/-- A chain that goes on along at least one call becomes longer. -/
theorem CallChain.exists_of_transGen {path : List FunctionId} {other : FunctionId}
    (h : m.CallChain path id) (hcalls : Relation.TransGen m.Calls id other) :
    ∃ longer, m.CallChain longer other ∧ path.length < longer.length := by
  obtain ⟨last, hcalls, hcall⟩ := Relation.TransGen.tail'_iff.mp hcalls
  obtain ⟨longer, hlonger, hle⟩ := h.exists_of_reflTransGen hcalls
  refine ⟨_, .call hlonger hcall, ?_⟩
  rw [List.length_append, List.length_singleton]
  omega

theorem Reached.of_calls {caller : FunctionId} (h : m.Reached caller) (hid : m.isDefined id)
    (hcalls : m.Calls caller id) : m.Reached id :=
  reached_iff.mpr (.inr ⟨caller, h, mem_callees.mpr ⟨hcalls, hid⟩⟩)

theorem Reached.of_reflTransGen {other : FunctionId} (h : m.Reached id)
    (hcalls : Relation.ReflTransGen m.Calls id other) (hother : m.isDefined other) :
    m.Reached other := by
  obtain ⟨path, hpath⟩ := h.2
  obtain ⟨longer, hlonger, -⟩ := hpath.exists_of_reflTransGen hcalls
  exact ⟨hother, longer, hlonger⟩

theorem BehindCycle.of_reflTransGen {other : FunctionId} (h : m.BehindCycle id)
    (hcalls : Relation.ReflTransGen m.Calls id other) : m.BehindCycle other := by
  obtain ⟨on, hreached, hcycle, hlead⟩ := h
  exact ⟨on, hreached, hcycle, hlead.trans hcalls⟩

/-- **Chains behind a cycle have no longest one**, as each may go round the cycle once more. -/
theorem BehindCycle.exists_longer (h : m.BehindCycle id) (n : Nat) :
    ∃ path, m.CallChain path id ∧ n < path.length := by
  obtain ⟨on, hreached, hcycle, hlead⟩ := h
  have hround : ∃ path, m.CallChain path on ∧ n < path.length := by
    induction n with
    | zero =>
      obtain ⟨path, hpath⟩ := hreached.2
      exact ⟨path, hpath, hpath.length_pos⟩
    | succ n ih =>
      obtain ⟨path, hpath, hn⟩ := ih
      obtain ⟨longer, hlonger, hlt⟩ := hpath.exists_of_transGen hcycle
      exact ⟨longer, hlonger, by omega⟩
  obtain ⟨path, hpath, hn⟩ := hround
  obtain ⟨longer, hlonger, hle⟩ := hpath.exists_of_reflTransGen hlead
  exact ⟨longer, hlonger, by omega⟩

theorem BehindCycle.not_isGreatest (h : m.BehindCycle id) (n : Nat) :
    ¬ IsGreatest (m.chainLengths id) n := by
  intro hgreatest
  obtain ⟨path, hpath, hn⟩ := h.exists_longer n
  exact Nat.not_le.mpr hn (hgreatest.2 ⟨path, hpath, rfl⟩)

/-- What is called lies deeper than its callers, be it called through others. -/
theorem depth_lt_of_transGen {other : FunctionId}
    (hid : IsGreatest (m.chainLengths id) (m.depth id))
    (hother : IsGreatest (m.chainLengths other) (m.depth other))
    (hcalls : Relation.TransGen m.Calls id other) : m.depth id < m.depth other := by
  obtain ⟨path, hpath, hlength⟩ := hid.1
  obtain ⟨longer, hlonger, hlt⟩ := hpath.exists_of_transGen hcalls
  rw [← hlength]
  exact Nat.lt_of_lt_of_le hlt (hother.2 ⟨longer, hlonger, rfl⟩)

/-! ## Rounds -/

/-- What holds of the functions that remain after `k` rounds. -/
structure Round (m : Module) (k : Nat) (remaining : List FunctionId) : Prop where
  sublist : remaining.Sublist m.callGraph.breadthFirst
  gone : ∀ id, m.Reached id → id ∉ remaining → ∀ path, m.CallChain path id → path.length ≤ k
  stays : ∀ id ∈ remaining, ∃ path, m.CallChain path id ∧ k < path.length

theorem round_zero (m : Module) : m.Round 0 m.callGraph.breadthFirst where
  sublist := .refl _
  gone id hid hnot := absurd ((m.nodup_breadthFirst_and_mem_iff.2 id).mpr hid) hnot
  stays id hid := by
    obtain ⟨-, path, hpath⟩ := (m.nodup_breadthFirst_and_mem_iff.2 id).mp hid
    exact ⟨path, hpath, hpath.length_pos⟩

namespace Round

variable {k : Nat} {remaining : List FunctionId}

theorem reached (h : m.Round k remaining) (hid : id ∈ remaining) : m.Reached id :=
  (m.nodup_breadthFirst_and_mem_iff.2 id).mp (h.sublist.mem hid)

/-- Chains to a function that none of the remaining ones calls are longer by one at most. -/
theorem length_le_of_isFree (h : m.Round k remaining) (hid : id ∈ remaining)
    (hfree : m.callGraph.isFree remaining id) {path : List FunctionId} (hpath : m.CallChain path id) :
    path.length ≤ k + 1 := by
  cases hpath with
  | kernel => simp
  | @call path caller _ hchain hcalls =>
    have hcaller : caller ∉ remaining := fun hmem => by
      have hnot := List.all_eq_true.mp hfree caller hmem
      simp [mem_callees_of_calls (h.reached hid) hcalls] at hnot
    have hle := h.gone caller ⟨isDefined_of_calls hcalls, path, hchain⟩ hcaller path hchain
    rw [List.length_append, List.length_singleton]
    omega

/-- The next round takes the functions away that have the depth of its number. -/
theorem isGreatest_of_isFree (h : m.Round k remaining) (hid : id ∈ remaining)
    (hfree : m.callGraph.isFree remaining id) : IsGreatest (m.chainLengths id) (k + 1) := by
  have hbound : ∀ path, m.CallChain path id → path.length ≤ k + 1 := fun _ hpath =>
    h.length_le_of_isFree hid hfree hpath
  obtain ⟨path, hpath, hk⟩ := h.stays id hid
  refine ⟨⟨path, hpath, Nat.le_antisymm (hbound path hpath) hk⟩, ?_⟩
  rintro _ ⟨path, hpath, rfl⟩
  exact hbound path hpath

/-- **What one round does**: it leaves the functions that have longer chains. -/
theorem next (h : m.Round k remaining) :
    m.Round (k + 1) (remaining.filter fun id => !m.callGraph.isFree remaining id) where
  sublist := List.filter_sublist.trans h.sublist
  gone id hid hnot path hpath := by
    by_cases hmem : id ∈ remaining
    · have hfree : m.callGraph.isFree remaining id := by
        by_contra hfree
        exact hnot (List.mem_filter.mpr ⟨hmem, by simpa using hfree⟩)
      exact h.length_le_of_isFree hmem hfree hpath
    · exact Nat.le_succ_of_le (h.gone id hid hmem path hpath)
  stays id hid := by
    obtain ⟨-, hnot⟩ := List.mem_filter.mp hid
    rw [Bool.not_eq_true', CallGraph.isFree, List.all_eq_false] at hnot
    obtain ⟨caller, hcaller, hcallee⟩ := hnot
    have hcalls : m.Calls caller id := (mem_callees.mp (by simpa using hcallee)).1
    obtain ⟨path, hpath, hk⟩ := h.stays caller hcaller
    refine ⟨_, .call hpath hcalls, ?_⟩
    rw [List.length_append, List.length_singleton]
    omega

/-- **All rounds**: the functions that they take away have a depth, and come sorted by it. -/
theorem settled (n : Nat) : ∀ {k : Nat} {remaining : List FunctionId}, m.Round k remaining →
    let order := m.callGraph.settleWithin n remaining
    (∀ id ∈ order.settled, IsGreatest (m.chainLengths id) (m.depth id) ∧ k < m.depth id) ∧
      order.settled.Pairwise m.IsAbove := by
  induction n with
  | zero => exact fun _ => ⟨by simp [CallGraph.settleWithin], .nil⟩
  | succ n ih =>
    intro k remaining h
    unfold CallGraph.settleWithin
    by_cases hnone : (remaining.filter (m.callGraph.isFree remaining)).isEmpty
    · simp only [hnone, if_true]
      exact ⟨by simp, .nil⟩
    simp only [hnone]
    obtain ⟨hlater, hsorted⟩ := ih h.next
    have hfree : ∀ id ∈ remaining.filter (m.callGraph.isFree remaining),
        IsGreatest (m.chainLengths id) (m.depth id) ∧ m.depth id = k + 1 := by
      intro id hid
      obtain ⟨hmem, hfree⟩ := List.mem_filter.mp hid
      have hgreatest := h.isGreatest_of_isFree hmem hfree
      have hdepth : m.depth id = k + 1 := hgreatest.csSup_eq
      exact ⟨hdepth ▸ hgreatest, hdepth⟩
    refine ⟨fun id hid => ?_, List.pairwise_append.mpr ⟨?_, hsorted, fun id hid other hother => ?_⟩⟩
    · rcases List.mem_append.mp hid with hid | hid
      · exact ⟨(hfree id hid).1, by have := (hfree id hid).2; omega⟩
      · exact ⟨(hlater id hid).1, by have := (hlater id hid).2; omega⟩
    -- Within a round, the functions have one depth and keep the order they had.
    · refine List.pairwise_iff_forall_sublist.mpr fun {id other} hpair => .inr ⟨?_, ?_⟩
      · have hid := (hfree id (hpair.mem (by simp))).2
        have hother := (hfree other (hpair.mem (by simp))).2
        rw [hid, hother]
      · exact hpair.trans (List.filter_sublist.trans h.sublist)
    · refine .inl ?_
      have hid := (hfree id hid).2
      have hother := (hlater other hother).2
      omega

end Round

/-! ## The level order -/

theorem mem_settled_or_caught (h : m.Reached id) :
    id ∈ m.callGraph.callersFirst.settled ∨ id ∈ m.callGraph.callersFirst.caught :=
  List.mem_append.mp (mem_callersFirst_iff.mpr h)

theorem reached_of_mem_caught (h : id ∈ m.callGraph.callersFirst.caught) : m.Reached id :=
  mem_callersFirst_iff.mp (List.mem_append_right _ h)

theorem isGreatest_depth_of_mem_settled (h : id ∈ m.callGraph.callersFirst.settled) :
    IsGreatest (m.chainLengths id) (m.depth id) :=
  ((m.round_zero.settled _).1 id h).1

/-- A function that no round takes away has a cycle before it: its callers among the others go back
without end, and they are finitely many. -/
theorem behindCycle_of_mem_caught (h : id ∈ m.callGraph.callersFirst.caught) :
    m.BehindCycle id := by
  by_contra hnot
  let Stuck := { id // id ∈ m.callGraph.callersFirst.caught ∧ ¬ m.BehindCycle id }
  let leads : Stuck → Stuck → Prop := fun a b => Relation.TransGen m.Calls a.1 b.1
  have : Finite Stuck :=
    (List.finite_toSet m.callGraph.callersFirst.caught).subset fun _ h => h.1
  have : IsTrans Stuck leads := ⟨fun _ _ _ => Relation.TransGen.trans⟩
  have : Std.Irrefl leads :=
    ⟨fun a hcycle => a.2.2 ⟨a.1, reached_of_mem_caught a.2.1, hcycle, .refl⟩⟩
  obtain ⟨⟨first, hfirst, hfree⟩, -, hmin⟩ :=
    (Finite.wellFounded_of_trans_of_irrefl leads).has_min Set.univ ⟨⟨id, h, hnot⟩, trivial⟩
  obtain ⟨caller, hcaller, hcallee⟩ :=
    CallGraph.exists_caller_of_mem_caught _ _ (Nat.le_refl _) first hfirst
  have hcalls : m.Calls caller first := (mem_callees.mp hcallee).1
  exact hmin ⟨caller, hcaller, fun hbehind => hfree (hbehind.of_reflTransGen (.single hcalls))⟩
    trivial (.single hcalls)

theorem mem_caught_iff :
    id ∈ m.callGraph.callersFirst.caught ↔ m.Reached id ∧ m.BehindCycle id := by
  refine ⟨fun h => ⟨reached_of_mem_caught h, behindCycle_of_mem_caught h⟩, fun h => ?_⟩
  refine (mem_settled_or_caught h.1).resolve_left fun hsettled => ?_
  exact h.2.not_isGreatest _ (isGreatest_depth_of_mem_settled hsettled)

/-- No function that is settled calls itself, and none is called by one behind it. -/
theorem not_calls_settled (m : Module) :
    (∀ id ∈ m.callGraph.callersFirst.settled, ¬ m.Calls id id) ∧
      m.callGraph.callersFirst.settled.Pairwise (fun id behind => ¬ m.Calls behind id) := by
  have hdeeper : ∀ id ∈ m.callGraph.callersFirst.settled,
      ∀ callee ∈ m.callGraph.callersFirst.settled, m.Calls id callee →
        m.depth id < m.depth callee := fun id hid callee hcallee hcalls =>
    depth_lt_of_transGen (isGreatest_depth_of_mem_settled hid)
      (isGreatest_depth_of_mem_settled hcallee) (.single hcalls)
  refine ⟨fun id hid hcalls => Nat.lt_irrefl _ (hdeeper id hid id hid hcalls), ?_⟩
  refine (m.round_zero.settled _).2.imp_of_mem fun {id behind} hid hbehind habove hcalls => ?_
  have hlt := hdeeper behind hbehind id hid hcalls
  rcases habove with habove | ⟨heq, -⟩ <;> omega

/-- **The calls form no cycle if and only if the order catches no function in one.** -/
theorem callsAcyclic_iff : m.CallsAcyclic ↔ m.callGraph.callersFirst.caught = [] := by
  rw [List.eq_nil_iff_forall_not_mem]
  constructor
  · intro hacyclic id hid
    obtain ⟨on, hreached, hcycle, -⟩ := behindCycle_of_mem_caught hid
    exact hacyclic on hreached hcycle
  · intro hnone id hid hcycle
    exact hnone id (mem_caught_iff.mpr ⟨hid, id, hid, hcycle, .refl⟩)

/-- **Without cycles, no function of the order is called by itself or by one behind it.** -/
theorem CallsAcyclic.not_calls (h : m.CallsAcyclic) :
    (∀ id ∈ m.callGraph.callersFirst.toList, ¬ m.Calls id id) ∧
      m.callGraph.callersFirst.toList.Pairwise (fun id behind => ¬ m.Calls behind id) := by
  rw [CallGraph.CallOrder.toList, callsAcyclic_iff.mp h, List.append_nil]
  exact m.not_calls_settled

/-- The kernel calls `1` and `2`, and `2` calls `1`. Both lead to `3`, which calls itself and `4`. -/
example : CallGraph.callersFirst ⟨#[[1, 2], [3], [1, 3], [3, 4], []], [0]⟩ = ⟨[0, 2, 1], [3, 4]⟩ := by
  decide

end Module

end ResourceBinding
