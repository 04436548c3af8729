import ResourceBinding.Proofs.Calls.Order
import ResourceBinding.Proofs.Program.Links
import Mathlib.Data.Finset.Card
import Mathlib.Logic.Relation

/-!
# Which functions the orders hold

The breadth-first order holds each function with a body that a chain of calls leads to from a
kernel, once (`Module.nodup_breadthFirst_and_mem_iff`). So does the order with callers first
(`Module.mem_callersFirst_iff`).
-/

namespace ResourceBinding

namespace CallGraph

variable {g : CallGraph}

/-! ## Layers -/

theorem nodup_fresh : ∀ (seen candidates : List FunctionId), (fresh seen candidates).Nodup
  | _, [] => .nil
  | seen, first :: candidates => by
    rw [fresh]
    split
    · exact nodup_fresh seen candidates
    · refine List.nodup_cons.mpr ⟨fun hmem => ?_, nodup_fresh (first :: seen) candidates⟩
      exact (mem_fresh.mp hmem).2 List.mem_cons_self

/-- Functions that are as many as there are in all leave none out. -/
theorem mem_of_length_le {size : Nat} {ids : List Nat} (hnodup : ids.Nodup)
    (hlt : ∀ id ∈ ids, id < size) (hlength : size ≤ ids.length) {id : Nat} (hid : id < size) :
    id ∈ ids := by
  have hsubset : ids.toFinset ⊆ Finset.range size := fun a ha =>
    Finset.mem_range.mpr (hlt a (List.mem_toFinset.mp ha))
  have hcard : (Finset.range size).card ≤ ids.toFinset.card := by
    rw [Finset.card_range, List.toFinset_card_of_nodup hnodup]
    exact hlength
  have heq := Finset.eq_of_subset_of_card_le hsubset hcard
  rw [← List.mem_toFinset, heq]
  exact Finset.mem_range.mpr hid

/-- The functions of the next layer have not been seen, and there are rounds enough for those that
have not: each takes at least one of them. -/
structure Frontier (g : CallGraph) (n : Nat) (seen layer : List FunctionId) : Prop where
  nodup_seen : seen.Nodup
  nodup_layer : layer.Nodup
  new : ∀ id ∈ layer, id ∉ seen
  lt_size : ∀ id ∈ seen ++ layer, id < g.edges.size
  enough : g.edges.size ≤ n + seen.length

namespace Frontier

variable {n : Nat} {seen layer : List FunctionId}

/-- When the rounds are used up, all functions have been seen. -/
theorem eq_nil (h : g.Frontier 0 seen layer) : layer = [] := by
  refine List.eq_nil_iff_forall_not_mem.mpr fun id hid => h.new id hid ?_
  have hseen : ∀ id ∈ seen, id < g.edges.size := fun id hid =>
    h.lt_size id (List.mem_append_left _ hid)
  exact mem_of_length_le h.nodup_seen hseen (Nat.zero_add seen.length ▸ h.enough)
    (h.lt_size id (List.mem_append_right _ hid))

theorem next (h : g.Frontier (n + 1) seen layer) (hne : layer ≠ [])
    (hcallees : ∀ caller, ∀ id ∈ g.callees caller, id < g.edges.size) :
    g.Frontier n (layer ++ seen) (fresh (layer ++ seen) (layer.flatMap g.callees)) where
  nodup_seen := List.nodup_append.mpr
    ⟨h.nodup_layer, h.nodup_seen, fun a ha b hb heq => h.new a ha (heq ▸ hb)⟩
  nodup_layer := nodup_fresh _ _
  new := fun id hid => (mem_fresh.mp hid).2
  lt_size := by
    intro id hid
    rcases List.mem_append.mp hid with hid | hid
    · exact h.lt_size id (List.mem_append.mpr (List.mem_append.mp hid).symm)
    · obtain ⟨caller, -, hcallee⟩ := List.mem_flatMap.mp (mem_fresh.mp hid).1
      exact hcallees caller id hcallee
  enough := by
    have hpos := List.length_pos_iff.mpr hne
    have henough := h.enough
    rw [List.length_append]
    omega

end Frontier

/-- **Layers hold their first one, and whatever is called from them**, unless it was seen before. -/
theorem layersWithin_closed (hcallees : ∀ caller, ∀ id ∈ g.callees caller, id < g.edges.size)
    (n : Nat) : ∀ seen layer : List FunctionId, g.Frontier n seen layer →
      let all := (g.layersWithin n seen layer).flatten
      all.Nodup ∧ (∀ id ∈ all, id ∉ seen) ∧ (∀ id ∈ layer, id ∈ all) ∧
        ∀ caller ∈ all, ∀ id ∈ g.callees caller, id ∈ all ∨ id ∈ seen := by
  induction n with
  | zero =>
    intro seen layer h
    rw [h.eq_nil]
    exact ⟨.nil, by simp [layersWithin], by simp, by simp [layersWithin]⟩
  | succ n ih =>
    intro seen layer h
    unfold layersWithin
    split
    · rename_i hempty
      rw [List.isEmpty_iff] at hempty
      subst hempty
      exact ⟨.nil, by simp, by simp, by simp⟩
    rename_i hne
    obtain ⟨hall, hdisjoint, hnext, hclosed⟩ := ih _ _ (h.next (by simpa using hne) hcallees)
    rw [List.flatten_cons]
    refine ⟨List.nodup_append.mpr ⟨h.nodup_layer, hall, fun a ha b hb heq => ?_⟩, fun id hid => ?_,
      fun id hid => List.mem_append_left _ hid, fun caller hcaller id hid => ?_⟩
    · exact hdisjoint b hb (heq ▸ List.mem_append_left _ ha)
    · rcases List.mem_append.mp hid with hid | hid
      · exact h.new id hid
      · exact fun hmem => hdisjoint id hid (List.mem_append_right _ hmem)
    -- What is called from this layer is in it, was seen before, or is in the next one.
    · rw [List.mem_append]
      rcases List.mem_append.mp hcaller with hcaller | hcaller
      · by_cases hknown : id ∈ layer ++ seen
        · exact (List.mem_append.mp hknown).imp_left .inl
        · refine .inl (.inr (hnext id (mem_fresh.mpr ⟨?_, hknown⟩)))
          exact List.mem_flatMap.mpr ⟨caller, hcaller, hid⟩
      · rcases hclosed caller hcaller id hid with hmem | hmem
        · exact .inl (.inr hmem)
        · exact (List.mem_append.mp hmem).imp_left .inl

/-! ## Callers first -/

/-- Each function that a cycle has caught is called by another one of them. -/
theorem exists_caller_of_mem_caught (n : Nat) : ∀ remaining : List FunctionId,
    remaining.length ≤ n → ∀ id ∈ (g.settleWithin n remaining).caught,
      ∃ caller ∈ (g.settleWithin n remaining).caught, id ∈ g.callees caller := by
  induction n with
  | zero =>
    intro remaining hlength id hid
    obtain rfl := List.eq_nil_of_length_eq_zero (Nat.le_zero.mp hlength)
    cases hid
  | succ n ih =>
    intro remaining hlength id hid
    unfold settleWithin at hid ⊢
    by_cases hfree : (remaining.filter (g.isFree remaining)).isEmpty
    · simp only [hfree, if_true] at hid ⊢
      have hnot : g.isFree remaining id = false := by
        rw [List.isEmpty_iff, List.filter_eq_nil_iff] at hfree
        simpa using hfree id hid
      obtain ⟨caller, hcaller, hcalls⟩ := List.all_eq_false.mp hnot
      exact ⟨caller, hcaller, by simpa using hcalls⟩
    · simp only [hfree] at hid ⊢
      refine ih _ ?_ id hid
      have hsplit := List.length_eq_length_filter_add (l := remaining) (g.isFree remaining)
      have hpos : 0 < (remaining.filter (g.isFree remaining)).length :=
        List.length_pos_iff.mpr (by simpa using hfree)
      omega

end CallGraph

namespace Module

variable {m : Module} {id : FunctionId}

/-! ## What is reached -/

/-- The function has a body, and a chain of calls leads to it from a kernel. -/
def Reached (m : Module) (id : FunctionId) : Prop :=
  m.isDefined id ∧ ∃ path, m.CallChain path id

/-- No function that is reached calls itself, be it through others. -/
def CallsAcyclic (m : Module) : Prop :=
  ∀ id, m.Reached id → ¬ Relation.TransGen m.Calls id id

theorem mem_roots : id ∈ m.callGraph.roots ↔ ∃ f, m.function? id = some f ∧ f.isKernel := by
  simp [callGraph]

theorem mem_callees {caller : FunctionId} :
    id ∈ m.callGraph.callees caller ↔ m.Calls caller id ∧ m.isDefined id := by
  unfold CallGraph.callees
  rw [callGraph, Array.getD_eq_getD_getElem?, Array.getElem?_map]
  change id ∈ ((m.function? caller).map m.definedCallees).getD [] ↔ _
  cases hf : m.function? caller with
  | none => simp [Calls, hf]
  | some f =>
    have hlt : m.isDefined id = true → id < m.functions.size := fun h => by
      obtain ⟨f, hf, -⟩ := isDefined_iff.mp h
      exact lt_size_of_function? hf
    simp only [Option.map_some, Option.getD_some, definedCallees, List.mem_filter, List.mem_range,
      Bool.and_eq_true, List.any_eq_true, beq_iff_eq, Calls, hf, Option.some.injEq,
      exists_eq_left']
    tauto

theorem isDefined_of_calls {caller : FunctionId} (h : m.Calls caller id) : m.isDefined caller := by
  obtain ⟨f, hf, c, hc, -⟩ := h
  exact isDefined_iff.mpr ⟨f, hf, Function.isSome_body_of_mem_calls hc⟩

/-- A function with a body is reached if it is a kernel, or called by one that is reached. -/
theorem reached_iff : m.Reached id ↔ id ∈ m.callGraph.roots ∨
    ∃ caller, m.Reached caller ∧ id ∈ m.callGraph.callees caller := by
  constructor
  · rintro ⟨hdefined, path, hpath⟩
    cases hpath with
    | kernel hf hkernel => exact .inl (mem_roots.mpr ⟨_, hf, hkernel⟩)
    | @call path caller _ hchain hcalls =>
      exact .inr ⟨caller, ⟨isDefined_of_calls hcalls, _, hchain⟩,
        mem_callees.mpr ⟨hcalls, hdefined⟩⟩
  · rintro (hroot | ⟨caller, ⟨-, path, hpath⟩, hcallee⟩)
    · obtain ⟨f, hf, hkernel⟩ := mem_roots.mp hroot
      exact ⟨isDefined_iff.mpr ⟨f, hf, (Function.isKernel_iff.mp hkernel).2⟩, _, .kernel hf hkernel⟩
    · obtain ⟨hcalls, hdefined⟩ := mem_callees.mp hcallee
      exact ⟨hdefined, _, .call hpath hcalls⟩

theorem lt_size_of_isDefined (h : m.isDefined id) : id < m.callGraph.edges.size := by
  obtain ⟨f, hf, -⟩ := isDefined_iff.mp h
  have hsize : m.callGraph.edges.size = m.functions.size := Array.size_map ..
  exact hsize ▸ lt_size_of_function? hf

theorem lt_size_of_mem_callees (caller : FunctionId) :
    ∀ id ∈ m.callGraph.callees caller, id < m.callGraph.edges.size :=
  fun _ hid => lt_size_of_isDefined (isDefined_of_mem_callees hid)

/-- The kernels are the first layer. -/
theorem frontier_roots (m : Module) :
    m.callGraph.Frontier m.callGraph.edges.size [] m.callGraph.roots where
  nodup_seen := .nil
  nodup_layer := m.nodup_kernels
  new := fun _ _ => List.not_mem_nil
  lt_size := fun _ hid => lt_size_of_isDefined (reached_iff.mpr (.inl hid)).1
  enough := Nat.le_add_right _ _

/-- **The breadth-first order holds each function that is reached, once.** -/
theorem nodup_breadthFirst_and_mem_iff (m : Module) :
    m.callGraph.breadthFirst.Nodup ∧ ∀ id, id ∈ m.callGraph.breadthFirst ↔ m.Reached id := by
  obtain ⟨hnodup, -, hfirst, hclosed⟩ :=
    CallGraph.layersWithin_closed lt_size_of_mem_callees _ _ _ m.frontier_roots
  refine ⟨hnodup, fun id => ⟨fun hid => ?_, ?_⟩⟩
  · refine CallGraph.forall_mem_breadthFirst (P := m.Reached) (fun id hid => ?_)
      (fun caller hcaller id hid => ?_) id hid
    · exact reached_iff.mpr (.inl hid)
    · exact reached_iff.mpr (.inr ⟨caller, hcaller, hid⟩)
  · rintro ⟨hdefined, path, hpath⟩
    induction hpath with
    | kernel hf hkernel => exact hfirst _ (mem_roots.mpr ⟨_, hf, hkernel⟩)
    | @call path caller callee hchain hcalls ih =>
      have hcaller := ih (isDefined_of_calls hcalls)
      have := hclosed caller hcaller callee (mem_callees.mpr ⟨hcalls, hdefined⟩)
      exact this.resolve_right (by simp)

/-! ## The order with callers first -/

theorem nodup_callersFirst (m : Module) : m.callGraph.callersFirst.toList.Nodup :=
  m.callGraph.toList_callersFirst_perm.nodup_iff.mpr m.nodup_breadthFirst_and_mem_iff.1

theorem mem_callersFirst_iff : id ∈ m.callGraph.callersFirst.toList ↔ m.Reached id :=
  m.callGraph.toList_callersFirst_perm.mem_iff.trans (m.nodup_breadthFirst_and_mem_iff.2 id)

theorem mem_callees_of_calls {caller : FunctionId} (hid : m.Reached id) (h : m.Calls caller id) :
    id ∈ m.callGraph.callees caller :=
  mem_callees.mpr ⟨h, hid.1⟩

end Module

end ResourceBinding
