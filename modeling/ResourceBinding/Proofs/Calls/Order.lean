import ResourceBinding.Calls.Order
import ResourceBinding.Proofs.Calls.Chain
import Mathlib.Data.List.Perm.Basic

/-!
# What the orders on functions hold

The breadth-first order holds the kernels and what it finds called, and the order with callers
first holds the same functions. So all functions of either have a body.
-/

namespace ResourceBinding

namespace CallGraph

variable {g : CallGraph}

@[simp]
theorem mem_fresh {id : FunctionId} {candidates : List FunctionId} :
    ∀ {seen : List FunctionId}, id ∈ fresh seen candidates ↔ id ∈ candidates ∧ id ∉ seen := by
  induction candidates with
  | nil => simp [fresh]
  | cons first candidates ih =>
    intro seen
    rw [fresh]
    by_cases hfirst : first ∈ seen
    · rw [if_pos (by simpa using hfirst), ih, List.mem_cons]
      constructor
      · exact fun h => ⟨.inr h.1, h.2⟩
      · rintro ⟨rfl | h, hnot⟩
        · exact absurd hfirst hnot
        · exact ⟨h, hnot⟩
    · rw [if_neg (by simpa using hfirst), List.mem_cons, ih, List.mem_cons, List.mem_cons]
      by_cases heq : id = first
      · subst heq
        simp [hfirst]
      · simp [heq]

/-- A property of the first layer, and of whatever is called by what has it, is one of all layers. -/
theorem forall_mem_layersWithin {P : FunctionId → Prop}
    (hcallees : ∀ caller, P caller → ∀ id ∈ g.callees caller, P id) (n : Nat) :
    ∀ seen layer : List FunctionId, (∀ id ∈ layer, P id) →
      ∀ id ∈ (g.layersWithin n seen layer).flatten, P id := by
  induction n with
  | zero => simp [layersWithin]
  | succ n ih =>
    intro seen layer hlayer id hid
    unfold layersWithin at hid
    split at hid
    · cases hid
    · rw [List.flatten_cons, List.mem_append] at hid
      rcases hid with hid | hid
      · exact hlayer id hid
      · refine ih _ _ (fun id hid => ?_) id hid
        obtain ⟨caller, hcaller, hcallee⟩ := List.mem_flatMap.mp (mem_fresh.mp hid).1
        exact hcallees caller (hlayer caller hcaller) id hcallee

theorem forall_mem_breadthFirst {P : FunctionId → Prop} (hroots : ∀ id ∈ g.roots, P id)
    (hcallees : ∀ caller, P caller → ∀ id ∈ g.callees caller, P id) : ∀ id ∈ g.breadthFirst, P id :=
  g.forall_mem_layersWithin hcallees _ [] g.roots hroots

/-- Settling functions keeps each of them. -/
theorem toList_settleWithin_perm (n : Nat) :
    ∀ remaining, (g.settleWithin n remaining).toList.Perm remaining := by
  induction n with
  | zero => exact fun remaining => .refl remaining
  | succ n ih =>
    intro remaining
    unfold settleWithin
    by_cases hfree : (remaining.filter (g.isFree remaining)).isEmpty
    · simp only [hfree, if_true]
      exact .refl remaining
    · simp only [hfree]
      refine .trans ?_ (List.filter_append_perm (g.isFree remaining) remaining)
      rw [CallOrder.toList, if_neg Bool.false_ne_true, List.append_assoc]
      exact (ih _).append_left _

/-- **The order with callers first holds the functions of the breadth-first order.** -/
theorem toList_callersFirst_perm (g : CallGraph) : g.callersFirst.toList.Perm g.breadthFirst :=
  g.toList_settleWithin_perm _ _

end CallGraph

namespace Module

variable {m : Module}

theorem isDefined_iff {id : FunctionId} :
    m.isDefined id ↔ ∃ f, m.function? id = some f ∧ f.body.isSome := by
  unfold isDefined Function.isDeclaration
  cases m.function? id with
  | none => simp
  | some f => cases hbody : f.body <;> simp [hbody]

theorem isDefined_of_mem_callees {caller id : FunctionId} (h : id ∈ m.callGraph.callees caller) :
    m.isDefined id := by
  unfold CallGraph.callees at h
  rw [callGraph, Array.getD_eq_getD_getElem?, Array.getElem?_map] at h
  cases hf : m.functions[caller]? with
  | none =>
    rw [hf] at h
    cases h
  | some f =>
    rw [hf, Option.map_some, Option.getD_some, definedCallees, List.mem_filter] at h
    exact (Bool.and_eq_true_iff.mp h.2).1

/-- The functions that calls lead to from the kernels have a body. -/
theorem isDefined_of_mem_callersFirst {id : FunctionId}
    (h : id ∈ m.callGraph.callersFirst.toList) : m.isDefined id := by
  refine CallGraph.forall_mem_breadthFirst (P := (m.isDefined ·)) (fun id hid => ?_)
    (fun _ _ _ => isDefined_of_mem_callees) id (m.callGraph.toList_callersFirst_perm.mem_iff.mp h)
  obtain ⟨⟨id, f⟩, hf, rfl⟩ := List.mem_map.mp hid
  obtain ⟨hf, hkernel⟩ := mem_kernels.mp hf
  exact isDefined_iff.mpr ⟨f, hf, (Function.isKernel_iff.mp hkernel).2⟩

end Module

end ResourceBinding
