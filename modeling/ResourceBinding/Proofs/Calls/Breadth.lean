import ResourceBinding.Proofs.Calls.Levels

/-!
# Discovery

The breadth-first order is the one of a queue. The kernels are put into it, and each function that
is taken from it puts in what it calls. A function may be in the queue more than once, and is passed
over when it has been taken before (`CallGraph.drain`).

Such an order is given by an equation: it is the kernels, followed by what its functions call, all
without repetitions (`CallGraph.drain_eq`). So functions other than the kernels stand by the first
one of the order that calls them (`Module.pairwise_callerPosition`), and no function stands before
one that is nearer to the kernels (`Module.pairwise_distance`).

* `Module.breadthFirst_byDistance`: what the order holds, and how it is sorted.
-/

namespace ResourceBinding

namespace CallGraph

variable {g : CallGraph} {seen seen' : List FunctionId}

/-! ## Leaving out repetitions -/

/-- Which functions have been seen counts, and not in which order. -/
theorem fresh_congr : ∀ (ids : List FunctionId) {seen seen' : List FunctionId},
    (∀ id, id ∈ seen ↔ id ∈ seen') → fresh seen ids = fresh seen' ids
  | [], _, _, _ => rfl
  | first :: ids, seen, seen', h => by
    have hseen : seen.contains first = seen'.contains first := by
      rw [Bool.eq_iff_iff, List.contains_iff_mem, List.contains_iff_mem, h]
    have hcons : ∀ id, id ∈ first :: seen ↔ id ∈ first :: seen' := fun id => by
      rw [List.mem_cons, List.mem_cons, h]
    rw [fresh, fresh, hseen, fresh_congr ids h, fresh_congr ids hcons]

theorem fresh_append : ∀ (ids others : List FunctionId) {seen : List FunctionId},
    fresh seen (ids ++ others) = fresh seen ids ++ fresh (ids ++ seen) others
  | [], _, _ => rfl
  | first :: ids, others, seen => by
    rw [List.cons_append, fresh, fresh, fresh_append ids others, fresh_append ids others]
    split
    · rename_i hfirst
      rw [List.contains_iff_mem] at hfirst
      refine congrArg _ (fresh_congr others fun id => ?_)
      rw [List.cons_append, List.mem_cons]
      refine (or_iff_right_of_imp ?_).symm
      rintro rfl
      exact List.mem_append_right ids hfirst
    · rw [List.cons_append]
      refine congrArg _ (congrArg _ (fresh_congr others fun id => ?_))
      exact List.perm_middle.mem_iff

theorem fresh_eq_self : ∀ {ids seen : List FunctionId}, ids.Nodup → (∀ id ∈ ids, id ∉ seen) →
    fresh seen ids = ids
  | [], _, _, _ => rfl
  | first :: ids, seen, hnodup, hnew => by
    obtain ⟨hfirst, hnodup⟩ := List.nodup_cons.mp hnodup
    have hseen : ¬ seen.contains first = true := by
      simpa using hnew first List.mem_cons_self
    rw [fresh, if_neg hseen, fresh_eq_self hnodup fun id hid => ?_]
    rw [List.mem_cons, not_or]
    exact ⟨fun heq => hfirst (heq ▸ hid), hnew id (List.mem_cons_of_mem _ hid)⟩

theorem fresh_fresh (seen ids : List FunctionId) : fresh seen (fresh seen ids) = fresh seen ids :=
  fresh_eq_self (nodup_fresh seen ids) fun _ hid => (mem_fresh.mp hid).2

theorem fresh_sublist : ∀ (seen ids : List FunctionId), (fresh seen ids).Sublist ids
  | _, [] => .slnil
  | seen, first :: ids => by
    rw [fresh]
    split
    · exact (fresh_sublist seen ids).cons first
    · exact (fresh_sublist (first :: seen) ids).cons_cons first

/-- **What is listed for each of `sources` in turn stands by the first one that lists it**, and then
in the order of declaration. -/
theorem pairwise_fresh_flatMap {targets : FunctionId → List FunctionId}
    (hsorted : ∀ source, (targets source).Pairwise (· < ·)) (sources : List FunctionId) :
    ∀ seen, (fresh seen (sources.flatMap targets)).Pairwise fun id other =>
      Prod.Lex (· < ·) (· < ·) (sources.findIdx (id ∈ targets ·), id)
        (sources.findIdx (other ∈ targets ·), other) := by
  induction sources with
  | nil => exact fun _ => .nil
  | cons source sources ih =>
    intro seen
    have hfirst : ∀ id ∈ fresh seen (targets source),
        (source :: sources).findIdx (id ∈ targets ·) = 0 := fun id hid => by
      rw [List.findIdx_cons, decide_eq_true (mem_fresh.mp hid).1, cond_true]
    have hothers : ∀ id ∈ fresh (targets source ++ seen) (sources.flatMap targets),
        (source :: sources).findIdx (id ∈ targets ·) = sources.findIdx (id ∈ targets ·) + 1 := by
      intro id hid
      have hnot := fun hmem => (mem_fresh.mp hid).2 (List.mem_append_left seen hmem)
      rw [List.findIdx_cons, decide_eq_false hnot, cond_false]
    rw [List.flatMap_cons, fresh_append, List.pairwise_append]
    refine ⟨?_, ?_, fun id hid other hother => ?_⟩
    · refine ((hsorted source).sublist (fresh_sublist seen _)).imp_of_mem ?_
      intro id other hid hother hlt
      rw [hfirst id hid, hfirst other hother]
      exact .right _ hlt
    · refine (ih (targets source ++ seen)).imp_of_mem ?_
      intro id other hid hother hlex
      rw [hothers id hid, hothers other hother]
      rcases Prod.lex_def.mp hlex with hlt | ⟨heq, hlt⟩
      · exact .left _ _ (Nat.succ_lt_succ hlt)
      · exact Prod.lex_def.mpr (.inr ⟨congrArg Nat.succ heq, hlt⟩)
    · rw [hfirst id hid, hothers other hother]
      exact .left _ _ (Nat.succ_pos _)

/-! ## The queue -/

/-- The functions of the graph that have not been seen. -/
def unseen (g : CallGraph) (seen : List FunctionId) : List FunctionId :=
  (List.range g.edges.size).filter (· ∉ seen)

theorem unseen_cons (first : FunctionId) :
    g.unseen (first :: seen) = (g.unseen seen).filter (· ≠ first) := by
  simp [unseen, List.filter_filter]

theorem length_unseen_cons_lt {first : FunctionId} (hfirst : first ∉ seen)
    (hlt : first < g.edges.size) :
    (g.unseen (first :: seen)).length < (g.unseen seen).length := by
  rw [unseen_cons, List.length_filter_lt_length_iff_exists]
  exact ⟨first, by simpa [unseen] using ⟨hlt, hfirst⟩, by simp⟩

theorem callees_eq_nil {id : FunctionId} (h : g.edges.size ≤ id) : g.callees id = [] := by
  rw [callees, Array.getD_eq_getD_getElem?, Array.getElem?_eq_none h, Option.getD_none]

/-- Takes the functions from a queue. One that has been seen is passed over, and another one puts
what it calls at the end of the queue. -/
def drain (g : CallGraph) (seen : List FunctionId) : List FunctionId → List FunctionId
  | [] => []
  | first :: queue =>
    if first ∈ seen then drain g seen queue
    else first :: drain g (first :: seen) (queue ++ g.callees first)
termination_by queue => ((g.unseen seen).length, queue.length)
decreasing_by
  · exact Prod.Lex.right _ (Nat.lt_succ_self _)
  -- A function that is none of the graph puts nothing into the queue.
  · rename_i hfirst
    by_cases hlt : first < g.edges.size
    · exact Prod.Lex.left _ _ (length_unseen_cons_lt hfirst hlt)
    · rw [callees_eq_nil (Nat.le_of_not_lt hlt), List.append_nil, unseen_cons,
        List.filter_eq_self.mpr]
      · exact Prod.Lex.right _ (Nat.lt_succ_self _)
      · intro id hid
        have hid := List.mem_range.mp (List.mem_filter.mp hid).1
        exact decide_eq_true fun heq => hlt (heq ▸ hid)

/-- **The order of a queue is given by an equation.** It is what is in the queue, and then what the
functions of the order call, without repetitions. -/
theorem drain_eq (g : CallGraph) (seen queue : List FunctionId) :
    g.drain seen queue = fresh seen (queue ++ (g.drain seen queue).flatMap g.callees) := by
  fun_induction drain g seen queue with
  | case1 => rfl
  | case2 seen first queue hfirst ih =>
    rw [List.cons_append, fresh, if_pos (by simpa using hfirst)]
    exact ih
  | case3 seen first queue hfirst ih =>
    rw [List.cons_append, fresh, if_neg (by simpa using hfirst), List.flatMap_cons,
      ← List.append_assoc]
    exact congrArg _ ih

theorem drain_congr (queue : List FunctionId) (h : ∀ id, id ∈ seen ↔ id ∈ seen') :
    g.drain seen queue = g.drain seen' queue := by
  fun_induction drain g seen queue generalizing seen' with
  | case1 => rw [drain]
  | case2 seen first queue hfirst ih => rw [drain, if_pos ((h first).mp hfirst), ih h]
  | case3 seen first queue hfirst ih =>
    rw [drain, if_neg (mt (h first).mpr hfirst), ih fun id => ?_]
    rw [List.mem_cons, List.mem_cons, h]

/-- The functions at the front of the queue are taken, and what they call comes to its end. -/
theorem drain_append (layer : List FunctionId) : ∀ (seen behind : List FunctionId),
    g.drain seen (layer ++ behind) = fresh seen layer ++
      g.drain (layer ++ seen) (behind ++ (fresh seen layer).flatMap g.callees) := by
  induction layer with
  | nil => simp [fresh]
  | cons first layer ih =>
    intro seen behind
    rw [List.cons_append, drain, fresh]
    by_cases hfirst : first ∈ seen
    · rw [if_pos hfirst, if_pos (by simpa using hfirst), ih]
      refine congrArg _ (drain_congr _ fun id => ?_)
      rw [List.cons_append, List.mem_cons]
      refine (or_iff_right_of_imp ?_).symm
      rintro rfl
      exact List.mem_append_right layer hfirst
    · rw [if_neg hfirst, if_neg (by simpa using hfirst), List.append_assoc, ih,
        List.flatMap_cons, List.cons_append, List.append_assoc]
      refine congrArg _ (congrArg _ (drain_congr _ fun id => ?_))
      exact List.perm_middle.mem_iff

/-- Repetitions in the queue make no difference. -/
theorem drain_fresh (seen queue : List FunctionId) :
    g.drain seen (fresh seen queue) = g.drain seen queue := by
  have htwice := g.drain_append (fresh seen queue) seen []
  have honce := g.drain_append queue seen []
  rw [List.append_nil, fresh_fresh] at htwice
  rw [List.append_nil] at honce
  rw [htwice, honce]
  refine congrArg _ (drain_congr _ fun id => ?_)
  rw [List.mem_append, List.mem_append, mem_fresh]
  tauto

/-- **Layers hold what a queue gives**, as long as there are rounds enough for all functions. -/
theorem flatten_layersWithin (hcallees : ∀ caller, ∀ id ∈ g.callees caller, id < g.edges.size)
    (n : Nat) : ∀ seen layer : List FunctionId, g.Frontier n seen layer →
      (g.layersWithin n seen layer).flatten = g.drain seen layer := by
  induction n with
  | zero =>
    intro seen layer h
    rw [h.eq_nil, drain]
    rfl
  | succ n ih =>
    intro seen layer h
    unfold layersWithin
    split
    · rename_i hempty
      rw [List.isEmpty_iff.mp hempty, drain]
      rfl
    rename_i hne
    have hdrain := g.drain_append layer seen []
    rw [List.append_nil, List.nil_append, fresh_eq_self h.nodup_layer h.new] at hdrain
    rw [List.flatten_cons, hdrain, ih _ _ (h.next (by simpa using hne) hcallees), drain_fresh]

end CallGraph

namespace Module

variable {m : Module} {id other : FunctionId}

/-! ## The order of a module -/

/-- **The breadth-first order is the order of a queue.** -/
theorem breadthFirst_eq_drain (m : Module) :
    m.callGraph.breadthFirst = m.callGraph.drain [] m.callGraph.roots :=
  CallGraph.flatten_layersWithin lt_size_of_mem_callees _ _ _ m.frontier_roots

/-- What functions of the order call, apart from the kernels. -/
def discovered (m : Module) : List FunctionId :=
  CallGraph.fresh m.callGraph.roots (m.callGraph.breadthFirst.flatMap m.callGraph.callees)

/-- **The kernels come first**, and then what functions of the order call. -/
theorem breadthFirst_eq (m : Module) :
    m.callGraph.breadthFirst = m.callGraph.roots ++ m.discovered := by
  have heq := m.callGraph.drain_eq [] m.callGraph.roots
  have hroots : CallGraph.fresh [] m.callGraph.roots = m.callGraph.roots :=
    CallGraph.fresh_eq_self m.nodup_kernels (by simp)
  rwa [← breadthFirst_eq_drain, CallGraph.fresh_append, List.append_nil, hroots] at heq

theorem not_mem_roots_of_mem_discovered (h : id ∈ m.discovered) : id ∉ m.callGraph.roots :=
  (CallGraph.mem_fresh.mp h).2

theorem reached_of_mem_discovered (h : id ∈ m.discovered) : m.Reached id := by
  refine (m.nodup_breadthFirst_and_mem_iff.2 id).mp ?_
  rw [breadthFirst_eq]
  exact List.mem_append_right _ h

theorem sorted_roots (m : Module) : m.callGraph.roots.Pairwise (· < ·) := by
  have hindexed : m.indexed.map Prod.fst = m.functions.toList.zipIdx.map Prod.snd := by
    simp [indexed, Function.comp_def]
  have hsorted : (m.indexed.map Prod.fst).Pairwise (· < ·) := by
    rw [hindexed, List.zipIdx_map_snd]
    exact List.pairwise_lt_range'
  exact hsorted.sublist (List.filter_sublist.map Prod.fst)

theorem sorted_callees (m : Module) (caller : FunctionId) :
    (m.callGraph.callees caller).Pairwise (· < ·) := by
  unfold CallGraph.callees
  rw [callGraph, Array.getD_eq_getD_getElem?, Array.getElem?_map]
  cases m.functions[caller]? with
  | none => exact .nil
  | some f => exact List.pairwise_lt_range.filter _

/-! ## First callers -/

/-- The position in the breadth-first order of the first function that calls `id`. -/
def callerPosition (m : Module) (id : FunctionId) : Nat :=
  m.callGraph.breadthFirst.findIdx (id ∈ m.callGraph.callees ·)

/-- **Functions other than the kernels stand by their first callers**, and then in the order of
declaration. -/
theorem pairwise_callerPosition (m : Module) :
    m.discovered.Pairwise fun id other =>
      Prod.Lex (· < ·) (· < ·) (m.callerPosition id, id) (m.callerPosition other, other) :=
  CallGraph.pairwise_fresh_flatMap m.sorted_callees _ _

/-- What a function of the order calls has a first caller there, which is no later. -/
theorem callerPosition_le {i : Nat} (hi : i < m.callGraph.breadthFirst.length)
    (hid : id ∈ m.callGraph.callees m.callGraph.breadthFirst[i]) :
    m.callerPosition id ≤ i ∧ ∃ h : m.callerPosition id < m.callGraph.breadthFirst.length,
      id ∈ m.callGraph.callees m.callGraph.breadthFirst[m.callerPosition id] := by
  have hle : m.callerPosition id ≤ i := by
    refine Nat.le_of_not_lt fun hlt => ?_
    exact of_decide_eq_false (List.not_of_lt_findIdx hlt) hid
  have hlt := Nat.lt_of_le_of_lt hle hi
  exact ⟨hle, hlt, of_decide_eq_true (List.findIdx_getElem (w := hlt))⟩

/-! ## Distances -/

/-- How many functions there are on the shortest chain of calls that leads to a function. -/
noncomputable def distance (m : Module) (id : FunctionId) : Nat :=
  sInf (m.chainLengths id)

theorem distance_le {path : List FunctionId} (h : m.CallChain path id) :
    m.distance id ≤ path.length :=
  Nat.sInf_le ⟨path, h, rfl⟩

theorem Reached.exists_shortest (h : m.Reached id) :
    ∃ path, m.CallChain path id ∧ path.length = m.distance id := by
  obtain ⟨path, hpath⟩ := h.2
  exact Nat.sInf_mem (s := m.chainLengths id) ⟨path.length, path, hpath, rfl⟩

theorem Reached.distance_pos (h : m.Reached id) : 0 < m.distance id := by
  obtain ⟨path, hpath, hlength⟩ := h.exists_shortest
  exact hlength ▸ hpath.length_pos

theorem distance_le_of_calls {caller : FunctionId} (h : m.Reached caller)
    (hcalls : m.Calls caller id) : m.distance id ≤ m.distance caller + 1 := by
  obtain ⟨path, hpath, hlength⟩ := h.exists_shortest
  have hle := distance_le (.call hpath hcalls)
  rwa [List.length_append, hlength] at hle

theorem distance_of_mem_roots (h : id ∈ m.callGraph.roots) : m.distance id ≤ 1 := by
  obtain ⟨f, hf, hkernel⟩ := mem_roots.mp h
  exact distance_le (.kernel hf hkernel)

/-- A function that is no kernel has a caller that is nearer to the kernels. -/
theorem Reached.exists_caller (h : m.Reached id) (hroot : id ∉ m.callGraph.roots) :
    ∃ caller, m.Reached caller ∧ id ∈ m.callGraph.callees caller ∧
      m.distance caller < m.distance id := by
  obtain ⟨path, hpath, hlength⟩ := h.exists_shortest
  cases hpath with
  | kernel hf hkernel => exact absurd (mem_roots.mpr ⟨_, hf, hkernel⟩) hroot
  | @call path caller _ hchain hcalls =>
    refine ⟨caller, ⟨isDefined_of_calls hcalls, _, hchain⟩, mem_callees_of_calls h hcalls, ?_⟩
    have hle := distance_le hchain
    rw [← hlength, List.length_append]
    exact Nat.lt_succ_of_le hle

theorem reached_of_mem_breadthFirst (h : id ∈ m.callGraph.breadthFirst) : m.Reached id :=
  (m.nodup_breadthFirst_and_mem_iff.2 id).mp h

/-- A function that is no kernel is called from a position where what stands there is nearer to the
kernels. -/
theorem exists_position (h : id ∈ m.discovered) :
    ∃ (i : Nat) (hi : i < m.callGraph.breadthFirst.length),
      id ∈ m.callGraph.callees m.callGraph.breadthFirst[i] ∧
        m.distance m.callGraph.breadthFirst[i] < m.distance id := by
  obtain ⟨caller, hcaller, hcallee, hlt⟩ :=
    (reached_of_mem_discovered h).exists_caller (not_mem_roots_of_mem_discovered h)
  obtain ⟨i, hi, rfl⟩ :=
    List.getElem_of_mem ((m.nodup_breadthFirst_and_mem_iff.2 caller).mpr hcaller)
  exact ⟨i, hi, hcallee, hlt⟩

/-- The functions up to a distance are a first part of the order. The induction is on the distance:
those that are one farther have their first callers in the part before. -/
theorem pairwise_distance_le (m : Module) (k : Nat) :
    m.callGraph.breadthFirst.Pairwise fun id other =>
      m.distance other ≤ k → m.distance id ≤ k := by
  induction k with
  | zero =>
    refine List.pairwise_of_forall_mem_list fun id _ other hother hle => ?_
    have hpos := (reached_of_mem_breadthFirst hother).distance_pos
    omega
  | succ k ih =>
    have hroot : ∀ id ∈ m.callGraph.roots, m.distance id ≤ k + 1 := fun id hid =>
      Nat.le_trans (distance_of_mem_roots hid) (Nat.le_add_left 1 k)
    rw [breadthFirst_eq, List.pairwise_append]
    refine ⟨List.pairwise_of_forall_mem_list fun id hid _ _ _ => hroot id hid, ?_,
      fun id hid _ _ _ => hroot id hid⟩
    refine m.pairwise_callerPosition.imp_of_mem fun {id other} hid hother hlex hle => ?_
    obtain ⟨i, hi, hcallee, hnear⟩ := exists_position hother
    obtain ⟨j, hj, hcallee', -⟩ := exists_position hid
    obtain ⟨-, hposition, hfirst⟩ := callerPosition_le hj hcallee'
    have hle' : m.callerPosition id ≤ i := by
      refine Nat.le_trans ?_ (callerPosition_le hi hcallee).1
      rcases Prod.lex_def.mp hlex with hlt | ⟨heq, -⟩
      · exact Nat.le_of_lt hlt
      · exact Nat.le_of_eq heq
    -- The first caller of `id` stands at the near caller of `other`, or before it.
    have hcaller : m.distance m.callGraph.breadthFirst[m.callerPosition id] ≤ k := by
      rcases Nat.eq_or_lt_of_le hle' with heq | hlt
      · simp only [heq]
        omega
      · exact List.pairwise_iff_getElem.mp ih _ _ hposition hi hlt (by omega)
    have hsucc := distance_le_of_calls
      (reached_of_mem_breadthFirst (List.getElem_mem hposition)) (mem_callees.mp hfirst).1
    omega

/-- **No function stands before one that is nearer to the kernels.** -/
theorem pairwise_distance (m : Module) :
    m.callGraph.breadthFirst.Pairwise fun id other => m.distance id ≤ m.distance other :=
  List.pairwise_iff_getElem.mpr fun i j hi hj hlt =>
    List.pairwise_iff_getElem.mp (m.pairwise_distance_le _) i j hi hj hlt (Nat.le_refl _)

/-- The first caller of a function stands before it. -/
theorem callerPosition_lt_idxOf (h : id ∈ m.discovered) :
    m.callerPosition id < m.callGraph.breadthFirst.idxOf id := by
  obtain ⟨i, hi, hcallee, hnear⟩ := exists_position h
  refine Nat.lt_of_le_of_lt (callerPosition_le hi hcallee).1 (Nat.lt_of_not_le fun hle => ?_)
  have hmem := (m.nodup_breadthFirst_and_mem_iff.2 id).mpr (reached_of_mem_discovered h)
  have hid := List.getElem_idxOf (List.idxOf_lt_length_iff.mpr hmem)
  rcases Nat.eq_or_lt_of_le hle with heq | hlt
  · simp only [← heq, hid] at hnear
    omega
  · have hfar := List.pairwise_iff_getElem.mp m.pairwise_distance _ i
      (List.idxOf_lt_length_iff.mpr hmem) hi hlt
    rw [hid] at hfar
    omega

/-! ## What the order is -/

/-- The function is nearer to the kernels than the other one. If both are as near, its first caller
stands before that of the other, or this is the same and the function is declared first. -/
def Precedes (m : Module) (id other : FunctionId) : Prop :=
  m.distance id < m.distance other ∨ m.distance id = m.distance other ∧
    Prod.Lex (· < ·) (· < ·) (m.callerPosition id, id) (m.callerPosition other, other)

/-- **Discovery is breadth first.** The order, which is that of a queue, holds the functions with a
body that chains of calls lead to from the kernels, each once. The kernels come first, as they are
declared. The others are sorted by their distances, then by their first callers, all of which stand
before them, and then as they are declared. -/
theorem breadthFirst_byDistance (m : Module) :
    m.callGraph.breadthFirst = m.callGraph.drain [] m.callGraph.roots ∧
      m.callGraph.breadthFirst.Nodup ∧
      (∀ id, id ∈ m.callGraph.breadthFirst ↔ m.Reached id) ∧
      ∃ others, m.callGraph.breadthFirst = m.callGraph.roots ++ others ∧
        (∀ id, id ∈ m.callGraph.roots ↔ ∃ f, m.function? id = some f ∧ f.isKernel) ∧
        m.callGraph.roots.Pairwise (· < ·) ∧
        others.Pairwise m.Precedes ∧
        ∀ id ∈ others, m.callerPosition id < m.callGraph.breadthFirst.idxOf id := by
  refine ⟨m.breadthFirst_eq_drain, m.nodup_breadthFirst_and_mem_iff.1,
    m.nodup_breadthFirst_and_mem_iff.2, m.discovered, m.breadthFirst_eq, fun id => mem_roots,
    m.sorted_roots, ?_, fun id hid => callerPosition_lt_idxOf hid⟩
  have hdistance := m.pairwise_distance
  rw [breadthFirst_eq, List.pairwise_append] at hdistance
  refine (List.pairwise_and_iff.mpr ⟨hdistance.2.1, m.pairwise_callerPosition⟩).imp ?_
  rintro id other ⟨hle, hlex⟩
  exact (Nat.lt_or_eq_of_le hle).imp_right fun heq => ⟨heq, hlex⟩

end Module

end ResourceBinding
