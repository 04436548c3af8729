import ResourceBinding.Proofs.Program.Links
import ResourceBinding.Proofs.Program.Results
import ResourceBinding.Proofs.Program.Steps
import ResourceBinding.Proofs.Program.Types
import ResourceBinding.Proofs.Run

/-!
# Well-formed modules

A module is well-formed if every reference in it leads somewhere and nothing is built on itself:
names, types, callees, operands, parameters, and the results of calls, each of which is made by one
call, before it is used.

Each edit of a function is one of two kinds. It keeps the steps, up to uses that become literals
(`Function.WellFormed.reframe`), or it is a revision with calls in front of the body
(`Function.WellFormed.revise`).
-/

namespace ResourceBinding

/-- The function is well-formed in a module with so many functions and types. -/
structure Function.WellFormed (size types : Nat) (f : Function) : Prop
    extends Function.Linked size f, Function.Typed types f where
  result_callee : ∀ r callee, f.expr? r = some (.result callee) → (callee : Nat) < size
  operand_lt : ∀ op, f.Reads op → (op : Nat) < f.expressions.size
  acyclic : f.Acyclic
  /-- Each result is that of exactly one call. -/
  made_once : ∀ r callee, f.expr? r = some (.result callee) →
    (f.calls.filterMap Call.result).count r = 1
  /-- The call comes before each statement that has an operand built on its result. -/
  made_before : ∀ before s after, f.steps = before ++ s :: after →
    ∀ op ∈ s.uses, ∀ r, f.LeadsTo op r → r ∈ made before
  parameter_lt : ∀ id p, f.expr? id = some (.parameter p) → p < f.params.length

/-- The names of the functions are distinct, and types and functions are well-formed. -/
structure Module.WellFormed (m : Module) : Prop where
  names : m.NamesDistinct
  earlier : m.types.ComponentsEarlier
  functions : ∀ f ∈ m.functions, f.WellFormed m.functions.size m.types.size

namespace Function

variable {f g : Function} {size size' types types' : Nat} {calls : List Call}

/-! ## Steps of a function -/

theorem reads_iff {op : ExprId} :
    f.Reads op ↔ (∃ id, f.Uses id op) ∨ ∃ s ∈ f.steps, op ∈ s.uses := by
  refine or_congr_right ?_
  unfold steps
  cases f.body with
  | none => simp
  | some body => simp [← body.flatMap_uses_steps]

theorem inOrder_steps : InOrder f.LeadsTo [] f.steps ↔
    ∀ before s after, f.steps = before ++ s :: after →
      ∀ op ∈ s.uses, ∀ r, f.LeadsTo op r → r ∈ made before := by
  have h : InOrder f.LeadsTo [] f.steps ↔ _ := inOrder_iff
  simpa using h

/-- Literals lead to no result. -/
theorem not_leadsTo_of_literal {id r : ExprId} {l : Literal} (h : f.literal? id = some l) :
    ¬ f.LeadsTo id r := by
  rw [literal?_eq_some_iff] at h
  rintro ⟨hreaches, callee, hr⟩
  rcases hreaches.cases_head with rfl | ⟨op, ⟨e, he, hop⟩, -⟩
  · cases h.symm.trans hr
  · cases h.symm.trans he
    cases hop

theorem made_once_of_perm (h : (made f.steps).Perm f.resultIds) {r callee : Nat}
    (hr : f.expr? r = some (.result callee)) : (f.calls.filterMap Call.result).count r = 1 := by
  rw [← made_steps, h.count_eq]
  exact List.count_eq_one_of_mem (nodup_resultsIn _) (mem_resultIds.mpr ⟨callee, hr⟩)

namespace WellFormed

theorem mono (h : f.WellFormed size types) (hsize : size ≤ size') (htypes : types ≤ types') :
    f.WellFormed size' types' :=
  { h with
    toLinked := h.toLinked.mono hsize
    toTyped := h.toTyped.mono htypes
    result_callee := fun r callee hr => Nat.lt_of_lt_of_le (h.result_callee r callee hr) hsize }

/-- What the calls make is the results, each once. -/
theorem made_perm (h : f.WellFormed size types) : (made f.steps).Perm f.resultIds := by
  have hmem : ∀ r, r ∈ made f.steps ↔ r ∈ f.resultIds := by
    intro r
    rw [mem_resultIds, made_steps]
    constructor
    · intro hr
      obtain ⟨c, hc, hr⟩ := List.mem_filterMap.mp hr
      exact ⟨c.callee, h.result c hc r hr⟩
    · rintro ⟨callee, hr⟩
      refine List.count_pos_iff.mp ?_
      rw [h.made_once r callee hr]
      exact Nat.one_pos
  refine (List.perm_ext_iff_of_nodup ?_ (nodup_resultsIn _)).mpr hmem
  refine List.nodup_iff_count_le_one.mpr fun r => ?_
  by_cases hr : r ∈ made f.steps
  · obtain ⟨callee, hr⟩ := mem_resultIds.mp ((hmem r).mp hr)
    rw [made_steps, h.made_once r callee hr]
  · rw [List.count_eq_zero_of_not_mem hr]
    exact Nat.zero_le _

/-- Each result is made by a call of the function that it is of. -/
theorem exists_call_making (h : f.WellFormed size types) {r callee : Nat}
    (hr : f.expr? r = some (.result callee)) :
    ∃ c ∈ f.calls, c.callee = callee ∧ c.result = some r := by
  have hmem := h.made_perm.mem_iff.mpr (mem_resultIds.mpr ⟨callee, hr⟩)
  rw [made_steps] at hmem
  obtain ⟨c, hc, hresult⟩ := List.mem_filterMap.mp hmem
  have hsame := (h.result c hc r hresult).symm.trans hr
  exact ⟨c, hc, by simpa using hsame, hresult⟩

/-- What a call of a function is of, its result is of. -/
theorem exists_call_of_result (h : f.WellFormed size types) {r callee : Nat}
    (hr : f.expr? r = some (.result callee)) : ∃ c ∈ f.calls, c.callee = callee := by
  obtain ⟨c, hc, hcallee, -⟩ := h.exists_call_making hr
  exact ⟨c, hc, hcallee⟩

/-- What is read stands for a tree. -/
theorem exists_unfolds (h : f.WellFormed size types) {op : ExprId} (hop : f.Reads op) :
    ∃ t, f.Unfolds op t := by
  refine Function.exists_unfolds h.acyclic fun id hid => ?_
  rcases Relation.ReflTransGen.cases_tail hid with rfl | ⟨via, -, huses⟩
  · exact h.operand_lt _ hop
  · exact h.operand_lt id (.inl ⟨via, huses⟩)

/-- **An edit keeps a function well-formed if it keeps what is built on what, and each step**, but
for uses that become literals. -/
theorem reframe (hf : f.WellFormed size types) (hlinked : g.Linked size')
    (htypes : types ≤ types') (hparams : g.params.map Param.type = f.params.map Param.type)
    (hresult : g.result = f.result) (hsize : f.expressions.size ≤ g.expressions.size)
    (hcallee : ∀ r callee, g.expr? r = some (.result callee) → (callee : Nat) < size')
    (hids : g.resultIds = f.resultIds) (huses : ∀ a b, g.Uses a b → f.Uses a b)
    (hparameter : ∀ id p, g.expr? id = some (.parameter p) → f.expr? id = some (.parameter p))
    (hsteps : List.Forall₂ (fun s t => t.makes = s.makes ∧
      ∀ op ∈ t.uses, op ∈ s.uses ∨ ∃ l, g.literal? op = some l) f.steps g.steps) :
    g.WellFormed size' types' where
  toLinked := hlinked
  param_type := by
    intro p hp
    have hmem : p.type ∈ f.params.map Param.type := hparams ▸ List.mem_map_of_mem hp
    obtain ⟨old, hold, heq⟩ := List.mem_map.mp hmem
    exact heq ▸ Nat.lt_of_lt_of_le (hf.param_type old hold) htypes
  result_type := fun type ht =>
    Nat.lt_of_lt_of_le (hf.result_type type (hresult ▸ ht)) htypes
  result_callee := hcallee
  operand_lt := by
    intro op hop
    rcases reads_iff.mp hop with ⟨id, hid⟩ | ⟨t, ht, hop⟩
    · exact Nat.lt_of_lt_of_le (hf.operand_lt op (.inl ⟨id, huses id op hid⟩)) hsize
    · obtain ⟨s, hs, -, hst⟩ := exists_mem_of_forall₂ hsteps ht
      rcases hst op hop with hop | ⟨l, hl⟩
      · exact Nat.lt_of_lt_of_le (hf.operand_lt op (reads_iff.mpr (.inr ⟨s, hs, hop⟩))) hsize
      · exact lt_size_of_expr? (literal?_eq_some_iff.mp hl)
  acyclic := fun id hid => hf.acyclic id (Relation.TransGen.mono huses id id hid)
  made_once := by
    intro r callee hr
    refine made_once_of_perm ?_ hr
    rw [made_eq_of_forall₂ (fun _ _ hst => hst.1) hsteps, hids]
    exact hf.made_perm
  made_before := by
    refine inOrder_steps.mp ((inOrder_steps.mpr hf.made_before).imp hsteps (fun _ _ h => h.1)
      (fun _ hr => hr) fun s t hst op hop r hr => ?_)
    rcases hst.2 op hop with hold | ⟨l, hl⟩
    · refine .inr ⟨op, hold, Relation.ReflTransGen.mono huses op r hr.1, ?_⟩
      rw [← mem_resultIds, ← hids, mem_resultIds]
      exact hr.2
    · exact absurd hr (not_leadsTo_of_literal hl)
  parameter_lt := by
    intro id p hp
    have hlength := congrArg List.length hparams
    rw [List.length_map, List.length_map] at hlength
    exact hlength ▸ hf.parameter_lt id p (hparameter id p hp)

end WellFormed

/-! ## Revisions with calls in front -/

/-- The calls go in front of the body of `g`, which is `f` with their results added: they pass
literals to functions of the module. -/
structure Prepends (size : Nat) (calls : List Call) (f g : Function) : Prop where
  results : g.resultIds = f.resultIds ++ calls.filterMap Call.result
  callee_lt : ∀ c ∈ calls, (c.callee : Nat) < size
  result : ∀ c ∈ calls, ∀ r, c.result = some r → g.expr? r = some (.result c.callee)
  literals : ∀ c ∈ calls, ∃ ls : List Literal, c.arguments.map g.literal? = ls.map some

section Prepends

variable {σ : ExprId → ExprId}

theorem Revises.steps_eq (hrev : Revises σ f g) :
    g.steps = f.steps.map fun s => { s with uses := s.uses.map σ } := by
  unfold steps
  rw [hrev.body]
  cases f.body with
  | none => rfl
  | some body => exact body.steps_mapOperands σ

theorem steps_prependCalls (hbody : f.body.isSome) (calls : List Call) :
    (f.prependCalls calls).steps = calls.map Call.step ++ f.steps := by
  obtain ⟨body, hbody⟩ := Option.isSome_iff_exists.mp hbody
  simp only [steps, prependCalls, hbody, Option.map_some, Block.steps_prepend]

/-- Operands of a revised function are in range if those of the function were. -/
theorem Revises.operand_lt (hrev : Revises σ f g)
    (hf : ∀ op, f.Reads op → (op : Nat) < f.expressions.size) {op : Nat} (h : g.Reads op) :
    op < g.expressions.size := by
  have hsource : ∀ source, f.Reads source → (σ source : Nat) < g.expressions.size := by
    intro source h
    rcases hrev.lands source with hsame | ⟨-, hlt⟩
    · rw [hsame]
      exact Nat.lt_of_lt_of_le (hf source h) hrev.size_le
    · exact hlt
  rcases h with ⟨id, e, he, hop⟩ | ⟨body, hbody, hop⟩
  · by_cases hlt : (id : Nat) < f.expressions.size
    · obtain ⟨old, hold⟩ := exists_expr?_of_lt hlt
      cases (hrev.expr id old hold).symm.trans he
      rw [Expr.operands_mapOperands, List.mem_map] at hop
      obtain ⟨source, hmem, rfl⟩ := hop
      exact hsource source (.inl ⟨id, old, hold, hmem⟩)
    · exact Nat.lt_trans ((hrev.fresh id e (Nat.not_lt.mp hlt) he).2 op hop).2
        (lt_size_of_expr? he)
  · rw [hrev.body] at hbody
    obtain ⟨old, hold, rfl⟩ := Option.map_eq_some_iff.mp hbody
    rw [Block.operands_mapOperands, List.mem_map] at hop
    obtain ⟨source, hmem, rfl⟩ := hop
    exact hsource source (.inr ⟨old, hold, hmem⟩)

namespace Prepends

/-- The operands of the calls are literals. -/
theorem exists_literal (hcalls : Prepends size calls f g) {c : Call} (hc : c ∈ calls)
    {op : ExprId} (hop : op ∈ c.arguments) : ∃ l, g.literal? op = some l := by
  obtain ⟨ls, hls⟩ := hcalls.literals c hc
  exact exists_literal_of_mem hls hop

/-- A result was there before, or one of the calls makes it. -/
theorem result_or (hcalls : Prepends size calls f g) {r callee : Nat}
    (hr : g.expr? r = some (.result callee)) :
    (∃ old, f.expr? r = some (.result old)) ∨
      ∃ c ∈ calls, c.result = some r ∧ c.callee = callee := by
  have hmem : r ∈ g.resultIds := mem_resultIds.mpr ⟨callee, hr⟩
  rw [hcalls.results, List.mem_append] at hmem
  refine hmem.imp mem_resultIds.mp fun hnew => ?_
  obtain ⟨c, hc, hresult⟩ := List.mem_filterMap.mp hnew
  have hsame := (hcalls.result c hc r hresult).symm.trans hr
  exact ⟨c, hc, hresult, by simpa using hsame⟩

/-- What a use leads to that has been redirected, it led to before, or one of the calls makes it. -/
theorem leadsTo (hcalls : Prepends size calls f g) (hrev : Revises σ f g) {op r : ExprId}
    (h : g.LeadsTo (σ op) r) : r ∈ calls.filterMap Call.result ∨ f.LeadsTo op r := by
  obtain ⟨hreaches, callee, hr⟩ := h
  rcases hcalls.result_or hr with ⟨old, hold⟩ | ⟨c, hc, hresult, -⟩
  · obtain ⟨hlt, hreaches⟩ := hrev.reaches_of_lt hreaches (lt_size_of_expr? hold)
    have hsame : σ op = op := (hrev.lands op).resolve_right fun h => Nat.not_lt.mpr h.1 hlt
    exact .inr ⟨hsame ▸ hreaches, old, hold⟩
  · exact .inl (List.mem_filterMap.mpr ⟨c, hc, hresult⟩)

end Prepends

/-- **A revision with calls in front of the body keeps a function well-formed.** -/
theorem WellFormed.revise (hf : f.WellFormed size types) (hrev : Revises σ f g)
    (hbody : f.body.isSome) (hcalls : Prepends size calls f g) :
    (g.prependCalls calls).WellFormed size types := by
  have hsteps : (g.prependCalls calls).steps = calls.map Call.step ++ g.steps := by
    refine steps_prependCalls ?_ calls
    rwa [hrev.body, Option.isSome_map]
  have hframe := hrev.frame
  refine {
    toLinked := linked_prependCalls (hrev.linked hf.toLinked) fun c hc =>
      ⟨hcalls.callee_lt c hc, hcalls.result c hc⟩
    param_type := fun p hp => hf.param_type p (by rw [hframe] at hp; exact hp)
    result_type := fun type ht => hf.result_type type (by rw [hframe] at ht; exact ht)
    result_callee := fun r callee hr => ?_
    operand_lt := fun op hop => ?_
    acyclic := hrev.acyclic hf.acyclic
    made_once := fun r callee hr => made_once_of_perm ?_ hr
    made_before := inOrder_steps.mp ?_
    parameter_lt := fun id p hp => ?_ }
  · rcases hcalls.result_or hr with ⟨old, hold⟩ | ⟨c, hc, -, rfl⟩
    · have hsame := (hrev.expr?_result hold).symm.trans hr
      obtain rfl : old = callee := by simpa using hsame
      exact hf.result_callee r old hold
    · exact hcalls.callee_lt c hc
  · rcases reads_iff.mp hop with huses | ⟨s, hs, hop⟩
    · exact hrev.operand_lt hf.operand_lt (.inl huses)
    · rw [hsteps, List.mem_append] at hs
      rcases hs with hs | hs
      · obtain ⟨c, hc, rfl⟩ := List.mem_map.mp hs
        obtain ⟨l, hl⟩ := hcalls.exists_literal hc hop
        exact lt_size_of_expr? (literal?_eq_some_iff.mp hl)
      · exact hrev.operand_lt hf.operand_lt (reads_iff.mpr (.inr ⟨s, hs, hop⟩))
  · have hmade : made g.steps = made f.steps := by
      rw [hrev.steps_eq, made, List.flatMap_map]
      rfl
    have hresults : (g.prependCalls calls).resultIds = _ := hcalls.results
    rw [hsteps, made_append, made_map_step, hmade, hresults]
    exact (hf.made_perm.append_left _).trans List.perm_append_comm
  · rw [hsteps, inOrder_append, made_map_step, hrev.steps_eq]
    refine ⟨inOrder_iff.mpr fun before s after heq op hop r hr => ?_, ?_⟩
    · obtain ⟨c, hc, rfl⟩ := List.mem_map.mp (heq ▸ by simp : s ∈ calls.map Call.step)
      obtain ⟨l, hl⟩ := hcalls.exists_literal hc hop
      exact absurd hr (not_leadsTo_of_literal hl)
    · refine (inOrder_steps.mpr hf.made_before).imp
        (R := fun s t => t = { s with uses := s.uses.map σ }) ?_ (fun s t h => by rw [h])
        (fun r hr => absurd hr List.not_mem_nil) fun s t h op hop r hr => ?_
      · exact List.forall₂_map_right_iff.mpr (List.forall₂_same.mpr fun _ _ => rfl)
      · subst h
        obtain ⟨old, hold, rfl⟩ := List.mem_map.mp hop
        exact (hcalls.leadsTo hrev hr).imp_right fun hr => ⟨old, hold, hr⟩
  · have hp' := hf.parameter_lt id p (hrev.parameter_iff.mp hp)
    rw [hframe]
    exact hp'

end Prepends

end Function

end ResourceBinding
