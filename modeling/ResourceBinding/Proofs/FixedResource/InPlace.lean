import ResourceBinding.Proofs.FixedResource.Forwarding
import ResourceBinding.Proofs.FixedResource.WellFormed

/-!
# Fetching in place of parameters

A function that fetches the resources of parameters does what it did, with what it fetches in place
of them: the same statements in the same order and nesting, behind one call for each, and in every
place of an operand the same tree, where accesses of the results stand in place of the parameters
(`Function.FetchesInPlace`).

* `Function.FetchesInPlace.trans`: the parameters of a function are fetched in turn, each in front
  of those before, and none is in the way of another.
* `Resolution.resolves_step`: a step of the pass lets one function fetch the resource of one
  parameter, or only marks it.
* `Resolution.fetchesInPlace_run`: what becomes of each function over a run.
* `Module.resolveParameters_fetchesInPlace`: both, of the pass.
-/

namespace ResourceBinding

/-! ## Functions -/

/-- The call fetches an origin in the function `g`, which has come of `f`: it passes new literals to
the accessor. The value is its new result, behind as many accesses as the resource is deep. -/
structure Function.FetchedBy (f g : Function) (o : Provenance) (c : Call) (value : ValueTree) :
    Prop where
  callee : c.callee = o.resource.accessor
  operands : ∃ ls : List Literal, o.operands = ls.map some ∧
    c.arguments.map g.literal? = ls.map some
  operands_new : ∀ op ∈ c.arguments, f.expressions.size ≤ op
  depth : o.indexCounts.length = o.resource.depth
  result : ∃ r : Nat, c.result = some r ∧ f.expressions.size ≤ r ∧
    g.expr? r = some (.result c.callee) ∧ value = .zeroAccesses o.indexCounts (.result c.callee r)

/-- The function `f` has become `g`, which fetches the origins of some parameters: the calls stand in
front of the body, each use of an expression `id` has become a use of `σ id`, and the tree `ρ p`
stands in place of the parameter `p`. -/
structure Function.FetchesInPlace (f g : Function) (fetched : List (Nat × Provenance))
    (calls : List Call) (σ : ExprId → ExprId) (ρ : Nat → ValueTree) : Prop where
  signature : g = { f with params := g.params, expressions := g.expressions, body := g.body }
  params : g.params.map (fun p => (p.name, p.type)) = f.params.map fun p => (p.name, p.type)
  /-- The old statements, slot by slot, behind the calls. -/
  body : g.body = f.body.map fun b => (b.mapOperands σ).prepend calls
  size_le : f.expressions.size ≤ g.expressions.size
  parameter : ∀ id p, g.expr? id = some (.parameter p) → f.expr? id = some (.parameter p)
  stays : ∀ id, (∀ p, f.expr? id ≠ some (.parameter p)) → σ id = id
  fetches : List.Forall₂ (fun p c => f.FetchedBy g p.2 c (ρ p.1)) fetched calls
  once : (fetched.map Prod.fst).Nodup
  /-- The results of the calls are told apart. -/
  distinct : (calls.map Call.result).Nodup
  kept : ∀ p, p ∉ fetched.map Prod.fst → ρ p = .parameter p
  /-- What an operand stands for is what it stood for, with the parameters replaced. -/
  unfolds : ∀ id t, f.Unfolds id t → g.Unfolds (σ id) (t.substitute ρ)
  unused : ∀ p ∈ fetched.map Prod.fst, g.Unused p
  unused_of_unused : ∀ p, f.Unused p → g.Unused p

/-- Each operand of the function `f` stands for a tree. A use of it has become a use of `σ op` in `g`,
which stands for this tree with `ρ p` in place of each parameter `p`, and for no other. -/
def Function.Substitutes (f g : Function) (σ : ExprId → ExprId) (ρ : Nat → ValueTree) : Prop :=
  ∀ op, f.Reads op → ∃ t, f.Unfolds op t ∧ ∀ u, g.Unfolds (σ op) u ↔ u = t.substitute ρ

namespace Function

variable {f g k : Function} {fetched fetched' : List (Nat × Provenance)} {calls calls' : List Call}
  {σ τ : ExprId → ExprId} {ρ ρ' : Nat → ValueTree} {index : Nat} {o : Provenance} {c : Call}
  {value : ValueTree}

theorem mapOperands_prepend (τ : ExprId → ExprId) (calls : List Call) (b : Block) :
    (b.prepend calls).mapOperands τ
      = (b.mapOperands τ).prepend (calls.map fun c => { c with arguments := c.arguments.map τ }) := by
  induction calls with
  | nil => rfl
  | cons c calls ih =>
    simp only [Block.prepend, List.foldr_cons, List.map_cons, Block.mapOperands, Stmt.mapOperands]
    exact congrArg _ ih

/-- A value that is fetched has no parameter left. -/
theorem FetchedBy.substitute_value (h : f.FetchedBy g o c value) (ρ : Nat → ValueTree) :
    value.substitute ρ = value := by
  obtain ⟨r, -, -, -, rfl⟩ := h.result
  exact ValueTree.substitute_zeroAccesses ρ _ _ _

namespace FetchesInPlace

theorem refl (f : Function) : f.FetchesInPlace f [] [] id .parameter where
  signature := rfl
  params := rfl
  body := by
    cases f.body with
    | none => rfl
    | some b => simp [Block.mapOperands_id, Block.prepend]
  size_le := Nat.le_refl _
  parameter := fun _ _ h => h
  stays := fun _ _ => rfl
  fetches := .nil
  once := .nil
  distinct := .nil
  kept := fun _ _ => rfl
  unfolds := fun id t h => by rwa [ValueTree.substitute_parameter]
  unused := by simp
  unused_of_unused := fun _ h => h

/-- Marking a parameter fetches nothing. -/
theorem setMark (f : Function) (index : Nat) (mark : Option FixedResource) :
    f.FetchesInPlace (f.setMark index mark) [] [] id .parameter where
  signature := rfl
  params := by
    refine List.ext_getElem? fun i => ?_
    simp only [Function.setMark, List.getElem?_map, List.getElem?_modify]
    cases f.params[i]? with
    | none => rfl
    | some p => by_cases h : index = i <;> simp [h]
  body := (refl f).body
  size_le := Nat.le_refl _
  parameter := fun _ _ h => h
  stays := fun _ _ => rfl
  fetches := .nil
  once := .nil
  distinct := .nil
  kept := fun _ _ => rfl
  unfolds := fun id t h => by
    rw [ValueTree.substitute_parameter]
    refine h.mono ?_
    exact fun _ _ he => he
  unused := by simp
  unused_of_unused := fun _ h => h

/-- **A function that fetches a resource has it in place of the parameter.** -/
theorem of_fetchParameter (h : f.fetchParameter index o = .ok g) :
    ∃ c σ ρ, f.FetchesInPlace g [(index, o)] [c] σ ρ := by
  obtain ⟨F⟩ := exists_fetch h
  let value : ValueTree := .zeroAccesses o.indexCounts (.result o.resource.accessor F.result)
  have hframe : g = { f with expressions := g.expressions, body := g.body } := by
    rw [F.eq, prependCalls, F.revises.frame]
  have hmono : ∀ id e, F.revised.expr? id = some e → g.expr? id = some e := fun id e he => by
    rwa [F.expr?_eq]
  refine ⟨⟨o.resource.accessor, F.operands, some F.result⟩, f.redirectParameter index F.target,
    fun p => if p = index then value else .parameter p, {
      signature := by rw [hframe]
      params := by rw [hframe]
      body := F.body_eq
      size_le := by
        rw [F.eq]
        exact F.revises.size_le
      parameter := fun id p hp => F.revises.parameter_iff.mp (by rwa [← F.expr?_eq])
      stays := F.revises.stays
      fetches := .cons ⟨rfl, ⟨F.literals, F.known, ?_⟩, F.operands_new, F.depth, F.result, rfl,
        F.result_new, hmono _ _ F.expr_result, if_pos rfl⟩ .nil
      once := by simp
      distinct := by simp
      kept := fun p hp => if_neg (by simpa using hp)
      unfolds := fun id t ht => (F.revises.unfolds (fun id p hp => ?_) ht).mono hmono
      unused := by simpa using F.unused
      unused_of_unused := fun p => F.unused_of_unused }⟩
  · rw [F.literal?_eq]
    exact F.passes
  · by_cases heq : p = index
    · subst heq
      rw [redirectParameter, if_pos hp, if_pos rfl]
      exact F.unfolds
    · rw [redirectParameter, if_neg, if_neg heq]
      · exact .parameter (F.revises.parameter_iff.mpr hp)
      · rw [hp, Option.some.injEq, Expr.parameter.injEq]
        exact heq

section Trans

variable (h : f.FetchesInPlace g fetched calls σ ρ) (h' : g.FetchesInPlace k fetched' calls' τ ρ')

include h

/-- What has no operands and is no parameter stays as it is. -/
theorem literal? {id : ExprId} {l : Literal} (hl : f.literal? id = some l) :
    g.literal? id = some l := by
  rw [literal?_eq_some_iff] at hl ⊢
  have htree := h.unfolds id _ (.literal hl)
  rw [h.stays id (by simp [hl])] at htree
  cases htree with
  | literal he => exact he

theorem expr?_result {id : ExprId} {callee : FunctionId}
    (hr : f.expr? id = some (.result callee)) : g.expr? id = some (.result callee) := by
  have htree := h.unfolds id _ (.result hr)
  rw [h.stays id (by simp [hr])] at htree
  cases htree with
  | result he => exact he

/-- The calls are fetched from `f` on. -/
theorem fetchedBy_of_mem (hc : c ∈ calls) :
    ∃ p ∈ fetched, f.FetchedBy g p.2 c (ρ p.1) :=
  exists_mem_of_forall₂ h.fetches hc

/-- What is fetched later is fetched from `f` on, if its parameter was still there. -/
theorem fetchedBy_later {p : Nat} (hp : p ∉ fetched.map Prod.fst)
    (hfetched : g.FetchedBy k o c (ρ' p)) : f.FetchedBy k o c ((ρ p).substitute ρ') := by
  obtain ⟨r, hr, hge, he, hvalue⟩ := hfetched.result
  refine { hfetched with
    operands_new := fun op hop => Nat.le_trans h.size_le (hfetched.operands_new op hop)
    result := ⟨r, hr, Nat.le_trans h.size_le hge, he, ?_⟩ }
  rw [h.kept p hp, ValueTree.substitute, hvalue]

omit h

include h'

/-- What has been fetched stays fetched. -/
theorem fetchedBy_earlier (hfetched : f.FetchedBy g o c value) :
    f.FetchedBy k o c (value.substitute ρ') := by
  obtain ⟨ls, hls, hliterals⟩ := hfetched.operands
  obtain ⟨r, hr, hge, he, hvalue⟩ := hfetched.result
  refine { hfetched with
    operands := ⟨ls, hls, map_literal?_mono (fun _ _ => h'.literal?) hliterals⟩
    result := ⟨r, hr, hge, h'.expr?_result he, ?_⟩ }
  rw [hfetched.substitute_value, hvalue]

/-- A call that fetches keeps its operands, which are literals. -/
theorem map_arguments_eq (hfetched : f.FetchedBy g o c value) : c.arguments.map τ = c.arguments := by
  obtain ⟨ls, -, hls⟩ := hfetched.operands
  refine (List.map_congr_left fun op hop => ?_).trans (List.map_id c.arguments)
  obtain ⟨l, hl⟩ := exists_literal_of_mem hls hop
  exact h'.stays op (by simp [literal?_eq_some_iff.mp hl])

include h

/-- The result of a later call is new where that of an earlier one stands already. -/
theorem result_ne {c' : Call} (hc : c ∈ calls') (hc' : c' ∈ calls) : c.result ≠ c'.result := by
  obtain ⟨p, -, hfetched⟩ := h'.fetchedBy_of_mem hc
  obtain ⟨p', -, hfetched'⟩ := h.fetchedBy_of_mem hc'
  obtain ⟨r, hr, hge, -, -⟩ := hfetched.result
  obtain ⟨r', hr', -, he, -⟩ := hfetched'.result
  intro heq
  rw [hr, hr', Option.some.injEq] at heq
  exact absurd (lt_size_of_expr? he) (Nat.not_lt.mpr (heq ▸ hge))

/-- **Parameters that are fetched in turn are fetched**, if they are different ones. The later calls
stand in front. -/
theorem trans (hnew : ∀ p ∈ fetched'.map Prod.fst, p ∉ fetched.map Prod.fst) :
    f.FetchesInPlace k (fetched' ++ fetched) (calls' ++ calls) (τ ∘ σ)
      fun p => (ρ p).substitute ρ' where
  signature := by
    have hk := h'.signature
    rw [h.signature] at hk
    exact hk
  params := h'.params.trans h.params
  body := by
    rw [h'.body, h.body, Option.map_map]
    refine congrArg (Option.map · f.body) (funext fun b => ?_)
    have hcalls : (calls.map fun c => { c with arguments := c.arguments.map τ }) = calls := by
      refine (List.map_congr_left fun c hc => ?_).trans (List.map_id calls)
      obtain ⟨p, -, hfetched⟩ := h.fetchedBy_of_mem hc
      rw [h'.map_arguments_eq hfetched, id_eq]
    simp only [Function.comp_apply, mapOperands_prepend, hcalls, Block.mapOperands_mapOperands]
    exact (List.foldr_append).symm
  size_le := Nat.le_trans h.size_le h'.size_le
  parameter := fun id p hp => h.parameter id p (h'.parameter id p hp)
  stays := fun id hid => by
    rw [Function.comp_apply, h.stays id hid]
    exact h'.stays id fun p hp => hid p (h.parameter id p hp)
  fetches := by
    refine List.rel_append ?_ (h.fetches.imp fun _ _ hfetched => h'.fetchedBy_earlier hfetched)
    refine ((List.forall₂_and_left (p := (· ∈ fetched')) fetched' _).mpr
      ⟨fun _ h => h, h'.fetches⟩).imp ?_
    rintro p c ⟨hmem, hfetched⟩
    exact h.fetchedBy_later (hnew p.1 (List.mem_map_of_mem hmem)) hfetched
  once := by
    rw [List.map_append, List.nodup_append]
    refine ⟨h'.once, h.once, fun p hp p' hp' heq => ?_⟩
    exact hnew p hp (heq ▸ hp')
  distinct := by
    rw [List.map_append, List.nodup_append]
    refine ⟨h'.distinct, h.distinct, fun r hr r' hr' => ?_⟩
    obtain ⟨c, hc, rfl⟩ := List.mem_map.mp hr
    obtain ⟨c', hc', rfl⟩ := List.mem_map.mp hr'
    exact h.result_ne h' hc hc'
  kept := fun p hp => by
    rw [List.map_append, List.mem_append, not_or] at hp
    rw [h.kept p hp.2, ValueTree.substitute, h'.kept p hp.1]
  unfolds := fun id t ht => by
    rw [← ValueTree.substitute_substitute]
    exact h'.unfolds _ _ (h.unfolds id t ht)
  unused := fun p hp => by
    rw [List.map_append, List.mem_append] at hp
    exact hp.elim (h'.unused p) fun hp => h'.unused_of_unused p (h.unused p hp)
  unused_of_unused := fun p hp => h'.unused_of_unused p (h.unused_of_unused p hp)

end Trans

/-- A function that marks a parameter, and fetches a resource then. -/
theorem of_marked {mark : Option FixedResource}
    (hg : (f.setMark index mark).fetchParameter index o = .ok g) :
    ∃ c σ ρ, f.FetchesInPlace g [(index, o)] [c] σ ρ := by
  obtain ⟨c, σ, ρ, h⟩ := of_fetchParameter hg
  exact ⟨c, σ, ρ, (setMark f index mark).trans h (by simp)⟩

/-- **Operands stand for what they stood for**, with what is fetched in place of the parameters. -/
theorem substitutes (h : f.FetchesInPlace g fetched calls σ ρ) {size types : Nat}
    (hf : f.WellFormed size types) : f.Substitutes g σ ρ := by
  intro op hop
  obtain ⟨t, ht⟩ := hf.exists_unfolds hop
  exact ⟨t, ht, fun u => (h.unfolds op t ht).iff_eq⟩

end FetchesInPlace

end Function

/-! ## Steps -/

namespace Module

variable {m m' : Module} {id : FunctionId} {index : Nat} {o o' : Provenance} {f : Function}

/-- Two calls of the function lead to what they pass for the parameter through different
accesses. -/
def AccessesDiffer (m : Module) (id : FunctionId) (index : Nat) : Prop :=
  ∃ site ∈ m.callsTo id, ∃ site' ∈ m.callsTo id, ∃ o o', m.argumentProvenance index site = .ok o ∧
    m.argumentProvenance index site' = .ok o' ∧ o.indexCounts ≠ o'.indexCounts

theorem accessesDiffer_iff (ho : m.parameterProvenance id index = .ok o) :
    m.AccessesDiffer id index ↔ o.indexCounts.length ≠ o.resource.depth := by
  constructor
  · rintro ⟨site, hsite, site', hsite', o₁, o₂, ho₁, ho₂, hdiffers⟩ hdepth
    obtain ⟨-, hcounts⟩ := (parameterProvenance_indexCounts ho).resolve_right fun h => h.1 hdepth
    obtain ⟨other, hother, hcount⟩ := hcounts site hsite
    obtain ⟨other', hother', hcount'⟩ := hcounts site' hsite'
    cases ho₁.symm.trans hother
    cases ho₂.symm.trans hother'
    exact hdiffers (hcount.trans hcount'.symm)
  · exact fun hdepth => ((parameterProvenance_indexCounts ho).resolve_left fun h => hdepth h.1).2

/-- The parameter has an origin that the function can fetch: all operands are known, and all calls
have the same accesses. -/
def Fetchable (m : Module) (id : FunctionId) (index : Nat) (o : Provenance) : Prop :=
  m.parameterProvenance id index = .ok o ∧ none ∉ o.operands ∧ ¬ m.AccessesDiffer id index

/-- The counts of indices tell whether the accesses are the same. -/
theorem fetchable_iff : m.Fetchable id index o ↔ m.parameterProvenance id index = .ok o ∧
    none ∉ o.operands ∧ o.indexCounts.length = o.resource.depth := by
  refine and_congr_right fun ho => and_congr_right fun _ => ?_
  rw [accessesDiffer_iff ho, not_not]

theorem Fetchable.unique (h : m.Fetchable id index o) (h' : m.Fetchable id index o') : o = o' :=
  Except.ok.inj (h.1.symm.trans h'.1)

/-- What a step on a parameter makes of the module: it marks the parameter, and if the origin can be
fetched, the function has it in place of the parameter. -/
inductive Resolves (m : Module) (id : FunctionId) (index : Nat) : Module → Prop
  | unresolved {reason : Obstacle} : m.parameterProvenance id index = .error reason →
      Resolves m id index (m.modify id (·.setMark index none))
  | declined {o : Provenance} : m.parameterProvenance id index = .ok o →
      (none ∈ o.operands ∨ m.AccessesDiffer id index) →
      Resolves m id index (m.modify id (·.setMark index (some o.resource)))
  | fetched {o : Provenance} {f g : Function} {c : Call} {σ : ExprId → ExprId}
      {ρ : Nat → ValueTree} : m.Fetchable id index o → m.function? id = some f →
      g.params = (f.setMark index (some o.resource)).params →
      f.FetchesInPlace g [(index, o)] [c] σ ρ → f.Substitutes g σ ρ →
      Resolves m id index (m.modify id fun _ => g)

/-- The function fetches what can be fetched. -/
theorem Resolves.fetchesInPlace (h : m.Resolves id index m') (hf : m.function? id = some f) :
    ∃ g fetched calls σ ρ, m'.function? id = some g ∧ f.FetchesInPlace g fetched calls σ ρ ∧
      ∀ p, p ∈ fetched ↔ p.1 = index ∧ m.Fetchable id index p.2 := by
  have hmarked : ∀ mark, (∀ o, ¬ m.Fetchable id index o) → ∃ g fetched calls σ ρ,
      (m.modify id (·.setMark index mark)).function? id = some g ∧
      f.FetchesInPlace g fetched calls σ ρ ∧
      ∀ p, p ∈ fetched ↔ p.1 = index ∧ m.Fetchable id index p.2 := by
    intro mark hnone
    refine ⟨f.setMark index mark, [], [], _, _, ?_, .setMark f index mark, fun p => ?_⟩
    · rw [function?_modify, if_pos rfl, hf, Option.map_some]
    · exact iff_of_false List.not_mem_nil fun hp => hnone p.2 hp.2
  cases h with
  | unresolved hreason =>
    refine hmarked none fun o hfetchable => ?_
    cases hreason.symm.trans hfetchable.1
  | declined ho hreason =>
    refine hmarked _ fun o hfetchable => ?_
    cases ho.symm.trans hfetchable.1
    exact hreason.elim hfetchable.2.1 hfetchable.2.2
  | @fetched o f' g c σ ρ hfetchable hf' _ hplace _ =>
    cases hf.symm.trans hf'
    refine ⟨g, _, _, σ, ρ, ?_, hplace, fun p => ?_⟩
    · rw [function?_modify, if_pos rfl, hf, Option.map_some]
    · rw [List.mem_singleton, Prod.ext_iff]
      refine and_congr_right fun _ => ⟨?_, fun h => h.unique hfetchable⟩
      rintro rfl
      exact hfetchable

end Module

namespace Resolution

variable {options : Options} {s : Resolution} {id : FunctionId} {index : Nat} {f : Function}

/-- **A step lets one function fetch the resource of one parameter, or only marks it.** -/
theorem resolves_step (hfetch : options.fetch = true) (hs : s.program.WellFormed)
    (hid : ∃ f, s.program.function? id = some f ∧ f.body.isSome) :
    s.program.Resolves id index (s.step options id index).program := by
  obtain ⟨f, hf, hbody⟩ := hid
  cases ho : s.program.parameterProvenance id index with
  | error reason =>
    have hsame : (s.step options id index).program
        = s.program.modify id (·.setMark index none) := by
      unfold step
      simp only [ho]
      rfl
    rw [hsame]
    exact .unresolved ho
  | ok o =>
    rcases program_step_of_ok hfetch ho hf hbody with ⟨f', g, hf', hg, hsame⟩ | ⟨hsame, hreason⟩
    · rw [Module.function?_setMark, hf, Option.map_some, if_pos rfl, Option.some.injEq] at hf'
      subst hf'
      obtain ⟨F⟩ := Function.exists_fetch hg
      obtain ⟨c, σ, ρ, hplace⟩ := Function.FetchesInPlace.of_marked hg
      rw [hsame, Module.modify_replace]
      have hknown : none ∉ o.operands := by simp [F.known]
      refine .fetched (Module.fetchable_iff.mpr ⟨ho, hknown, F.depth⟩) hf ?_ hplace
        (hplace.substitutes (hs.function hf))
      rw [F.eq, Function.prependCalls, F.revises.frame]
    · rw [hsame]
      exact .declined ho (hreason.imp_right (Module.accessesDiffer_iff ho).mpr)

/-! ## Runs -/

/-- An item of a list with another one behind is this one, or an item of the list. -/
theorem exists_split_append_singleton {α : Type} {visits : List α} {p q : α}
    {P : List α → Prop} : (∃ before after, visits ++ [q] = before ++ p :: after ∧ P before) ↔
      (q = p ∧ P visits) ∨ ∃ before after, visits = before ++ p :: after ∧ P before := by
  constructor
  · rintro ⟨before, after, hsplit, hP⟩
    rcases List.eq_nil_or_concat after with rfl | ⟨between, last, rfl⟩
    · obtain ⟨rfl, hlast⟩ := List.append_inj' hsplit rfl
      exact .inl ⟨List.singleton_inj.mp hlast, hP⟩
    · rw [List.concat_eq_append, ← List.cons_append, ← List.append_assoc] at hsplit
      obtain ⟨rfl, -⟩ := List.append_inj' hsplit rfl
      exact .inr ⟨before, between, rfl, hP⟩
  · rintro (⟨rfl, hP⟩ | ⟨before, after, rfl, hP⟩)
    · exact ⟨visits, [], rfl, hP⟩
    · exact ⟨before, after ++ [q], by simp, hP⟩

/-- **What becomes of a function over a run**: it fetches in turn what could be fetched when it was
the turn of the parameter. -/
theorem fetchesInPlace_run (hfetch : options.fetch = true) (hs : s.program.WellFormed)
    (hf : s.program.function? id = some f) (visits : List (FunctionId × Nat))
    (hnodup : visits.Nodup) (hbody : ∀ q ∈ visits, q.1 = id → f.body.isSome) :
    ∃ g fetched calls σ ρ, (s.run options visits).program.function? id = some g ∧
      f.FetchesInPlace g fetched calls σ ρ ∧
      ∀ p, p ∈ fetched ↔ ∃ before after, visits = before ++ (id, p.1) :: after ∧
        (s.run options before).program.Fetchable id p.1 p.2 := by
  induction visits using List.reverseRecOn with
  | nil => exact ⟨f, [], [], _, _, hf, .refl f, by simp⟩
  | append_singleton visits q ih =>
    obtain ⟨hnodup, -, hnew⟩ := List.nodup_append.mp hnodup
    obtain ⟨g, fetched, calls, σ, ρ, hg, hplace, hfetched⟩ :=
      ih hnodup fun q hq => hbody q (List.mem_append_left _ hq)
    simp only [exists_split_append_singleton]
    rw [run_append]
    by_cases heq : q.1 = id
    · subst heq
      have hgbody : g.body.isSome := by
        rw [hplace.body, Option.isSome_map]
        exact hbody q (List.mem_append_right _ List.mem_cons_self) rfl
      have hresolves : (s.run options visits).program.Resolves q.1 q.2
          ((s.run options visits).step options q.1 q.2).program :=
        resolves_step hfetch (wellFormed_run options visits hs) ⟨g, hg, hgbody⟩
      obtain ⟨k, fetched', calls', τ, ρ', hk, hplace', hfetched'⟩ := hresolves.fetchesInPlace hg
      refine ⟨k, fetched' ++ fetched, calls' ++ calls, _, _, hk, hplace.trans hplace' ?_,
        fun p => ?_⟩
      -- What has been fetched before is another parameter, as each is visited once.
      · intro i hi hi'
        obtain ⟨p', hp', rfl⟩ := List.mem_map.mp hi
        obtain ⟨p, hp, hsame⟩ := List.mem_map.mp hi'
        obtain ⟨before, after, hsplit, -⟩ := (hfetched p).mp hp
        refine hnew (q.1, p.1) ?_ q List.mem_cons_self ?_
        · exact hsplit ▸ List.mem_append_right _ List.mem_cons_self
        · rw [hsame, ((hfetched' p').mp hp').1]
      · rw [List.mem_append, hfetched', hfetched]
        refine or_congr ⟨?_, ?_⟩ Iff.rfl
        · rintro ⟨hindex, hfetchable⟩
          exact ⟨Prod.ext rfl hindex.symm, hindex ▸ hfetchable⟩
        · rintro ⟨hvisit, hfetchable⟩
          have hindex : q.2 = p.1 := congrArg Prod.snd hvisit
          exact ⟨hindex.symm, hindex ▸ hfetchable⟩
    · refine ⟨g, fetched, calls, σ, ρ, (function?_step heq).trans hg, hplace, fun p => ?_⟩
      rw [hfetched, or_iff_right]
      rintro ⟨rfl, -⟩
      exact heq rfl

end Resolution

namespace Module

variable {m : Module}

/-- **Functions do what they did, with what they fetch in place of their parameters.** Each step of
the pass lets one function fetch the resource of one parameter, if that can be fetched, or only marks
the parameter; and in the end each function has fetched in turn what could be fetched. -/
theorem resolveParameters_fetchesInPlace (hm : m.WellFormed) (c : Compilation)
    (hfetch : c.options.fetch = true) :
    (∀ before id index after, m.visits = before ++ (id, index) :: after →
      (m.beforePass.run c.options before).program.Resolves id index
        (m.beforePass.run c.options (before ++ [(id, index)])).program) ∧
    ∃ m' changed, (m.resolveParameters c).result = .ok (m', changed) ∧
      m' = (m.beforePass.run c.options m.visits).program ∧
      ∀ id f, m.function? id = some f → ∃ g fetched calls σ ρ, m'.function? id = some g ∧
        f.FetchesInPlace g fetched calls σ ρ ∧ f.Substitutes g σ ρ ∧
        ∀ p, p ∈ fetched ↔ ∃ before after, m.visits = before ++ (id, p.1) :: after ∧
          (m.beforePass.run c.options before).program.Fetchable id p.1 p.2 := by
  refine ⟨fun before id index after hsplit => ?_, _, _, rfl, rfl, fun id f hf => ?_⟩
  · have hvisit : (id, index) ∈ m.visits := hsplit ▸ List.mem_append_right _ List.mem_cons_self
    rw [Resolution.run_append]
    refine Resolution.resolves_step hfetch (Resolution.wellFormed_run c.options before hm) ?_
    exact (fetching_beforePass hm.linked c.options before).exists_body (mem_visits.mp hvisit).1.1
  · obtain ⟨g, fetched, calls, σ, ρ, hg, hplace, hfetched⟩ :=
      Resolution.fetchesInPlace_run (s := m.beforePass) hfetch hm hf m.visits m.nodup_visits
        fun q hq hid => by
          obtain ⟨f', hf', hbody⟩ := isDefined_iff.mp (mem_visits.mp hq).1.1
          rw [hid] at hf'
          cases hf.symm.trans hf'
          exact hbody
    exact ⟨g, fetched, calls, σ, ρ, hg, hplace, hplace.substitutes (hm.function hf), hfetched⟩

end Module

/-! ### Two parameters of one function -/

/-- A kernel passes one resource behind an access, and another as it is. -/
def copySource : String :=
  "declare @kernbind.resource.0(u32, u32) -> ptr<global, f32> pure
fn @copy(%from: ptr<global, f32>, %to: ptr<global, f32>) \x7b
  %value = load %from
  store %value, %to
\x7d
kernel @k() \x7b
  %a = call @kernbind.resource.0(0u, 0u)
  %from = access %a, 0
  %to = call @kernbind.resource.0(0u, 1u)
  call @copy(%from, %to)
\x7d"

/-- The function fetches both, the first one at a depth of one. -/
theorem resolveParameters_fetchesInPlace_copy : ∃ m m' changed f g fetched calls σ ρ,
    Module.read copySource = .ok m ∧ m.WellFormed ∧
    (m.resolveParameters (.start fetchOptions [])).result = .ok (m', changed) ∧
    m.function? 1 = some f ∧ m'.function? 1 = some g ∧
    f.FetchesInPlace g fetched calls σ ρ ∧ f.Substitutes g σ ρ ∧
    (0, ⟨⟨0, 0, 0, 1⟩, [1], [some (.u32 0), some (.u32 0)]⟩) ∈ fetched ∧
    (1, ⟨⟨0, 0, 1, 0⟩, [], [some (.u32 0), some (.u32 1)]⟩) ∈ fetched := by
  have hcheck : (Module.read copySource).toOption.any (fun m =>
      m.visits == [(1, 0), (1, 1)] && (m.function? 1).isSome &&
      ((m.parameterProvenance 1 0).toOption.any
        (· == ⟨⟨0, 0, 0, 1⟩, [1], [some (.u32 0), some (.u32 0)]⟩)) &&
      ((m.beforePass.run fetchOptions [(1, 0)]).program.parameterProvenance 1 1).toOption.any
        (· == ⟨⟨0, 0, 1, 0⟩, [], [some (.u32 0), some (.u32 1)]⟩)) := by
    decide +kernel
  obtain ⟨m, hread, hcheck⟩ := exists_of_any_toOption hcheck
  simp only [Bool.and_eq_true, beq_iff_eq] at hcheck
  obtain ⟨⟨⟨hvisits, hf⟩, hfirst⟩, hsecond⟩ := hcheck
  obtain ⟨f, hf⟩ := Option.isSome_iff_exists.mp hf
  obtain ⟨o, ho, hfirst⟩ := exists_of_any_toOption hfirst
  obtain ⟨o', ho', hsecond⟩ := exists_of_any_toOption hsecond
  rw [beq_iff_eq] at hfirst hsecond
  subst hfirst
  subst hsecond
  have hm := Module.wellFormed_of_read hread
  obtain ⟨-, m', changed, hresult, -, hfunctions⟩ :=
    Module.resolveParameters_fetchesInPlace hm (.start fetchOptions []) rfl
  obtain ⟨g, fetched, calls, σ, ρ, hg, hplace, hsubstitutes, hfetched⟩ := hfunctions 1 f hf
  refine ⟨m, m', changed, f, g, fetched, calls, σ, ρ, hread, hm, hresult, hf, hg, hplace,
    hsubstitutes, (hfetched _).mpr ⟨[], [(1, 1)], hvisits, Module.fetchable_iff.mpr ⟨ho, ?_⟩⟩,
    (hfetched _).mpr ⟨[(1, 0)], [], hvisits, Module.fetchable_iff.mpr ⟨ho', ?_⟩⟩⟩
  · simp
  · simp

end ResourceBinding
