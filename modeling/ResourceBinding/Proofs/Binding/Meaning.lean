import ResourceBinding.Proofs.Binding.Allocation

/-!
# Binding the arguments keeps the meaning of the kernels

A kernel with bound arguments does what it did, with what it fetches in place of its parameters:
the same statements in the same order and nesting, behind one call for each parameter, and in every
place of an operand the same tree, where other trees stand in place of the parameters.
-/

namespace ResourceBinding

/-- The kernel `f` of `m` has become `g` in `m'`: the calls stand in front of the body, each use of
an expression `id` has become a use of `σ id`, and the tree `ρ p` stands in place of the parameter
`p`. -/
structure Function.FetchesArguments (m m' : Module) (f g : Function) (calls : List Call)
    (σ : ExprId → ExprId) (ρ : Nat → ValueTree) : Prop where
  signature : g = { f with expressions := g.expressions, body := g.body }
  /-- The old statements, slot by slot, behind the calls. -/
  body : g.body = f.body.map fun b => (b.mapOperands σ).prepend calls
  length_calls : calls.length = f.params.length
  /-- The call `p` is that of the accessor of the parameter `p`, with literal operands. -/
  fetches : ∀ (p : Nat) (param : Param), f.params[p]? = some param →
    ∃ (c : Call) (kind : ArgumentKind) (set index r : Nat), calls[p]? = some c ∧
      m.types.argumentKind param.type = .ok kind ∧
      m'.nameOf c.callee = ReservedName.accessor index ∧
      c.arguments.map g.literal?
        = [some (.u32 set), some (.u32 p), some (.u32 kind.tag), some (.u32 p)] ∧
      c.result = some r ∧ f.expressions.size ≤ r ∧ g.expr? r = some (.result c.callee) ∧
      ρ p = kind.replacement (.result c.callee r)
  /-- The results of the calls are told apart. -/
  distinct : (calls.map Call.result).Nodup
  /-- What an operand stands for is what it stood for, with the parameters replaced. -/
  unfolds_iff : ∀ id t, f.Unfolds id t → ∀ u, g.Unfolds (σ id) u ↔ u = t.substitute ρ
  /-- An operand that leads to no dangling one stood for something. -/
  exists_unfolds : ∀ id,
    (∀ op : Nat, Relation.ReflTransGen f.Uses id op → op < f.expressions.size) →
    ∃ t, f.Unfolds id t
  not_reads : ∀ op p, g.expr? op = some (.parameter p) → ¬ g.Reads op
  acyclic : g.Acyclic

variable {m m' : Module} {c : Compilation} {samplers : List SamplerRow} {changed : Bool}

/-- Each parameter of a bound kernel is fetched by a call of its accessor. -/
theorem Module.BoundBy.fetches {next final : Nat} {n : Numbering}
    {planned : List (FunctionId × List ArgumentRow)} (hbound : m.BoundBy next planned n final m')
    {f g : Function} {s : Nat} {rows : List ArgumentRow} {calls : List Call}
    {σ : ExprId → ExprId} {ρ : Nat → ValueTree} (hrows : BindAll m n f s 0 f.params rows)
    (hb : Function.Binds m.functions.size rows f g calls σ ρ) {p : Nat} {param : Param}
    (hp : f.params[p]? = some param) :
    ∃ (c : Call) (kind : ArgumentKind) (set index r : Nat), calls[p]? = some c ∧
      m.types.argumentKind param.type = .ok kind ∧
      m'.nameOf c.callee = ReservedName.accessor index ∧
      c.arguments.map g.literal?
        = [some (.u32 set), some (.u32 p), some (.u32 kind.tag), some (.u32 p)] ∧
      c.result = some r ∧ f.expressions.size ≤ r ∧ g.expr? r = some (.result c.callee) ∧
      ρ p = kind.replacement (.result c.callee r) := by
  obtain ⟨row, hrow, hbinds⟩ := hrows.getElem? hp
  obtain ⟨c, hc, r, hfetch, htree⟩ := exists_getElem?_of_forall₂ hb.fetches hrow
  have hname := hbound.nameOf_accessor (Numbering.lt_length_of_index? hbinds.discriminant)
  obtain ⟨r', hr', hge⟩ := hb.fresh c (List.mem_of_getElem? hc)
  obtain rfl : r' = r := Option.some.inj (hr'.symm.trans hfetch.result)
  have hoperands := hfetch.operands
  rw [Nat.zero_add] at hbinds
  rw [hbinds.position] at htree
  refine ⟨c, row.kind, row.set, row.discriminant, r', hc, ?_, ?_, ?_, hr', hge, hfetch.expr, htree⟩
  · exact Planner.argumentKind_of_kind hbinds.kind
  · rw [hfetch.callee]
    exact hname
  · rw [hoperands, ArgumentRow.operands, hbinds.binding, hbinds.position]
    rfl

/-- **Binding the arguments keeps the meaning of the kernels.** A kernel with `n` parameters fetches
each of them before its old statements, which compute what they did, with what was fetched in place
of the parameters. All other functions stay as they are, and all that is added are declarations of
accessors. -/
theorem Module.allocateArguments_preserves_meaning
    (hacyclic : ∀ f ∈ m.functions, f.Acyclic)
    (hparams : ∀ f ∈ m.functions, ∀ id p, f.expr? id = some (.parameter p) → p < f.params.length)
    (h : (m.allocateArguments c samplers).result = .ok (m', changed)) :
    (∀ id f, m.function? id = some f → f.isKernel → ∃ g calls σ ρ,
      m'.function? id = some g ∧ Function.FetchesArguments m m' f g calls σ ρ) ∧
    (∀ id f, m.function? id = some f → ¬ f.isKernel → m'.function? id = some f) ∧
    ∀ (id : Nat) (f : Function), m.functions.size ≤ id → m'.function? id = some f →
      ∃ index, f.DeclaresAccessor index := by
  obtain ⟨planned, n, final, hbound, -⟩ := allocateArguments_ok h
  refine ⟨fun id f hf hkernel => ?_, fun id f => hbound.other,
    fun id f hid hf => ⟨_, (hbound.declares_of_le hid hf).2⟩⟩
  have hmem : f ∈ m.functions := mem_functions_iff.mpr ⟨id, hf⟩
  obtain ⟨s, rows, -, hrows, hg⟩ := hbound.kernel hf hkernel
  obtain ⟨σ, ρ, hb⟩ := Function.binds_bindEach m.functions.size rows f hrows.nodup_position
  refine ⟨_, (Function.bindEach m.functions.size rows f).1, σ, ρ, hg, {
    signature := (f.bindArguments_frame _ hrows.nodup_position).1
    body := ?_
    length_calls := ?_
    fetches := fun p param hp => hbound.fetches hrows hb hp
    distinct := hb.distinct
    unfolds_iff := ?_
    exists_unfolds := fun id hin => Function.exists_unfolds (hacyclic f hmem) hin
    not_reads := ?_
    acyclic := hb.revises.acyclic (hacyclic f hmem) }⟩
  · change Option.map _ (Function.bindEach m.functions.size rows f).2.body = _
    rw [hb.revises.body, Option.map_map]
    rfl
  · rw [← List.Forall₂.length_eq hb.fetches, hrows.length_eq]
  · intro id t ht u
    have hsame : ∀ id e, (Function.bindEach m.functions.size rows f).2.expr? id = some e →
        (f.bindArguments m.functions.size rows).expr? id = some e := fun _ _ he => he
    -- Putting calls in front changes no expression, and trees are unique.
    have htree := (hb.revises.unfolds hb.unfolds ht).mono hsame
    constructor
    · exact fun hu => hu.unique htree
    · rintro rfl
      exact htree
  · intro op p hop
    have hp : p < f.params.length := hparams f hmem op p (hb.revises.parameter_iff.mp hop)
    refine Function.not_reads_prependCalls (fun c hc => ?_) hop
      (hb.revises.not_reads_parameter (fun op hop => hb.moved op p ?_ hop) hop)
    · obtain ⟨row, -, r, hfetch, -⟩ := exists_mem_of_forall₂ hb.fetches hc
      exact ⟨_, hfetch.operands⟩
    · rw [hrows.map_position]
      simpa using hp

theorem allocateArguments_scale : ∃ m' g calls σ ρ,
    (scaleModule.allocateArguments (.start .none []) []).result = .ok (m', true) ∧
    m'.function? 0 = some g ∧
    Function.FetchesArguments scaleModule m' scaleKernel g calls σ ρ := by
  have hok : (scaleModule.allocateArguments (.start .none []) []).result.toOption.any (·.2) := by
    decide +kernel
  cases h : (scaleModule.allocateArguments (.start .none []) []).result with
  | error fault =>
    rw [h] at hok
    cases hok
  | ok r =>
    obtain ⟨m', changed⟩ := r
    rw [h] at hok
    obtain rfl : changed = true := hok
    have hmem : ∀ f ∈ scaleModule.functions, f = scaleKernel := by simp [scaleModule]
    have hmeaning := Module.allocateArguments_preserves_meaning
      (fun f hf => hmem f hf ▸ Function.acyclic_of_usesEarlier (by decide))
      (fun f hf id p hid => ?_) h
    · obtain ⟨g, calls, σ, ρ, hg, hfetches⟩ := hmeaning.1 0 scaleKernel rfl rfl
      exact ⟨m', g, calls, σ, ρ, rfl, hg, hfetches⟩
    · obtain rfl := hmem f hf
      have hp := Array.mem_of_getElem? hid
      simp only [scaleKernel, List.mem_toArray, List.mem_cons, Expr.parameter.injEq, reduceCtorEq,
        List.not_mem_nil, or_false, false_or] at hp
      rcases hp with rfl | rfl <;> decide

end ResourceBinding
