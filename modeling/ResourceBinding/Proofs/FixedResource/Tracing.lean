import ResourceBinding.Proofs.FixedResource.Accesses

/-!
# What a value leads to

An argument is followed through its accesses (`Function.Peels`), however many they are. It leads to
a resource if what is met behind them is the result of a call that names a slot (`Module.Traces`),
and otherwise what is met decides on the reason (`Module.Strays`). Where the accesses form a cycle
it is that no accessor is met.

* `Module.provenance_eq_ok_iff` and `Module.provenance_eq_error_iff`: that is the origin that is
  found, and the reason why none is.

The call that a result comes from is the first one in the body that has it.
-/

namespace ResourceBinding

/-- The operand of the call at a position is an integer literal of this value. -/
def Function.HasOperand (f : Function) (c : Call) (i n : Nat) : Prop :=
  ∃ a l, c.arguments[i]? = some a ∧ f.literal? a = some l ∧ l.natural? = some n

theorem Function.hasOperand_iff {f : Function} {c : Call} {i n : Nat} :
    f.HasOperand c i n ↔ constantOperand (c.arguments.map f.literal?) i = .ok n := by
  unfold HasOperand constantOperand
  rw [List.getElem?_map]
  cases c.arguments[i]? with
  | none => simp
  | some a =>
    cases hl : f.literal? a with
    | none => simp [hl]
    | some l => cases hn : l.natural? <;> simp [hl, hn]

theorem constantOperand_eq_error {operands : List (Option Literal)} {i : Nat}
    (h : ∀ n, constantOperand operands i ≠ .ok n) :
    constantOperand operands i = .error .unknownBinding := by
  unfold constantOperand at h ⊢
  split
  · rename_i n hn
    rw [hn] at h
    exact absurd rfl (h n)
  · rfl

/-- The origin with accesses around it, of which the outermost is given first. -/
def Provenance.behind (o : Provenance) (counts : List Nat) : Provenance :=
  { o with
    resource := { o.resource with depth := o.resource.depth + counts.length }
    indexCounts := counts ++ o.indexCounts }

namespace Module

variable {m : Module} {caller : Function} {value origin : ExprId} {counts : List Nat}
  {id callee : FunctionId} {index : Nat} {site : FunctionId × Call} {o : Provenance}
  {d : FixedResource} {reason : Obstacle} {c : Call}

/-! ## What is met behind the accesses -/

/-- The result is one of an accessor, and the call names the slot of the resource. -/
structure Obtained (m : Module) (caller : Function) (result : ExprId) (c : Call)
    (d : FixedResource) : Prop where
  result : caller.expr? result = some (.result d.accessor)
  accessor : m.isAccessor d.accessor = true
  set : caller.HasOperand c 0 d.set
  binding : caller.HasOperand c 1 d.binding

/-- The value leads, through as many accesses at zero indices as the depth says, to a result that is
obtained by the first call that has it. -/
def Traces (m : Module) (caller : Function) (value : ExprId) (o : Provenance) : Prop :=
  ∃ result c, caller.Peels o.indexCounts value result ∧ o.indexCounts.length = o.resource.depth ∧
    caller.callOf? result = some c ∧ m.Obtained caller result c o.resource ∧
    o.operands = c.arguments.map caller.literal?

/-- Why the value leads to no resource. -/
inductive Strays (m : Module) (caller : Function) (value : ExprId) : Obstacle → Prop
  | forwarded {counts : List Nat} {origin : ExprId} {i : Nat} :
      caller.Peels counts value origin → caller.expr? origin = some (.parameter i) →
      Strays m caller value .forwarded
  | offset {counts : List Nat} {origin base : ExprId} {indices : List ExprId} :
      caller.Peels counts value origin → caller.expr? origin = some (.access base indices) →
      indices.all caller.isZeroIndex = false → Strays m caller value .offset
  | otherValue {counts : List Nat} {origin : ExprId} :
      caller.Peels counts value origin →
      (∀ base indices, caller.expr? origin ≠ some (.access base indices)) →
      (∀ i, caller.expr? origin ≠ some (.parameter i)) →
      (∀ callee, caller.expr? origin ≠ some (.result callee)) →
      Strays m caller value .otherOrigin
  | otherCallee {counts : List Nat} {origin : ExprId} {callee : FunctionId} :
      caller.Peels counts value origin → caller.expr? origin = some (.result callee) →
      m.isAccessor callee = false → Strays m caller value .otherOrigin
  | noCall {counts : List Nat} {origin : ExprId} {callee : FunctionId} :
      caller.Peels counts value origin → caller.expr? origin = some (.result callee) →
      caller.callOf? origin = none → Strays m caller value .otherOrigin
  | endless : caller.Endless value → Strays m caller value .otherOrigin
  | unknownSlot {counts : List Nat} {origin : ExprId} {callee : FunctionId} {c : Call} {i : Nat} :
      caller.Peels counts value origin → caller.expr? origin = some (.result callee) →
      m.isAccessor callee = true → caller.callOf? origin = some c → i < 2 →
      (∀ n, ¬ caller.HasOperand c i n) → Strays m caller value .unknownBinding

/-! ## Following the accesses -/

theorem provenanceWithin_of_peels (h : caller.Peels counts value origin) (levels : Nat) :
    m.provenanceWithin caller (counts.length + levels) value
      = (m.provenanceWithin caller levels origin).map (·.behind counts) := by
  induction h with
  | here =>
    rw [List.length_nil, Nat.zero_add]
    cases m.provenanceWithin caller levels _ <;> rfl
  | access haccess _ ih =>
    rw [List.length_cons, Nat.add_right_comm, provenanceWithin, haccess.1]
    simp only [haccess.2, Bool.not_true, Bool.false_eq_true, if_false, ih]
    cases m.provenanceWithin caller levels _ <;> rfl

/-- Where there is no access to follow, it does not matter how many may be followed. -/
theorem provenanceWithin_of_stops (h : caller.Stops origin) (levels : Nat) :
    m.provenanceWithin caller levels origin = m.provenanceWithin caller 0 origin := by
  rw [provenanceWithin.eq_def, provenanceWithin.eq_def]
  cases horigin : caller.expr? origin with
  | none => rfl
  | some e =>
    cases e with
    | access base indices => simp [h.not_access horigin, -List.all_eq_true, -List.all_eq_false]
    | _ => rfl

/-- **The end of the accesses decides on the origin of a value.** There are as many as may be
followed, at most. -/
theorem provenance_of_peels (h : caller.Peels counts value origin) (hstops : caller.Stops origin) :
    m.provenance caller value
      = (m.provenanceWithin caller 0 origin).map (·.behind counts) := by
  have hle : counts.length ≤ caller.expressions.size + 1 :=
    Nat.le_succ_of_le (h.length_le_size hstops)
  obtain ⟨levels, hlevels⟩ := Nat.exists_eq_add_of_le hle
  rw [provenance, hlevels, provenanceWithin_of_peels h, provenanceWithin_of_stops hstops]

theorem provenance_of_endless (h : caller.Endless value) :
    m.provenance caller value = .error .otherOrigin := by
  obtain ⟨counts, origin, hlength, hpeels⟩ := h (caller.expressions.size + 1)
  have hgoes := h.not_stops hpeels
  unfold Function.Stops at hgoes
  push Not at hgoes
  obtain ⟨base, indices, haccess⟩ := hgoes
  have hend : m.provenanceWithin caller 0 origin = .error .otherOrigin := by
    rw [provenanceWithin, haccess.1]
    simp only [haccess.2, Bool.not_true, Bool.false_eq_true, if_false]
  rw [provenance, ← hlength, ← Nat.add_zero counts.length, provenanceWithin_of_peels hpeels, hend]
  rfl

/-! ## The origin of a value -/

theorem Obtained.callProvenance (h : m.Obtained caller origin c d)
    (hcall : caller.callOf? origin = some c) :
    m.callProvenance caller origin d.accessor
      = .ok ⟨{ d with depth := 0 }, [], c.arguments.map caller.literal?⟩ := by
  rw [Module.callProvenance, h.accessor, hcall]
  simp [Function.hasOperand_iff.mp h.set, Function.hasOperand_iff.mp h.binding, bind, Except.bind]
  rfl

theorem Traces.provenance (h : m.Traces caller value o) : m.provenance caller value = .ok o := by
  obtain ⟨result, c, hpeels, hdepth, hcall, hobtained, hoperands⟩ := h
  have hstops := Function.stops_of_expr? hobtained.result (by simp)
  rw [provenance_of_peels hpeels hstops, provenanceWithin, hobtained.result]
  simp only [hobtained.callProvenance hcall]
  simp [Except.map, Provenance.behind, hdepth, ← hoperands]

theorem Strays.provenance (h : m.Strays caller value reason) :
    m.provenance caller value = .error reason := by
  cases h with
  | forwarded hpeels horigin =>
    have hstops := Function.stops_of_expr? horigin (by simp)
    rw [provenance_of_peels hpeels hstops, provenanceWithin, horigin]
    rfl
  | @offset counts origin base indices hpeels horigin hindex =>
    have hstops : caller.Stops origin := by
      rintro base' indices' ⟨horigin', hzero⟩
      cases horigin.symm.trans horigin'
      cases hindex.symm.trans hzero
    rw [provenance_of_peels hpeels hstops, provenanceWithin, horigin]
    simp only [hindex, Bool.not_false, if_true]
    rfl
  | @otherValue counts origin hpeels haccess hparameter hresult =>
    have hstops : caller.Stops origin := fun base indices h => haccess base indices h.1
    rw [provenance_of_peels hpeels hstops, provenanceWithin.eq_def]
    cases horigin : caller.expr? origin with
    | none => rfl
    | some e => cases e <;> simp_all [Except.map]
  | otherCallee hpeels horigin hcallee =>
    have hstops := Function.stops_of_expr? horigin (by simp)
    rw [provenance_of_peels hpeels hstops, provenanceWithin, horigin]
    simp only [callProvenance, hcallee, Bool.not_false, if_true]
    rfl
  | noCall hpeels horigin hcall =>
    have hstops := Function.stops_of_expr? horigin (by simp)
    rw [provenance_of_peels hpeels hstops, provenanceWithin, horigin]
    simp only [callProvenance, hcall, ite_self]
    rfl
  | endless hendless => exact provenance_of_endless hendless
  | @unknownSlot counts origin callee c i hpeels horigin hcallee hcall hi hnone =>
    have hstops := Function.stops_of_expr? horigin (by simp)
    rw [provenance_of_peels hpeels hstops, provenanceWithin, horigin]
    have herror : constantOperand (c.arguments.map caller.literal?) i = .error .unknownBinding :=
      constantOperand_eq_error fun n hn => hnone n (Function.hasOperand_iff.mpr hn)
    simp only [callProvenance, hcallee, hcall, Bool.not_true, Bool.false_eq_true, if_false]
    -- Either operand gives the reason, the set before the binding.
    obtain rfl | rfl : i = 0 ∨ i = 1 := by omega
    · rw [herror]
      rfl
    · by_cases hset : ∃ n, constantOperand (c.arguments.map caller.literal?) 0 = .ok n
      · obtain ⟨set, hset⟩ := hset
        rw [hset, herror]
        rfl
      · rw [constantOperand_eq_error (not_exists.mp hset)]
        rfl

/-- A result of a call leads to a resource, or it is clear why not. -/
theorem traces_or_strays_of_result (hpeels : caller.Peels counts value origin)
    (horigin : caller.expr? origin = some (.result callee)) :
    (∃ o, m.Traces caller value o) ∨ ∃ reason, m.Strays caller value reason := by
  cases haccessor : m.isAccessor callee with
  | false => exact .inr ⟨_, .otherCallee hpeels horigin haccessor⟩
  | true =>
    cases hcall : caller.callOf? origin with
    | none => exact .inr ⟨_, .noCall hpeels horigin hcall⟩
    | some c =>
      by_cases hset : ∃ set, caller.HasOperand c 0 set
      · by_cases hbinding : ∃ binding, caller.HasOperand c 1 binding
        · obtain ⟨set, hset⟩ := hset
          obtain ⟨binding, hbinding⟩ := hbinding
          exact .inl ⟨⟨⟨callee, set, binding, counts.length⟩, counts, _⟩, origin, c, hpeels, rfl,
            hcall, ⟨horigin, haccessor, hset, hbinding⟩, rfl⟩
        · exact .inr ⟨_, .unknownSlot hpeels horigin haccessor hcall (by decide : 1 < 2)
            (not_exists.mp hbinding)⟩
      · exact .inr ⟨_, .unknownSlot hpeels horigin haccessor hcall (by decide : 0 < 2)
          (not_exists.mp hset)⟩

/-- **Each value leads to a resource, or it is clear why not.** -/
theorem traces_or_strays (m : Module) (caller : Function) (value : ExprId) :
    (∃ o, m.Traces caller value o) ∨ ∃ reason, m.Strays caller value reason := by
  rcases caller.stops_or_endless value with ⟨counts, origin, hpeels, hstops⟩ | hendless
  · cases horigin : caller.expr? origin with
    | none => exact .inr ⟨_, .otherValue hpeels (by simp [horigin]) (by simp [horigin])
        (by simp [horigin])⟩
    | some e =>
      cases e with
      | access base indices =>
        exact .inr ⟨_, .offset hpeels horigin (hstops.not_access horigin)⟩
      | parameter i => exact .inr ⟨_, .forwarded hpeels horigin⟩
      | result callee => exact traces_or_strays_of_result hpeels horigin
      | _ => exact .inr ⟨_, .otherValue hpeels (by simp [horigin]) (by simp [horigin])
          (by simp [horigin])⟩
  · exact .inr ⟨_, .endless hendless⟩

/-- **The origin of a value is what it leads to.** -/
theorem provenance_eq_ok_iff : m.provenance caller value = .ok o ↔ m.Traces caller value o := by
  refine ⟨fun h => ?_, Traces.provenance⟩
  rcases m.traces_or_strays caller value with ⟨o', ho'⟩ | ⟨reason, hreason⟩
  · cases h.symm.trans ho'.provenance
    exact ho'
  · cases h.symm.trans hreason.provenance

/-- **A value without an origin goes astray for that reason.** -/
theorem provenance_eq_error_iff :
    m.provenance caller value = .error reason ↔ m.Strays caller value reason := by
  refine ⟨fun h => ?_, Strays.provenance⟩
  rcases m.traces_or_strays caller value with ⟨o, ho⟩ | ⟨reason', hreason'⟩
  · cases h.symm.trans ho.provenance
  · cases h.symm.trans hreason'.provenance
    exact hreason'

theorem Traces.not_literal (h : m.Traces caller value o) (l : Literal) :
    caller.literal? value ≠ some l := by
  obtain ⟨result, c, hpeels, -, -, hobtained, -⟩ := h
  exact hpeels.not_literal hobtained.result (by simp) l

/-! ## The origin of an argument -/

theorem argumentProvenance_eq_ok_iff : m.argumentProvenance index site = .ok o ↔
    ∃ value caller, site.2.arguments[index]? = some value ∧ m.function? site.1 = some caller ∧
      m.Traces caller value o := by
  unfold argumentProvenance
  cases hvalue : site.2.arguments[index]? with
  | none => simp
  | some value =>
    cases hcaller : m.function? site.1 with
    | none => simp
    | some caller => simp [provenance_eq_ok_iff]

/-- There are as many accesses as the depth of the resource says. -/
theorem length_indexCounts (h : m.argumentProvenance index site = .ok o) :
    o.indexCounts.length = o.resource.depth := by
  obtain ⟨value, caller, -, -, -, -, -, hdepth, -⟩ := argumentProvenance_eq_ok_iff.mp h
  exact hdepth

end Module

end ResourceBinding
