import ResourceBinding.Proofs.Listing.Content
import ResourceBinding.Proofs.Listing.RoundTrip

/-!
# Listings are faithful

Where no value has the name of a parameter, the listing of a function tells what it computes. Two
functions that are written alike then have the same statements in the same nesting, and operands
that stand for the same trees (`Function.WrittenAlike.alike`). So a module that is read again from
its listing is the same as before (`Module.read_listing_same`).

A value that hides a parameter may be defined further up in the listing than it was in the text: in
front of its first use. A use of the parameter that stood above it then stands below, and is read as
a use of the value.
-/

namespace ResourceBinding

/-! ## Modules that compute the same -/

namespace ValueTree

mutual

/-- The tree with `label r` in place of each place `r` of a result. -/
def relabel (label : ExprId → Nat) : ValueTree → ValueTree
  | literal l => literal l
  | parameter p => parameter p
  | result callee id => result callee (label id)
  | access base indices => access (relabel label base) (relabelEach label indices)
  | load pointer => load (relabel label pointer)
  | binary op left right => binary op (relabel label left) (relabel label right)

/-- The trees with `label r` in place of each place `r` of a result. -/
def relabelEach (label : ExprId → Nat) : List ValueTree → List ValueTree
  | [] => []
  | t :: ts => relabel label t :: relabelEach label ts

end

end ValueTree

/-- The position, among the calls in program order, of the call that makes a result. -/
def Function.callPosition (f : Function) (r : ExprId) : Nat :=
  f.calls.findIdx (·.result == some r)

/-- The expressions stand for the same tree, where a result is told by its call. -/
def Function.SameValue (f g : Function) (id id' : ExprId) : Prop :=
  ∃ t u, f.Unfolds id t ∧ g.Unfolds id' u ∧ t.relabel f.callPosition = u.relabel g.callPosition

/-- The statements are the same but for their operands, which are related. -/
inductive Stmt.Alike (R : ExprId → ExprId → Prop) : Stmt → Stmt → Prop
  | store {pointer pointer' value value' : ExprId} :
      R pointer pointer' → R value value' → Alike R (.store pointer value) (.store pointer' value')
  | call {c c' : Call} :
      c'.callee = c.callee → c'.result.isSome = c.result.isSome →
      List.Forall₂ R c.arguments c'.arguments → Alike R (.call c) (.call c')
  | leave : Alike R .leave .leave
  | ret {value value' : Option ExprId} :
      Option.Rel R value value' → Alike R (.ret value) (.ret value')

/-- The blocks have the same statements in the same nesting, but for their operands, which are
related. -/
inductive Block.Alike (R : ExprId → ExprId → Prop) : Block → Block → Prop
  | nil : Alike R .nil .nil
  | cons {s s' : Stmt} {b b' : Block} : s.Alike R s' → Alike R b b' → Alike R (.cons s b) (.cons s' b')
  | branch {condition condition' : ExprId} {accept accept' reject reject' b b' : Block} :
      R condition condition' → Alike R accept accept' → Alike R reject reject' → Alike R b b' →
      Alike R (.branch condition accept reject b) (.branch condition' accept' reject' b')
  | loop {body body' b b' : Block} :
      Alike R body body' → Alike R b b' → Alike R (.loop body b) (.loop body' b')

/-- The functions have the same signature and compute the same. -/
structure Function.SameIn (m m' : Module) (f g : Function) : Prop where
  signature : ∃ s : Signature, s.Writes m.names m.types f ∧ s.Writes m'.names m'.types g
  body : Option.Rel (Block.Alike (f.SameValue g)) f.body g.body

/-- The modules have the same functions in the same order. -/
def Module.Same (m m' : Module) : Prop :=
  List.Forall₂ (Function.SameIn m m') m.functions.toList m'.functions.toList

/-- No value has the name of a parameter. -/
def Function.HidesNone (f : Function) : Prop :=
  ∀ id e, f.expr? id = some e → e.isNamed → ∀ p ∈ f.params, p.name ≠ some (f.shownName id)

/-! ## Operations on the same values -/

theorem Expr.literal_or_parameter_or_isNamed (e : Expr) :
    (∃ l, e = .literal l) ∨ (∃ p, e = .parameter p) ∨ e.isNamed := by
  cases e with
  | literal l => exact .inl ⟨l, rfl⟩
  | parameter p => exact .inr (.inl ⟨p, rfl⟩)
  | _ => exact .inr (.inr rfl)

section SameValue

variable {f g : Function} {id id' : ExprId} {ids ids' : List ExprId} {e e' : Expr}
  {operation : String}

/-- Operations that are written with the same word differ in their operands alone. -/
theorem Expr.eq_withOperands (h : e.operation? = some operation)
    (h' : e'.operation? = some operation) : e' = e.withOperands e'.operands := by
  have hsame := h'.trans h.symm
  cases e with
  | literal l | parameter p | result callee => cases h
  | access base indices =>
    cases e' with
    | access base' indices' => rfl
    | binary op left right => cases op <;> simp [operation?, BinaryOp.word] at hsame
    | _ => simp [operation?] at hsame
  | load pointer =>
    cases e' with
    | load pointer' => rfl
    | binary op left right => cases op <;> simp [operation?, BinaryOp.word] at hsame
    | _ => simp [operation?] at hsame
  | binary op left right =>
    cases e' with
    | binary op' left' right' =>
      cases op <;> cases op' <;> first | rfl | simp [operation?, BinaryOp.word] at hsame
    | _ => cases op <;> simp [operation?, BinaryOp.word] at hsame

theorem exists_unfoldsEach_of_sameValue (h : List.Forall₂ (f.SameValue g) ids ids') :
    ∃ ts us, f.UnfoldsEach ids ts ∧ g.UnfoldsEach ids' us ∧
      ValueTree.relabelEach f.callPosition ts = ValueTree.relabelEach g.callPosition us := by
  induction h with
  | nil => exact ⟨[], [], .nil, .nil, rfl⟩
  | cons hid _ ih =>
    obtain ⟨t, u, ht, hu, heq⟩ := hid
    obtain ⟨ts, us, hts, hus, hall⟩ := ih
    refine ⟨t :: ts, u :: us, .cons ht hts, .cons hu hus, ?_⟩
    rw [ValueTree.relabelEach, ValueTree.relabelEach, heq, hall]

/-- **The same operation on the same values stands for the same tree.** -/
theorem sameValue_of_operands (he : f.expr? id = some e) (he' : g.expr? id' = some e')
    (hop : e.operation? = some operation) (hop' : e'.operation? = some operation)
    (h : List.Forall₂ (f.SameValue g) e.operands e'.operands) : f.SameValue g id id' := by
  rw [Expr.eq_withOperands hop hop'] at he'
  generalize e'.operands = ops at h he'
  cases e with
  | literal l | parameter p | result callee => cases hop
  | access base indices =>
    cases h with
    | cons hbase hindices =>
      obtain ⟨t, u, ht, hu, heq⟩ := hbase
      obtain ⟨ts, us, hts, hus, hall⟩ := exists_unfoldsEach_of_sameValue hindices
      refine ⟨.access t ts, .access u us, .access he ht hts, .access he' hu hus, ?_⟩
      rw [ValueTree.relabel, ValueTree.relabel, heq, hall]
  | load pointer =>
    cases h with
    | cons hpointer _ =>
      obtain ⟨t, u, ht, hu, heq⟩ := hpointer
      refine ⟨.load t, .load u, .load he ht, .load he' hu, ?_⟩
      rw [ValueTree.relabel, ValueTree.relabel, heq]
  | binary op left right =>
    cases h with
    | cons hleft hrest =>
      cases hrest with
      | cons hright _ =>
        obtain ⟨t, u, ht, hu, hleft⟩ := hleft
        obtain ⟨t', u', ht', hu', hright⟩ := hright
        refine ⟨.binary op t t', .binary op u u', .binary he ht ht', .binary he' hu hu', ?_⟩
        rw [ValueTree.relabel, ValueTree.relabel, hleft, hright]

end SameValue

/-! ## Functions that are written alike -/

namespace Function

/-- The expression is needed to run the block. -/
def Needs (f : Function) (b : Block) (id : ExprId) : Prop :=
  ∃ op ∈ b.operands, f.Reaches op id

theorem Needs.of_uses {f : Function} {b : Block} {id op : ExprId} (h : f.Needs b id)
    (huses : f.Uses id op) : f.Needs b op := by
  obtain ⟨root, hroot, hreaches⟩ := h
  exact ⟨root, hroot, hreaches.tail huses⟩

/-- A function that is well-formed and can be written, with its body. -/
structure Regular (m : Module) (b : Block) (f : Function) : Prop extends f.Legible where
  wellFormed : f.WellFormed m.functions.size m.types.size
  body : f.body = some b

namespace Regular

variable {m : Module} {f : Function} {b : Block} {id r : ExprId} {callee : FunctionId}
  {e : Expr} {operation : String}

theorem calls_eq (h : f.Regular m b) : f.calls = b.calls := by
  rw [calls, h.body]

theorem exists_expr? (h : f.Regular m b) (hid : f.Needs b id) : ∃ e, f.expr? id = some e := by
  obtain ⟨op, hop, hreaches⟩ := hid
  refine exists_expr?_of_lt (h.wellFormed.operand_lt id ?_)
  cases hreaches with
  | refl => exact .inr ⟨b, h.body, hop⟩
  | tail _ huses => exact .inl ⟨_, huses⟩

/-- A result is that of a call in the body. -/
theorem exists_call (h : f.Regular m b) (hr : f.expr? r = some (.result callee)) :
    ∃ c ∈ b.calls, c.result = some r ∧ c.callee = callee := by
  have hmade := h.wellFormed.made_perm.mem_iff.mpr (mem_resultIds.mpr ⟨callee, hr⟩)
  rw [made_steps, h.calls_eq] at hmade
  obtain ⟨c, hc, hresult⟩ := List.mem_filterMap.mp hmade
  have hsame := (h.wellFormed.result c (h.calls_eq ▸ hc) r hresult).symm.trans hr
  exact ⟨c, hc, hresult, by simpa using hsame⟩

/-- A call is told by the name of its result. -/
theorem result_eq_iff (h : f.Regular m b) (hr : f.expr? r = some (.result callee)) {c : Call}
    (hc : c ∈ b.calls) : (f.writtenCall m c).1 = some (f.shownName r) ↔ c.result = some r := by
  rw [writtenCall, Option.map_eq_some_iff]
  refine ⟨fun ⟨r', hr', hname⟩ => ?_, fun hresult => ⟨r, hresult, rfl⟩⟩
  have he := h.wellFormed.result c (h.calls_eq ▸ hc) r' hr'
  rw [hr', h.name_inj r' r _ _ he rfl hr rfl hname]

/-- **The call of a result is found by the name of the result.** -/
theorem callPosition_eq (h : f.Regular m b) (hr : f.expr? r = some (.result callee)) :
    f.callPosition r
      = (b.calls.map (f.writtenCall m)).findIdx (·.1 == some (f.shownName r)) := by
  rw [callPosition, h.calls_eq, List.findIdx_map]
  refine Nat.le_antisymm (List.findIdx_le_findIdx fun c hc heq => ?_)
    (List.findIdx_le_findIdx fun c hc heq => ?_)
  · exact beq_iff_eq.mpr ((h.result_eq_iff hr hc).mp (beq_iff_eq.mp heq))
  · exact beq_iff_eq.mpr ((h.result_eq_iff hr hc).mpr (beq_iff_eq.mp heq))

theorem exists_shows (h : f.Regular m b) :
    ∃ shown, f.Shows b.operands [] (f.writeBlock m b []).1.definitions shown := by
  have hresults : ∀ c ∈ b.calls, ∀ r, c.result = some r → ¬ f.IsOperation r := by
    intro c hc r hr hoperation
    obtain ⟨e, operation, he, hop⟩ := hoperation.exists_expr?
    cases (h.wellFormed.result c (h.calls_eq ▸ hc) r hr).symm.trans he
    cases hop
  have hsame : f.SameOperations [] [] := fun _ _ => Iff.rfl
  obtain ⟨shown, hshows, -⟩ :=
    exists_shows_writeBlock (m := m) h.wellFormed.acyclic hresults hsame
  exact ⟨shown, hshows⟩

end Regular

theorem HidesNone.shownName_ne {f : Function} (h : f.HidesNone) {name : String} {p : Nat}
    (hname : f.params.findIdx? (·.name == some name) = some p) {v : ExprId} {e : Expr}
    (hv : f.expr? v = some e) (hnamed : e.isNamed) : f.shownName v ≠ name := by
  obtain ⟨hlt, heq, -⟩ := List.findIdx?_eq_some_iff_getElem.mp hname
  rintro rfl
  exact h v e hv hnamed _ (List.getElem_mem hlt) (eq_of_beq heq)

/-- Two functions, of modules whose functions have the same names, are written alike. -/
structure WrittenAlike (m m' : Module) (b b' : Block) (f g : Function) : Prop where
  left : f.Regular m b
  right : g.Regular m' b'
  distinct : m.NamesDistinct
  names : m'.names = m.names
  params : g.params.map Param.name = f.params.map Param.name
  text : (f.writeBlock m b []).1 = (g.writeBlock m' b' []).1

namespace WrittenAlike

variable {m m' : Module} {f g : Function} {b b' : Block} {id id' r : ExprId}
  {callee callee' : FunctionId} {e e' : Expr} {operation : String}

theorem symm (h : WrittenAlike m m' b b' f g) : WrittenAlike m' m b' b g f where
  left := h.right
  right := h.left
  distinct := by
    rw [Module.NamesDistinct, h.names]
    exact h.distinct
  names := h.names.symm
  params := h.params.symm
  text := h.text.symm

theorem statements_eq (h : WrittenAlike m m' b b' f g) :
    f.writeStatements m b = g.writeStatements m' b' := by
  rw [← statements_writeBlock f m b [], h.text, statements_writeBlock]

theorem calls_eq (h : WrittenAlike m m' b b' f g) :
    b.calls.map (f.writtenCall m) = b'.calls.map (g.writtenCall m') := by
  rw [← calls_writeStatements, h.statements_eq, calls_writeStatements]

/-- Functions of the same name have the same position. -/
theorem callee_eq (h : WrittenAlike m m' b b' f g) (hcallee : (callee : Nat) < m.functions.size)
    (hcallee' : (callee' : Nat) < m'.functions.size) (hname : m.nameOf callee = m'.nameOf callee') :
    callee = callee' := by
  have hpos := h.symm.distinct.idxOf?_nameOf hcallee'
  rw [h.names, ← hname, h.distinct.idxOf?_nameOf hcallee] at hpos
  exact Option.some.inj hpos

/-- **A result has a counterpart of the same name, that of the same call.** -/
theorem exists_result (h : WrittenAlike m m' b b' f g) (hr : f.expr? r = some (.result callee)) :
    ∃ r', g.expr? r' = some (.result callee) ∧ g.shownName r' = f.shownName r ∧
      f.callPosition r = g.callPosition r' := by
  obtain ⟨c, hc, hresult, rfl⟩ := h.left.exists_call hr
  have hmem : f.writtenCall m c ∈ b'.calls.map (g.writtenCall m') :=
    h.calls_eq ▸ List.mem_map_of_mem hc
  obtain ⟨c', hc', hsame⟩ := List.mem_map.mp hmem
  have hname := congrArg Prod.fst hsame
  rw [(h.left.result_eq_iff hr hc).mpr hresult, writtenCall, Option.map_eq_some_iff] at hname
  obtain ⟨r', hr', hname⟩ := hname
  have hresult' := h.right.wellFormed.result c' (h.right.calls_eq ▸ hc') r' hr'
  have hcallee := h.callee_eq (h.left.wellFormed.callee_lt c (h.left.calls_eq ▸ hc))
    (h.right.wellFormed.callee_lt c' (h.right.calls_eq ▸ hc')) (congrArg Prod.snd hsame).symm
  refine ⟨r', hcallee ▸ hresult', hname, ?_⟩
  rw [h.left.callPosition_eq hr, h.right.callPosition_eq hresult', h.calls_eq, hname]

/-- **An operation that is needed has a counterpart of the same name**, whose operands are written
alike. -/
theorem exists_operation (h : WrittenAlike m m' b b' f g) (hid : f.Needs b id)
    (he : f.expr? id = some e) (hop : e.operation? = some operation) :
    ∃ v e', g.expr? v = some e' ∧ g.shownName v = f.shownName id ∧
      e'.operation? = some operation ∧
      e.operands.map f.operandToken = e'.operands.map g.operandToken := by
  obtain ⟨_, hshows⟩ := h.left.exists_shows
  obtain ⟨_, hshows'⟩ := h.right.exists_shows
  obtain ⟨op, hop', hreaches⟩ := hid
  obtain ⟨w, hw, hdefined⟩ := hshows.exists_definedBy hop' hreaches (isOperation_of_expr? he hop)
  rw [h.text] at hw
  obtain ⟨v, hdefined'⟩ := hshows'.defines w hw
  obtain ⟨e₁, he₁, hoperation, hoperands⟩ := hdefined.expr
  obtain ⟨e', he', hoperation', hoperands'⟩ := hdefined'.expr
  cases he.symm.trans he₁
  refine ⟨v, e', he', hdefined'.name.trans hdefined.name.symm, ?_, hoperands.trans hoperands'.symm⟩
  rw [hoperation', ← hoperation, hop]

/-- A value that is needed has a counterpart of the same name. -/
theorem exists_named (h : WrittenAlike m m' b b' f g) (hid : f.Needs b id)
    (he : f.expr? id = some e) (hnamed : e.isNamed) :
    ∃ v e', g.expr? v = some e' ∧ e'.isNamed ∧ g.shownName v = f.shownName id := by
  rcases Expr.isNamed_iff.mp hnamed with hop | ⟨callee, rfl⟩
  · obtain ⟨operation, hop⟩ := Option.isSome_iff_exists.mp hop
    obtain ⟨v, e', he', hname, hop', -⟩ := h.exists_operation hid he hop
    exact ⟨v, e', he', Expr.isNamed_of_operation? hop', hname⟩
  · obtain ⟨r', hr', hname, -⟩ := h.exists_result he
    exact ⟨r', _, hr', rfl, hname⟩

/-- **Operands that are written alike are of the same kind**, if no value hides a parameter. -/
theorem kind_eq (h : WrittenAlike m m' b b' f g) (hhides : f.HidesNone)
    (hid' : g.Needs b' id') (htoken : f.operandToken id = g.operandToken id')
    (he : f.expr? id = some e) (he' : g.expr? id' = some e') :
    (∃ l, e = .literal l ∧ e' = .literal l) ∨ (∃ p, e = .parameter p ∧ e' = .parameter p) ∨
      (e.isNamed ∧ e'.isNamed ∧ f.shownName id = g.shownName id') := by
  have hparams : ∀ name, g.params.findIdx? (·.name == some name)
      = f.params.findIdx? (·.name == some name) := findIdx?_congr h.params
  rcases e.literal_or_parameter_or_isNamed with ⟨l, rfl⟩ | ⟨p, rfl⟩ | hnamed
  · rw [operandToken_of_literal he] at htoken
    rcases e'.literal_or_parameter_or_isNamed with ⟨l', rfl⟩ | ⟨p', rfl⟩ | hnamed'
    · rw [operandToken_of_literal he'] at htoken
      have hl := BodyReader.ofToken?_token (h.left.literal id l he)
      rw [htoken, BodyReader.ofToken?_token (h.right.literal id' l' he'), Option.some.injEq] at hl
      exact .inl ⟨l, rfl, congrArg Expr.literal hl⟩
    · rw [operandToken_of_parameter he'] at htoken
      exact absurd htoken (l.token_ne_valueName _)
    · rw [operandToken_of_isNamed he' hnamed'] at htoken
      exact absurd htoken (l.token_ne_valueName _)
  · rw [operandToken_of_parameter he] at htoken
    rcases e'.literal_or_parameter_or_isNamed with ⟨l', rfl⟩ | ⟨p', rfl⟩ | hnamed'
    · rw [operandToken_of_literal he'] at htoken
      exact absurd htoken.symm (l'.token_ne_valueName _)
    · rw [operandToken_of_parameter he', Token.valueName.injEq] at htoken
      have hp := h.left.parameter id p he
      rw [htoken, ← hparams, h.right.parameter id' p' he', Option.some.injEq] at hp
      exact .inr (.inl ⟨p, rfl, congrArg Expr.parameter hp⟩)
    · rw [operandToken_of_isNamed he' hnamed', Token.valueName.injEq] at htoken
      obtain ⟨v, _, hv, hnamed, hname⟩ := h.symm.exists_named hid' he' hnamed'
      exact absurd (hname.trans htoken.symm)
        (hhides.shownName_ne (h.left.parameter id p he) hv hnamed)
  · rw [operandToken_of_isNamed he hnamed] at htoken
    rcases e'.literal_or_parameter_or_isNamed with ⟨l', rfl⟩ | ⟨p', rfl⟩ | hnamed'
    · rw [operandToken_of_literal he'] at htoken
      exact absurd htoken.symm (l'.token_ne_valueName _)
    · rw [operandToken_of_parameter he', Token.valueName.injEq] at htoken
      have hp := h.right.parameter id' p' he'
      rw [hparams] at hp
      exact absurd htoken (hhides.shownName_ne hp he hnamed)
    · rw [operandToken_of_isNamed he' hnamed', Token.valueName.injEq] at htoken
      exact .inr (.inr ⟨hnamed, hnamed', htoken⟩)

/-- **Operands that are written alike stand for the same tree**, if no value hides a parameter. -/
theorem sameValue (h : WrittenAlike m m' b b' f g) (hhides : f.HidesNone) (hid : f.Needs b id)
    (hid' : g.Needs b' id') (htoken : f.operandToken id = g.operandToken id') :
    f.SameValue g id id' := by
  induction hn : f.rank id using Nat.strong_induction_on generalizing id id' with
  | _ n ih =>
    obtain ⟨e, he⟩ := h.left.exists_expr? hid
    obtain ⟨e', he'⟩ := h.right.exists_expr? hid'
    rcases h.kind_eq hhides hid' htoken he he' with
      ⟨l, rfl, rfl⟩ | ⟨p, rfl, rfl⟩ | ⟨hnamed, hnamed', hname⟩
    · exact ⟨.literal l, .literal l, .literal he, .literal he', rfl⟩
    · exact ⟨.parameter p, .parameter p, .parameter he, .parameter he', rfl⟩
    rcases Expr.isNamed_iff.mp hnamed with hop | ⟨callee, rfl⟩
    · obtain ⟨operation, hop⟩ := Option.isSome_iff_exists.mp hop
      obtain ⟨v, e₁, hv, hname₁, hop', htokens⟩ := h.exists_operation hid he hop
      obtain rfl : v = id' := h.right.name_inj v id' _ _ hv (Expr.isNamed_of_operation? hop') he'
        hnamed' (hname₁.trans hname)
      refine sameValue_of_operands he hv hop hop' ?_
      refine (forall₂_of_map_eq htokens).imp fun op op' ⟨hmem, hmem', heq⟩ => ?_
      have huses : f.Uses id op := ⟨e, he, hmem⟩
      have huses' : g.Uses v op' := ⟨e₁, hv, hmem'⟩
      exact ih _ (hn ▸ rank_lt h.left.wellFormed.acyclic huses) (hid.of_uses huses)
        (hid'.of_uses huses') heq rfl
    · obtain ⟨r', hr', hname', hposition⟩ := h.exists_result he
      obtain rfl : r' = id' :=
        h.right.name_inj r' id' _ _ hr' rfl he' hnamed' (hname'.trans hname)
      refine ⟨.result callee id, .result callee r', .result he, .result hr', ?_⟩
      rw [ValueTree.relabel, ValueTree.relabel, hposition]

end WrittenAlike

end Function

/-! ## Statements that are written alike -/

section Statements

variable {m m' : Module} {f g : Function} {b b' : Block} {s s' : Stmt}
  {R : ExprId → ExprId → Prop}

theorem forall₂_of_operandTokens {ids ids' : List ExprId}
    (h : ids.map f.operandToken = ids'.map g.operandToken)
    (hR : ∀ id ∈ ids, ∀ id' ∈ ids', f.operandToken id = g.operandToken id' → R id id') :
    List.Forall₂ R ids ids' :=
  (forall₂_of_map_eq h).imp fun id id' ⟨hid, hid', htoken⟩ => hR id hid id' hid' htoken

theorem Stmt.alike_of_writeStmt (h : f.writeStmt m s = g.writeStmt m' s')
    (hR : ∀ id ∈ s.operands, ∀ id' ∈ s'.operands, f.operandToken id = g.operandToken id' → R id id')
    (hcallee : ∀ c c', s = .call c → s' = .call c' → m.nameOf c.callee = m'.nameOf c'.callee →
      c.callee = c'.callee) : s.Alike R s' := by
  cases s with
  | store pointer value =>
    cases s' with
    | store pointer' value' =>
      injection h with hpointer hvalue
      exact .store (hR _ (by simp [operands]) _ (by simp [operands]) hpointer)
        (hR _ (by simp [operands]) _ (by simp [operands]) hvalue)
    | _ => cases h
  | call c =>
    cases s' with
    | call c' =>
      injection h with hresult hname harguments
      refine .call (hcallee c c' rfl rfl hname).symm ?_ (forall₂_of_operandTokens harguments hR)
      simpa using congrArg Option.isSome hresult.symm
    | _ => cases h
  | leave =>
    cases s' with
    | leave => exact .leave
    | _ => cases h
  | ret value =>
    cases s' with
    | ret value' =>
      injection h with hvalue
      cases value with
      | none =>
        cases value' with
        | none => exact .ret .none
        | some id' => cases hvalue
      | some id =>
        cases value' with
        | none => cases hvalue
        | some id' =>
          exact .ret (.some (hR id (by simp [operands]) id' (by simp [operands])
            (Option.some.inj hvalue)))
    | _ => cases h

/-- **Blocks whose statements are written alike are alike.** -/
theorem Block.alike_of_writeStatements (h : f.writeStatements m b = g.writeStatements m' b')
    (hR : ∀ id ∈ b.operands, ∀ id' ∈ b'.operands, f.operandToken id = g.operandToken id' → R id id')
    (hcallee : ∀ c ∈ b.calls, ∀ c' ∈ b'.calls, m.nameOf c.callee = m'.nameOf c'.callee →
      c.callee = c'.callee) : b.Alike R b' := by
  induction b generalizing b' with
  | nil =>
    cases b' with
    | nil => exact .nil
    | _ => cases h
  | cons head rest ih =>
    cases b' with
    | cons head' rest' =>
      injection h with hhead hrest
      refine .cons (Stmt.alike_of_writeStmt hhead (fun id hid id' hid' => ?_) ?_)
        (ih hrest (fun id hid id' hid' => ?_) fun c hc c' hc' => ?_)
      · exact hR id (by simp [operands, hid]) id' (by simp [operands, hid'])
      · rintro c c' rfl rfl
        exact hcallee c List.mem_cons_self c' List.mem_cons_self
      · exact hR id (by simp [operands, hid]) id' (by simp [operands, hid'])
      · exact hcallee c (by cases head <;> simp [calls, hc]) c' (by cases head' <;> simp [calls, hc'])
    | _ => cases h
  | branch condition accept reject rest iha ihr ih =>
    cases b' with
    | branch condition' accept' reject' rest' =>
      injection h with hcondition haccept hreject hrest
      refine .branch (hR _ (by simp [operands]) _ (by simp [operands]) hcondition)
        (iha haccept ?_ ?_) (ihr hreject ?_ ?_) (ih hrest ?_ ?_)
      all_goals first
        | exact fun id hid id' hid' => hR id (by simp [operands, hid]) id' (by simp [operands, hid'])
        | exact fun c hc c' hc' => hcallee c (by simp [calls, hc]) c' (by simp [calls, hc'])
    | _ => cases h
  | loop body rest ihb ih =>
    cases b' with
    | loop body' rest' =>
      injection h with hbody hrest
      refine .loop (ihb hbody ?_ ?_) (ih hrest ?_ ?_)
      all_goals first
        | exact fun id hid id' hid' => hR id (by simp [operands, hid]) id' (by simp [operands, hid'])
        | exact fun c hc c' hc' => hcallee c (by simp [calls, hc]) c' (by simp [calls, hc'])
    | _ => cases h

/-- **Functions that are written alike compute the same**, if no value hides a parameter. -/
theorem Function.WrittenAlike.alike (h : WrittenAlike m m' b b' f g) (hhides : f.HidesNone) :
    b.Alike (f.SameValue g) b' :=
  Block.alike_of_writeStatements h.statements_eq
    (fun id hid id' hid' => h.sameValue hhides ⟨id, hid, .refl⟩ ⟨id', hid', .refl⟩)
    fun c hc c' hc' => h.callee_eq (h.left.wellFormed.callee_lt c (h.left.calls_eq ▸ hc))
      (h.right.wellFormed.callee_lt c' (h.right.calls_eq ▸ hc'))

end Statements

/-! ## Modules that are written alike -/

namespace Module

variable {m m' : Module} {f g : Function} {w : WrittenFunction} {ws : List WrittenFunction}

theorem sameIn_of_writtenAs (hm : m.NamesDistinct) (hnames : m'.names = m.names)
    (hf : f.WrittenAs m w) (hg : g.WrittenAs m' w) (hlegible : f.Legible) (hlegible' : g.Legible)
    (hwf : f.WellFormed m.functions.size m.types.size)
    (hwf' : g.WellFormed m'.functions.size m'.types.size) (hhides : f.HidesNone) :
    f.SameIn m m' g where
  signature := ⟨w.signature, hf.writes, hg.writes⟩
  body := by
    have hparams : ∀ {m : Module} {f : Function}, f.WrittenAs m w →
        f.params.map Param.name = w.signature.params.map WrittenParam.name := fun hf =>
      (map_eq_map_of_forall₂ (hf.writes.params.imp fun _ _ hp => hp.name)).symm
    have htext := hf.body.symm.trans hg.body
    cases hb : f.body with
    | none =>
      cases hb' : g.body with
      | none => exact .none
      | some b' =>
        rw [hb, hb'] at htext
        cases htext
    | some b =>
      cases hb' : g.body with
      | none =>
        rw [hb, hb'] at htext
        cases htext
      | some b' =>
        rw [hb, hb', Option.map_some, Option.map_some, Option.some.injEq] at htext
        have halike : Function.WrittenAlike m m' b b' f g :=
          ⟨⟨hlegible, hwf, hb⟩, ⟨hlegible', hwf', hb'⟩, hm, hnames,
            (hparams hg).trans (hparams hf).symm, htext⟩
        exact .some (halike.alike hhides)

/-- **A module that is read again from its listing is the same**, if no value in it has the name of a
parameter, and the numbers in the text that it was read from were finite. -/
theorem read_listing_same {source : String} (h : Module.read source = .ok m)
    (hfinite : NumbersFinite source) (hhides : ∀ f ∈ m.functions, f.HidesNone) :
    ∃ m', Module.read m.listing = .ok m' ∧ m.Same m' := by
  obtain ⟨m', ws, hlisting, hws, hws'⟩ := (writable_of_read h hfinite).exists_read_writtenAs
  obtain ⟨_, hread⟩ := isRead_of_read h
  obtain ⟨_, hread'⟩ := isRead_of_read hlisting
  have hnames : m'.names = m.names := hws'.names_eq.trans hws.names_eq.symm
  refine ⟨m', hlisting, forall₂_of_common hws hws' fun f hf g hg w hfw hgw => ?_⟩
  obtain ⟨_, -, hs⟩ := hread.function (Array.mem_def.mpr hf)
  obtain ⟨_, -, hs'⟩ := hread'.function (Array.mem_def.mpr hg)
  exact sameIn_of_writtenAs hread.wellFormed.names hnames hfw hgw hs.legible hs'.legible
    (hread.wellFormed.functions f (Array.mem_def.mpr hf))
    (hread'.wellFormed.functions g (Array.mem_def.mpr hg)) (hhides f (Array.mem_def.mpr hf))

end Module

end ResourceBinding
