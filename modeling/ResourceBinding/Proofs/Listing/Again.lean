import ResourceBinding.Proofs.Listing.Body
import ResourceBinding.Proofs.Listing.Shown

/-!
# Written bodies are written again

The body of a legible function is written out, read, and written out again. While it is read, the
draft has a value for each expression that has been shown, under the same name (`Mirrors`). An
operand is read as the value of its name (`Stands`), so in the function that has been read the same
definitions are written in front of each use (`Function.Shows.again`), and the same block in all
(`Function.writeBlock_again`).

An operand may be read as something else than it was: a parameter as the value of the same name that
was defined before. What is written stays the same, since that value has been shown by then.
-/

namespace ResourceBinding

/-! ## Operations with other operands -/

namespace Expr

/-- The operation with other operands. -/
def withOperands : Expr → List ExprId → Expr
  | access _ _, base :: indices => access base indices
  | load _, pointer :: _ => load pointer
  | binary op _ _, left :: right :: _ => binary op left right
  | e, _ => e

variable {e : Expr} {ids : List ExprId}

theorem operands_withOperands (h : ids.length = e.operands.length) :
    (e.withOperands ids).operands = ids := by
  cases e with
  | literal l | parameter p | result callee => exact (List.eq_nil_of_length_eq_zero h).symm
  | access base indices =>
    match ids, h with
    | _ :: _, _ => rfl
  | load pointer =>
    match ids, h with
    | [_], _ => rfl
  | binary op left right =>
    match ids, h with
    | [_, _], _ => rfl

theorem operation?_withOperands (e : Expr) (ids : List ExprId) :
    (e.withOperands ids).operation? = e.operation? := by
  unfold withOperands
  split <;> rfl

theorem isResult_of_operation? {operation : String} (h : e.operation? = some operation) :
    e.isResult = false := by
  cases e <;> first | rfl | cases h

/-- Of the expressions with a name, those that are no operation are the results of calls. -/
theorem isNamed_iff : e.isNamed ↔ e.operation?.isSome ∨ ∃ callee, e = .result callee := by
  cases e <;> simp [isNamed, operation?]

end Expr

/-! ## The draft and what has been shown -/

/-- A body of the function is read among parameters with the same names. -/
structure BodyContext.Suits (ctx : BodyContext) (f : Function) : Prop where
  params : ctx.params.map Param.name = f.params.map Param.name
  named : ∀ p ∈ f.params, ∀ name, p.name = some name → IsName name

/-- What has been shown of the function has been read, and has the names that it was shown by. -/
structure Mirrors (ctx : BodyContext) (f : Function) (shown : List ExprId) (d : BodyDraft) : Prop where
  valid : d.Valid ctx
  names : d.values.map Prod.fst = shown.map f.shownName
  named : ∀ id ∈ shown, ∃ e, f.expr? id = some e ∧ e.isNamed

/-- The function has what has been read, and perhaps more. -/
structure BodyDraft.CompletedBy (ctx : BodyContext) (d : BodyDraft) (g : Function) : Prop where
  expr : ∀ id e, d.expr? id = some e → g.expr? id = some e
  name : ∀ name id, (name, id) ∈ d.values → g.exprName? id = some name
  params : ctx.params.map Param.name = g.params.map Param.name

/-- The token is shown for `id`, and is read as `id` where the values have these names. -/
structure Stands (values : List (String × ExprId)) (g : Function) (t : Token) (id : ExprId) : Prop where
  shown : g.operandToken id = t
  read : (∃ name, t = .valueName name ∧ values.lookup name = some id) ∨
    ((∀ name, t = .valueName name → values.lookup name = none) ∧
      (g.expr? id).bind Expr.operation? = none)

section Names

variable {ctx : BodyContext} {f g : Function} {d d' : BodyDraft} {shown : List ExprId}

theorem paramName_congr (h : f.params.map Param.name = g.params.map Param.name) (p : Nat) :
    f.paramName p = g.paramName p := by
  have hsame := congrArg (fun names => names[p]?.bind id) h
  simp only [List.getElem?_map] at hsame
  have hname : (f.params[p]?).bind Param.name = (g.params[p]?).bind Param.name := by
    cases hf : f.params[p]? <;> cases hg : g.params[p]? <;> simp_all
  rw [Function.paramName, Function.paramName, hname]

theorem findIdx?_congr {params params' : List Param}
    (h : params.map Param.name = params'.map Param.name) (name : String) :
    params.findIdx? (·.name == some name) = params'.findIdx? (·.name == some name) := by
  have hmap : ∀ ps : List Param, (ps.map Param.name).findIdx? (· == some name)
      = ps.findIdx? (·.name == some name) := fun _ => List.findIdx?_map
  rw [← hmap, ← hmap, h]

theorem operandToken_of_literal {id : ExprId} {l : Literal} (h : f.expr? id = some (.literal l)) :
    f.operandToken id = l.token := by
  rw [Function.operandToken, h]

theorem operandToken_of_parameter {id : ExprId} {p : Nat} (h : f.expr? id = some (.parameter p)) :
    f.operandToken id = .valueName (f.paramName p) := by
  rw [Function.operandToken, h]

theorem operandToken_of_isNamed {id : ExprId} {e : Expr} (he : f.expr? id = some e)
    (hnamed : e.isNamed) : f.operandToken id = .valueName (f.shownName id) := by
  rw [Function.operandToken, he]
  cases e <;> first | rfl | cases hnamed

theorem BodyDraft.Extends.lookup (h : d.Extends d') (hvalid : d'.Valid ctx) {name : String}
    {id : ExprId} (hid : d.values.lookup name = some id) : d'.values.lookup name = some id := by
  obtain ⟨new, hnew, -⟩ := h.values
  refine lookup_of_mem hvalid.names ?_
  rw [hnew]
  exact List.mem_append_right _ (mem_of_lookup hid)

theorem BodyDraft.CompletedBy.mono (h : d'.CompletedBy ctx g) (hext : d.Extends d') :
    d.CompletedBy ctx g := by
  obtain ⟨new, hnew, -⟩ := hext.values
  refine ⟨fun id e he => h.expr id e (hext.expr id e he), fun name id hv => h.name name id ?_,
    h.params⟩
  rw [hnew]
  exact List.mem_append_right _ hv

namespace Mirrors

theorem exists_lookup (h : Mirrors ctx f shown d) {id : ExprId} (hid : id ∈ shown) :
    ∃ v, d.values.lookup (f.shownName id) = some v := by
  have hmem : f.shownName id ∈ d.values.map Prod.fst := h.names ▸ List.mem_map_of_mem hid
  obtain ⟨⟨name, v⟩, hv, heq⟩ := List.mem_map.mp hmem
  exact ⟨v, lookup_of_mem h.valid.names (heq ▸ hv)⟩

theorem exists_shown (h : Mirrors ctx f shown d) {name : String} {v : ExprId}
    (hv : d.values.lookup name = some v) : ∃ id ∈ shown, f.shownName id = name := by
  have hmem : name ∈ d.values.map Prod.fst := List.mem_map_of_mem (mem_of_lookup hv)
  rw [h.names] at hmem
  exact List.mem_map.mp hmem

/-- The name of what has not been shown is not taken. -/
theorem lookup_eq_none (h : Mirrors ctx f shown d) (hf : f.Legible) {id : ExprId} {e : Expr}
    (he : f.expr? id = some e) (hnamed : e.isNamed) (hid : id ∉ shown) :
    d.values.lookup (f.shownName id) = none := by
  cases hv : d.values.lookup (f.shownName id) with
  | none => rfl
  | some v =>
    obtain ⟨other, hother, heq⟩ := h.exists_shown hv
    obtain ⟨e', he', hnamed'⟩ := h.named other hother
    exact absurd (hf.name_inj _ _ _ _ he' hnamed' he hnamed heq ▸ hother) hid

/-- A value has been shown, and its definition has been read. -/
theorem addNamed (h : Mirrors ctx f shown d) (hvalues : d'.values = d.values) {id : ExprId}
    {e e' : Expr} (hvalid : (d'.addNamed e' (f.shownName id)).Valid ctx) (he : f.expr? id = some e)
    (hnamed : e.isNamed) : Mirrors ctx f (id :: shown) (d'.addNamed e' (f.shownName id)) where
  valid := hvalid
  names := by
    change (f.shownName id :: d'.values.map Prod.fst) = _
    rw [hvalues, h.names, List.map_cons]
  named := List.forall_mem_cons.mpr ⟨⟨e, he, hnamed⟩, h.named⟩

end Mirrors

end Names

/-! ## Operands -/

section Operands

open BodyReader

variable {ctx : BodyContext} {f g : Function} {d d' : BodyDraft} {shown : List ExprId}

theorem Literal.token_ne_valueName (l : Literal) (name : String) : l.token ≠ .valueName name := by
  cases l with
  | bool value => cases value <;> simp [token]
  | _ => simp [token]

theorem Literal.named_token (l : Literal) : l.token.Named := by
  cases l with
  | bool value => cases value <;> trivial
  | _ => trivial

/-- What an operand is shown by is a name, if it is one. -/
theorem named_operandToken (hf : f.Legible) (hctx : ctx.Suits f) {id : ExprId} {e : Expr}
    (he : f.expr? id = some e) : (f.operandToken id).Named := by
  cases e with
  | literal l =>
    rw [operandToken_of_literal he]
    exact l.named_token
  | parameter p =>
    obtain ⟨hlt, heq, -⟩ := List.findIdx?_eq_some_iff_getElem.mp (hf.parameter id p he)
    rw [operandToken_of_parameter he]
    exact hctx.named _ (List.getElem_mem hlt) _ (eq_of_beq heq)
  | _ =>
    rw [operandToken_of_isNamed he rfl]
    exact hf.named id _ he rfl

theorem BodyDraft.CompletedBy.stands_value (h : d.CompletedBy ctx g) (hvalid : d.Valid ctx)
    {name : String} {v : ExprId} (hv : d.values.lookup name = some v) :
    Stands d.values g (.valueName name) v := by
  have hmem := mem_of_lookup hv
  obtain ⟨-, e, he, hnamed⟩ := hvalid.value name v hmem
  refine ⟨?_, .inl ⟨name, rfl, hv⟩⟩
  rw [operandToken_of_isNamed (h.expr v e he) hnamed,
    Function.shownName_of_exprName? (h.name name v hmem)]

/-- **An operand whose value has been read is read as something that it is shown by.** -/
theorem Mirrors.exists_means (h : Mirrors ctx f shown d) (hf : f.Legible) (hctx : ctx.Suits f)
    {id : ExprId} {e : Expr} (he : f.expr? id = some e) (hshown : e.isNamed → id ∈ shown) :
    ∃ id' d', Means ctx d (f.operandToken id) id' d' ∧
      ∀ g, d'.CompletedBy ctx g → Stands d.values g (f.operandToken id) id' := by
  have hvalue : ∀ {name v}, d.values.lookup name = some v → ∃ id' d',
      Means ctx d (.valueName name) id' d' ∧
        ∀ g, d'.CompletedBy ctx g → Stands d.values g (.valueName name) id' := fun hv =>
    ⟨_, d, means_value hv, fun _ hg => hg.stands_value h.valid hv⟩
  cases e with
  | literal l =>
    rw [operandToken_of_literal he]
    refine ⟨d.size, d.add (.literal l), means_literal (hf.literal id l he), fun g hg => ?_⟩
    have hl := hg.expr _ _ (BodyDraft.expr?_add_size d _)
    refine ⟨operandToken_of_literal hl, .inr ⟨fun name hname => ?_, by rw [hl]; rfl⟩⟩
    exact absurd hname (l.token_ne_valueName name)
  | parameter p =>
    rw [operandToken_of_parameter he]
    cases hv : d.values.lookup (f.paramName p) with
    | some v => exact hvalue hv
    | none =>
      have hfind : ctx.params.findIdx? (·.name == some (f.paramName p)) = some p := by
        rw [findIdx?_congr hctx.params]
        exact hf.parameter id p he
      obtain ⟨id', d', hmeans, hp⟩ := means_parameter h.valid hv hfind
      refine ⟨id', d', hmeans, fun g hg => ?_⟩
      have hp := hg.expr _ _ hp
      refine ⟨?_, .inr ⟨fun name hname => ?_, by rw [hp]; rfl⟩⟩
      · rw [operandToken_of_parameter hp, paramName_congr (hg.params.symm.trans hctx.params)]
      · cases hname
        exact hv
  | _ =>
    obtain ⟨v, hv⟩ := h.exists_lookup (hshown rfl)
    rw [operandToken_of_isNamed he rfl]
    exact hvalue hv

/-- **Operands are read one after the other.** -/
theorem Mirrors.exists_meansEach (hf : f.Legible) (hctx : ctx.Suits f) {ids : List ExprId}
    (h : Mirrors ctx f shown d)
    (hids : ∀ id ∈ ids, ∃ e, f.expr? id = some e ∧ (e.isNamed → id ∈ shown)) :
    ∃ ids' d', MeansEach ctx d (ids.map f.operandToken) ids' d' ∧ Supplied ctx d ids' d' ∧
      ∀ g, d'.CompletedBy ctx g →
        List.Forall₂ (Stands d.values g) (ids.map f.operandToken) ids' := by
  induction ids generalizing d with
  | nil => exact ⟨[], d, .nil, supplied_nil h.valid, fun _ _ => .nil⟩
  | cons id ids ih =>
    obtain ⟨e, he, hshown⟩ := hids id List.mem_cons_self
    obtain ⟨id', d₁, hmeans, hstands⟩ := h.exists_means hf hctx he hshown
    have hfirst := hmeans.supplied h.valid (named_operandToken hf hctx he)
    have hmirrors : Mirrors ctx f shown d₁ := ⟨hfirst.valid, hfirst.values ▸ h.names, h.named⟩
    obtain ⟨ids', d₂, hmeansEach, hsupplied, hall⟩ :=
      ih hmirrors fun other hother => hids other (List.mem_cons_of_mem _ hother)
    refine ⟨id' :: ids', d₂, .cons hmeans hmeansEach, hfirst.append hsupplied, fun g hg => ?_⟩
    rw [List.map_cons, ← hfirst.values]
    refine .cons ?_ (hall g hg)
    rw [hfirst.values]
    exact hstands g (hg.mono hsupplied.grows)

end Operands

/-! ## Definitions -/

/-- The definitions add expressions to a draft, one after the other. -/
inductive DefinitionsBuild (ctx : BodyContext) :
    BodyDraft → List WrittenDefinition → BodyDraft → Prop
  | nil {d : BodyDraft} : DefinitionsBuild ctx d [] d
  | cons {d d' d'' : BodyDraft} {w : WrittenDefinition} {e : Expr} {ws : List WrittenDefinition} :
      w.Builds ctx d e d' → DefinitionsBuild ctx (d'.addNamed e w.name) ws d'' →
      DefinitionsBuild ctx d (w :: ws) d''

section Definitions

open BodyReader

variable {ctx : BodyContext} {f g : Function} {d d₁ d₂ : BodyDraft} {size types : Nat}
  {ids shown shown₁ : List ExprId} {ws ws' : List WrittenDefinition}

theorem DefinitionsBuild.append (h : DefinitionsBuild ctx d ws d₁)
    (h' : DefinitionsBuild ctx d₁ ws' d₂) : DefinitionsBuild ctx d (ws ++ ws') d₂ := by
  induction h with
  | nil => exact h'
  | cons hw _ ih => exact .cons hw (ih h')

theorem DefinitionsBuild.defining (h : DefinitionsBuild ctx d ws d₁) {w : WrittenBlock} {b : Block}
    (hb : w.Builds ctx d₁ b d₂) : (WrittenBlock.defining ws w).Builds ctx d b d₂ := by
  induction h with
  | nil => exact hb
  | cons hw _ ih => exact .define hw (ih hb)

theorem BodyReader.MeansEach.length_eq {ts : List Token} (h : MeansEach ctx d ts ids d₁) :
    ids.length = ts.length := by
  induction h with
  | nil => rfl
  | cons _ _ ih => exact congrArg (· + 1) ih

theorem Stands.eq_of_lookup {values : List (String × ExprId)} {name : String} {id v : ExprId}
    (h : Stands values g (.valueName name) id) (hv : values.lookup name = some v) : id = v := by
  rcases h.read with ⟨other, hother, hid⟩ | ⟨hnone, -⟩
  · cases hother
    exact Option.some.inj (hid.symm.trans hv)
  · cases (hnone name rfl).symm.trans hv

theorem map_operandToken {values : List (String × ExprId)} {ts : List Token}
    (h : List.Forall₂ (Stands values g) ts ids) : ids.map g.operandToken = ts := by
  induction h with
  | nil => rfl
  | cons hid _ ih => rw [List.map_cons, hid.shown, ih]

/-- What needs no definition when it is first written needs none when it is written again. -/
theorem Mirrors.skips (h : Mirrors ctx f shown d) (h₁ : Mirrors ctx f shown₁ d₁)
    (hext : d.Extends d₁) {id id' : ExprId} {e : Expr} (he : f.expr? id = some e)
    (hnamed : e.isNamed → id ∈ shown)
    (hparameter : ∀ p, e = .parameter p → ∀ v ∈ shown₁, f.shownName v = f.paramName p → v ∈ shown)
    (hid' : Stands d₁.values g (f.operandToken id) id') :
    id' ∈ d.values.map Prod.snd ∨ (g.expr? id').bind Expr.operation? = none := by
  refine hid'.read.imp ?_ And.right
  rintro ⟨name, htoken, hlookup⟩
  have hshown : ∃ v ∈ shown, f.shownName v = name := by
    cases e with
    | literal l => exact absurd (operandToken_of_literal he ▸ htoken) (l.token_ne_valueName name)
    | parameter p =>
      rw [operandToken_of_parameter he, Token.valueName.injEq] at htoken
      obtain ⟨v, hv, hname⟩ := h₁.exists_shown hlookup
      exact ⟨v, hparameter p rfl v hv (hname.trans htoken.symm), hname⟩
    | _ =>
      rw [operandToken_of_isNamed he rfl, Token.valueName.injEq] at htoken
      exact ⟨id, hnamed rfl, htoken⟩
  obtain ⟨v, hv, rfl⟩ := hshown
  obtain ⟨v', hv'⟩ := h.exists_lookup hv
  cases hlookup.symm.trans (hext.lookup h₁.valid hv')
  exact List.mem_map_of_mem (mem_of_lookup hv')

/-- What is used has been shown behind the definitions in front of it, if the results of calls that it
leads to were shown before. -/
theorem Function.Shows.shown_of_leadsTo (h : f.Shows ids shown ws shown₁)
    (hresults : ∀ id ∈ ids, ∀ r, f.LeadsTo id r → r ∈ shown) {id : ExprId} (hid : id ∈ ids) {e : Expr}
    (he : f.expr? id = some e) (hnamed : e.isNamed) : id ∈ shown₁ := by
  rcases Expr.isNamed_iff.mp hnamed with hop | ⟨callee, rfl⟩
  · obtain ⟨operation, hop⟩ := Option.isSome_iff_exists.mp hop
    exact h.mem hid he hop
  · exact h.subset (hresults id hid id ⟨.refl, callee, he⟩)

/-- What an operation has been read as, and what has been written of it. -/
structure Expr.ReadAgain (ctx : BodyContext) (f : Function) (shown : List ExprId) (id : ExprId)
    (e : Expr) (operation : String) (d : BodyDraft) (ops : List ExprId) (d' : BodyDraft) : Prop where
  builds : WrittenDefinition.Builds ctx d
    ⟨f.shownName id, operation, e.operands.map f.operandToken⟩ (e.withOperands ops) d'
  operands : (e.withOperands ops).operands = ops
  mirrors : Mirrors ctx f (id :: shown) (d'.addNamed (e.withOperands ops) (f.shownName id))
  grows : d.Extends d'
  values : d'.values = d.values
  stands : ∀ g, d'.CompletedBy ctx g →
    List.Forall₂ (Stands d.values g) (e.operands.map f.operandToken) ops

/-- **An operation is read as the same operation on what its operands are read as**, where they have
been shown and it has not. -/
theorem Mirrors.exists_operation (h : Mirrors ctx f shown d) (hf : f.Legible) (hctx : ctx.Suits f)
    {id : ExprId} {e : Expr} {operation : String} (he : f.expr? id = some e)
    (hop : e.operation? = some operation) (hid : id ∉ shown)
    (hshown : ∀ op ∈ e.operands, ∃ e', f.expr? op = some e' ∧ (e'.isNamed → op ∈ shown)) :
    ∃ ops d', e.ReadAgain ctx f shown id operation d ops d' := by
  obtain ⟨ops, d', hmeans, hsupplied, hstands⟩ := h.exists_meansEach hf hctx hshown
  have hoperands : (e.withOperands ops).operands = ops :=
    Expr.operands_withOperands (by rw [hmeans.length_eq, List.length_map])
  have hnamed := Expr.isNamed_of_operation? hop
  have hfree := h.lookup_eq_none hf he hnamed hid
  have hop' := (Expr.operation?_withOperands e ops).trans hop
  have hread := hsupplied.toSupplies.reads_definition (Expr.isNamed_of_operation? hop')
    (Expr.isResult_of_operation? hop') (hf.named id e he hnamed)
    (lookup_eq_none_iff_not_mem.mp hfree) (by rw [hoperands]; exact hsupplied.usable)
  exact ⟨ops, d', ⟨hfree, hop', by rwa [hoperands]⟩, hoperands,
    h.addNamed hsupplied.values hread.valid he hnamed, hsupplied.grows, hsupplied.values, hstands⟩

/-- **The operation is defined again** in a function that has what it was read as: behind what defines
its operands, and in front of what is defined behind it. -/
theorem Expr.ReadAgain.shows {id : ExprId} {e : Expr} {operation : String} {ops seen : List ExprId}
    {before after : List WrittenDefinition} (h : e.ReadAgain ctx f shown id operation d ops d₁)
    (hg : (d₁.addNamed (e.withOperands ops) (f.shownName id)).CompletedBy ctx g)
    (hnew : d₁.size ∉ seen) (hbefore : g.Shows ops seen before (d.values.map Prod.snd))
    (hafter : g.Shows ids (d₁.size :: d.values.map Prod.snd) after shown₁) :
    g.Shows (d₁.size :: ids) seen
      (before ++ ⟨f.shownName id, operation, e.operands.map f.operandToken⟩ :: after) shown₁ := by
  have hge : g.expr? d₁.size = some (e.withOperands ops) :=
    hg.expr _ _ (BodyDraft.expr?_add_size d₁ _)
  have hname : g.shownName d₁.size = f.shownName id :=
    Function.shownName_of_exprName? (hg.name _ _ List.mem_cons_self)
  have htokens : (e.withOperands ops).operands.map g.operandToken = e.operands.map f.operandToken := by
    rw [h.operands]
    exact map_operandToken (h.stands g (hg.mono (BodyDraft.extends_addNamed d₁ _ _)))
  rw [← hname, ← htokens]
  exact .define hnew hge h.builds.operation (by rwa [h.operands]) hafter

/-- **Definitions are written again.** They are read as expressions, and whatever function has these
shows the same definitions in front of what the operands are read as. -/
theorem Function.Shows.again (h : f.Shows ids shown ws shown₁) (hf : f.Legible)
    (hwf : f.WellFormed size types) (hctx : ctx.Suits f) (hd : Mirrors ctx f shown d)
    (hids : ∀ id ∈ ids, ∃ e, f.expr? id = some e)
    (hresults : ∀ id ∈ ids, ∀ r, f.LeadsTo id r → r ∈ shown) (hapart : f.Apart ids) :
    ∃ d₁, DefinitionsBuild ctx d ws d₁ ∧ Mirrors ctx f shown₁ d₁ ∧ d.Extends d₁ ∧
      ∀ g, d₁.CompletedBy ctx g → ∀ ids',
        List.Forall₂ (Stands d₁.values g) (ids.map f.operandToken) ids' →
        g.Shows ids' (d.values.map Prod.snd) ws (d₁.values.map Prod.snd) := by
  induction h generalizing d with
  | @nil shown =>
    refine ⟨d, .nil, hd, .refl d, fun g _ ids' hids' => ?_⟩
    cases hids'
    exact .nil
  | @skip id ids shown shown₁ ws hskip hrest ih =>
    obtain ⟨d₁, hbuild, hd₁, hext, hagain⟩ := ih hd
      (fun other hother => hids other (List.mem_cons_of_mem _ hother))
      (fun other hother => hresults other (List.mem_cons_of_mem _ hother))
      hapart.tail
    refine ⟨d₁, hbuild, hd₁, hext, fun g hg ids' hids' => ?_⟩
    cases hids' with
    | cons hid' hrest' =>
      refine .skip ?_ (hagain g hg _ hrest')
      obtain ⟨e, he⟩ := hids id List.mem_cons_self
      refine hd.skips hd₁ hext he (fun hnamed => ?_) ?_ hid'
      · rcases hskip with hmem | hnone
        · exact hmem
        · rw [he, Option.bind_some] at hnone
          obtain ⟨callee, rfl⟩ := (Expr.isNamed_iff.mp hnamed).resolve_left (by simp [hnone])
          exact hresults id List.mem_cons_self id ⟨.refl, callee, he⟩
      · rintro p rfl v hv hname
        refine (hrest.reaches hv).resolve_right fun ⟨other, hother, hreaches⟩ => ?_
        obtain ⟨e, hev, hnamed⟩ := hd₁.named v hv
        exact hapart id List.mem_cons_self p he other (List.mem_cons_of_mem _ hother) v e hreaches hev
          hnamed hname
  | @define id e operation ids shown shownA shown₁ before after hid he hop hbefore hrest ihbefore ih =>
    have hops : ∀ op ∈ e.operands, ∃ e', f.expr? op = some e' := fun op hmem =>
      exists_expr?_of_lt (hwf.operand_lt op (.inl ⟨id, e, he, hmem⟩))
    have hopresults : ∀ op ∈ e.operands, ∀ r, f.LeadsTo op r → r ∈ shown := fun op hmem r hr =>
      hresults id List.mem_cons_self r ⟨.head ⟨e, he, hmem⟩ hr.1, hr.2⟩
    -- The operands are read where their definitions have been, and the operation behind them.
    obtain ⟨dA, hbuildA, hdA, hextA, hagainA⟩ := ihbefore hd hops hopresults (hf.operands id e he)
    have hidA : id ∉ shownA := fun hmem => by
      rcases hbefore.reaches hmem with hmem | ⟨op, hop, hreaches⟩
      · exact hid hmem
      · exact hwf.acyclic id (.head' ⟨e, he, hop⟩ hreaches)
    obtain ⟨ops, dB, hoperation⟩ := hdA.exists_operation hf hctx he hop hidA fun op hmem =>
      (hops op hmem).imp fun _ he' => ⟨he', hbefore.shown_of_leadsTo hopresults hmem he'⟩
    have hextB := BodyDraft.extends_addNamed dB (e.withOperands ops) (f.shownName id)
    obtain ⟨d₁, hbuild, hd₁, hext, hagain⟩ := ih hoperation.mirrors
      (fun other hother => hids other (List.mem_cons_of_mem _ hother))
      (fun other hother r hr => List.mem_cons_of_mem _
        (hbefore.subset (hresults other (List.mem_cons_of_mem _ hother) r hr)))
      hapart.tail
    refine ⟨d₁, hbuildA.append (.cons hoperation.builds hbuild), hd₁,
      (hextA.trans (hoperation.grows.trans hextB)).trans hext, fun g hg ids' hids' => ?_⟩
    cases hids' with
    | @cons _ id' _ ids' hid' hrest' =>
      rw [operandToken_of_isNamed he (Expr.isNamed_of_operation? hop)] at hid'
      obtain rfl : id' = dB.size :=
        hid'.eq_of_lookup (hext.lookup hd₁.valid List.lookup_cons_self)
      have hgC := hg.mono hext
      have hgB := hgC.mono hextB
      have hafter := hagain g hg _ hrest'
      rw [show ((dB.addNamed (e.withOperands ops) (f.shownName id)).values.map Prod.snd)
        = dB.size :: dA.values.map Prod.snd by rw [← hoperation.values]; rfl] at hafter
      -- What has been added is no value that the draft had before.
      have hnew : dB.size ∉ d.values.map Prod.snd := fun hmem => by
        obtain ⟨⟨name, v⟩, hv, rfl⟩ := List.mem_map.mp hmem
        exact Nat.lt_irrefl _ (Nat.lt_of_lt_of_le (hd.valid.value_lt hv)
          (hextA.size_le.trans hoperation.grows.size_le))
      exact hoperation.shows hgC hnew
        (hagainA g (hgB.mono hoperation.grows) _ (hoperation.stands g hgB)) hafter

end Definitions

end ResourceBinding
