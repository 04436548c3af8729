import ResourceBinding.Proofs.Listing.Again

/-!
# Written statements are written again

The steps of a well-formed, legible function can be written one after the other
(`Function.along_follows`). A block that is written out is read as a block that is written alike, in
whatever function the reading is part of (`Function.writeBlock_again`).
-/

namespace ResourceBinding

/-- The step can be written where the results in `done` have been made. -/
structure Function.Follows (f : Function) (done : List ExprId) (s : Step) : Prop where
  expr : ∀ op ∈ s.uses, ∃ e, f.expr? op = some e
  made : ∀ op ∈ s.uses, ∀ r, f.LeadsTo op r → r ∈ done
  apart : f.Apart s.uses
  fresh : ∀ r ∈ s.makes, r ∉ done

/-- **Each step of a function can be written behind those before it.** -/
theorem Function.along_follows {f : Function} {size types : Nat} (hf : f.Legible)
    (hwf : f.WellFormed size types) : Along f.Follows [] f.steps := by
  refine along_iff.mpr fun before s after hsteps => ?_
  have hs : s ∈ f.steps := hsteps ▸ List.mem_append_right _ List.mem_cons_self
  refine ⟨fun op hop => ?_, hwf.made_before before s after hsteps, hf.uses s hs, fun r hr hdone => ?_⟩
  · exact exists_expr?_of_lt (hwf.operand_lt op (reads_iff.mpr (.inr ⟨s, hs, hop⟩)))
  · have hnodup := hwf.made_perm.nodup_iff.mpr (nodup_resultsIn _)
    rw [hsteps, made_append, made_cons, List.nodup_append] at hnodup
    exact hnodup.2.2 r hdone r (List.mem_append_left _ hr) rfl

namespace Module

variable {m m' : Module} {callee : Nat}

/-- A function is found by its name. -/
theorem NamesDistinct.idxOf?_nameOf (h : m.NamesDistinct) (hcallee : callee < m.functions.size) :
    m.names.idxOf? (m.nameOf callee) = some callee := by
  have hlt : callee < m.names.length := m.length_names.symm ▸ hcallee
  rw [nameOf_eq, List.getElem?_eq_getElem hlt, Option.getD_some, List.idxOf?,
    List.findIdx?_eq_some_iff_getElem]
  refine ⟨hlt, beq_self_eq_true _, fun j hj heq => ?_⟩
  exact Nat.ne_of_lt hj ((List.Nodup.getElem_inj_iff h).mp (eq_of_beq heq))

theorem nameOf_congr (h : m'.names = m.names) : m'.nameOf callee = m.nameOf callee := by
  rw [nameOf_eq, nameOf_eq, h]

end Module

/-- Of the results of calls, those in `done` have been shown. -/
def Function.ShowsResults (f : Function) (done shown : List ExprId) : Prop :=
  ∀ r callee, f.expr? r = some (.result callee) → (r ∈ shown ↔ r ∈ done)

section Statements

open BodyReader

variable {ctx : BodyContext} {f g : Function} {m m' : Module} {d d' : BodyDraft} {types : Nat}
  {done shown shown' ids : List ExprId} {ws : List WrittenDefinition} {b : Block}

/-- Definitions show no results. -/
theorem Function.ShowsResults.shows (h : f.ShowsResults done shown)
    (hshows : f.Shows ids shown ws shown') : f.ShowsResults done shown' := by
  intro r callee hr
  refine Iff.trans ⟨fun hmem => ?_, fun hmem => hshows.subset hmem⟩ (h r callee hr)
  refine (hshows.operation hmem).resolve_right ?_
  rintro ⟨e, operation, he, hop⟩
  cases hr.symm.trans he
  cases hop

/-- The results that a step needs have been shown. -/
theorem Function.ShowsResults.of_follows (h : f.ShowsResults done shown) {makes : List ExprId}
    (hs : f.Follows done ⟨ids, makes⟩) : ∀ op ∈ ids, ∀ r, f.LeadsTo op r → r ∈ shown := by
  intro op hop r hr
  obtain ⟨callee, he⟩ := hr.2
  exact (h r callee he).mpr (hs.made op hop r hr)

/-- What a step uses has been shown behind the definitions in front of it. -/
theorem Function.Shows.shown_of_follows (h : f.Shows ids shown ws shown')
    (hdone : f.ShowsResults done shown) {makes : List ExprId} (hs : f.Follows done ⟨ids, makes⟩) :
    ∀ op ∈ ids, ∃ e, f.expr? op = some e ∧ (e.isNamed → op ∈ shown') := by
  intro op hop
  obtain ⟨e, he⟩ := hs.expr op hop
  exact ⟨e, he, h.shown_of_leadsTo (hdone.of_follows hs) hop he⟩

/-- What a statement refers to can be written: a function has a name, and a result is new. -/
structure Stmt.Refers (ctx : BodyContext) (f : Function) (m : Module) (shown : List ExprId)
    (s : Stmt) : Prop where
  callee : ∀ c, s = .call c → ctx.functions.idxOf? (m.nameOf c.callee) = some c.callee
  result : ∀ c, s = .call c → ∀ r, c.result = some r →
    f.expr? r = some (.result c.callee) ∧ r ∉ shown

/-- What a statement has been read as, and what has been written of it. -/
structure Stmt.ReadAgain (ctx : BodyContext) (f : Function) (m : Module) (shown : List ExprId)
    (s : Stmt) (d : BodyDraft) (s' : Stmt) (d' : BodyDraft) : Prop where
  builds : (f.writeStmt m s).Builds ctx d s' d'
  mirrors : Mirrors ctx f (s.defines ++ shown) d'
  grows : d.Extends d'
  values : d'.values.map Prod.snd = s'.defines ++ d.values.map Prod.snd
  operands : ∀ g, d'.CompletedBy ctx g →
    List.Forall₂ (Stands d.values g) (s.operands.map f.operandToken) s'.operands
  writes : ∀ g m', d'.CompletedBy ctx g → m'.names = m.names → g.writeStmt m' s' = f.writeStmt m s

/-- A call is written again, where its arguments have been read: its result as a new value with the
name that it is shown by. -/
theorem Mirrors.exists_call (h : Mirrors ctx f shown d) (hf : f.Legible) {c : Call}
    (hs : (Stmt.call c).Refers ctx f m shown)
    (hmeans : MeansEach ctx d (c.arguments.map f.operandToken) ids d')
    (hsupplied : Supplied ctx d ids d')
    (hstands : ∀ g, d'.CompletedBy ctx g →
      List.Forall₂ (Stands d.values g) (c.arguments.map f.operandToken) ids) :
    ∃ s' d'', (Stmt.call c).ReadAgain ctx f m shown d s' d'' := by
  have hcallee := hs.callee c rfl
  have hvalues : d'.values.map Prod.snd = d.values.map Prod.snd := by rw [hsupplied.values]
  have hwrites : ∀ g (m' : Module) r, d'.CompletedBy ctx g → m'.names = m.names →
      r.map g.shownName = c.result.map f.shownName →
      g.writeStmt m' (.call ⟨c.callee, ids, r⟩) = f.writeStmt m (.call c) := by
    intro g m' r hg hm' hr
    have htokens : ids.map g.operandToken = c.arguments.map f.operandToken :=
      map_operandToken (hstands g hg)
    rw [Function.writeStmt, Function.writeStmt, hr, Module.nameOf_congr hm', htokens]
  cases hresult : c.result with
  | none =>
    refine ⟨.call ⟨c.callee, ids, none⟩, d', ?_, ?_, hsupplied.grows, hvalues, hstands,
      fun g m' hg hm' => hwrites g m' none hg hm' (by rw [hresult]; rfl)⟩
    · rw [Function.writeStmt, hresult]
      exact .call hcallee hmeans
    · rw [Stmt.defines, hresult]
      exact ⟨hsupplied.valid, hsupplied.values ▸ h.names, h.named⟩
  | some r =>
    obtain ⟨hr, hnew⟩ := hs.result c rfl r hresult
    have hfree := h.lookup_eq_none hf hr rfl hnew
    have hlt : (c.callee : Nat) < ctx.functions.length := by
      rw [List.idxOf?, List.findIdx?_eq_some_iff_getElem] at hcallee
      exact hcallee.1
    have hread := hsupplied.toSupplies.reads_call hlt (hf.named r _ hr rfl)
      (lookup_eq_none_iff_not_mem.mp hfree) hsupplied.usable
    have hback : ∀ {g}, (d'.addNamed (.result c.callee) (f.shownName r)).CompletedBy ctx g →
        d'.CompletedBy ctx g := fun hg => hg.mono (BodyDraft.extends_addNamed _ _ _)
    refine ⟨.call ⟨c.callee, ids, some d'.size⟩, _, ?_, ?_, hread.grows, ?_,
      fun g hg => hstands g (hback hg), fun g m' hg hm' => hwrites g m' _ (hback hg) hm' ?_⟩
    · rw [Function.writeStmt, hresult]
      exact .result hfree hcallee hmeans
    · rw [Stmt.defines, hresult]
      exact h.addNamed hsupplied.values hread.valid hr rfl
    · change d'.size :: d'.values.map Prod.snd = _
      rw [hvalues]
      rfl
    · rw [hresult, Option.map_some, Option.map_some,
        Function.shownName_of_exprName? (hg.name _ _ List.mem_cons_self)]

/-- **A statement is written again**, where what it uses has been shown. -/
theorem Mirrors.exists_readAgain (h : Mirrors ctx f shown d) (hf : f.Legible) (hctx : ctx.Suits f)
    {s : Stmt} (hops : ∀ op ∈ s.operands, ∃ e, f.expr? op = some e ∧ (e.isNamed → op ∈ shown))
    (hs : s.Refers ctx f m shown) : ∃ s' d', s.ReadAgain ctx f m shown d s' d' := by
  obtain ⟨ids, d', hmeans, hsupplied, hstands⟩ := h.exists_meansEach hf hctx hops
  have hmirrors : Mirrors ctx f shown d' := ⟨hsupplied.valid, hsupplied.values ▸ h.names, h.named⟩
  have hgrows := hsupplied.grows
  have hvalues : d'.values.map Prod.snd = d.values.map Prod.snd := by rw [hsupplied.values]
  cases s with
  | store pointer value =>
    obtain ⟨pointer', value', rfl⟩ : ∃ pointer' value', ids = [pointer', value'] :=
      List.length_eq_two.mp hmeans.length_eq
    refine ⟨.store pointer' value', d', .store hmeans, hmirrors, hgrows, hvalues, hstands,
      fun g m' hg _ => ?_⟩
    have htokens := map_operandToken (hstands g hg)
    simp only [Stmt.operands, List.map_cons, List.map_nil, List.cons.injEq, and_true] at htokens
    rw [Function.writeStmt, Function.writeStmt, htokens.1, htokens.2]
  | leave =>
    cases hmeans
    exact ⟨.leave, d, .leave, hmirrors, hgrows, hvalues, fun _ _ => .nil, fun _ _ _ _ => rfl⟩
  | ret value =>
    cases value with
    | none =>
      cases hmeans
      exact ⟨.ret none, d, .ret, hmirrors, hgrows, hvalues, fun _ _ => .nil, fun _ _ _ _ => rfl⟩
    | some value =>
      cases hmeans with
      | @cons _ _ _ _ id _ _ hmeans hnil =>
        cases hnil
        refine ⟨.ret (some id), d', .retValue hmeans, hmirrors, hgrows, hvalues, hstands,
          fun g m' hg _ => ?_⟩
        have htokens := map_operandToken (hstands g hg)
        simp only [Stmt.operands, Option.toList_some, List.map_cons, List.map_nil, List.cons.injEq,
          and_true] at htokens
        rw [Function.writeStmt, Function.writeStmt, Option.map_some, Option.map_some, htokens]
  | call c => exact h.exists_call hf hs hmeans hsupplied hstands

/-! ## Blocks -/

/-- What the definitions in front of a step have been read as, and what has been written of them. -/
structure Function.DefinesAgain (ctx : BodyContext) (f : Function) (ids shown : List ExprId)
    (d d' : BodyDraft) : Prop where
  builds : DefinitionsBuild ctx d (f.writeDefinitions ids shown).1 d'
  mirrors : Mirrors ctx f (f.writeDefinitions ids shown).2 d'
  grows : d.Extends d'
  writes : ∀ g, d'.CompletedBy ctx g → g.Acyclic → ∀ ids',
    List.Forall₂ (Stands d'.values g) (ids.map f.operandToken) ids' →
    g.writeDefinitions ids' (d.values.map Prod.snd)
      = ((f.writeDefinitions ids shown).1, d'.values.map Prod.snd)

/-- The definitions in front of a step are written again. -/
theorem Mirrors.exists_definitions (h : Mirrors ctx f shown d) (hf : f.Legible) {size : Nat}
    (hwf : f.WellFormed size types) (hctx : ctx.Suits f) (hdone : f.ShowsResults done shown)
    {makes : List ExprId} (hs : f.Follows done ⟨ids, makes⟩) :
    ∃ d₁, f.DefinesAgain ctx ids shown d d₁ := by
  obtain ⟨d₁, hbuild, hd₁, hgrows, hagain⟩ :=
    (Function.shows_writeDefinitions hwf.acyclic ids shown).again hf hwf hctx h hs.expr
      (hdone.of_follows hs) hs.apart
  exact ⟨d₁, hbuild, hd₁, hgrows, fun g hg hacyclic ids' hids' =>
    (hagain g hg ids' hids').writeDefinitions_eq hacyclic⟩

/-- The calls of a block have callees that are found by their names, and results that say so. -/
def Block.Refers (ctx : BodyContext) (f : Function) (m : Module) (b : Block) : Prop :=
  ∀ c ∈ b.calls, ctx.functions.idxOf? (m.nameOf c.callee) = some c.callee ∧
    ∀ r, c.result = some r → f.expr? r = some (.result c.callee)

/-- What a block has been read as, and what has been written of it. -/
structure Block.ReadAgain (ctx : BodyContext) (f : Function) (m : Module)
    (done shown : List ExprId) (b : Block) (d : BodyDraft) (b' : Block) (d' : BodyDraft) : Prop where
  builds : (f.writeBlock m b shown).1.Builds ctx d b' d'
  mirrors : Mirrors ctx f (f.writeBlock m b shown).2 d'
  grows : d.Extends d'
  results : f.ShowsResults (done ++ made b.steps) (f.writeBlock m b shown).2
  writes : ∀ g m', d'.CompletedBy ctx g → g.Acyclic → m'.names = m.names →
    g.writeBlock m' b' (d.values.map Prod.snd)
      = ((f.writeBlock m b shown).1, d'.values.map Prod.snd)

/-- A call at the front of a block has a callee that is found by its name and, if it has a result, one
that has not been shown. -/
theorem Block.Refers.head {s : Stmt} {rest : Block} (h : (Block.cons s rest).Refers ctx f m)
    (hdone : f.ShowsResults done shown) (hs : f.Follows done ⟨s.operands, s.defines⟩) :
    s.Refers ctx f m shown where
  callee := by
    rintro c rfl
    exact (h c List.mem_cons_self).1
  result := by
    rintro c rfl r hr
    have hresult := (h c List.mem_cons_self).2 r hr
    refine ⟨hresult, fun hmem => hs.fresh r ?_ ((hdone r c.callee hresult).mp hmem)⟩
    rw [Stmt.defines, hr]
    exact List.mem_singleton_self r

namespace Block.ReadAgain

variable {d₁ d₂ da dr : BodyDraft} {s s' : Stmt} {body body' accept accept' reject reject' rest
  rest' : Block} {condition condition' : ExprId}

protected theorem cons (hdefines : f.DefinesAgain ctx s.operands shown d d₁)
    (hs : s.ReadAgain ctx f m (f.writeDefinitions s.operands shown).2 d₁ s' d₂)
    (hrest : rest.ReadAgain ctx f m (done ++ s.defines)
      (s.defines ++ (f.writeDefinitions s.operands shown).2) d₂ rest' d') :
    (Block.cons s rest).ReadAgain ctx f m done shown d (.cons s' rest') d' where
  builds := hdefines.builds.defining (.cons hs.builds hrest.builds)
  mirrors := hrest.mirrors
  grows := (hdefines.grows.trans hs.grows).trans hrest.grows
  results := by
    rw [Block.steps, made_cons, ← List.append_assoc]
    exact hrest.results
  writes := fun g m' hg hacyclic hm' => by
    have hg₂ := hg.mono hrest.grows
    have hfirst := hdefines.writes g (hg₂.mono hs.grows) hacyclic _ (hs.operands g hg₂)
    have hbehind := hrest.writes g m' hg hacyclic hm'
    rw [hs.values] at hbehind
    simp only [Function.writeBlock, hfirst, hs.writes g m' hg₂ hm', hbehind]

protected theorem branch (hdefines : f.DefinesAgain ctx [condition] shown d d₁)
    (hmeans : Means ctx d₁ (f.operandToken condition) condition' d₂)
    (hsupplied : Supplied ctx d₁ [condition'] d₂)
    (hstands : ∀ g, d₂.CompletedBy ctx g →
      List.Forall₂ (Stands d₁.values g) ([condition].map f.operandToken) [condition'])
    (haccept : accept.ReadAgain ctx f m done (f.writeDefinitions [condition] shown).2 d₂ accept' da)
    (hreject : reject.ReadAgain ctx f m (done ++ made accept.steps)
      (f.writeBlock m accept (f.writeDefinitions [condition] shown).2).2 da reject' dr)
    (hrest : rest.ReadAgain ctx f m (done ++ made accept.steps ++ made reject.steps)
      (f.writeBlock m reject (f.writeBlock m accept (f.writeDefinitions [condition] shown).2).2).2
      dr rest' d') :
    (Block.branch condition accept reject rest).ReadAgain ctx f m done shown d
      (.branch condition' accept' reject' rest') d' where
  builds := hdefines.builds.defining (.branch hmeans haccept.builds hreject.builds hrest.builds)
  mirrors := hrest.mirrors
  grows := (((hdefines.grows.trans hsupplied.grows).trans haccept.grows).trans hreject.grows).trans
    hrest.grows
  results := by
    have hmade : made (Block.branch condition accept reject rest).steps
        = made accept.steps ++ made reject.steps ++ made rest.steps := by
      simp [Block.steps]
    rw [hmade, ← List.append_assoc, ← List.append_assoc]
    exact hrest.results
  writes := fun g m' hg hacyclic hm' => by
    have hgr := hg.mono hrest.grows
    have hga := hgr.mono hreject.grows
    have hg₂ := hga.mono haccept.grows
    have hfirst := hdefines.writes g (hg₂.mono hsupplied.grows) hacyclic _ (hstands g hg₂)
    have haccept' := haccept.writes g m' hga hacyclic hm'
    rw [hsupplied.values] at haccept'
    have htoken : g.operandToken condition' = f.operandToken condition := by
      simpa using map_operandToken (hstands g hg₂)
    simp only [Function.writeBlock, hfirst, haccept', hreject.writes g m' hgr hacyclic hm',
      hrest.writes g m' hg hacyclic hm', htoken]

protected theorem loop (hbody : body.ReadAgain ctx f m done shown d body' d₁)
    (hrest : rest.ReadAgain ctx f m (done ++ made body.steps) (f.writeBlock m body shown).2 d₁
      rest' d') :
    (Block.loop body rest).ReadAgain ctx f m done shown d (.loop body' rest') d' where
  builds := .loop hbody.builds hrest.builds
  mirrors := hrest.mirrors
  grows := hbody.grows.trans hrest.grows
  results := by
    rw [Block.steps, made_append, ← List.append_assoc]
    exact hrest.results
  writes := fun g m' hg hacyclic hm' => by
    simp only [Function.writeBlock, hbody.writes g m' (hg.mono hrest.grows) hacyclic hm',
      hrest.writes g m' hg hacyclic hm']

end Block.ReadAgain

/-- **A block is written again.** -/
theorem Mirrors.exists_block (hf : f.Legible) {size : Nat} (hwf : f.WellFormed size types)
    (hctx : ctx.Suits f) (h : Mirrors ctx f shown d) (hdone : f.ShowsResults done shown)
    (hsteps : Along f.Follows done b.steps) (hcalls : b.Refers ctx f m) :
    ∃ b' d', b.ReadAgain ctx f m done shown d b' d' := by
  induction b generalizing d done shown with
  | nil =>
    exact ⟨.nil, d, .nil, h, .refl d, by simpa [Block.steps, Function.writeBlock] using hdone,
      fun _ _ _ _ _ => rfl⟩
  | cons head rest ih =>
    obtain ⟨hs, hrest⟩ := hsteps
    obtain ⟨d₁, hdefines⟩ := h.exists_definitions hf hwf hctx hdone hs
    have hshows := Function.shows_writeDefinitions hwf.acyclic head.operands shown
    have hdone₁ := hdone.shows hshows
    obtain ⟨s', d₂, hstmt⟩ := hdefines.mirrors.exists_readAgain hf hctx
      (hshows.shown_of_follows hdone hs) (hcalls.head hdone₁ hs)
    have hdone₂ : f.ShowsResults (done ++ head.defines)
        (head.defines ++ (f.writeDefinitions head.operands shown).2) := fun r callee hr => by
      rw [List.mem_append, List.mem_append, hdone₁ r callee hr, or_comm]
    obtain ⟨b', d₃, hblock⟩ := ih hstmt.mirrors hdone₂ hrest fun c hc =>
      hcalls c (by cases head <;> simp [Block.calls, hc])
    exact ⟨.cons s' b', d₃, .cons hdefines hstmt hblock⟩
  | branch condition accept reject rest iha ihr ih =>
    obtain ⟨hs, hsteps⟩ := hsteps
    rw [List.append_nil, along_append, along_append, made_append, ← List.append_assoc] at hsteps
    obtain ⟨⟨haccept, hreject⟩, hrest⟩ := hsteps
    obtain ⟨d₁, hdefines⟩ := h.exists_definitions hf hwf hctx hdone hs
    have hshows := Function.shows_writeDefinitions hwf.acyclic [condition] shown
    obtain ⟨ids', d₂, hmeans, hsupplied, hstands⟩ :=
      hdefines.mirrors.exists_meansEach hf hctx (hshows.shown_of_follows hdone hs)
    have hd₂ : Mirrors ctx f (f.writeDefinitions [condition] shown).2 d₂ :=
      ⟨hsupplied.valid, hsupplied.values ▸ hdefines.mirrors.names, hdefines.mirrors.named⟩
    obtain ⟨ba, da, ha⟩ := iha hd₂ (hdone.shows hshows) haccept fun c hc =>
      hcalls c (by simp [Block.calls, hc])
    obtain ⟨br, dr, hr⟩ := ihr ha.mirrors ha.results hreject fun c hc =>
      hcalls c (by simp [Block.calls, hc])
    obtain ⟨b', d', hb⟩ := ih hr.mirrors hr.results hrest fun c hc =>
      hcalls c (by simp [Block.calls, hc])
    cases hmeans with
    | @cons _ _ _ _ condition' _ _ hmeans hnil =>
      cases hnil
      exact ⟨.branch condition' ba br b', d', .branch hdefines hmeans hsupplied hstands ha hr hb⟩
  | loop body rest ihb ih =>
    rw [Block.steps, along_append] at hsteps
    obtain ⟨bb, db, hbody⟩ := ihb h hdone hsteps.1 fun c hc => hcalls c (by simp [Block.calls, hc])
    obtain ⟨b', d', hb⟩ := ih hbody.mirrors hbody.results hsteps.2 fun c hc =>
      hcalls c (by simp [Block.calls, hc])
    exact ⟨.loop bb b', d', .loop hbody hb⟩

end Statements

end ResourceBinding
