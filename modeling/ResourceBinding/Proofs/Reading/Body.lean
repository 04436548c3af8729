import ResourceBinding.Proofs.Program.Lookup
import ResourceBinding.Proofs.Reading.Cursor
import ResourceBinding.Proofs.Reading.Draft

/-!
# What a body that was read consists of

`BodyReader.Ensures` is the contract of a reader that starts with a given draft. Every reader of a
body keeps drafts valid; what reads operands adds nothing that has a name, and what reads statements
adds their steps and calls (`BodyReader.ensures_blockWithin`). No number in single precision is
added that does not stand in the text (`BodyDraft.Cites`).
-/

namespace ResourceBinding

/-- The numbers in single precision in the store of `d'` were in that of `d`, or stand among the
tokens. -/
def BodyDraft.Cites (tokens : List Located) (d d' : BodyDraft) : Prop :=
  ∀ id x, d'.expr? id = some (.literal (.f32 x)) →
    d.expr? id = some (.literal (.f32 x)) ∨ ∃ t ∈ tokens, t.token = .float x

namespace BodyDraft

variable {tokens others : List Located} {d d' d₁ : BodyDraft} {e : Expr}

theorem Cites.refl : d.Cites tokens d :=
  fun _ _ h => .inl h

theorem Cites.trans (h : Cites tokens d d₁) (h' : Cites others d₁ d')
    (hsubset : others ⊆ tokens) : Cites tokens d d' := by
  intro id x hx
  rcases h' id x hx with hx | ⟨t, ht, hx⟩
  · exact h id x hx
  · exact .inr ⟨t, hsubset ht, hx⟩

theorem cites_add (h : ∀ x, e = .literal (.f32 x) → ∃ t ∈ tokens, t.token = .float x) :
    Cites tokens d (d.add e) := by
  intro id x hx
  rw [expr?_add] at hx
  split at hx
  · exact .inr (h x (Option.some.inj hx))
  · exact .inl hx

end BodyDraft

namespace BodyReader

variable {α β : Type} {x : BodyReader α} {f : α → BodyReader β} {d : BodyDraft}
  {P : α → BodyDraft → Prop} {Q : β → BodyDraft → Prop} {ctx : BodyContext}

/-- What is read, starting with the draft `d`, fulfils `P` together with the draft it leaves. -/
def Ensures (d : BodyDraft) (x : BodyReader α) (P : α → BodyDraft → Prop) : Prop :=
  ∀ cursor a d' cursor', cursor.Named → (x.run d).run cursor = .ok ((a, d'), cursor') →
    (cursor'.rest ⊆ cursor.rest ∧ BodyDraft.Cites cursor.rest d d') ∧ P a d'

/-! ## Steps -/

theorem Ensures.imp {P' : α → BodyDraft → Prop} (h : Ensures d x P)
    (hP : ∀ a d', P a d' → P' a d') : Ensures d x P' :=
  fun cursor a d' cursor' hcursor hrun =>
    have := h cursor a d' cursor' hcursor hrun
    ⟨this.1, hP a d' this.2⟩

theorem ensures_pure {a : α} (h : P a d) : Ensures d (pure a) P := by
  intro cursor b d' cursor' hcursor hrun
  cases hrun
  exact ⟨⟨List.Subset.refl _, .refl⟩, h⟩

theorem Ensures.bind (hx : Ensures d x P) (hf : ∀ a d', P a d' → Ensures d' (f a) Q) :
    Ensures d (x >>= f) Q := by
  intro cursor b d' cursor' hcursor hrun
  rw [StateT.run_bind] at hrun
  obtain ⟨⟨a, d₁⟩, cursor₁, hfirst, hrest⟩ := exists_of_run_bind hrun
  obtain ⟨⟨hfirst, hcites⟩, ha⟩ := hx cursor a d₁ cursor₁ hcursor hfirst
  obtain ⟨⟨hrest, hcites'⟩, hb⟩ := hf a d₁ ha cursor₁ b d' cursor' (hcursor.of_subset hfirst) hrest
  exact ⟨⟨List.Subset.trans hrest hfirst, hcites.trans hcites' hfirst⟩, hb⟩

/-- What reads tokens alone leaves the draft as it is. -/
theorem ensures_lift {r : Reader α} {R : α → Prop} (hr : r.Ensures R) (h : ∀ a, R a → P a d) :
    Ensures d (liftM r) P := by
  intro cursor a d' cursor' hcursor hrun
  have hrun' : (r >>= fun a => pure (a, d) : Reader (α × BodyDraft)).run cursor
      = .ok ((a, d'), cursor') := hrun
  obtain ⟨b, cursor₁, hfirst, hrest⟩ := exists_of_run_bind hrun'
  cases hrest
  obtain ⟨hsubset, ha⟩ := hr cursor a cursor' hcursor hfirst
  exact ⟨⟨hsubset, .refl⟩, h a ha⟩

theorem ensures_lift_bind {r : Reader α} {R : α → Prop} (hr : r.Ensures R)
    (hf : ∀ a, R a → Ensures d (f a) Q) : Ensures d (liftM r >>= f) Q :=
  Ensures.bind (ensures_lift (P := fun a d' => R a ∧ d' = d) hr fun _ ha => ⟨ha, rfl⟩)
    fun a _ h => h.2.symm ▸ hf a h.1

theorem ensures_get_bind {f : BodyDraft → BodyReader β} (hf : Ensures d (f d) Q) :
    Ensures d (get >>= f) Q :=
  hf

/-- Either way of going on fulfils the contract. -/
theorem ensures_ite {c : Prop} [Decidable c] {y : BodyReader α} (hx : c → Ensures d x P)
    (hy : ¬ c → Ensures d y P) : Ensures d (if c then x else y) P := by
  split
  · exact hx ‹_›
  · exact hy ‹_›

theorem ensures_refuse (line : Nat) (cause : ParseCause) :
    Ensures d (liftM (Reader.refuse line cause : Reader α)) P :=
  ensures_lift (R := fun _ => False) (Reader.ensures_refuse line cause) fun _ h => h.elim

theorem ensures_expected (wanted : Wanted) :
    Ensures d (liftM (Reader.expected wanted : Reader α)) P :=
  ensures_lift (R := fun _ => False) (Reader.ensures_expected wanted) fun _ h => h.elim

theorem ensures_append {P : ExprId → BodyDraft → Prop} {e : Expr}
    (he : ∀ x, e ≠ .literal (.f32 x)) (h : P d.size (d.add e)) : Ensures d (append e) P := by
  intro cursor a d' cursor' hcursor hrun
  cases hrun
  exact ⟨⟨List.Subset.refl _, BodyDraft.cites_add fun x hx => absurd hx (he x)⟩, h⟩

/-- An expression is added together with its name. -/
theorem ensures_append_define {e : Expr} {name : String} {f : ExprId → BodyReader β}
    (he : e.isNamed) (hf : Ensures (d.addNamed e name) (f d.size) Q) :
    Ensures d (do
      let id ← append e
      define name id
      f id) Q := by
  intro cursor b d' cursor' hcursor hrun
  obtain ⟨⟨hsubset, hcites⟩, hb⟩ := hf cursor b d' cursor' hcursor hrun
  have hadd : BodyDraft.Cites cursor.rest d (d.addNamed e name) :=
    BodyDraft.cites_add fun x hx => by
      subst hx
      cases he
  exact ⟨⟨hsubset, hadd.trans hcites (List.Subset.refl _)⟩, hb⟩

/-! ## Values -/

/-- The expressions can be used, and only literals and parameters have been added for them. -/
structure Supplied (ctx : BodyContext) (d : BodyDraft) (ops : List ExprId) (d' : BodyDraft) :
    Prop extends d.Supplies ctx d' where
  usable : ∀ op ∈ ops, d'.Usable ctx op

theorem supplied_nil (h : d.Valid ctx) : Supplied ctx d [] d :=
  ⟨.refl h, fun _ hop => absurd hop List.not_mem_nil⟩

theorem Supplied.append {d₁ d₂ : BodyDraft} {ops ops' : List ExprId} (h : Supplied ctx d ops d₁)
    (h' : Supplied ctx d₁ ops' d₂) : Supplied ctx d (ops ++ ops') d₂ := by
  refine ⟨h.toSupplies.trans h'.toSupplies, fun op hop => ?_⟩
  rcases List.mem_append.mp hop with hop | hop
  · exact (h.usable op hop).mono h'.toSupplies
  · exact h'.usable op hop

theorem ensures_parameter (h : d.Valid ctx) {index : Nat} {name : String}
    (hfind : ctx.params.findIdx? (·.name == some name) = some index)
    (hfree : name ∉ d.values.map Prod.fst) :
    Ensures d (parameter index) fun id d' => Supplied ctx d [id] d' := by
  have husable : ∀ {d' : BodyDraft} {id : Nat}, d'.expr? id = some (.parameter index) →
      d'.values = d.values → d'.Usable ctx id := by
    intro d' id hid hvalues
    refine ⟨BodyDraft.lt_size_of_expr? hid, fun p other hp hother => ?_⟩
    obtain rfl : index = p := Expr.parameter.inj (Option.some.inj (hid.symm.trans hp))
    obtain ⟨hlt, hname, -⟩ := List.findIdx?_eq_some_iff_getElem.mp hfind
    rw [List.getElem?_eq_getElem hlt, Option.bind_some] at hother
    obtain rfl : other = name := by simpa [hother] using hname
    rw [hvalues]
    exact hfree
  refine ensures_get_bind ?_
  split
  · rename_i id hid
    have hmemo := h.memo index id (mem_of_lookup hid)
    exact ensures_pure ⟨.refl h, by simpa using husable hmemo rfl⟩
  · have hadd : (d.add (.parameter index)).Valid ctx :=
      h.add rfl (fun p hp => by cases hp; exact ⟨name, hfind⟩) fun l hl => by cases hl
    have hsupplies := BodyDraft.supplies_add hadd rfl
    have hself := BodyDraft.expr?_add_size d (.parameter index)
    refine (ensures_append (by simp) ⟨rfl, rfl⟩ : Ensures d _ fun id d' =>
      id = d.size ∧ d' = d.add (.parameter index)).bind fun id d' heq => ?_
    obtain ⟨rfl, rfl⟩ := heq
    intro cursor a d'' cursor' hcursor hrun
    cases hrun
    refine ⟨⟨List.Subset.refl _, fun _ _ hx => .inl hx⟩,
      ⟨hadd.note hself, hsupplies.expr, rfl, hsupplies.results⟩, fun op hop => ?_⟩
    obtain rfl := List.mem_singleton.mp hop
    exact husable hself rfl

theorem ensures_value (h : d.Valid ctx) (line : Nat) (name : String) :
    Ensures d (value ctx line name) fun id d' => Supplied ctx d [id] d' := by
  refine ensures_get_bind ?_
  split
  · rename_i id hid
    have hmem := mem_of_lookup hid
    obtain ⟨-, e, he, hnamed⟩ := h.value name id hmem
    refine ensures_pure ⟨.refl h, fun op hop => ?_⟩
    obtain rfl := List.mem_singleton.mp hop
    refine ⟨h.value_lt hmem, fun p other hp => ?_⟩
    cases hp.symm.trans he
    cases hnamed
  · rename_i hfree
    split
    · rename_i index hfind
      exact ensures_parameter h hfind (lookup_eq_none_iff_not_mem.mp hfree)
    · exact ensures_refuse line _

theorem inRange_of_ofToken? {token : Token} {l : Literal} (h : Literal.ofToken? token = some l) :
    l.InRange := by
  unfold Literal.ofToken? at h
  split at h
  case h_1 | h_2 =>
    split at h
    · cases h
      assumption
    · cases h
  all_goals
    cases h
    try trivial

theorem float_of_ofToken? {token : Token} {x : Single}
    (h : Literal.ofToken? token = some (.f32 x)) : token = .float x := by
  unfold Literal.ofToken? at h
  split at h
  case h_1 | h_2 =>
    split at h
    · cases h
    · cases h
  all_goals
    cases h
    try rfl

/-- What is read behind a token may add the number that the token stands for. -/
theorem ensures_take_bind {wanted : Wanted} {meaning : Token → Option α} {f : α → BodyReader β}
    (hf : ∀ (t : Located) a, meaning t.token = some a → ∀ cursor b d' cursor', cursor.Named →
      ((f a).run d).run cursor = .ok ((b, d'), cursor') →
      (cursor'.rest ⊆ cursor.rest ∧ BodyDraft.Cites (t :: cursor.rest) d d') ∧ Q b d') :
    Ensures d (liftM (Reader.take wanted meaning) >>= f) Q := by
  intro cursor b d' cursor' hcursor hrun
  rw [StateT.run_bind] at hrun
  obtain ⟨⟨a, d₁⟩, cursor₁, hlift, hrest⟩ := exists_of_run_bind hrun
  have hlift' : (Reader.take wanted meaning >>= fun a => pure (a, d) : Reader (α × BodyDraft)).run cursor
      = .ok ((a, d₁), cursor₁) := hlift
  obtain ⟨a', cursor', hfirst, hpure⟩ := exists_of_run_bind hlift'
  cases hpure
  obtain ⟨t, ht, hmeaning⟩ := Reader.exists_of_run_take hfirst
  have hsubset : cursor₁.rest ⊆ cursor.rest := ht ▸ List.subset_cons_self t cursor₁.rest
  obtain ⟨⟨hsubset', hcites⟩, hb⟩ :=
    hf t a hmeaning cursor₁ b d' cursor' (hcursor.of_subset hsubset) hrest
  exact ⟨⟨List.Subset.trans hsubset' hsubset, ht ▸ hcites⟩, hb⟩

theorem ensures_operand (h : d.Valid ctx) :
    Ensures d (operand ctx) fun id d' => Supplied ctx d [id] d' := by
  refine ensures_lift_bind Reader.ensures_line fun line _ => ensures_take_bind ?_
  intro t token htoken cursor b d' cursor' hcursor hrun
  have hkeep : ∀ {x : BodyReader ExprId}, Ensures d x (fun id d' => Supplied ctx d [id] d') →
      (x.run d).run cursor = .ok ((b, d'), cursor') →
      (cursor'.rest ⊆ cursor.rest ∧ BodyDraft.Cites (t :: cursor.rest) d d') ∧
        Supplied ctx d [b] d' := by
    intro x hx hrun
    obtain ⟨⟨hsubset, hcites⟩, hb⟩ := hx cursor b d' cursor' hcursor hrun
    exact ⟨⟨hsubset, BodyDraft.Cites.refl.trans hcites (List.subset_cons_self _ _)⟩, hb⟩
  split at hrun
  · exact hkeep (ensures_value h line _) hrun
  · split at hrun
    · rename_i l hl
      cases hrun
      have hadd : (d.add (.literal l)).Valid ctx :=
        h.add rfl (fun p hp => by cases hp) fun l' hl' => by
          cases hl'
          exact inRange_of_ofToken? hl
      refine ⟨⟨List.Subset.refl _, BodyDraft.cites_add fun x hx => ?_⟩,
        BodyDraft.supplies_add hadd rfl, fun op hop => ?_⟩
      · cases hx
        have hsame : t.token = token := by
          split at htoken
          · exact Option.some.inj htoken
          · cases htoken
        exact ⟨t, List.mem_cons_self, hsame.trans (float_of_ofToken? hl)⟩
      · obtain rfl := List.mem_singleton.mp hop
        have hlt : d.size < (d.add (.literal l)).size := by simp
        refine ⟨hlt, fun p name hp => ?_⟩
        cases (BodyDraft.expr?_add_size d (.literal l)).symm.trans hp
    · exact hkeep (ensures_refuse line _) hrun

theorem ensures_operandsWithin (ctx : BodyContext) : ∀ (n : Nat) {d : BodyDraft}, d.Valid ctx →
    Ensures d (operandsWithin ctx n) fun ids d' => Supplied ctx d ids d'
  | 0, _, h => ensures_pure (supplied_nil h)
  | n + 1, _, h => by
    refine ensures_lift_bind (Reader.ensures_eat _) fun more _ => ensures_ite (fun _ => ?_) fun _ =>
      ensures_pure (supplied_nil h)
    exact (ensures_operand h).bind fun first d₁ hfirst =>
      (ensures_operandsWithin ctx n hfirst.valid).bind fun rest d₂ hrest =>
        ensures_pure (hfirst.append hrest)

theorem ensures_itemsWithin (ctx : BodyContext) (close : Char) : ∀ (n : Nat) {d : BodyDraft},
    d.Valid ctx → Ensures d (Reader.itemsWithin close (operand ctx) n) fun ids d' =>
      Supplied ctx d ids d'
  | 0, _, _ => ensures_expected _
  | n + 1, _, h => by
    refine (ensures_operand h).bind fun first d₁ hfirst =>
      ensures_lift_bind (Reader.ensures_eat _) fun closed _ => ensures_ite (fun _ => ?_) fun _ => ?_
    · exact ensures_pure hfirst
    · exact ensures_lift_bind (Reader.ensures_sign ',') fun _ _ =>
        (ensures_itemsWithin ctx close n hfirst.valid).bind fun rest d₂ hrest =>
          ensures_pure (hfirst.append hrest)

theorem ensures_itemsUntil (close : Char) (h : d.Valid ctx) :
    Ensures d (Reader.itemsUntil close (operand ctx)) fun ids d' => Supplied ctx d ids d' := by
  refine ensures_lift_bind (Reader.ensures_eat _) fun closed _ => ensures_ite (fun _ => ?_) fun _ =>
    ensures_lift_bind Reader.ensures_bound fun n _ => ensures_itemsWithin ctx close n h
  exact ensures_pure (supplied_nil h)

/-! ## Statements -/

/-- A call is read only of a function of the module. -/
theorem ensures_call (h : d.Valid ctx) (line : Nat) :
    Ensures d (call ctx line) fun c d' =>
      (c.1 : Nat) < ctx.functions.length ∧ Supplied ctx d c.2 d' := by
  refine ensures_lift_bind Reader.ensures_functionName fun name _ => ?_
  split
  · exact ensures_refuse line _
  · rename_i callee hcallee
    refine ensures_lift_bind (Reader.ensures_sign '(') fun _ _ =>
      (ensures_itemsUntil ')' h).bind fun ids d' hids => ensures_pure ⟨?_, hids⟩
    rw [List.idxOf?, List.findIdx?_eq_some_iff_findIdx_eq] at hcallee
    exact hcallee.1

/-- What is read by a definition: a call with its result, or no statement at all. -/
def Defines (ctx : BodyContext) (d : BodyDraft) (stmt : Option Stmt) (d' : BodyDraft) : Prop :=
  match stmt with
  | none => d.Reads ctx d' [] []
  | some (.call c) => d.Reads ctx d' [c.step] [c]
  | some _ => False

theorem ensures_definition (h : d.Valid ctx) (line : Nat) {name : String} (hname : IsName name) :
    Ensures d (definition ctx line name) fun stmt d' => Defines ctx d stmt d' := by
  refine ensures_get_bind (ensures_ite (fun _ => ensures_refuse line _) fun htaken => ?_)
  have hnew : name ∉ d.values.map Prod.fst :=
    lookup_eq_none_iff_not_mem.mp (Option.not_isSome_iff_eq_none.mp htaken)
  refine ensures_lift_bind (Reader.ensures_takeWord (P := fun _ => True) fun _ _ _ => trivial)
    fun operation _ => ?_
  split
  · refine (ensures_call h line).bind fun c d₁ hc => ensures_append_define rfl (ensures_pure ?_)
    exact hc.2.reads_call hc.1 hname hnew hc.2.usable
  · exact (ensures_operand h).bind fun base d₁ hbase =>
      ensures_lift_bind Reader.ensures_bound fun n _ =>
        (ensures_operandsWithin ctx n hbase.valid).bind fun indices d₂ hindices =>
          ensures_append_define rfl (ensures_pure
            ((hbase.append hindices).reads_definition rfl rfl hname hnew (hbase.append hindices).usable))
  · exact (ensures_operand h).bind fun pointer d₁ hpointer =>
      ensures_append_define rfl (ensures_pure
        (hpointer.reads_definition rfl rfl hname hnew hpointer.usable))
  · exact (ensures_operand h).bind fun left d₁ hleft =>
      ensures_lift_bind (Reader.ensures_sign ',') fun _ _ =>
        (ensures_operand hleft.valid).bind fun right d₂ hright =>
          ensures_append_define rfl (ensures_pure
            ((hleft.append hright).reads_definition rfl rfl hname hnew (hleft.append hright).usable))

theorem ensures_returned (h : d.Valid ctx) (line : Nat) :
    Ensures d (returned ctx line) fun value d' => Supplied ctx d value.toList d' := by
  refine ensures_lift_bind Reader.ensures_get fun cursor _ => ?_
  split
  · refine ensures_ite (fun _ => ?_) fun _ => ensures_pure (supplied_nil h)
    rw [map_eq_pure_bind]
    exact (ensures_operand h).bind fun value d' hvalue => ensures_pure hvalue
  · exact ensures_pure (supplied_nil h)

/-- What starts a statement. A name that is to be defined is a name. -/
theorem ensures_stmtHead : (Reader.take .statement StmtHead.ofToken?).Ensures
    fun head => ∀ name, head = .define name → IsName name := by
  refine Reader.ensures_take fun t head ht hhead name hname => ?_
  subst hname
  unfold StmtHead.ofToken? at hhead
  split at hhead
  · cases hhead
    exact ht
  all_goals cases hhead

/-- A block has been read. -/
def ReadsBlock (ctx : BodyContext) (d : BodyDraft) (b : Block) (d' : BodyDraft) : Prop :=
  d.Reads ctx d' b.steps b.calls

section Blocks

variable {n : Nat} {d d₁ d₂ : BodyDraft}

/-- A statement without blocks has been read, and what follows it. -/
theorem ensures_cons
    (hblock : ∀ {d : BodyDraft}, d.Valid ctx → Ensures d (blockWithin ctx n) (ReadsBlock ctx d))
    {s : Stmt} {calls : List Call} (hs : d.Reads ctx d₁ [⟨s.operands, s.defines⟩] calls)
    (hcalls : ∀ rest, (Block.cons s rest).calls = calls ++ rest.calls) :
    Ensures d₁ (do return .cons s (← blockWithin ctx n)) (ReadsBlock ctx d) := by
  refine (hblock hs.valid).bind fun rest d₂ hrest => ensures_pure ?_
  unfold ReadsBlock
  rw [hcalls]
  exact hs.trans hrest

/-- The condition of a test has been read, and the block behind it: then the other block, if there is
one, and what follows them. -/
theorem ensures_branch
    (hblock : ∀ {d : BodyDraft}, d.Valid ctx → Ensures d (blockWithin ctx n) (ReadsBlock ctx d))
    {condition : ExprId} {accept : Block} (hcondition : d.Reads ctx d₁ [⟨[condition], []⟩] [])
    (haccept : ReadsBlock ctx d₁ accept d₂) :
    Ensures d₂ (do
      let reject ←
        if ← Reader.eat (.word "else") then
          Reader.sign '{'
          blockWithin ctx n
        else
          pure .nil
      return .branch condition accept reject (← blockWithin ctx n)) (ReadsBlock ctx d) := by
  have hbehind : ∀ {reject : Block} {d₃ : BodyDraft}, ReadsBlock ctx d₂ reject d₃ →
      Ensures d₃ (do return .branch condition accept reject (← blockWithin ctx n))
        (ReadsBlock ctx d) := by
    intro reject d₃ hreject
    refine (hblock hreject.valid).bind fun rest d₄ hrest => ensures_pure ?_
    exact hcondition.trans ((BodyDraft.Reads.trans haccept hreject).trans hrest)
  refine ensures_lift_bind (Reader.ensures_eat _) fun other _ =>
    ensures_ite (fun _ => ?_) fun _ => ?_
  · exact ensures_lift_bind (Reader.ensures_sign '{') fun _ _ =>
      (hblock haccept.valid).bind fun reject d₃ hreject => hbehind hreject
  · rw [pure_bind]
    exact hbehind (.refl haccept.valid)

end Blocks

/-- **What is read of a block are its steps and its calls.** -/
theorem ensures_blockWithin (ctx : BodyContext) : ∀ (n : Nat) {d : BodyDraft}, d.Valid ctx →
    Ensures d (blockWithin ctx n) (ReadsBlock ctx d)
  | 0, _, _ => ensures_expected _
  | n + 1, d, h => by
    have ih := @ensures_blockWithin ctx n
    refine ensures_lift_bind (Reader.ensures_eat _) fun closed _ => ensures_ite
      (fun _ => ensures_pure (.refl h)) fun _ => ensures_lift_bind Reader.ensures_peek fun next _ =>
        ensures_ite (fun _ => ensures_expected _) fun _ => ?_
    refine ensures_lift_bind Reader.ensures_line fun line _ =>
      ensures_lift_bind ensures_stmtHead fun head hhead => ?_
    cases head with
    | define name =>
      refine ensures_lift_bind (Reader.ensures_sign '=') fun _ _ =>
        (ensures_definition h line (hhead name rfl)).bind fun stmt d₁ hstmt => ?_
      match stmt, hstmt with
      | none, hstmt =>
        exact (ih (BodyDraft.Reads.valid hstmt)).imp fun rest d₂ hrest => hstmt.trans hrest
      | some (.call c), hstmt => exact ensures_cons ih hstmt fun _ => rfl
    | call =>
      refine (ensures_call h line).bind fun c d₁ hc => ?_
      have hread : d.Reads ctx d₁ [⟨c.2, []⟩] [⟨c.1, c.2, none⟩] := by
        refine hc.2.reads hc.2.usable fun c' hc' => ?_
        obtain rfl := List.mem_singleton.mp hc'
        exact ⟨hc.1, rfl⟩
      exact ensures_cons ih (s := .call ⟨c.1, c.2, none⟩) hread fun _ => rfl
    | store =>
      refine (ensures_operand h).bind fun pointer d₁ hpointer =>
        ensures_lift_bind (Reader.ensures_sign ',') fun _ _ =>
          (ensures_operand hpointer.valid).bind fun value d₂ hvalue => ?_
      have hboth := hpointer.append hvalue
      exact ensures_cons ih (s := .store pointer value)
        (hboth.reads hboth.usable fun _ hc => absurd hc List.not_mem_nil) fun _ => rfl
    | ret =>
      exact (ensures_returned h line).bind fun value d₁ hvalue => ensures_cons ih (s := .ret value)
        (hvalue.reads hvalue.usable fun _ hc => absurd hc List.not_mem_nil) fun _ => rfl
    | leave =>
      exact ensures_cons ih (s := .leave) ((supplied_nil h).reads (supplied_nil h).usable
        fun _ hc => absurd hc List.not_mem_nil) fun _ => rfl
    | branch =>
      exact (ensures_operand h).bind fun condition d₁ hcondition =>
        ensures_lift_bind (Reader.ensures_sign '{') fun _ _ =>
          (ih hcondition.valid).bind fun accept d₂ haccept => ensures_branch ih
            (hcondition.reads hcondition.usable fun _ hc => absurd hc List.not_mem_nil) haccept
    | loop =>
      exact ensures_lift_bind (Reader.ensures_sign '{') fun _ _ =>
        (ih h).bind fun body d₁ hbody =>
          (ih (BodyDraft.Reads.valid hbody)).bind fun rest d₂ hrest => ensures_pure
            (BodyDraft.Reads.trans hbody hrest)

theorem ensures_body (ctx : BodyContext) :
    Ensures .empty (body ctx) (ReadsBlock ctx .empty) :=
  ensures_lift_bind Reader.ensures_bound fun n _ =>
    ensures_lift_bind (Reader.ensures_sign '{') fun _ _ =>
      ensures_blockWithin ctx n (BodyDraft.valid_empty ctx)

end BodyReader

end ResourceBinding
