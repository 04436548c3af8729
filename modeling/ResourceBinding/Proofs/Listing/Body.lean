import ResourceBinding.Proofs.Listing.Lines
import ResourceBinding.Proofs.Reading.Body

/-!
# Written bodies are read as they are built

`WrittenBlock.Builds` says what a written block adds to a draft, line by line: `Means` is what an
operand stands for. The lines of a block that builds another one are read as that
(`BodyReader.reads_blockWithin`).
-/

namespace ResourceBinding

namespace BodyReader

variable {α β : Type} {x : BodyReader α} {f : α → BodyReader β} {a : α} {b : β}
  {d d' d'' : BodyDraft} {tokens rest rest' : List Located} {ctx : BodyContext}

/-- Starting with the draft `d`, the reader reads `a` from the tokens, and leaves the draft `d'` and
the rest of the tokens. -/
def Reads (x : BodyReader α) (d : BodyDraft) (tokens : List Located) (a : α) (d' : BodyDraft)
    (rest : List Located) : Prop :=
  ∀ last, (x.run d).run ⟨tokens, last⟩ = .ok ((a, d'), ⟨rest, last⟩)

theorem reads_pure (a : α) (d : BodyDraft) (tokens : List Located) :
    (pure a : BodyReader α).Reads d tokens a d tokens :=
  fun _ => rfl

theorem Reads.bind (hx : x.Reads d tokens a d' rest) (hf : (f a).Reads d' rest b d'' rest') :
    (x >>= f).Reads d tokens b d'' rest' := by
  intro last
  rw [StateT.run_bind, StateT.run_bind, hx last]
  exact hf last

/-- What reads tokens alone leaves the draft as it is. -/
theorem reads_lift_bind {r : Reader α} (hr : r.Reads tokens a rest)
    (hf : (f a).Reads d rest b d' rest') :
    ((liftM r : BodyReader α) >>= f).Reads d tokens b d' rest' := by
  intro last
  have hlift : (r >>= fun a => pure (a, d) : Reader (α × BodyDraft)).Reads tokens (a, d) rest :=
    hr.bind (Reader.reads_pure (a, d) rest)
  have hrun : ((liftM r : BodyReader α).run d).run ⟨tokens, last⟩ = .ok ((a, d), ⟨rest, last⟩) :=
    hlift last
  rw [StateT.run_bind, StateT.run_bind, hrun]
  exact hf last

theorem reads_get_bind {f : BodyDraft → BodyReader β} (hf : (f d).Reads d tokens b d' rest) :
    (get >>= f).Reads d tokens b d' rest :=
  hf

theorem reads_cursor_bind {f : Cursor → BodyReader β}
    (hf : ∀ last, (f ⟨tokens, last⟩).Reads d tokens b d' rest) :
    ((liftM (get : Reader Cursor) : BodyReader Cursor) >>= f).Reads d tokens b d' rest :=
  fun last => hf last last

theorem Reads.map {g : α → β} (hx : x.Reads d tokens a d' rest) :
    (g <$> x).Reads d tokens (g a) d' rest := by
  rw [map_eq_pure_bind]
  exact hx.bind (reads_pure _ _ _)

/-! ## Operands -/

/-- The token stands for the expression `id` of the draft `d'`, which has been added if it was not
in the draft `d`. -/
def Means (ctx : BodyContext) (d : BodyDraft) (t : Token) (id : ExprId) (d' : BodyDraft) : Prop :=
  ∀ line rest, (operand ctx).Reads d (⟨t, line⟩ :: rest) id d' rest

theorem ofToken?_token {l : Literal} (h : l.InRange) : Literal.ofToken? l.token = some l := by
  cases l with
  | bool value => cases value <;> rfl
  | i32 n => exact if_pos h
  | u32 n => exact if_pos h
  | f32 x => rfl

theorem isOperand_token (l : Literal) : l.token.isOperand := by
  cases l with
  | bool value => cases value <;> rfl
  | _ => rfl

theorem means_literal {l : Literal} (h : l.InRange) :
    Means ctx d l.token d.size (d.add (.literal l)) := by
  intro line rest
  refine reads_lift_bind (Reader.reads_line _ _)
    (reads_lift_bind (Reader.reads_take (if_pos (isOperand_token l)) line rest) ?_)
  cases l with
  | bool value => cases value <;> exact fun _ => rfl
  | i32 n =>
    dsimp only [Literal.token]
    rw [show Literal.ofToken? (.int n) = some (.i32 n) from ofToken?_token h]
    exact fun _ => rfl
  | u32 n =>
    dsimp only [Literal.token]
    rw [show Literal.ofToken? (.uint n) = some (.u32 n) from ofToken?_token h]
    exact fun _ => rfl
  | f32 x => exact fun _ => rfl

theorem reads_value {name : String} {line : Nat} {id : ExprId} {rest : List Located}
    (h : (value ctx line name).Reads d rest id d' rest) :
    (operand ctx).Reads d (⟨.valueName name, line⟩ :: rest) id d' rest := by
  have hoperand : (Token.valueName name).isOperand := rfl
  refine reads_lift_bind (Reader.reads_line _ _)
    (reads_lift_bind (Reader.reads_take (if_pos hoperand) line rest) ?_)
  exact h

theorem means_value {name : String} {id : ExprId} (h : d.values.lookup name = some id) :
    Means ctx d (.valueName name) id d := by
  intro line rest
  refine reads_value (reads_get_bind ?_)
  rw [h]
  exact reads_pure _ _ _

/-- A name that no value has is that of a parameter. -/
theorem means_parameter {name : String} {p : Nat} (hvalid : d.Valid ctx)
    (hfree : d.values.lookup name = none)
    (hfind : ctx.params.findIdx? (·.name == some name) = some p) :
    ∃ id d', Means ctx d (.valueName name) id d' ∧ d'.expr? id = some (.parameter p) := by
  have hreads : ∀ {id : ExprId} {d' : BodyDraft},
      (∀ rest, (parameter p).Reads d rest id d' rest) → Means ctx d (.valueName name) id d' := by
    intro id d' h line rest
    refine reads_value (reads_get_bind ?_)
    rw [hfree, hfind]
    exact h rest
  cases hmemo : d.parameters.lookup p with
  | some id =>
    refine ⟨id, d, hreads fun rest => reads_get_bind ?_, hvalid.memo p id (mem_of_lookup hmemo)⟩
    rw [hmemo]
    exact reads_pure _ _ _
  | none =>
    refine ⟨d.size, { d.add (.parameter p) with parameters := (p, d.size) :: d.parameters },
      hreads fun rest => reads_get_bind ?_, BodyDraft.expr?_add_size d _⟩
    rw [hmemo]
    exact fun _ => rfl

/-- What a token stands for can be used. -/
theorem Means.supplied {t : Token} {id : ExprId} (h : Means ctx d t id d') (hvalid : d.Valid ctx)
    (ht : t.Named) : Supplied ctx d [id] d' := by
  have hnamed : Cursor.Named ⟨[⟨t, 0⟩], 0⟩ := fun u hu => by
    rw [List.mem_singleton.mp hu]
    exact ht
  exact (ensures_operand hvalid _ _ _ _ hnamed (h 0 [] 0)).2

/-- The tokens stand for expressions, one after the other. -/
inductive MeansEach (ctx : BodyContext) : BodyDraft → List Token → List ExprId → BodyDraft → Prop
  | nil {d : BodyDraft} : MeansEach ctx d [] [] d
  | cons {d d' d'' : BodyDraft} {t : Token} {id : ExprId} {ts : List Token} {ids : List ExprId} :
      Means ctx d t id d' → MeansEach ctx d' ts ids d'' → MeansEach ctx d (t :: ts) (id :: ids) d''

theorem MeansEach.supplied {ts : List Token} {ids : List ExprId} (h : MeansEach ctx d ts ids d')
    (hvalid : d.Valid ctx) (hts : ∀ t ∈ ts, t.Named) : Supplied ctx d ids d' := by
  induction h with
  | nil => exact supplied_nil hvalid
  | cons ht _ ih =>
    have hfirst := ht.supplied hvalid (hts _ List.mem_cons_self)
    exact hfirst.append (ih hfirst.valid fun t ht => hts t (List.mem_cons_of_mem _ ht))

/-! ## Lists of operands -/

/-- Tokens with a comma in front of each. -/
def behindCommas (line : Nat) (ts : List Token) : List Located :=
  ts.flatMap fun t => [⟨.punct ',', line⟩, ⟨t, line⟩]

theorem onLine_listed (line : Nat) (t : Token) (ts : List Token) :
    onLine line (Piece.listed (t :: ts)) = ⟨t, line⟩ :: behindCommas line ts := by
  induction ts generalizing t with
  | nil => rfl
  | cons u ts ih =>
    rw [Piece.listed, List.map_cons, List.map_cons, Piece.commaSeparated_cons_cons]
    exact congrArg (⟨t, line⟩ :: ⟨.punct ',', line⟩ :: ·) (ih u)

theorem reads_operandsWithin {ts : List Token} {ids : List ExprId}
    (h : MeansEach ctx d ts ids d') (line : Nat) : ∀ n, ts.length ≤ n → ∀ rest,
    (rest.head?.map Located.token ≠ some (.punct ',')) →
    (operandsWithin ctx n).Reads d (behindCommas line ts ++ rest) ids d' rest := by
  induction h with
  | nil =>
    intro n _ rest hrest
    cases n with
    | zero => exact reads_pure _ _ _
    | succ n => exact reads_lift_bind (Reader.reads_eat_of_ne hrest) (reads_pure _ _ _)
  | cons ht _ ih =>
    intro n hn rest hrest
    obtain ⟨n, rfl⟩ := Nat.exists_eq_add_one_of_ne_zero (Nat.ne_zero_of_lt hn)
    refine reads_lift_bind (Reader.reads_eat (.punct ',') line _) ((ht line _).bind ?_)
    exact (ih n (Nat.le_of_succ_le_succ hn) rest hrest).bind (reads_pure _ _ _)

theorem reads_itemsWithin (close : Char) (hclose : close ≠ ',') {ts : List Token}
    {ids : List ExprId} (h : MeansEach ctx d ts ids d') (line : Nat) : ∀ {t : Token} {id : ExprId}
    {d₀ : BodyDraft}, Means ctx d₀ t id d → ∀ n, ts.length < n → ∀ rest,
    (Reader.itemsWithin close (operand ctx) n).Reads d₀
      (⟨t, line⟩ :: (behindCommas line ts ++ ⟨.punct close, line⟩ :: rest)) (id :: ids) d' rest := by
  induction h with
  | nil =>
    intro t id d₀ ht n hn rest
    obtain ⟨n, rfl⟩ := Nat.exists_eq_add_one_of_ne_zero (Nat.ne_zero_of_lt hn)
    exact (ht line _).bind
      (reads_lift_bind (Reader.reads_eat (.punct close) line rest) (reads_pure _ _ _))
  | cons hu _ ih =>
    intro t id d₀ ht n hn rest
    obtain ⟨n, rfl⟩ := Nat.exists_eq_add_one_of_ne_zero (Nat.ne_zero_of_lt hn)
    refine (ht line _).bind (reads_lift_bind (Reader.reads_eat_of_ne (by
      simpa [behindCommas] using hclose.symm)) ?_)
    refine reads_lift_bind (Reader.reads_sign ',' line _) ?_
    exact (ih hu n (Nat.lt_of_succ_lt_succ hn) rest).bind (reads_pure _ _ _)

/-- **Arguments are read one by one**, up to the closing sign. -/
theorem reads_arguments {ts : List Token} {ids : List ExprId} (h : MeansEach ctx d ts ids d')
    (hts : ∀ t ∈ ts, t.isOperand) (line : Nat) (rest : List Located) :
    (Reader.itemsUntil ')' (operand ctx)).Reads d
      (onLine line (Piece.listed ts) ++ ⟨.punct ')', line⟩ :: rest) ids d' rest := by
  cases h with
  | nil => exact reads_lift_bind (Reader.reads_eat (.punct ')') line rest) (reads_pure _ _ _)
  | @cons _ _ _ t id ts ids ht hrest =>
    have hne : t ≠ .punct ')' := by
      rintro rfl
      cases hts _ List.mem_cons_self
    rw [onLine_listed]
    refine reads_lift_bind (Reader.reads_eat_of_ne (by simpa using hne)) ?_
    refine reads_lift_bind (Reader.reads_bound _) ?_
    refine reads_itemsWithin ')' (by decide) hrest line ht _ ?_ rest
    simp [behindCommas]
    omega

/-! ## Calls and definitions -/

theorem reads_call {name : String} {callee : FunctionId} {ts : List Token} {ids : List ExprId}
    (hcallee : ctx.functions.idxOf? name = some callee) (h : MeansEach ctx d ts ids d')
    (hts : ∀ t ∈ ts, t.isOperand) (start line : Nat) (rest : List Located) :
    (call ctx start).Reads d (⟨.functionName name, line⟩ :: ⟨.punct '(', line⟩ ::
      (onLine line (Piece.listed ts) ++ ⟨.punct ')', line⟩ :: rest)) (callee, ids) d' rest := by
  refine reads_lift_bind (Reader.reads_functionName name line _) ?_
  rw [hcallee]
  refine reads_lift_bind (Reader.reads_sign '(' line _) ?_
  exact (reads_arguments h hts line rest).bind (reads_pure _ _ _)

/-- A name is given to a new expression. -/
theorem reads_append_define {e : Expr} {name : String} {f : ExprId → BodyReader β}
    (hf : (f d.size).Reads (d.addNamed e name) tokens b d' rest) :
    (do
      let id ← append e
      define name id
      f id).Reads d tokens b d' rest :=
  hf

/-- **A definition is read as the expression it defines**, whose name is not taken. -/
theorem reads_definition {name operation : String} {e : Expr} {ts : List Token}
    (hfree : d.values.lookup name = none) (hoperation : e.operation? = some operation)
    (h : MeansEach ctx d ts e.operands d') (start line : Nat) {rest : List Located}
    (hrest : rest.head?.map Located.token ≠ some (.punct ',')) :
    (definition ctx start name).Reads d
      (⟨.word operation, line⟩ :: (onLine line (Piece.listed ts) ++ rest)) none
      (d'.addNamed e name) rest := by
  refine reads_get_bind ?_
  rw [hfree, Option.isSome_none, if_neg Bool.false_ne_true]
  cases e with
  | literal l | parameter p | result callee => cases hoperation
  | access base indices =>
    cases hoperation
    cases h with
    | cons hbase hindices =>
      refine reads_lift_bind (Reader.reads_takeWord (w := "access") (a := .access) rfl line _) ?_
      rw [onLine_listed]
      refine (hbase line _).bind (reads_lift_bind (Reader.reads_bound _) ?_)
      refine (reads_operandsWithin hindices line _ ?_ rest hrest).bind
        (reads_append_define (reads_pure _ _ _))
      simp [behindCommas]
      omega
  | load pointer =>
    cases hoperation
    cases h with
    | cons hpointer hnil =>
      cases hnil
      refine reads_lift_bind (Reader.reads_takeWord (w := "load") (a := .load) rfl line _) ?_
      exact (hpointer line rest).bind (reads_append_define (reads_pure _ _ _))
  | binary op left right =>
    cases hoperation
    cases h with
    | cons hleft hothers =>
      cases hothers with
      | cons hright hnil =>
        cases hnil
        have hword : Operation.ofWord? op.word = some (.binary op) := by cases op <;> rfl
        refine reads_lift_bind (Reader.reads_takeWord hword line _) ?_
        rw [onLine_listed]
        refine (hleft line _).bind (reads_lift_bind (Reader.reads_sign ',' line _) ?_)
        exact (hright line rest).bind (reads_append_define (reads_pure _ _ _))

/-- The definition of the result of a call is read as the call. -/
theorem reads_definition_call {name callee : String} {id : FunctionId} {ts : List Token}
    {ids : List ExprId} (hfree : d.values.lookup name = none)
    (hcallee : ctx.functions.idxOf? callee = some id) (h : MeansEach ctx d ts ids d')
    (hts : ∀ t ∈ ts, t.isOperand) (start line : Nat) (rest : List Located) :
    (definition ctx start name).Reads d (⟨.word "call", line⟩ :: ⟨.functionName callee, line⟩ ::
      ⟨.punct '(', line⟩ :: (onLine line (Piece.listed ts) ++ ⟨.punct ')', line⟩ :: rest))
      (some (.call ⟨id, ids, some d'.size⟩)) (d'.addNamed (.result id) name) rest := by
  refine reads_get_bind ?_
  rw [hfree, Option.isSome_none, if_neg Bool.false_ne_true]
  refine reads_lift_bind (Reader.reads_takeWord (w := "call") (a := .call) rfl line _) ?_
  exact (reads_call hcallee h hts start line rest).bind (reads_append_define (reads_pure _ _ _))

/-! ## Statements -/

/-- A value is returned that stands on the line of the statement. -/
theorem reads_returned {t : Token} {id : ExprId} (h : Means ctx d t id d') (ht : t.isOperand)
    (line : Nat) (rest : List Located) :
    (returned ctx line).Reads d (⟨t, line⟩ :: rest) (some id) d' rest := by
  have hne : t ≠ .punct '}' := by
    rintro rfl
    cases ht
  refine reads_cursor_bind fun last => ?_
  dsimp only
  rw [if_pos ⟨rfl, hne⟩]
  exact (h line rest).map

/-- No value stands on the line of the statement. -/
theorem reads_returned_none {line : Nat} {next : Located} (h : next.line ≠ line)
    (rest : List Located) : (returned ctx line).Reads d (next :: rest) none d (next :: rest) := by
  refine reads_cursor_bind fun last => ?_
  dsimp only
  rw [if_neg fun hsame => h hsame.1]
  exact reads_pure _ _ _

/-- A token that starts a statement is read, and the statement behind it. -/
theorem reads_statement {t : Token} {head : StmtHead} {k : Nat → StmtHead → BodyReader Block}
    {block : Block} {line : Nat} (hne : t ≠ .punct '}') (hhead : StmtHead.ofToken? t = some head)
    (hk : (k line head).Reads d rest block d' rest') :
    (do
      if ← Reader.eat (.punct '}') then
        return .nil
      else if (← Reader.peek).isNone then
        (Reader.expected (.punct '}') : Reader Block)
      else
        let line ← Reader.line
        k line (← Reader.take .statement StmtHead.ofToken?) : BodyReader Block).Reads d
      (⟨t, line⟩ :: rest) block d' rest' := by
  refine reads_lift_bind (Reader.reads_eat_of_ne (by simpa using hne)) ?_
  rw [if_neg Bool.false_ne_true]
  refine reads_lift_bind (Reader.reads_peek _) ?_
  rw [List.head?_cons, Option.map_some, Option.isNone_some, if_neg Bool.false_ne_true]
  exact reads_lift_bind (Reader.reads_line _ _)
    (reads_lift_bind (Reader.reads_take hhead line rest) hk)

end BodyReader

open BodyReader (Means MeansEach)

/-! ## What written bodies build -/

variable {ctx : BodyContext} {d d' d₁ d₂ : BodyDraft}

/-- The definition adds an expression to a draft, whose name is not taken. -/
structure WrittenDefinition.Builds (ctx : BodyContext) (d : BodyDraft) (w : WrittenDefinition)
    (e : Expr) (d' : BodyDraft) : Prop where
  free : d.values.lookup w.name = none
  operation : e.operation? = some w.operation
  operands : MeansEach ctx d w.operands e.operands d'

/-- What a statement is read as, and what it adds to a draft. -/
inductive WrittenStmt.Builds (ctx : BodyContext) :
    BodyDraft → WrittenStmt → Stmt → BodyDraft → Prop
  | store {d d' : BodyDraft} {t u : Token} {pointer value : ExprId} :
      MeansEach ctx d [t, u] [pointer, value] d' → Builds ctx d (.store t u) (.store pointer value) d'
  | call {d d' : BodyDraft} {name : String} {callee : FunctionId} {ts : List Token}
      {ids : List ExprId} :
      ctx.functions.idxOf? name = some callee → MeansEach ctx d ts ids d' →
      Builds ctx d (.call none name ts) (.call ⟨callee, ids, none⟩) d'
  | result {d d' : BodyDraft} {result name : String} {callee : FunctionId} {ts : List Token}
      {ids : List ExprId} :
      d.values.lookup result = none → ctx.functions.idxOf? name = some callee →
      MeansEach ctx d ts ids d' →
      Builds ctx d (.call (some result) name ts) (.call ⟨callee, ids, some d'.size⟩)
        (d'.addNamed (.result callee) result)
  | leave {d : BodyDraft} : Builds ctx d .leave .leave d
  | ret {d : BodyDraft} : Builds ctx d (.ret none) (.ret none) d
  | retValue {d d' : BodyDraft} {t : Token} {id : ExprId} :
      Means ctx d t id d' → Builds ctx d (.ret (some t)) (.ret (some id)) d'

/-- What a block is read as, and what it adds to a draft. -/
inductive WrittenBlock.Builds (ctx : BodyContext) :
    BodyDraft → WrittenBlock → Block → BodyDraft → Prop
  | nil {d : BodyDraft} : Builds ctx d .nil .nil d
  | define {d d' d'' : BodyDraft} {first : WrittenDefinition} {e : Expr} {rest : WrittenBlock}
      {b : Block} :
      first.Builds ctx d e d' → Builds ctx (d'.addNamed e first.name) rest b d'' →
      Builds ctx d (.define first rest) b d''
  | cons {d d' d'' : BodyDraft} {head : WrittenStmt} {s : Stmt} {rest : WrittenBlock} {b : Block} :
      head.Builds ctx d s d' → Builds ctx d' rest b d'' →
      Builds ctx d (.cons head rest) (.cons s b) d''
  | branch {d d₁ d₂ d₃ d₄ : BodyDraft} {t : Token} {condition : ExprId}
      {accept reject rest : WrittenBlock} {ba br b : Block} :
      Means ctx d t condition d₁ → Builds ctx d₁ accept ba d₂ → Builds ctx d₂ reject br d₃ →
      Builds ctx d₃ rest b d₄ →
      Builds ctx d (.branch t accept reject rest) (.branch condition ba br b) d₄
  | loop {d d₁ d₂ : BodyDraft} {body rest : WrittenBlock} {bb b : Block} :
      Builds ctx d body bb d₁ → Builds ctx d₁ rest b d₂ →
      Builds ctx d (.loop body rest) (.loop bb b) d₂

/-! ## Reading blocks -/

/-- What can follow the line of a statement: a token on another line, which does not go on with
it. -/
def FollowsLine (line : Nat) (rest : List Located) : Prop :=
  ∃ next others, rest = next :: others ∧ next.line ≠ line ∧ next.token ≠ .punct ',' ∧
    next.token ≠ .word "else"

namespace BodyReader

open Piece

variable {rest rest' : List Located} {n line : Nat} {b : Block}

theorem exists_first_token (s : WrittenStmt) (line : Nat) :
    ∃ t rest, onLine line s.pieces = ⟨t, line⟩ :: rest ∧ t ≠ .punct ',' ∧ t ≠ .word "else" := by
  cases s with
  | store t u => exact ⟨.word "store", _, rfl, by simp, by simp⟩
  | call result callee arguments =>
    cases result with
    | none => exact ⟨.word "call", _, rfl, by simp, by simp⟩
    | some name => exact ⟨.valueName name, _, rfl, by simp, by simp⟩
  | leave => exact ⟨.word "break", _, rfl, by simp, by simp⟩
  | ret value =>
    cases value with
    | none => exact ⟨.word "return", _, rfl, by simp, by simp⟩
    | some t => exact ⟨.word "return", _, rfl, by simp, by simp⟩

/-- The first token of a block, or the brace that closes it, goes on with no line before. -/
theorem followsLine_block {w : WrittenBlock} (hw : w.Legible) (line indent : Nat) {c : Nat}
    (hclose : line < c) (rest : List Located) :
    FollowsLine line (locate (line + 1) (w.pieces indent) ++ ⟨.punct '}', c⟩ :: rest) := by
  have hne : line + 1 ≠ line := by omega
  cases w with
  | nil => exact ⟨_, _, rfl, by simpa using Nat.ne_of_gt hclose, by simp, by simp⟩
  | define first others =>
    rw [WrittenBlock.locate_define hw.1, WrittenDefinition.pieces]
    exact ⟨⟨.valueName first.name, line + 1⟩, _, rfl, hne, by simp, by simp⟩
  | cons head others =>
    obtain ⟨t, behind, hfirst, hcomma, helse⟩ := exists_first_token head (line + 1)
    rw [WrittenBlock.locate_cons hw.1, hfirst]
    exact ⟨⟨t, line + 1⟩, _, rfl, hne, hcomma, helse⟩
  | branch condition accept reject others =>
    cases hempty : reject.isEmpty with
    | true =>
      rw [WrittenBlock.locate_branch_of_isEmpty hempty]
      exact ⟨⟨.word "if", line + 1⟩, _, rfl, hne, by simp, by simp⟩
    | false =>
      rw [WrittenBlock.locate_branch hempty]
      exact ⟨⟨.word "if", line + 1⟩, _, rfl, hne, by simp, by simp⟩
  | loop body others =>
    rw [WrittenBlock.locate_loop]
    exact ⟨⟨.word "loop", line + 1⟩, _, rfl, hne, by simp, by simp⟩

/-- A definition in front of a block is read. -/
theorem reads_define {w : WrittenDefinition} {e : Expr} (hw : w.Builds ctx d e d₁)
    (hrest : FollowsLine line rest)
    (h : (blockWithin ctx n).Reads (d₁.addNamed e w.name) rest b d₂ rest') :
    (blockWithin ctx (n + 1)).Reads d (onLine line w.pieces ++ rest) b d₂ rest' := by
  obtain ⟨next, others, rfl, -, hcomma, -⟩ := hrest
  simp only [WrittenDefinition.pieces, Piece.defined, onLine_valueName, onLine_punct, onLine_word,
    onLine_gap, List.cons_append, List.nil_append]
  refine reads_statement (by simp) rfl ?_
  refine reads_lift_bind (Reader.reads_sign '=' line _) ?_
  exact (reads_definition hw.free hw.operation hw.operands line line (by simpa using hcomma)).bind h

/-- A statement in front of a block is read. -/
theorem reads_cons {w : WrittenStmt} {s : Stmt} (hbuilds : w.Builds ctx d s d₁) (hw : w.Legible)
    (hrest : FollowsLine line rest) (h : (blockWithin ctx n).Reads d₁ rest b d₂ rest') :
    (blockWithin ctx (n + 1)).Reads d (onLine line w.pieces ++ rest) (.cons s b) d₂ rest' := by
  cases hbuilds with
  | store hoperands =>
    cases hoperands with
    | cons hpointer hothers =>
      cases hothers with
      | cons hvalue hnil =>
        cases hnil
        refine reads_statement (t := .word "store") (by simp) rfl ?_
        refine (hpointer line _).bind (reads_lift_bind (Reader.reads_sign ',' line _) ?_)
        exact (hvalue line rest).bind (h.bind (reads_pure _ _ _))
  | call hcallee hoperands =>
    simp only [WrittenStmt.pieces, onLine_append, onLine_functionName, onLine_punct, onLine_word,
      onLine_gap, onLine_nil, List.cons_append, List.nil_append, List.append_assoc]
    refine reads_statement (by simp) rfl ?_
    exact (reads_call hcallee hoperands (fun t ht => (hw.2.2 t ht).operand) line line rest).bind
      (h.bind (reads_pure _ _ _))
  | result hfree hcallee hoperands =>
    simp only [WrittenStmt.pieces, Piece.defined, onLine_append, onLine_functionName, onLine_punct,
      onLine_valueName, onLine_word, onLine_gap, onLine_nil, List.cons_append, List.nil_append,
      List.append_assoc]
    refine reads_statement (by simp) rfl (reads_lift_bind (Reader.reads_sign '=' line _) ?_)
    exact (reads_definition_call hfree hcallee hoperands (fun t ht => (hw.2.2 t ht).operand) line line
      rest).bind (h.bind (reads_pure _ _ _))
  | leave => exact reads_statement (t := .word "break") (by simp) rfl (h.bind (reads_pure _ _ _))
  | ret =>
    obtain ⟨next, others, rfl, hline, -⟩ := hrest
    refine reads_statement (t := .word "return") (by simp) rfl ?_
    exact (reads_returned_none hline others).bind (h.bind (reads_pure _ _ _))
  | retValue hvalue =>
    refine reads_statement (t := .word "return") (by simp) rfl ?_
    exact (reads_returned hvalue (hw _ rfl).operand line rest).bind (h.bind (reads_pure _ _ _))

section Nested

variable {d₃ d₄ : BodyDraft} {t : Token} {condition : ExprId} {accept reject body : Block}
  {inner other : List Located} {middle : Nat}

/-- A test without another way is read in front of a block: what follows the brace is no `else`. -/
theorem reads_branch_of_followsLine (ht : Means ctx d t condition d₁)
    (haccept : (blockWithin ctx n).Reads d₁ inner accept d₂ rest)
    (hrest : FollowsLine middle rest) (h : (blockWithin ctx n).Reads d₂ rest b d₃ rest') :
    (blockWithin ctx (n + 1)).Reads d
      (⟨.word "if", line⟩ :: ⟨t, line⟩ :: ⟨.punct '{', line⟩ :: inner)
      (.branch condition accept .nil b) d₃ rest' := by
  refine reads_statement (by simp) rfl ((ht line _).bind ?_)
  refine reads_lift_bind (Reader.reads_sign '{' line _) (haccept.bind ?_)
  obtain ⟨next, behind, rfl, -, -, helse⟩ := hrest
  refine reads_lift_bind (Reader.reads_eat_of_ne (by simpa using helse)) ?_
  rw [if_neg Bool.false_ne_true, pure_bind]
  exact h.bind (reads_pure _ _ _)

/-- A test with two ways is read in front of a block. -/
theorem reads_branch (ht : Means ctx d t condition d₁)
    (haccept : (blockWithin ctx n).Reads d₁ inner accept d₂
      (⟨.word "else", middle⟩ :: ⟨.punct '{', middle⟩ :: other))
    (hreject : (blockWithin ctx n).Reads d₂ other reject d₃ rest)
    (h : (blockWithin ctx n).Reads d₃ rest b d₄ rest') :
    (blockWithin ctx (n + 1)).Reads d
      (⟨.word "if", line⟩ :: ⟨t, line⟩ :: ⟨.punct '{', line⟩ :: inner)
      (.branch condition accept reject b) d₄ rest' := by
  refine reads_statement (by simp) rfl ((ht line _).bind ?_)
  refine reads_lift_bind (Reader.reads_sign '{' line _) (haccept.bind ?_)
  refine reads_lift_bind (Reader.reads_eat (.word "else") _ _) ?_
  rw [if_pos rfl]
  refine reads_lift_bind (Reader.reads_sign '{' _ _) (hreject.bind ?_)
  exact h.bind (reads_pure _ _ _)

/-- A loop is read in front of a block. -/
theorem reads_loop (hbody : (blockWithin ctx n).Reads d inner body d₁ rest)
    (h : (blockWithin ctx n).Reads d₁ rest b d₂ rest') :
    (blockWithin ctx (n + 1)).Reads d (⟨.word "loop", line⟩ :: ⟨.punct '{', line⟩ :: inner)
      (.loop body b) d₂ rest' := by
  refine reads_statement (by simp) rfl (reads_lift_bind (Reader.reads_sign '{' line _) ?_)
  exact hbody.bind (h.bind (reads_pure _ _ _))

end Nested

/-- **The lines of a block are read as what it builds**, up to the brace that closes it. -/
theorem reads_blockWithin {w : WrittenBlock} (hb : w.Builds ctx d b d') (hw : w.Legible) :
    ∀ (n indent line close : Nat) (rest : List Located), (locate line (w.pieces indent)).length < n →
      line + lineCount (w.pieces indent) ≤ close →
      (blockWithin ctx n).Reads d (locate line (w.pieces indent) ++ ⟨.punct '}', close⟩ :: rest) b d'
        rest := by
  induction hb with
  | nil =>
    intro n indent line close rest hn hclose
    obtain ⟨n, rfl⟩ := Nat.exists_eq_add_one_of_ne_zero (Nat.ne_zero_of_lt hn)
    exact reads_lift_bind (Reader.reads_eat (.punct '}') close rest) (reads_pure _ _ _)
  | @define d d₁ d₂ first e others b hfirst _ ih =>
    intro n indent line close rest hn hclose
    obtain ⟨n, rfl⟩ := Nat.exists_eq_add_one_of_ne_zero (Nat.ne_zero_of_lt hn)
    have hfollows := followsLine_block hw.2 line indent (c := close)
    rw [WrittenBlock.lineCount_define hw.1] at hclose
    rw [WrittenBlock.locate_define hw.1, List.length_append] at hn
    rw [WrittenBlock.locate_define hw.1, List.append_assoc]
    have hpos : 0 < (onLine line first.pieces).length := Nat.succ_pos _
    exact reads_define hfirst (hfollows (by omega) rest)
      (ih hw.2 n indent (line + 1) close rest (by omega) (by omega))
  | @cons d d₁ d₂ head s others b hhead _ ih =>
    intro n indent line close rest hn hclose
    obtain ⟨n, rfl⟩ := Nat.exists_eq_add_one_of_ne_zero (Nat.ne_zero_of_lt hn)
    have hfollows := followsLine_block hw.2 line indent (c := close)
    rw [WrittenBlock.lineCount_cons hw.1] at hclose
    rw [WrittenBlock.locate_cons hw.1, List.length_append] at hn
    rw [WrittenBlock.locate_cons hw.1, List.append_assoc]
    have hpos : 0 < (onLine line head.pieces).length := by
      obtain ⟨t, behind, hfirst, -⟩ := exists_first_token head line
      rw [hfirst]
      exact Nat.succ_pos _
    exact reads_cons hhead hw.1 (hfollows (by omega) rest)
      (ih hw.2 n indent (line + 1) close rest (by omega) (by omega))
  | @branch d d₁ d₂ d₃ d₄ t condition accept reject others ba br b ht haccept hreject _ iha ihr ih =>
    intro n indent line close rest hn hclose
    obtain ⟨n, rfl⟩ := Nat.exists_eq_add_one_of_ne_zero (Nat.ne_zero_of_lt hn)
    obtain ⟨hcondition, hwa, hwr, hw⟩ := hw
    cases hempty : reject.isEmpty with
    | true =>
      obtain rfl : reject = .nil := by
        cases reject with
        | nil => rfl
        | _ => cases hempty
      cases hreject
      rw [WrittenBlock.lineCount_branch_of_isEmpty hempty] at hclose
      rw [WrittenBlock.locate_branch_of_isEmpty hempty] at hn ⊢
      simp only [List.length_cons, List.length_append, List.cons_append, List.append_assoc] at hn ⊢
      exact reads_branch_of_followsLine ht (iha hwa n _ _ _ _ (by omega) (Nat.le_refl _))
        (followsLine_block hw _ indent (by omega) rest)
        (ih hw n indent _ close rest (by omega) (by omega))
    | false =>
      rw [WrittenBlock.lineCount_branch hempty] at hclose
      rw [WrittenBlock.locate_branch hempty] at hn ⊢
      simp only [List.length_cons, List.length_append, List.cons_append, List.append_assoc] at hn ⊢
      exact reads_branch ht (iha hwa n _ _ _ _ (by omega) (Nat.le_refl _))
        (ihr hwr n _ _ _ _ (by omega) (Nat.le_refl _))
        (ih hw n indent _ close rest (by omega) (by omega))
  | @loop d d₁ d₂ body others bb b _ _ ihb ih =>
    intro n indent line close rest hn hclose
    obtain ⟨n, rfl⟩ := Nat.exists_eq_add_one_of_ne_zero (Nat.ne_zero_of_lt hn)
    rw [WrittenBlock.lineCount_loop] at hclose
    rw [WrittenBlock.locate_loop] at hn ⊢
    simp only [List.length_cons, List.length_append, List.cons_append, List.append_assoc] at hn ⊢
    exact reads_loop (ihb hw.1 n _ _ _ _ (by omega) (Nat.le_refl _))
      (ih hw.2 n indent _ close rest (by omega) (by omega))

end BodyReader

end ResourceBinding
