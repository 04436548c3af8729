import ResourceBinding.Proofs.Reading.Braces
import ResourceBinding.Proofs.Reading.Cursor

/-!
# How far readers read

`Reader.Takes` is a contract: a reader takes tokens from the front whose braces match, or match up
to a sign that closes what was opened before. There is one lemma for each reader, and `Takes.bind`
composes them. A block is read up to the brace that closes it (`BodyReader.takes_blockWithin`), and
counting braces finds the same one (`afterBlock_of_balancedUntil`).
-/

namespace ResourceBinding

/-! ## Readers -/

namespace Reader

variable {α β : Type} {x : Reader α} {f : α → Reader β} {close : Option Char}

/-- What is read are tokens at the front, and their braces match up to the closing sign. -/
def Takes (close : Option Char) (x : Reader α) : Prop :=
  ∀ cursor a cursor', x.run cursor = .ok (a, cursor') →
    ∃ taken, BalancedUntil close taken ∧ cursor = ⟨taken ++ cursor'.rest, cursor'.lastLine⟩

theorem takes_pure (a : α) : Takes none (pure a : Reader α) := by
  intro cursor b cursor' hrun
  cases hrun
  exact ⟨[], .nil, rfl⟩

/-- A reader that goes on where another one has stopped. -/
theorem Takes.bind (hx : Takes none x) (hf : ∀ a, Takes close (f a)) : Takes close (x >>= f) := by
  intro cursor b cursor' hrun
  obtain ⟨a, cursor₁, hfirst, hrest⟩ := exists_of_run_bind hrun
  obtain ⟨taken, htaken, rfl⟩ := hx cursor a cursor₁ hfirst
  obtain ⟨others, hothers, rfl⟩ := hf a cursor₁ b cursor' hrest
  exact ⟨taken ++ others, hothers.prepend htaken, by rw [List.append_assoc]⟩

theorem Takes.map {g : α → β} (hx : Takes close x) : Takes close (g <$> x) := by
  intro cursor b cursor' hrun
  rw [map_eq_pure_bind] at hrun
  obtain ⟨a, cursor₁, hfirst, hrest⟩ := exists_of_run_bind hrun
  cases hrest
  exact hx cursor a cursor' hfirst

theorem Takes.ended {sign : Char} (hx : Takes (some sign) x)
    (hsign : ¬ (Token.punct sign).IsBrace) : Takes none x := by
  intro cursor a cursor' hrun
  obtain ⟨taken, htaken, rfl⟩ := hx cursor a cursor' hrun
  exact ⟨taken, htaken.balanced hsign, rfl⟩

theorem takes_ite {c : Prop} [Decidable c] {y : Reader α} (hx : Takes close x)
    (hy : Takes close y) : Takes close (if c then x else y) := by
  split
  · exact hx
  · exact hy

/-- What always fails fulfils the contract. -/
theorem takes_of_fails (h : ∀ cursor, ∃ e, x.run cursor = .error e) : Takes close x := by
  intro cursor a cursor' hrun
  obtain ⟨e, he⟩ := h cursor
  cases he.symm.trans hrun

theorem takes_refuse (line : Nat) (cause : ParseCause) :
    Takes close (refuse line cause : Reader α) :=
  takes_of_fails fun _ => ⟨_, rfl⟩

theorem takes_expected (wanted : Wanted) : Takes close (expected wanted : Reader α) :=
  takes_of_fails fun _ => ⟨_, rfl⟩

/-- What is read is one token at least, and the braces match. -/
structure Advances (x : Reader α) : Prop where
  takes : Takes none x
  length_lt : ∀ {cursor a cursor'}, x.run cursor = .ok (a, cursor') →
    cursor'.rest.length < cursor.rest.length

theorem Takes.length_le (hx : Takes close x) {cursor cursor' : Cursor} {a : α}
    (hrun : x.run cursor = .ok (a, cursor')) : cursor'.rest.length ≤ cursor.rest.length := by
  obtain ⟨taken, -, rfl⟩ := hx cursor a cursor' hrun
  rw [List.length_append]
  omega

theorem Advances.bind (hx : Advances x) (hf : ∀ a, Takes none (f a)) : Advances (x >>= f) where
  takes := hx.takes.bind hf
  length_lt := by
    intro cursor b cursor' hrun
    obtain ⟨a, cursor₁, hfirst, hrest⟩ := exists_of_run_bind hrun
    exact Nat.lt_of_le_of_lt ((hf a).length_le hrest) (hx.length_lt hfirst)

/-! ### Tokens -/

theorem takes_get : Takes none (get : Reader Cursor) := by
  intro cursor a cursor' hrun
  cases hrun
  exact ⟨[], .nil, rfl⟩

theorem takes_peek : Takes none peek :=
  takes_get.bind fun _ => takes_pure _

theorem takes_line : Takes none line :=
  takes_get.bind fun _ => takes_pure _

theorem takes_bound : Takes none bound :=
  takes_get.bind fun _ => takes_pure _

theorem takes_take {wanted : Wanted} {meaning : Token → Option α}
    (h : ∀ t a, meaning t = some a → ¬ t.IsBrace) : Takes none (take wanted meaning) := by
  intro cursor a cursor' hrun
  obtain ⟨t, rfl, hmeaning⟩ := exists_cursor_of_run_take hrun
  exact ⟨[t], .singleton (h t.token a hmeaning), rfl⟩

theorem advances_takeWord {wanted : Wanted} {meaning : String → Option α} :
    Advances (takeWord wanted meaning) where
  takes := takes_take fun t a ha hbrace => by obtain rfl | rfl := hbrace <;> cases ha
  length_lt := by
    intro cursor a cursor' hrun
    obtain ⟨t, rfl, -⟩ := exists_cursor_of_run_take hrun
    exact Nat.lt_succ_self _

theorem takes_takeWord {wanted : Wanted} {meaning : String → Option α} :
    Takes none (takeWord wanted meaning) :=
  advances_takeWord.takes

/-- A sign is taken itself. -/
theorem exists_cursor_of_run_sign {char : Char} {cursor cursor' : Cursor}
    (h : (sign char).run cursor = .ok ((), cursor')) :
    ∃ line, cursor = ⟨⟨.punct char, line⟩ :: cursor'.rest, cursor'.lastLine⟩ := by
  obtain ⟨⟨token, line⟩, hcursor, hsign⟩ := exists_cursor_of_run_take h
  obtain rfl : token = .punct char := by
    by_contra hne
    rw [if_neg hne] at hsign
    cases hsign
  exact ⟨line, hcursor⟩

theorem takes_sign {char : Char} (h : ¬ (Token.punct char).IsBrace) : Takes none (sign char) := by
  intro cursor a cursor' hrun
  obtain ⟨line, rfl⟩ := exists_cursor_of_run_sign hrun
  exact ⟨[⟨.punct char, line⟩], .singleton h, rfl⟩

/-- Between an opening brace and the one that closes it. -/
theorem takes_block (hx : Takes (some '}') x) (hf : ∀ a, Takes close (f a)) :
    Takes close (sign '{' >>= fun _ => x >>= f) := by
  intro cursor b cursor' hrun
  obtain ⟨_, cursor₁, hsign, hrun⟩ := exists_of_run_bind hrun
  obtain ⟨a, cursor₂, hblock, hrest⟩ := exists_of_run_bind hrun
  obtain ⟨line, rfl⟩ := exists_cursor_of_run_sign hsign
  obtain ⟨taken, htaken, rfl⟩ := hx cursor₁ a cursor₂ hblock
  obtain ⟨others, hothers, rfl⟩ := hf a cursor₂ b cursor' hrest
  refine ⟨⟨.punct '{', line⟩ :: taken ++ others, hothers.prepend (htaken.enclose line), ?_⟩
  rw [List.append_assoc, List.cons_append]

theorem takes_valueName : Takes none valueName := by
  refine takes_take fun t a ha hbrace => ?_
  obtain rfl | rfl := hbrace <;> cases ha

theorem takes_functionName : Takes none functionName := by
  refine takes_take fun t a ha hbrace => ?_
  obtain rfl | rfl := hbrace <;> cases ha

/-- Either the token has been stepped over, or nothing. -/
theorem run_eat_cases {token : Token} {found : Bool} {cursor cursor' : Cursor}
    (h : (eat token).run cursor = .ok (found, cursor')) :
    (found = true ∧ ∃ line, cursor = ⟨⟨token, line⟩ :: cursor'.rest, cursor'.lastLine⟩) ∨
      (found = false ∧ cursor' = cursor) := by
  obtain ⟨next, cursor₁, hpeek, h⟩ := exists_of_run_bind h
  cases hpeek
  split at h
  · rename_i hnext
    cases h
    obtain ⟨⟨t, line⟩, ht, rfl⟩ := Option.map_eq_some_iff.mp hnext
    refine .inl ⟨rfl, line, ?_⟩
    rw [List.cons_head?_tail ht]
  · cases h
    exact .inr ⟨rfl, rfl⟩

theorem takes_eat {token : Token} (h : ¬ token.IsBrace) : Takes none (eat token) := by
  intro cursor found cursor' hrun
  rcases run_eat_cases hrun with ⟨-, line, rfl⟩ | ⟨-, rfl⟩
  · exact ⟨[⟨token, line⟩], .singleton h, rfl⟩
  · exact ⟨[], .nil, rfl⟩

/-- What ends at a sign, or goes on if that does not come next. -/
theorem takes_eat_close {sign : Char} {k : Bool → Reader β} {b : β} (hclosed : k true = pure b)
    (hopen : Takes (some sign) (k false)) : Takes (some sign) (eat (.punct sign) >>= k) := by
  intro cursor c cursor' hrun
  obtain ⟨found, cursor₁, heat, hrest⟩ := exists_of_run_bind hrun
  rcases run_eat_cases heat with ⟨rfl, line, rfl⟩ | ⟨rfl, rfl⟩
  · rw [hclosed] at hrest
    cases hrest
    exact ⟨[⟨.punct sign, line⟩], ⟨[], line, .nil, rfl⟩, rfl⟩
  · exact hopen cursor₁ c cursor' hrest

/-- What may be there or not, and what is read behind it. -/
theorem takes_optional {present : Bool} {k : Option α → Reader β} (hx : Takes none x)
    (hk : ∀ found, Takes close (k found)) :
    Takes close (if present then (some <$> x) >>= k else pure none >>= k) :=
  takes_ite (hx.map.bind hk) ((takes_pure none).bind hk)

theorem takes_natural : Takes none natural := by
  have hinteger : Takes none (take .integer integerShown?) := by
    refine takes_take fun t a ha hbrace => ?_
    obtain rfl | rfl := hbrace <;> cases ha
  exact takes_line.bind fun _ => hinteger.bind fun _ => takes_ite (takes_pure _) (takes_refuse _ _)

/-! ### Lists -/

theorem takes_comma : Takes none (sign ',') :=
  takes_sign (by simp [Token.IsBrace])

theorem takes_itemsWithin (sign : Char) (hx : Takes none x) :
    ∀ n, Takes (some sign) (itemsWithin sign x n)
  | 0 => takes_expected _
  | n + 1 => hx.bind fun _ => takes_eat_close rfl <| takes_comma.bind fun _ =>
      map_eq_pure_bind _ (itemsWithin sign x n) ▸ (takes_itemsWithin sign hx n).map

theorem takes_itemsUntil (sign : Char) (hx : Takes none x) : Takes (some sign) (itemsUntil sign x) :=
  takes_eat_close rfl <| takes_bound.bind fun n => takes_itemsWithin sign hx n

/-! ### Signatures -/

theorem takes_valueName? : Takes none valueName? := by
  intro cursor a cursor' hrun
  obtain ⟨next, cursor₁, hpeek, h⟩ := exists_of_run_bind hrun
  cases hpeek
  split at h
  · rename_i name hnext
    cases h
    obtain ⟨t, ht, htoken⟩ := Option.map_eq_some_iff.mp hnext
    refine ⟨[t], .singleton fun hbrace => ?_, ?_⟩
    · rw [htoken] at hbrace
      obtain h | h := hbrace <;> cases h
    · rw [List.singleton_append, List.cons_head?_tail ht]
  · cases h
    exact ⟨[], .nil, rfl⟩

theorem takes_vectorSize : Takes none vectorSize := by
  refine takes_line.bind fun _ => takes_natural.bind fun count => ?_
  split
  · exact takes_pure _
  · exact takes_refuse _ _

/-- **The braces of a type match**: those of a structure enclose its members. -/
theorem takes_typeWithin : ∀ depth, Takes none (typeWithin depth)
  | 0 => takes_expected _
  | depth + 1 => by
    have ih := takes_typeWithin depth
    have hless : Takes none (sign '<') := takes_sign (by simp [Token.IsBrace])
    have hgreater : Takes none (sign '>') := takes_sign (by simp [Token.IsBrace])
    refine takes_takeWord.bind fun keyword => ?_
    cases keyword with
    | scalar s => exact takes_pure _
    | vector =>
      exact hless.bind fun _ => takes_vectorSize.bind fun _ => takes_comma.bind fun _ =>
        takes_takeWord.bind fun _ => hgreater.bind fun _ => takes_pure _
    | array =>
      exact hless.bind fun _ => ih.bind fun _ =>
        (takes_eat (by simp [Token.IsBrace])).bind fun _ =>
          takes_optional takes_natural fun _ => hgreater.bind fun _ => takes_pure _
    | struct =>
      exact takes_valueName?.bind fun _ =>
        takes_block (takes_itemsUntil _ ih) fun _ => takes_pure _
    | pointer =>
      exact hless.bind fun _ => takes_takeWord.bind fun _ => takes_comma.bind fun _ =>
        ih.bind fun _ => hgreater.bind fun _ => takes_pure _
    | sampler => exact takes_pure _
    | image =>
      exact hless.bind fun _ => takes_takeWord.bind fun _ => hgreater.bind fun _ => takes_pure _

theorem takes_type : Takes none type :=
  takes_bound.bind fun depth => takes_typeWithin depth

theorem takes_word (word : String) : Takes none (eat (.word word)) :=
  takes_eat (by simp [Token.IsBrace])

theorem takes_open : Takes none (sign '(') :=
  takes_sign (by simp [Token.IsBrace])

theorem advances_head : Advances head :=
  advances_takeWord.bind fun _ => takes_ite
    ((takes_word _).bind fun _ => takes_ite (takes_pure _) (takes_pure _)) (takes_pure _)

theorem takes_direct : Takes none direct :=
  takes_line.bind fun _ => takes_open.bind fun _ => takes_functionName.bind fun _ =>
    takes_comma.bind fun _ => takes_natural.bind fun _ => takes_comma.bind fun _ =>
      takes_natural.bind fun _ => takes_comma.bind fun _ => takes_natural.bind fun _ =>
        (takes_sign (by simp [Token.IsBrace])).bind fun _ => takes_pure _

theorem takes_paramName (isDeclaration : Bool) : Takes none (paramName isDeclaration) := by
  have hnamed : Takes none (do
      let name ← valueName
      sign ':'
      return some name : Reader (Option String)) :=
    takes_valueName.bind fun _ => (takes_sign (by simp [Token.IsBrace])).bind fun _ => takes_pure _
  refine takes_peek.bind fun next => ?_
  split
  · exact hnamed
  · exact hnamed
  · exact takes_pure _

theorem takes_param (isDeclaration : Bool) : Takes none (param isDeclaration) :=
  (takes_paramName isDeclaration).bind fun _ => takes_type.bind fun _ =>
    (takes_word _).bind fun _ => takes_optional takes_direct fun _ => takes_pure _

/-- **The braces of a signature match**, and there is a token in it. -/
theorem advances_signature : Advances signature :=
  advances_head.bind fun words => takes_line.bind fun _ => takes_functionName.bind fun _ =>
    takes_open.bind fun _ =>
      ((takes_itemsUntil ')' (takes_param words.1)).ended (by simp [Token.IsBrace])).bind fun _ =>
        (takes_eat (by simp [Token.IsBrace])).bind fun _ =>
          takes_optional takes_type fun _ => (takes_word _).bind fun _ => takes_pure _

end Reader

/-! ## Readers of bodies -/

namespace BodyReader

variable {α β : Type} {x : BodyReader α} {f : α → BodyReader β} {close : Option Char}

/-- What is read are tokens at the front, and their braces match up to the closing sign. This does not
depend on the draft. -/
def Takes (close : Option Char) (x : BodyReader α) : Prop :=
  ∀ d, Reader.Takes close (x.run d)

theorem takes_pure (a : α) : Takes none (pure a : BodyReader α) :=
  fun d => Reader.takes_pure (a, d)

theorem Takes.bind (hx : Takes none x) (hf : ∀ a, Takes close (f a)) : Takes close (x >>= f) := by
  intro d
  rw [StateT.run_bind]
  exact (hx d).bind fun read => hf read.1 read.2

theorem Takes.map {g : α → β} (hx : Takes close x) : Takes close (g <$> x) := by
  intro d
  rw [StateT.run_map]
  exact (hx d).map

theorem Takes.ended {sign : Char} (hx : Takes (some sign) x)
    (hsign : ¬ (Token.punct sign).IsBrace) : Takes none x :=
  fun d => (hx d).ended hsign

theorem takes_lift {r : Reader α} (hr : r.Takes close) : Takes close (liftM r : BodyReader α) :=
  fun d => hr.map (g := fun a => (a, d))

theorem takes_ite {c : Prop} [Decidable c] {y : BodyReader α} (hx : Takes close x)
    (hy : Takes close y) : Takes close (if c then x else y) := by
  split
  · exact hx
  · exact hy

theorem takes_refuse (line : Nat) (cause : ParseCause) :
    Takes close (liftM (Reader.refuse line cause : Reader α) : BodyReader α) :=
  takes_lift (Reader.takes_refuse line cause)

theorem takes_expected (wanted : Wanted) :
    Takes close (liftM (Reader.expected wanted : Reader α) : BodyReader α) :=
  takes_lift (Reader.takes_expected wanted)

/-- What touches the draft alone takes nothing. -/
theorem takes_of_run (h : ∀ d, ∃ a d', x.run d = pure (a, d')) : Takes none x := by
  intro d
  obtain ⟨a, d', hrun⟩ := h d
  rw [hrun]
  exact Reader.takes_pure _

/-- What reads tokens alone is run first. -/
theorem run_lift_bind (r : Reader α) (f : α → BodyReader β) (d : BodyDraft) :
    (liftM r >>= f).run d = r >>= fun a => (f a).run d := by
  rw [StateT.run_bind]
  change (r >>= fun a => pure (a, d)) >>= (fun read : α × BodyDraft => (f read.1).run read.2) = _
  rw [bind_assoc]
  simp only [pure_bind]

theorem takes_get : Takes none (get : BodyReader BodyDraft) :=
  takes_of_run fun d => ⟨d, d, rfl⟩

/-- What ends at a sign, or goes on if that does not come next. -/
theorem takes_eat_close {sign : Char} {k : Bool → BodyReader β} {b : β} (hclosed : k true = pure b)
    (hopen : Takes (some sign) (k false)) :
    Takes (some sign) (liftM (Reader.eat (.punct sign)) >>= k) := by
  intro d
  rw [run_lift_bind]
  exact Reader.takes_eat_close (by rw [hclosed, StateT.run_pure]) (hopen d)

/-- Between an opening brace and the one that closes it. -/
theorem takes_block (hx : Takes (some '}') x) (hf : ∀ a, Takes close (f a)) :
    Takes close (liftM (Reader.sign '{') >>= fun _ => x >>= f) := by
  intro d
  rw [run_lift_bind]
  simp only [StateT.run_bind]
  exact Reader.takes_block (hx d) fun read => hf read.1 read.2

/-! ### Values -/

theorem takes_append (e : Expr) : Takes none (append e) :=
  takes_of_run fun _ => ⟨_, _, rfl⟩

theorem takes_define (name : String) (id : ExprId) : Takes none (define name id) :=
  takes_of_run fun _ => ⟨_, _, rfl⟩

theorem takes_parameter (index : Nat) : Takes none (parameter index) := by
  refine takes_get.bind fun d => ?_
  split
  · exact takes_pure _
  · exact (takes_append _).bind fun _ =>
      (takes_of_run fun _ => ⟨_, _, rfl⟩).bind fun _ => takes_pure _

theorem takes_value (ctx : BodyContext) (line : Nat) (name : String) :
    Takes none (value ctx line name) := by
  refine takes_get.bind fun d => ?_
  split
  · exact takes_pure _
  · split
    · exact takes_parameter _
    · exact takes_refuse _ _

theorem takes_operand (ctx : BodyContext) : Takes none (operand ctx) := by
  have htoken : Reader.Takes none
      (Reader.take .operand fun token => if token.isOperand then some token else none) := by
    refine Reader.takes_take fun t a ha hbrace => ?_
    obtain rfl | rfl := hbrace <;> cases ha
  refine (takes_lift Reader.takes_line).bind fun line => (takes_lift htoken).bind fun token => ?_
  split
  · exact takes_value _ _ _
  · split
    · exact takes_append _
    · exact takes_refuse _ _

theorem takes_comma : Takes none (liftM (Reader.sign ',') : BodyReader Unit) :=
  takes_lift Reader.takes_comma

theorem takes_operandsWithin (ctx : BodyContext) : ∀ n, Takes none (operandsWithin ctx n)
  | 0 => takes_pure _
  | n + 1 => (takes_lift (Reader.takes_eat (by simp [Token.IsBrace]))).bind fun _ => takes_ite
      ((takes_operand ctx).bind fun _ => (takes_operandsWithin ctx n).bind fun _ => takes_pure _)
      (takes_pure _)

theorem takes_itemsWithin (sign : Char) (hx : Takes none x) :
    ∀ n, Takes (some sign) (Reader.itemsWithin sign x n)
  | 0 => takes_expected _
  | n + 1 => hx.bind fun _ => takes_eat_close rfl <| takes_comma.bind fun _ =>
      map_eq_pure_bind _ (Reader.itemsWithin sign x n) ▸ (takes_itemsWithin sign hx n).map

theorem takes_itemsUntil (sign : Char) (hx : Takes none x) :
    Takes (some sign) (Reader.itemsUntil sign x) :=
  takes_eat_close rfl <| (takes_lift Reader.takes_bound).bind fun n => takes_itemsWithin sign hx n

/-! ### Statements -/

theorem takes_call (ctx : BodyContext) (line : Nat) : Takes none (call ctx line) := by
  refine (takes_lift Reader.takes_functionName).bind fun name => ?_
  split
  · exact takes_refuse _ _
  · exact (takes_lift Reader.takes_open).bind fun _ =>
      ((takes_itemsUntil ')' (takes_operand ctx)).ended (by simp [Token.IsBrace])).bind fun _ =>
        takes_pure _

theorem takes_definition (ctx : BodyContext) (line : Nat) (name : String) :
    Takes none (definition ctx line name) := by
  refine takes_get.bind fun d => takes_ite (takes_refuse _ _) ?_
  refine (takes_lift Reader.takes_takeWord).bind fun operation => ?_
  split
  · exact (takes_call ctx line).bind fun _ => (takes_append _).bind fun _ =>
      (takes_define _ _).bind fun _ => takes_pure _
  · exact (takes_operand ctx).bind fun _ => (takes_lift Reader.takes_bound).bind fun n =>
      (takes_operandsWithin ctx n).bind fun _ => (takes_append _).bind fun _ =>
        (takes_define _ _).bind fun _ => takes_pure _
  · exact (takes_operand ctx).bind fun _ => (takes_append _).bind fun _ =>
      (takes_define _ _).bind fun _ => takes_pure _
  · exact (takes_operand ctx).bind fun _ => takes_comma.bind fun _ =>
      (takes_operand ctx).bind fun _ => (takes_append _).bind fun _ =>
        (takes_define _ _).bind fun _ => takes_pure _

theorem takes_returned (ctx : BodyContext) (line : Nat) : Takes none (returned ctx line) := by
  refine (takes_lift Reader.takes_get).bind fun cursor => ?_
  split
  · exact takes_ite (takes_operand ctx).map (takes_pure _)
  · exact takes_pure _

/-- **A block is read up to the brace that closes it**: each statement takes tokens whose braces
match, those with blocks between opening braces and the ones that close them. -/
theorem takes_blockWithin (ctx : BodyContext) : ∀ n, Takes (some '}') (blockWithin ctx n)
  | 0 => takes_expected _
  | n + 1 => by
    have ih := takes_blockWithin ctx n
    -- What stands behind a statement is a block that ends at the same brace.
    have hbehind : ∀ g : Block → Block, Takes (some '}') (do return g (← blockWithin ctx n)) :=
      fun g => map_eq_pure_bind g (blockWithin ctx n) ▸ ih.map
    have hhead : Reader.Takes none (Reader.take .statement StmtHead.ofToken?) := by
      refine Reader.takes_take fun t a ha hbrace => ?_
      obtain rfl | rfl := hbrace <;> cases ha
    refine takes_eat_close rfl <| (takes_lift Reader.takes_peek).bind fun next =>
      takes_ite (takes_expected _) <| (takes_lift Reader.takes_line).bind fun line =>
        (takes_lift hhead).bind fun head => ?_
    cases head with
    | define name =>
      refine (takes_lift (Reader.takes_sign (by simp [Token.IsBrace]))).bind fun _ =>
        (takes_definition ctx line name).bind fun stmt => ?_
      cases stmt with
      | none => exact ih
      | some stmt => exact hbehind _
    | call => exact (takes_call ctx line).bind fun _ => hbehind _
    | store =>
      exact (takes_operand ctx).bind fun _ => takes_comma.bind fun _ =>
        (takes_operand ctx).bind fun _ => hbehind _
    | ret => exact (takes_returned ctx line).bind fun _ => hbehind _
    | leave => exact hbehind _
    | branch =>
      refine (takes_operand ctx).bind fun condition => takes_block ih fun accept =>
        (takes_lift (Reader.takes_word _)).bind fun other => takes_ite ?_ ?_
      · exact takes_block ih fun _ => hbehind _
      · rw [pure_bind]
        exact hbehind _
    | loop => exact takes_block ih fun _ => hbehind _

/-- A body is read from its opening brace up to the one that closes it. -/
theorem exists_of_run_body {ctx : BodyContext} {d : BodyDraft} {read : Block × BodyDraft}
    {cursor cursor' : Cursor} (h : ((body ctx).run d).run cursor = .ok (read, cursor')) :
    ∃ line taken, BalancedUntil (some '}') taken ∧
      cursor = ⟨⟨.punct '{', line⟩ :: (taken ++ cursor'.rest), cursor'.lastLine⟩ := by
  unfold body at h
  rw [run_lift_bind] at h
  obtain ⟨n, cursor₁, hbound, h⟩ := exists_of_run_bind h
  cases hbound
  rw [run_lift_bind] at h
  obtain ⟨_, cursor₁, hsign, hblock⟩ := exists_of_run_bind h
  obtain ⟨line, rfl⟩ := Reader.exists_cursor_of_run_sign hsign
  obtain ⟨taken, htaken, rfl⟩ := takes_blockWithin ctx _ d cursor₁ read cursor' hblock
  exact ⟨line, taken, htaken, rfl⟩

end BodyReader

end ResourceBinding
