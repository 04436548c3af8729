import ResourceBinding.Layout
import ResourceBinding.Proofs.Reading.Cursor

/-!
# What readers read

`Reader.Reads x tokens a rest`: the reader `x` reads `a` from the front of the tokens and leaves the
rest untouched. There is one lemma for each primitive reader, and `Reads.bind` composes them.
-/

namespace ResourceBinding

/-! ## Tokens on a line -/

/-- The tokens among pieces that are on one line. -/
def onLine (line : Nat) (pieces : List Piece) : List Located :=
  (Piece.tokens pieces).map fun t => ⟨t, line⟩

section OnLine

variable (line : Nat) (pieces others : List Piece)

@[simp]
theorem onLine_nil : onLine line [] = [] := rfl

@[simp]
theorem onLine_append : onLine line (pieces ++ others) = onLine line pieces ++ onLine line others := by
  simp [onLine, Piece.tokens]

@[simp]
theorem onLine_token (t : Token) :
    onLine line (.token t :: pieces) = ⟨t, line⟩ :: onLine line pieces := rfl

@[simp]
theorem onLine_word (w : String) :
    onLine line (.word w :: pieces) = ⟨.word w, line⟩ :: onLine line pieces := rfl

@[simp]
theorem onLine_valueName (name : String) :
    onLine line (.valueName name :: pieces) = ⟨.valueName name, line⟩ :: onLine line pieces := rfl

@[simp]
theorem onLine_functionName (name : String) :
    onLine line (.functionName name :: pieces)
      = ⟨.functionName name, line⟩ :: onLine line pieces := rfl

@[simp]
theorem onLine_punct (c : Char) :
    onLine line (.punct c :: pieces) = ⟨.punct c, line⟩ :: onLine line pieces := rfl

@[simp]
theorem onLine_count (n : Nat) :
    onLine line (.count n :: pieces) = ⟨.int n, line⟩ :: onLine line pieces := rfl

@[simp]
theorem onLine_gap : onLine line (.gap :: pieces) = onLine line pieces := rfl

end OnLine

theorem Piece.commaSeparated_cons_cons (first second : List Piece) (items : List (List Piece)) :
    commaSeparated (first :: second :: items)
      = first ++ ([punct ',', gap] ++ commaSeparated (second :: items)) := by
  simp [commaSeparated, List.intercalate]

theorem Piece.commaSeparated_singleton (item : List Piece) : commaSeparated [item] = item := by
  simp [commaSeparated, List.intercalate]

/-- An item is no longer than all items together. -/
theorem length_onLine_le {items : List (List Piece)} {item : List Piece} (h : item ∈ items)
    (line : Nat) :
    (onLine line item).length ≤ (onLine line (Piece.commaSeparated items)).length := by
  induction items with
  | nil => cases h
  | cons first items ih =>
    cases items with
    | nil =>
      rw [List.mem_singleton.mp h, Piece.commaSeparated_singleton]
    | cons second items =>
      rw [Piece.commaSeparated_cons_cons, onLine_append, onLine_append, List.length_append,
        List.length_append]
      rcases List.mem_cons.mp h with rfl | h
      · omega
      · have := ih h
        omega

namespace Reader

variable {α β : Type} {x : Reader α} {f : α → Reader β} {a : α} {b : β}
  {tokens rest rest' : List Located}

/-- The reader reads `a` from the tokens and leaves the rest. -/
def Reads (x : Reader α) (tokens : List Located) (a : α) (rest : List Located) : Prop :=
  ∀ last, x.run ⟨tokens, last⟩ = .ok (a, ⟨rest, last⟩)

/-- A reader reads one thing from given tokens. -/
theorem Reads.unique {a' : α} (h : x.Reads tokens a rest) (h' : x.Reads tokens a' rest') : a = a' :=
  congrArg Prod.fst (Except.ok.inj ((h 0).symm.trans (h' 0)))

theorem reads_pure (a : α) (tokens : List Located) : (pure a : Reader α).Reads tokens a tokens :=
  fun _ => rfl

theorem Reads.bind (hx : x.Reads tokens a rest) (hf : (f a).Reads rest b rest') :
    (x >>= f).Reads tokens b rest' := by
  intro last
  rw [StateT.run_bind, hx last]
  exact hf last

theorem Reads.map {g : α → β} (hx : x.Reads tokens a rest) :
    (g <$> x).Reads tokens (g a) rest := by
  rw [map_eq_pure_bind]
  exact hx.bind (reads_pure _ _)

theorem reads_peek (tokens : List Located) :
    peek.Reads tokens (tokens.head?.map Located.token) tokens :=
  fun _ => rfl

theorem reads_line (t : Located) (rest : List Located) :
    line.Reads (t :: rest) t.line (t :: rest) :=
  fun _ => rfl

theorem reads_bound (tokens : List Located) : bound.Reads tokens (tokens.length + 1) tokens :=
  fun _ => rfl

theorem reads_take {wanted : Wanted} {meaning : Token → Option α} {t : Token}
    (h : meaning t = some a) (line : Nat) (rest : List Located) :
    (take wanted meaning).Reads (⟨t, line⟩ :: rest) a rest := by
  have hnext : (some t).bind meaning = some a := h
  refine (reads_peek _).bind ?_
  rw [List.head?_cons, Option.map_some, hnext]
  exact fun _ => rfl

theorem reads_takeWord {wanted : Wanted} {meaning : String → Option α} {w : String}
    (h : meaning w = some a) (line : Nat) (rest : List Located) :
    (takeWord wanted meaning).Reads (⟨.word w, line⟩ :: rest) a rest :=
  reads_take h line rest

theorem reads_sign (c : Char) (line : Nat) (rest : List Located) :
    (sign c).Reads (⟨.punct c, line⟩ :: rest) () rest :=
  reads_take (if_pos rfl) line rest

theorem reads_valueName (name : String) (line : Nat) (rest : List Located) :
    valueName.Reads (⟨.valueName name, line⟩ :: rest) name rest :=
  reads_take (t := .valueName name) (a := name) rfl line rest

theorem reads_functionName (name : String) (line : Nat) (rest : List Located) :
    functionName.Reads (⟨.functionName name, line⟩ :: rest) name rest :=
  reads_take (t := .functionName name) (a := name) rfl line rest

theorem reads_eat (t : Token) (line : Nat) (rest : List Located) :
    (eat t).Reads (⟨t, line⟩ :: rest) true rest := by
  refine (reads_peek _).bind ?_
  rw [List.head?_cons, Option.map_some, if_pos rfl]
  exact fun _ => rfl

theorem reads_eat_of_ne {t : Token} (h : tokens.head?.map Located.token ≠ some t) :
    (eat t).Reads tokens false tokens := by
  refine (reads_peek _).bind ?_
  rw [if_neg h]
  exact reads_pure _ _

theorem reads_natural {n : Nat} (h : n < 0x100000000) (line : Nat) (rest : List Located) :
    natural.Reads (⟨.int n, line⟩ :: rest) n rest := by
  have hmeaning : integerShown? (.int n) = some ((n : Int), (Token.int n).shown) := rfl
  have hrange : 0 ≤ (n : Int) ∧ (n : Int) < 0x100000000 := by omega
  refine (reads_line _ _).bind ((reads_take hmeaning line rest).bind ?_)
  dsimp only
  rw [if_pos hrange, Int.toNat_natCast]
  exact reads_pure _ _

/-- What may be there is there, and is read. -/
theorem reads_optional_some {k : Option α → Reader β} (hx : x.Reads tokens a rest)
    (hk : (k (some a)).Reads rest b rest') :
    (if true = true then (some <$> x) >>= k else pure none >>= k).Reads tokens b rest' := by
  rw [if_pos rfl]
  exact hx.map.bind hk

/-- What may be there is not there. -/
theorem reads_optional_none {k : Option α → Reader β} (hk : (k none).Reads tokens b rest) :
    (if false = true then (some <$> x) >>= k else pure none >>= k).Reads tokens b rest := by
  rw [if_neg Bool.false_ne_true, pure_bind]
  exact hk

/-! ## Lists -/

/-- The next token is a sign. -/
def StartsWithSign (tokens : List Located) : Prop :=
  ∃ c line rest, tokens = ⟨.punct c, line⟩ :: rest

/-- The pieces of an item, in front of a sign, are read as the item. -/
structure ReadsItem (x : Reader α) (close : Char) (line : Nat) (pieces : List Piece) (a : α) :
    Prop where
  reads : ∀ rest, StartsWithSign rest → x.Reads (onLine line pieces ++ rest) a rest
  starts : ∃ t rest, onLine line pieces = ⟨t, line⟩ :: rest ∧ t ≠ .punct close

variable {close : Char} {line : Nat} {items : List (List Piece)} {as : List α}

theorem reads_itemsWithin (hclose : close ≠ ',') :
    ∀ {items : List (List Piece)} {as : List α}, List.Forall₂ (x.ReadsItem close line) items as →
    items ≠ [] → ∀ n, (onLine line (Piece.commaSeparated items)).length ≤ n → ∀ rest,
    (itemsWithin close x n : Reader (List α)).Reads
      (onLine line (Piece.commaSeparated items) ++ ⟨.punct close, line⟩ :: rest) as rest
  | _, _, .nil, hne, _, _, _ => absurd rfl hne
  | [item], [a], .cons h .nil, _, n, hn, rest => by
    obtain ⟨t, others, hitem, -⟩ := h.starts
    rw [Piece.commaSeparated_singleton] at hn ⊢
    obtain ⟨n, rfl⟩ : ∃ k, n = k + 1 := Nat.exists_eq_add_one_of_ne_zero (by
      rw [hitem, List.length_cons] at hn
      omega)
    refine (h.reads _ ⟨close, line, rest, rfl⟩).bind ((reads_eat _ line rest).bind ?_)
    exact reads_pure _ _
  | item :: second :: items, a :: as, .cons h hs, _, n, hn, rest => by
    obtain ⟨t, others, hitem, -⟩ := h.starts
    rw [Piece.commaSeparated_cons_cons] at hn ⊢
    simp only [onLine_append, onLine_punct, onLine_gap, List.cons_append, List.nil_append,
      List.append_assoc] at hn ⊢
    have hpos : 0 < (onLine line item).length := by
      rw [hitem, List.length_cons]
      omega
    rw [List.length_append, List.length_cons] at hn
    obtain ⟨n, rfl⟩ : ∃ k, n = k + 1 := Nat.exists_eq_add_one_of_ne_zero (by omega)
    refine (h.reads _ ⟨',', line, _, rfl⟩).bind
      ((reads_eat_of_ne (by simpa using hclose.symm)).bind ?_)
    refine (reads_sign ',' line _).bind
      ((reads_itemsWithin hclose hs (by simp) n (by omega) rest).bind ?_)
    exact reads_pure _ _

/-- **Items with commas between them are read one by one**, up to the closing sign. -/
theorem reads_itemsUntil (hclose : close ≠ ',') (h : List.Forall₂ (x.ReadsItem close line) items as)
    (rest : List Located) : (itemsUntil close x : Reader (List α)).Reads
      (onLine line (Piece.commaSeparated items) ++ ⟨.punct close, line⟩ :: rest) as rest := by
  cases h with
  | nil => exact (reads_eat _ line rest).bind (reads_pure _ _)
  | @cons item a items as hfirst hrest =>
    have hstarts : ((onLine line (Piece.commaSeparated (item :: items)) ++
        ⟨.punct close, line⟩ :: rest).head?.map Located.token) ≠ some (.punct close) := by
      obtain ⟨t, others, hitem, hne⟩ := hfirst.starts
      cases items with
      | nil =>
        rw [Piece.commaSeparated_singleton, hitem]
        simpa using hne
      | cons second items =>
        rw [Piece.commaSeparated_cons_cons, onLine_append, hitem]
        simpa using hne
    refine (reads_eat_of_ne hstarts).bind ((reads_bound _).bind ?_)
    refine reads_itemsWithin hclose (.cons hfirst hrest) (by simp) _ ?_ rest
    rw [List.length_append]
    omega

end Reader

end ResourceBinding
