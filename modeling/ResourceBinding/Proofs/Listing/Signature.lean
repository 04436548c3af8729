import ResourceBinding.Proofs.Listing.Cursor
import ResourceBinding.Proofs.Reading.Program

/-!
# Signatures are read as they are written

The text of a type is read as the type (`Reader.reads_type`), and the text of a signature as the
signature, on whatever line it stands (`Reader.reads_signature`).
-/

namespace ResourceBinding

/-! ## Types -/

theorem Scalar.HasWord.eq {s : Scalar} (h : s.HasWord) :
    s = .bool ∨ s = .i32 ∨ s = .u32 ∨ s = .f32 := by
  unfold HasWord ofWord? at h
  split at h <;> simp_all

theorem TypeKeyword.ofWord?_word {s : Scalar} (h : s.HasWord) :
    ofWord? s.word = some (.scalar s) := by
  rcases h.eq with rfl | rfl | rfl | rfl <;> rfl

namespace Reader

theorem reads_vectorSize (size : VectorSize) (line : Nat) (rest : List Located) :
    vectorSize.Reads (⟨.int size.count, line⟩ :: rest) size rest := by
  have hlt : size.count < 0x100000000 := by cases size <;> decide
  refine (reads_line _ _).bind ((reads_natural hlt line rest).bind ?_)
  rw [VectorSize.ofCount?_eq_some_iff.mpr rfl]
  exact reads_pure _ _

theorem piecesEach_eq_map (types : List WrittenType) :
    WrittenType.piecesEach types = types.map WrittenType.pieces := by
  induction types with
  | nil => rfl
  | cons type types ih => rw [WrittenType.piecesEach, ih, List.map_cons]

/-- A type starts with a word. -/
theorem exists_word_of_type (line : Nat) (w : WrittenType) :
    ∃ word rest, onLine line w.pieces = ⟨.word word, line⟩ :: rest := by
  cases w with
  | array element count => cases count <;> exact ⟨_, _, rfl⟩
  | _ => exact ⟨_, _, rfl⟩

theorem reads_valueName? (name : String) (line : Nat) (rest : List Located) :
    valueName?.Reads (⟨.valueName name, line⟩ :: rest) (some name) rest :=
  (reads_peek _).bind fun _ => rfl

theorem reads_valueName?_none (c : Char) (line : Nat) (rest : List Located) :
    valueName?.Reads (⟨.punct c, line⟩ :: rest) none (⟨.punct c, line⟩ :: rest) :=
  (reads_peek _).bind fun _ => rfl

/-- Types of a list are items, if each is read as it is written. -/
theorem readsItem_of_types {x : Reader WrittenType} {close : Char} {line : Nat}
    {types : List WrittenType}
    (h : ∀ w ∈ types, ∀ rest, x.Reads (onLine line w.pieces ++ rest) w rest) :
    List.Forall₂ (x.ReadsItem close line) (types.map WrittenType.pieces) types := by
  rw [List.forall₂_map_left_iff, List.forall₂_same]
  intro w hw
  obtain ⟨word, rest, hword⟩ := exists_word_of_type line w
  exact ⟨fun rest _ => h w hw rest, .word word, rest, hword, by simp⟩

/-- **A type is read as it is written**, to any depth that its text suffices for. -/
theorem reads_typeWithin {w : WrittenType} (hw : w.Readable) (line : Nat) :
    ∀ n, (onLine line w.pieces).length ≤ n → ∀ rest,
      (typeWithin n).Reads (onLine line w.pieces ++ rest) w rest := by
  -- The first word of a type takes one level of nesting.
  have hlevel : ∀ {w : WrittenType} {n : Nat}, (onLine line w.pieces).length ≤ n → ∃ k, n = k + 1 := by
    intro w n hn
    obtain ⟨word, others, hword⟩ := exists_word_of_type line w
    rw [hword, List.length_cons] at hn
    exact Nat.exists_eq_add_one_of_ne_zero (by omega)
  induction hw with
  | @scalar s hs =>
    intro n hn rest
    obtain ⟨n, rfl⟩ := hlevel hn
    exact (reads_takeWord (TypeKeyword.ofWord?_word hs) line rest).bind (reads_pure _ _)
  | @vector size s hs =>
    intro n hn rest
    obtain ⟨n, rfl⟩ := hlevel hn
    refine (reads_takeWord (w := "vec") (a := .vector) rfl line _).bind ?_
    exact (reads_sign '<' line _).bind ((reads_vectorSize size line _).bind
      ((reads_sign ',' line _).bind ((reads_takeWord hs line _).bind
        ((reads_sign '>' line rest).bind (reads_pure _ _)))))
  | @array element count helement hcount ih =>
    intro n hn rest
    obtain ⟨n, rfl⟩ := hlevel hn
    cases count with
    | none =>
      simp only [WrittenType.pieces, onLine_append, onLine_word, onLine_punct, onLine_nil,
        List.cons_append, List.nil_append, List.append_assoc, List.length_cons, List.length_append,
        List.length_nil] at hn ⊢
      refine (reads_takeWord (w := "array") (a := .array) rfl line _).bind ?_
      refine (reads_sign '<' line _).bind ((ih n (by omega) _).bind ?_)
      refine (reads_eat_of_ne (by simp)).bind (reads_optional_none ?_)
      exact (reads_sign '>' line rest).bind (reads_pure _ _)
    | some k =>
      simp only [WrittenType.pieces, onLine_append, onLine_word, onLine_punct, onLine_gap,
        onLine_count, onLine_nil, List.cons_append, List.nil_append, List.append_assoc,
        List.length_cons, List.length_append, List.length_nil] at hn ⊢
      refine (reads_takeWord (w := "array") (a := .array) rfl line _).bind ?_
      refine (reads_sign '<' line _).bind ((ih n (by omega) _).bind ?_)
      refine (reads_eat _ line _).bind (reads_optional_some (reads_natural (hcount k rfl) line _) ?_)
      exact (reads_sign '>' line rest).bind (reads_pure _ _)
  | @struct name members hname hmembers ih =>
    intro n hn rest
    obtain ⟨n, rfl⟩ := hlevel hn
    have hitems : ∀ {n : Nat},
        (onLine line (Piece.commaSeparated (members.map WrittenType.pieces))).length ≤ n →
        List.Forall₂ ((typeWithin n).ReadsItem '}' line) (members.map WrittenType.pieces) members :=
      fun hn => readsItem_of_types fun m hm => ih m hm _
        (Nat.le_trans (length_onLine_le (List.mem_map_of_mem hm) line) hn)
    cases name with
    | none =>
      simp only [WrittenType.pieces, piecesEach_eq_map, onLine_append, onLine_word, onLine_punct,
        onLine_nil, List.cons_append, List.nil_append, List.append_assoc, List.length_cons,
        List.length_append, List.length_nil] at hn ⊢
      refine (reads_takeWord (w := "struct") (a := .struct) rfl line _).bind ?_
      refine (reads_valueName?_none '{' line _).bind ((reads_sign '{' line _).bind ?_)
      exact (reads_itemsUntil (by decide) (hitems (by omega)) rest).bind (reads_pure _ _)
    | some name =>
      simp only [WrittenType.pieces, piecesEach_eq_map, onLine_append, onLine_word, onLine_punct,
        onLine_gap, onLine_valueName, onLine_nil, List.cons_append, List.nil_append,
        List.append_assoc, List.length_cons, List.length_append, List.length_nil] at hn ⊢
      refine (reads_takeWord (w := "struct") (a := .struct) rfl line _).bind ?_
      refine (reads_valueName? name line _).bind ((reads_sign '{' line _).bind ?_)
      exact (reads_itemsUntil (by decide) (hitems (by omega)) rest).bind (reads_pure _ _)
  | @pointer space pointee hpointee ih =>
    intro n hn rest
    obtain ⟨n, rfl⟩ := hlevel hn
    simp only [WrittenType.pieces, onLine_append, onLine_word, onLine_punct, onLine_gap, onLine_nil,
      List.cons_append, List.nil_append, List.append_assoc, List.length_cons, List.length_append,
      List.length_nil] at hn ⊢
    refine (reads_takeWord (w := "ptr") (a := .pointer) rfl line _).bind ?_
    exact (reads_sign '<' line _).bind
      ((reads_takeWord (AddressSpace.ofWord?_word space) line _).bind ((reads_sign ',' line _).bind
        ((ih n (by omega) _).bind ((reads_sign '>' line rest).bind (reads_pure _ _)))))
  | sampler =>
    intro n hn rest
    obtain ⟨n, rfl⟩ := hlevel hn
    exact (reads_takeWord (w := "sampler") (a := .sampler) rfl line rest).bind (reads_pure _ _)
  | @image access =>
    intro n hn rest
    obtain ⟨n, rfl⟩ := hlevel hn
    refine (reads_takeWord (w := "image") (a := .image) rfl line _).bind ?_
    exact (reads_sign '<' line _).bind ((reads_takeWord (ImageAccess.ofWord?_word access) line _).bind
      ((reads_sign '>' line rest).bind (reads_pure _ _)))

/-- **A type is read as it is written.** -/
theorem reads_type {w : WrittenType} (hw : w.Readable) (line : Nat) (rest : List Located) :
    type.Reads (onLine line w.pieces ++ rest) w rest := by
  refine (reads_bound _).bind (reads_typeWithin hw line _ ?_ rest)
  rw [List.length_append]
  omega

end Reader

/-! ## Signatures -/

/-- The mark behind a parameter. -/
def WrittenMark.pieces (d : WrittenMark) : List Piece :=
  [.gap, .word "direct", .punct '('] ++
    Piece.commaSeparated
      [[.functionName d.accessor], [.count d.set], [.count d.binding], [.count d.depth]] ++
    [.punct ')']

/-- A mark, if there is one. -/
def WrittenMark.piecesOf : Option WrittenMark → List Piece
  | some d => d.pieces
  | none => []

def WrittenParam.pieces (p : WrittenParam) : List Piece :=
  let name : List Piece := match p.name with
    | some name => [.valueName name, .punct ':', .gap]
    | none => []
  name ++ p.type.pieces ++ WrittenMark.piecesOf p.direct

namespace Signature

/-- The words in front of a function. -/
def headPieces (s : Signature) : List Piece :=
  match s.isDeclaration, s.convention with
  | true, .kernel => [.word "declare", .gap, .word "kernel"]
  | true, .ordinary => [.word "declare"]
  | false, .kernel => [.word "kernel"]
  | false, .ordinary => [.word "fn"]

def pieces (s : Signature) : List Piece :=
  let result : List Piece := match s.result with
    | some type => [.gap, .token .arrow, .gap] ++ type.pieces
    | none => []
  let flag : List Piece := if s.isPure then [.gap, .word "pure"] else []
  s.headPieces ++ [.gap, .functionName s.name, .punct '('] ++
    Piece.commaSeparated (s.params.map WrittenParam.pieces) ++ [.punct ')'] ++ result ++ flag

end Signature

/-- The mark, on another line. -/
def WrittenMark.at (line : Nat) (d : WrittenMark) : WrittenMark :=
  { d with line }

/-- The parameter, on another line. -/
def WrittenParam.at (line : Nat) (p : WrittenParam) : WrittenParam :=
  { p with direct := p.direct.map (WrittenMark.at line) }

/-- The signature, on another line. -/
def Signature.at (line : Nat) (s : Signature) : Signature :=
  { s with line, params := s.params.map (WrittenParam.at line) }

namespace Reader

theorem onLine_mark (line : Nat) (d : WrittenMark) (rest : List Located) :
    onLine line d.pieces ++ rest = ⟨.word "direct", line⟩ :: ⟨.punct '(', line⟩ ::
      ⟨.functionName d.accessor, line⟩ :: ⟨.punct ',', line⟩ :: ⟨.int d.set, line⟩ ::
      ⟨.punct ',', line⟩ :: ⟨.int d.binding, line⟩ :: ⟨.punct ',', line⟩ :: ⟨.int d.depth, line⟩ ::
      ⟨.punct ')', line⟩ :: rest :=
  rfl

theorem reads_direct {d : WrittenMark} (h : d.Readable) (line : Nat) (rest : List Located) :
    direct.Reads (onLine line d.pieces ++ rest).tail (d.at line) rest := by
  rw [onLine_mark]
  refine (reads_line _ _).bind ((reads_sign '(' line _).bind ?_)
  refine (reads_functionName d.accessor line _).bind ((reads_sign ',' line _).bind ?_)
  refine (reads_natural h.set_lt line _).bind ((reads_sign ',' line _).bind ?_)
  refine (reads_natural h.binding_lt line _).bind ((reads_sign ',' line _).bind ?_)
  exact (reads_natural h.depth_lt line _).bind ((reads_sign ')' line _).bind (reads_pure _ _))

theorem reads_paramName {isDeclaration : Bool} {name : String} (line : Nat)
    (rest : List Located) : (paramName isDeclaration).Reads
      (⟨.valueName name, line⟩ :: ⟨.punct ':', line⟩ :: rest) (some name) rest := by
  cases isDeclaration <;>
    exact (reads_peek _).bind ((reads_valueName name line _).bind ((reads_sign ':' line _).bind
      (reads_pure _ _)))

theorem reads_paramName_none (word : String) (line : Nat) (rest : List Located) :
    (paramName true).Reads (⟨.word word, line⟩ :: rest) none (⟨.word word, line⟩ :: rest) :=
  (reads_peek _).bind (reads_pure _ _)

/-- The mark is read if there is one, and what follows is read behind it. -/
theorem reads_mark {β : Type} {b : β} {k : Option WrittenMark → Reader β}
    {mark : Option WrittenMark} (hmark : ∀ d, mark = some d → d.Readable) (line : Nat)
    {rest rest' : List Located} (hrest : StartsWithSign rest)
    (hk : (k (mark.map (WrittenMark.at line))).Reads rest b rest') :
    (eat (.word "direct") >>= fun present =>
      if present = true then (some <$> direct) >>= k else pure none >>= k).Reads
      (onLine line (WrittenMark.piecesOf mark) ++ rest) b rest' := by
  cases mark with
  | none =>
    obtain ⟨c, line', others, rfl⟩ := hrest
    exact (reads_eat_of_ne (by simp [WrittenMark.piecesOf])).bind (reads_optional_none hk)
  | some d =>
    exact (reads_eat (.word "direct") line _).bind
      (reads_optional_some (reads_direct (hmark d rfl) line rest) hk)

/-- **A parameter is read as it is written**, where a sign follows it. -/
theorem reads_param {isDeclaration : Bool} {p : WrittenParam} (hp : p.Readable isDeclaration)
    (line : Nat) {rest : List Located} (hrest : StartsWithSign rest) :
    (param isDeclaration).Reads (onLine line p.pieces ++ rest) (p.at line) rest := by
  obtain ⟨name, type, direct⟩ := p
  have hbehind : ∀ name : Option String, (Reader.type >>= fun type => eat (.word "direct") >>= fun present =>
      if present = true then (some <$> Reader.direct) >>= fun mark => pure ⟨name, type, mark⟩
      else pure none >>= fun mark => pure ⟨name, type, mark⟩ : Reader WrittenParam).Reads
      (onLine line type.pieces ++ (onLine line (WrittenMark.piecesOf direct) ++ rest))
      ⟨name, type, direct.map (WrittenMark.at line)⟩ rest := fun name =>
    (reads_type hp.type line _).bind (reads_mark hp.mark line hrest (reads_pure _ _))
  cases name with
  | some name =>
    simp only [WrittenParam.pieces, onLine_append, onLine_valueName, onLine_punct, onLine_gap,
      List.cons_append, List.nil_append, List.append_assoc]
    exact (reads_paramName line _).bind (hbehind (some name))
  | none =>
    obtain rfl : isDeclaration = true := by
      cases isDeclaration with
      | false => cases hp.named rfl
      | true => rfl
    obtain ⟨word, others, hword⟩ := exists_word_of_type line type
    have hbehind := hbehind none
    simp only [WrittenParam.pieces, onLine_append, List.nil_append, List.append_assoc]
    rw [hword, List.cons_append] at hbehind ⊢
    exact (reads_paramName_none word line _).bind hbehind

theorem readsItem_of_params {isDeclaration : Bool} {params : List WrittenParam}
    (h : ∀ p ∈ params, p.Readable isDeclaration) (line : Nat) :
    List.Forall₂ ((param isDeclaration).ReadsItem ')' line) (params.map WrittenParam.pieces)
      (params.map (WrittenParam.at line)) := by
  rw [List.forall₂_map_left_iff, List.forall₂_map_right_iff, List.forall₂_same]
  intro p hp
  refine ⟨fun rest hrest => reads_param (h p hp) line hrest, ?_⟩
  obtain ⟨word, rest, hword⟩ := exists_word_of_type line p.type
  cases hname : p.name with
  | some name =>
    refine ⟨.valueName name, ⟨.punct ':', line⟩ ::
      (onLine line p.type.pieces ++ onLine line (WrittenMark.piecesOf p.direct)), ?_, by simp⟩
    simp [WrittenParam.pieces, hname]
  | none =>
    refine ⟨.word word, rest ++ onLine line (WrittenMark.piecesOf p.direct), ?_, by simp⟩
    simp [WrittenParam.pieces, hname, hword]

/-- The words in front of a function are read as they are written. -/
theorem reads_head (s : Signature) (line : Nat) (name : String) (rest : List Located) :
    head.Reads (onLine line s.headPieces ++ ⟨.functionName name, line⟩ :: rest)
      (s.isDeclaration, s.convention) (⟨.functionName name, line⟩ :: rest) := by
  unfold Signature.headPieces
  cases s.isDeclaration <;> cases s.convention
  · exact (reads_takeWord (w := "fn") (a := (false, .ordinary)) rfl line _).bind (reads_pure _ _)
  · exact (reads_takeWord (w := "kernel") (a := (false, .kernel)) rfl line _).bind (reads_pure _ _)
  · refine (reads_takeWord (w := "declare") (a := (true, .ordinary)) rfl line _).bind ?_
    exact (reads_eat_of_ne (by simp)).bind (reads_pure _ _)
  · refine (reads_takeWord (w := "declare") (a := (true, .ordinary)) rfl line _).bind ?_
    exact (reads_eat (.word "kernel") line _).bind (reads_pure _ _)

/-- What can follow a signature: a token that does not go on with it. -/
def EndsSignature (rest : List Located) : Prop :=
  rest.head?.map Located.token ≠ some .arrow ∧ rest.head?.map Located.token ≠ some (.word "pure")

/-- **A signature is read as it is written.** -/
theorem reads_signature {s : Signature} (hs : s.Readable) (line : Nat) {rest : List Located}
    (hrest : EndsSignature rest) :
    signature.Reads (onLine line s.pieces ++ rest) (s.at line) rest := by
  have hflag : ∀ {β : Type} {b : β} {k : Bool → Reader β}, (k s.isPure).Reads rest b rest →
      (eat (.word "pure") >>= k).Reads
        (onLine line (if s.isPure then [.gap, .word "pure"] else []) ++ rest) b rest := by
    intro β b k hk
    cases hpure : s.isPure with
    | false =>
      rw [hpure] at hk
      exact (reads_eat_of_ne hrest.2).bind hk
    | true =>
      rw [hpure] at hk
      exact (reads_eat (.word "pure") line rest).bind hk
  have hparams := readsItem_of_params hs.params line
  simp only [Signature.pieces, onLine_append, onLine_functionName, onLine_punct, onLine_gap,
    List.cons_append, List.nil_append, List.append_assoc]
  refine (reads_head s line s.name _).bind ((reads_line _ _).bind ?_)
  refine (reads_functionName s.name line _).bind ((reads_sign '(' line _).bind ?_)
  refine (reads_itemsUntil (by decide) hparams _).bind ?_
  have hend : (pure (s.at line) : Reader Signature).Reads rest (s.at line) rest := reads_pure _ _
  cases hresult : s.result with
  | none =>
    have hnext : ((onLine line (if s.isPure then [.gap, .word "pure"] else []) ++ rest).head?.map
        Located.token) ≠ some .arrow := by
      cases s.isPure with
      | false => exact hrest.1
      | true => simp
    refine (reads_eat_of_ne hnext).bind (reads_optional_none (hflag ?_))
    rw [← hresult]
    exact hend
  | some type =>
    simp only [onLine_gap, onLine_token, List.cons_append]
    refine (reads_eat .arrow line _).bind
      (reads_optional_some (reads_type (hs.result type hresult) line _) (hflag ?_))
    rw [← hresult]
    exact hend

end Reader

/-! ## What is laid out of a signature -/

namespace Signature

variable {m : Module} {s : Signature} {f : Function}

theorem markPieces_eq {w : WrittenMark} {d : FixedResource}
    (h : (some w.accessor, w.set, w.binding, w.depth)
      = (m.names[d.accessor]?, d.set, d.binding, d.depth)) :
    Function.markPieces m d = w.pieces := by
  obtain ⟨haccessor, hset, hbinding, hdepth⟩ : some w.accessor = m.names[d.accessor]? ∧
      w.set = d.set ∧ w.binding = d.binding ∧ w.depth = d.depth := by
    simpa using h
  rw [Function.markPieces, WrittenMark.pieces, Module.nameOf_eq, ← haccessor, hset, hbinding, hdepth]
  rfl

theorem paramPieces_eq {w : WrittenParam} {p : Param} {index : Nat}
    (hp : f.params[index]? = some p) (h : w.Writes m.names m.types p)
    (hw : w.Readable f.isDeclaration) : f.paramPieces m index p = w.pieces := by
  have htype : m.types.pieces p.type = w.type.pieces := by
    rw [TypeTable.pieces, h.type]
  rw [Function.paramPieces, htype]
  refine congrArg₂ (· ++ ·) (congrArg (· ++ w.type.pieces) ?name) ?mark
  case mark =>
    have hsame := h.mark
    cases hd : p.direct with
    | none =>
      rw [hd, Option.map_none, Option.map_eq_none_iff] at hsame
      rw [hsame]
      rfl
    | some d =>
      rw [hd, Option.map_some, Option.map_eq_some_iff] at hsame
      obtain ⟨mark, hmark, hsame⟩ := hsame
      rw [hmark]
      exact markPieces_eq hsame
  case name =>
    have hsame := h.name
    cases hn : p.name with
    | none =>
      rw [hn] at hsame
      have hdeclaration : f.isDeclaration = true := by
        cases hd : f.isDeclaration with
        | true => rfl
        | false =>
          have hsome := hw.named hd
          rw [hsame] at hsome
          cases hsome
      rw [hsame, hdeclaration]
      rfl
    | some name =>
      rw [hn] at hsame
      rw [hsame, Option.isNone_some, Bool.and_false, if_neg Bool.false_ne_true,
        Function.paramName, hp, Option.bind_some, hn]

/-- **What is laid out of a signature is what is written.** -/
theorem Writes.pieces_eq (h : s.Writes m.names m.types f) (hs : s.Readable) :
    f.signaturePieces m = s.pieces := by
  have hparams : f.params.mapIdx (fun index p => f.paramPieces m index p)
      = s.params.map WrittenParam.pieces := by
    refine List.ext_getElem? fun index => ?_
    rw [List.getElem?_mapIdx, List.getElem?_map]
    cases hp : f.params[index]? with
    | none =>
      have hlength := h.params.length_eq
      rw [List.getElem?_eq_none_iff] at hp
      rw [List.getElem?_eq_none_iff.mpr (by omega)]
      rfl
    | some p =>
      obtain ⟨w, hw, hwrites⟩ := exists_getElem?_of_forall₂ h.params.flip hp
      have hreadable := hs.params w (List.mem_of_getElem? hw)
      rw [hw, Option.map_some, Option.map_some,
        paramPieces_eq hp hwrites (h.isDeclaration ▸ hreadable)]
  have hhead : f.headPieces = s.headPieces := by
    cases hd : f.isDeclaration <;> cases hc : f.convention <;>
      simp only [Function.headPieces, headPieces, h.isDeclaration, h.convention, hd, hc]
  simp only [Function.signaturePieces, pieces, hparams, hhead, h.name, h.isPure]
  refine congrArg₂ (· ++ ·) (congrArg₂ (· ++ ·) rfl ?_) rfl
  have hsame := h.result
  cases hr : f.result with
  | none =>
    rw [hr, Option.map_none, Option.map_eq_none_iff] at hsame
    rw [hsame]
  | some type =>
    rw [hr, Option.map_some, Option.map_eq_some_iff] at hsame
    obtain ⟨w, hw, hwritten⟩ := hsame
    rw [hw]
    simp only [TypeTable.pieces, ← hwritten]

end Signature

end ResourceBinding
