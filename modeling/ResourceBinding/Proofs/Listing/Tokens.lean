import Mathlib.Data.List.Chain
import ResourceBinding.Layout
import ResourceBinding.Proofs.Reading.Scan

/-!
# Laid out text is read as it was laid out

Two tokens may run into each other. In legible text a blank or a sign stands behind each token that
could go on (`Piece.Separates`). The tokens of such a text are those that were laid out, each with
the line that it was put on (`readTokens_render`).
-/

namespace ResourceBinding

namespace Piece

/-- The tokens among pieces with the lines they are on, where the first piece is on `line`. -/
def locate : Nat → List Piece → List Located
  | _, [] => []
  | line, token t :: rest => ⟨t, line⟩ :: locate line rest
  | line, space _ :: rest => locate line rest
  | line, newline :: rest => locate (line + 1) rest

/-- The number of lines that pieces end. -/
def lineCount (pieces : List Piece) : Nat :=
  pieces.count newline

theorem locate_append (line : Nat) (pieces others : List Piece) :
    locate line (pieces ++ others)
      = locate line pieces ++ locate (line + lineCount pieces) others := by
  induction pieces generalizing line with
  | nil => rfl
  | cons p pieces ih =>
    cases p with
    | token t => exact congrArg (_ :: ·) (ih line)
    | space n => exact ih line
    | newline =>
      rw [List.cons_append, locate, locate, ih, lineCount, lineCount, List.count_cons_self,
        Nat.add_right_comm, Nat.add_assoc]

/-- Whether a piece ends the token before it, whatever that is. -/
def ends : Piece → Bool
  | token (.punct _) | space (_ + 1) | newline => true
  | token _ | space 0 => false

/-- If the first piece is a token that could go on, then the second one ends it. -/
def Separates (p q : Piece) : Prop :=
  ∀ t, p = token t → t.isClosed = false → q.ends

/-- The tokens among the pieces can be read, and none runs into the next one. -/
structure Legible (pieces : List Piece) : Prop where
  readable : ∀ t, token t ∈ pieces → t.Readable
  separates : pieces.IsChain Separates

theorem stops_layoutChars {q : Piece} {rest : List Piece} (hq : q.ends)
    (hreadable : ∀ t, q = token t → t.Readable) : Stops (layoutChars (q :: rest)) := by
  intro c hc
  cases q with
  | token t =>
    cases t with
    | punct d =>
      have hd : d ∈ punctuation := hreadable _ rfl
      obtain rfl : d = c := Option.some.inj hc
      simp only [punctuation, List.mem_cons, List.not_mem_nil, or_false] at hd
      rcases hd with rfl | rfl | rfl | rfl | rfl | rfl | rfl | rfl | rfl | rfl <;>
        exact ⟨rfl, rfl⟩
    | _ => cases hq
  | space n =>
    cases n with
    | zero => cases hq
    | succ n =>
      obtain rfl : ' ' = c := Option.some.inj hc
      exact ⟨rfl, rfl⟩
  | newline =>
    obtain rfl : '\n' = c := Option.some.inj hc
    exact ⟨rfl, rfl⟩

end Piece

/-! ## Passing over pieces -/

theorem tokensFrom_replicate (line n : Nat) (text : List Char) :
    tokensFrom line (List.replicate n ' ' ++ text) = tokensFrom line text := by
  induction n with
  | zero => rfl
  | succ n ih => rw [List.replicate_succ, List.cons_append, tokensFrom_blank (by decide) rfl, ih]

theorem Token.ScannedFrom.tokensFrom {t : Token} {text rest : List Char}
    (h : t.ScannedFrom text rest) (line : Nat) :
    tokensFrom line (text ++ rest) = (⟨t, line⟩ :: ·) <$> tokensFrom line rest := by
  obtain ⟨c, others, rfl, hblank, hscan⟩ := h
  exact tokensFrom_of_scan hblank hscan

/-- **Laid out characters have the tokens that were laid out.** -/
theorem tokensFrom_layoutChars {pieces : List Piece} (h : Piece.Legible pieces) (line : Nat) :
    tokensFrom line (layoutChars pieces) = .ok (Piece.locate line pieces) := by
  induction pieces generalizing line with
  | nil => exact tokensFrom_nil line
  | cons p pieces ih =>
    have hrest : Piece.Legible pieces :=
      ⟨fun t ht => h.readable t (List.mem_cons_of_mem _ ht), h.separates.tail⟩
    cases p with
    | newline => exact (tokensFrom_newline line _).trans (ih hrest (line + 1))
    | space n => exact (tokensFrom_replicate line n _).trans (ih hrest line)
    | token t =>
      have ht := h.readable t List.mem_cons_self
      have hfirst : layoutChars (.token t :: pieces) = t.chars ++ layoutChars pieces := rfl
      have hstops : t.isClosed = false → Stops (layoutChars pieces) := by
        intro hopen c hc
        cases pieces with
        | nil => cases hc
        | cons q pieces =>
          have hends := (List.isChain_cons_cons.mp h.separates).1 t rfl hopen
          exact Piece.stops_layoutChars hends (fun u hu => h.readable u (hu ▸ by simp)) c hc
      rw [hfirst, (ht.scannedFrom hstops).tokensFrom, ih hrest line]
      rfl

/-- **The tokens of laid out text are those that were laid out.** -/
theorem readTokens_render {pieces : List Piece} (h : Piece.Legible pieces) :
    readTokens (render pieces) = .ok (Piece.locate 1 pieces) := by
  rw [readTokens, toList_render]
  exact tokensFrom_layoutChars h 1

end ResourceBinding
