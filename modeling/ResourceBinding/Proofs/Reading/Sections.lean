import ResourceBinding.Proofs.Listing.Outlines
import ResourceBinding.Proofs.Reading.Extent
import ResourceBinding.Proofs.Reading.Program

/-!
# Both turns divide a text alike

The first turn over a text steps over bodies by counting braces, the second one reads their
statements. In a text that is accepted they stop behind the same tokens, so that every token belongs
to the signature or to the body of one function (`Module.read_sections`).
-/

namespace ResourceBinding

/-- The tokens of one function, with what the first turn keeps of it. -/
structure Section where
  outline : Outline
  signature : List Located
  body : List Located

namespace Section

/-- All tokens of the function. -/
def tokens (s : Section) : List Located :=
  s.signature ++ s.body

/-- The tokens are enclosed by a pair of braces. -/
def Enclosed (tokens : List Located) : Prop :=
  ∃ opened closed inner, Balanced inner ∧
    tokens = ⟨.punct '{', opened⟩ :: (inner ++ [⟨.punct '}', closed⟩])

/-- Both turns go from `start` to `behind`: the first one steps over the body, and the second one
reads the body of the function there. -/
structure BodyAgrees (names : List String) (f : Function) (b : Block) (start behind : Cursor) :
    Prop where
  skipped : ∀ line, (Reader.skipBody line).run start = .ok ((), behind)
  read : ∃ draft, ((BodyReader.body ⟨names, f.params⟩).run .empty).run start
    = .ok ((b, draft), behind) ∧ f.expressions = draft.expressions

/-- The function is what is read in this section, in front of what is left at `behind`. The signature
is read up to the body, and a declaration has none. -/
structure Agrees (names : List String) (s : Section) (f : Function) (behind : Cursor) : Prop where
  name : f.name = s.outline.signature.name
  signature : Reader.signature.run ⟨s.tokens ++ behind.rest, behind.lastLine⟩
    = .ok (s.outline.signature, ⟨s.body ++ behind.rest, behind.lastLine⟩)
  balanced : Balanced s.signature
  declaration : f.body = none → s.outline.body = none ∧ s.body = []
  definition : ∀ b, f.body = some b → Enclosed s.body ∧
    s.outline.body = some ⟨s.body ++ behind.rest, behind.lastLine⟩ ∧
    BodyAgrees names f b ⟨s.body ++ behind.rest, behind.lastLine⟩ behind

/-- The functions are what is read in the sections, one behind the other up to the end of the
text. -/
inductive AllAgree (names : List String) (lastLine : Nat) : List Section → List Function → Prop
  | nil : AllAgree names lastLine [] []
  | cons {s : Section} {f : Function} {others : List Section} {fs : List Function} :
      s.Agrees names f ⟨others.flatMap tokens, lastLine⟩ → AllAgree names lastLine others fs →
      AllAgree names lastLine (s :: others) (f :: fs)

end Section

/-! ## The first turn -/

namespace Reader

variable {cursor cursor' : Cursor}

/-- What is stepped over starts with an opening brace, and counting finds the one that closes it. -/
theorem exists_of_run_skipBody {line : Nat} (h : (skipBody line).run cursor = .ok ((), cursor')) :
    ∃ opened tokens, cursor = ⟨⟨.punct '{', opened⟩ :: tokens, cursor'.lastLine⟩ ∧
      afterBlock 0 tokens = some cursor'.rest := by
  obtain ⟨_, cursor₁, hsign, hcount⟩ := exists_of_run_bind h
  obtain ⟨opened, rfl⟩ := exists_cursor_of_run_sign hsign
  obtain ⟨current, cursor₂, hget, hcount⟩ := exists_of_run_bind hcount
  cases hget
  split at hcount
  · rename_i rest hrest
    cases hcount
    exact ⟨opened, _, rfl, hrest⟩
  · cases hcount

/-- An outline has a signature that is read first. A declaration ends there, and the body of a
definition is stepped over. -/
theorem exists_of_run_outline {taken : List String} {o : Outline}
    (h : (outline taken).run cursor = .ok (o, cursor')) :
    ∃ start, signature.run cursor = .ok (o.signature, start) ∧
      ((o.signature.isDeclaration = true ∧ o.body = none ∧ cursor' = start) ∨
        (o.signature.isDeclaration = false ∧ o.body = some start ∧
          ∃ line, (skipBody line).run start = .ok ((), cursor'))) := by
  obtain ⟨line, cursor₁, hline, h⟩ := exists_of_run_bind h
  cases hline
  obtain ⟨s, start, hs, h⟩ := exists_of_run_bind h
  split at h
  · cases h
  · split at h
    · rename_i hdeclaration
      cases h
      exact ⟨cursor', hs, .inl ⟨hdeclaration, rfl, rfl⟩⟩
    · rename_i hdeclaration
      obtain ⟨current, cursor₂, hget, h⟩ := exists_of_run_bind h
      cases hget
      obtain ⟨_, cursor₃, hskip, h⟩ := exists_of_run_bind h
      cases h
      exact ⟨start, hs, .inr ⟨Bool.eq_false_iff.mpr hdeclaration, rfl, _, hskip⟩⟩

end Reader

/-! ## Both turns -/

namespace Section

variable {names : List String} {types : TypeTable} {f g : Function} {start behind : Cursor}

/-- **The body that the first turn has stepped over is read up to the same place.** -/
theorem exists_bodyAgrees {line : Nat} (hskip : (Reader.skipBody line).run start = .ok ((), behind))
    (hread : f.readBody names start = .ok g) :
    ∃ body b, Enclosed body ∧ start = ⟨body ++ behind.rest, behind.lastLine⟩ ∧ g.name = f.name ∧
      g.body = some b ∧ BodyAgrees names g b start behind := by
  obtain ⟨⟨⟨b, draft⟩, cursor⟩, hrun, hg⟩ := exists_of_bind_ok hread
  cases hg
  obtain ⟨opened, taken, htaken, rfl⟩ := BodyReader.exists_of_run_body hrun
  obtain ⟨_, tokens, hstart, hafter⟩ := Reader.exists_of_run_skipBody hskip
  obtain ⟨htokens, hline⟩ := Cursor.mk.inj hstart
  obtain ⟨-, rfl⟩ := List.cons.inj htokens
  -- Counting finds one place only, and the statements end at it.
  have hrest : cursor.rest = behind.rest :=
    Option.some.inj ((afterBlock_of_balancedUntil htaken cursor.rest).symm.trans hafter)
  obtain rfl : cursor = behind := congrArg₂ Cursor.mk hrest hline
  obtain ⟨inner, closed, hinner, rfl⟩ := htaken
  refine ⟨_, b, ⟨opened, closed, inner, hinner, rfl⟩, rfl, rfl, rfl, fun line => ?_,
    draft, hrun, rfl⟩
  exact Reader.reads_skipBody hafter line opened cursor.lastLine

/-- The outline of a function and what is read for it agree, from where the outline starts up to
where it ends. -/
theorem exists_agrees {taken : List String} {o : Outline}
    (ho : (Reader.outline taken).run start = .ok (o, behind))
    (hf : o.signature.Declares names types f)
    (hg : (match o.body with
      | some body => f.readBody names body
      | none => pure f) = .ok g) :
    ∃ s : Section, s.outline = o ∧ start = ⟨s.tokens ++ behind.rest, behind.lastLine⟩ ∧
      s.Agrees names g behind := by
  obtain ⟨middle, hsignature, hbody⟩ := Reader.exists_of_run_outline ho
  obtain ⟨taken, hbalanced, rfl⟩ := Reader.advances_signature.takes _ _ _ hsignature
  rcases hbody with ⟨hdeclaration, hnone, rfl⟩ | ⟨hdefinition, hsome, line, hskip⟩
  · rw [hnone] at hg
    cases hg
    have hempty : f.body = none :=
      Option.isNone_iff_eq_none.mp (hf.isDeclaration.symm.trans hdeclaration)
    refine ⟨⟨o, taken, []⟩, rfl, ?_, hf.name.symm, ?_, hbalanced, fun _ => ⟨hnone, rfl⟩,
      fun b hb => ?_⟩
    · rw [tokens, List.append_nil]
    · rw [tokens, List.append_nil]
      exact hsignature
    · cases hempty.symm.trans hb
  · rw [hsome] at hg
    obtain ⟨body, b, henclosed, rfl, hname, hb, hagrees⟩ := exists_bodyAgrees hskip hg
    refine ⟨⟨o, taken, body⟩, rfl, ?_, hname.trans hf.name.symm, ?_, hbalanced, fun hnone => ?_,
      fun b' hb' => ?_⟩
    · rw [tokens, List.append_assoc]
    · rw [tokens, List.append_assoc]
      exact hsignature
    · cases hb.symm.trans hnone
    · cases hb.symm.trans hb'
      exact ⟨henclosed, hsome, hagrees⟩

/-- **Both turns agree about each function, up to the end of the text.** The bound suffices, since
each function takes a token at least. -/
theorem exists_allAgree {n : Nat} {taken : List String} {os : List Outline}
    {fs gs : List Function} (hbound : start.rest.length < n)
    (hos : (Reader.outlinesWithin n taken).run start = .ok (os, behind))
    (hfs : List.Forall₂ (fun o f => Signature.Declares names types o.signature f) os fs)
    (hgs : readBodies names os fs = .ok gs) :
    ∃ sections, os = sections.map outline ∧ behind = ⟨[], start.lastLine⟩ ∧
      start.rest = sections.flatMap tokens ∧ AllAgree names start.lastLine sections gs := by
  induction n generalizing taken os fs gs start with
  | zero => exact absurd hbound (Nat.not_lt_zero _)
  | succ n ih =>
    obtain ⟨next, cursor, hpeek, hos⟩ := exists_of_run_bind hos
    cases hpeek
    split at hos
    · rename_i hnone
      cases hos
      cases hfs
      cases hgs
      have hend : behind.rest = [] := by simpa using hnone
      refine ⟨[], rfl, ?_, hend, .nil⟩
      rw [← hend]
    · obtain ⟨o, middle, ho, hos⟩ := exists_of_run_bind hos
      obtain ⟨others, cursor, hothers, hos⟩ := exists_of_run_bind hos
      cases hos
      cases hfs with
      | @cons _ f _ fs hf hfs =>
        obtain ⟨g, gs', hg, hgs', rfl⟩ := exists_of_readBodies hgs
        obtain ⟨first, rfl, rfl, hfirst⟩ := exists_agrees ho hf hg
        have hless : middle.rest.length < n := by
          have hadvances := Reader.advances_signature.length_lt hfirst.signature
          simp only [List.length_append] at hbound hadvances
          omega
        obtain ⟨sections, rfl, hend, hrest, hall⟩ := ih hless hothers hfs hgs'
        refine ⟨first :: sections, rfl, hend, ?_, .cons ?_ hall⟩
        · rw [List.flatMap_cons, ← hrest]
        · rw [← hrest]
          exact hfirst

theorem AllAgree.names_eq {lastLine : Nat} {sections : List Section} {fs : List Function}
    (h : AllAgree names lastLine sections fs) :
    fs.map Function.name = sections.map (·.outline.signature.name) := by
  induction h with
  | nil => rfl
  | cons hs _ ih => rw [List.map_cons, List.map_cons, hs.name, ih]

end Section

namespace Module

/-- **The signatures and the bodies of a text that is accepted are all of it**: its tokens divide
into the sections of the functions. In each of them the first turn steps over the body up to the
place where the second turn has read it. -/
theorem read_sections {source : String} {m : Module} (h : Module.read source = .ok m) :
    ∃ tokens sections, readTokens source = .ok tokens ∧
      Reader.outlines.run (.start tokens)
        = .ok (sections.map Section.outline, ⟨[], (Cursor.start tokens).lastLine⟩) ∧
      tokens = sections.flatMap Section.tokens ∧
      Section.AllAgree m.names (Cursor.start tokens).lastLine sections m.functions.toList := by
  obtain ⟨tokens, htokens, h⟩ := exists_of_bind_ok h
  obtain ⟨⟨outlines, cursor⟩, houtlines, h⟩ := exists_of_bind_ok h
  obtain ⟨⟨declared, types⟩, hdeclared, h⟩ := exists_of_bind_ok h
  obtain ⟨functions, hfunctions, h⟩ := exists_of_bind_ok h
  cases h
  obtain ⟨-, -, hdeclares⟩ := declareAll_ok hdeclared TypeTable.componentsEarlier_empty
  obtain ⟨n, cursor₁, hbound, hwithin⟩ := exists_of_run_bind houtlines
  cases hbound
  obtain ⟨sections, rfl, rfl, hsections, hall⟩ :=
    Section.exists_allAgree (Nat.lt_succ_self _) hwithin hdeclares hfunctions
  have hnames : Module.names ⟨types, functions.toArray⟩
      = (sections.map Section.outline).map (·.signature.name) := by
    rw [List.map_map]
    exact hall.names_eq
  exact ⟨tokens, sections, htokens, houtlines, hsections, hnames ▸ hall⟩

/-- A structure in a signature, a declaration between definitions, blocks in blocks, and an empty
body. -/
def nestedSource : String :=
  "fn @f(%s: struct \x7bi32\x7d) \x7b
  if true \x7b loop \x7b\x7d \x7d else \x7b call @g() \x7d
\x7d
declare @g()
kernel @k() \x7b\x7d"

theorem read_sections_nested : ∃ m tokens sections, Module.read nestedSource = .ok m ∧
    readTokens nestedSource = .ok tokens ∧
    Reader.outlines.run (.start tokens)
      = .ok (sections.map Section.outline, ⟨[], (Cursor.start tokens).lastLine⟩) ∧
    tokens = sections.flatMap Section.tokens ∧
    Section.AllAgree m.names (Cursor.start tokens).lastLine sections m.functions.toList := by
  have hread : (Module.read nestedSource).toOption.isSome := by decide +kernel
  cases hm : Module.read nestedSource with
  | error e =>
    rw [hm] at hread
    cases hread
  | ok m =>
    obtain ⟨tokens, sections, hsections⟩ := read_sections hm
    exact ⟨m, tokens, sections, rfl, hsections⟩

end Module

end ResourceBinding
