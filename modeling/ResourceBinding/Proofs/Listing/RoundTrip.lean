import ResourceBinding.Proofs.Listing.Outlines
import ResourceBinding.Proofs.Listing.Statements
import ResourceBinding.Proofs.Reading.Literals

/-!
# Listings are read again

The listing of a module is accepted if the module can be written (`Module.Writable`), and the module
that is read from it has the same listing (`Module.Writable.exists_read_listing`).

A module that was read from a text without infinite numbers can be written
(`Module.writable_of_read`). So its listing is one that stays the same when it is read again
(`Module.read_listing_stable`).
-/

namespace ResourceBinding

open Piece

/-! ## Declaring again -/

section Declare

variable {names : List String}

theorem exists_declareParams {ws : List WrittenParam}
    (h : ∀ w ∈ ws, ∀ d, w.direct = some d → d.accessor ∈ names) (types : TypeTable) :
    ∃ ps types', declareParams names ws types = .ok (ps, types') := by
  induction ws generalizing types with
  | nil => exact ⟨[], types, rfl⟩
  | cons w ws ih =>
    obtain ⟨ps, types', hps⟩ := ih (fun other hother => h other (List.mem_cons_of_mem _ hother))
      (types.intern w.type).2
    have hmark : ∃ direct, w.direct.mapM (·.resolve names) = .ok direct := by
      cases hd : w.direct with
      | none => exact ⟨none, rfl⟩
      | some d =>
        have hsome : (names.idxOf? d.accessor).isSome :=
          List.isSome_idxOf?.mpr (h w List.mem_cons_self d hd)
        obtain ⟨accessor, haccessor⟩ := Option.isSome_iff_exists.mp hsome
        refine ⟨some ⟨accessor, d.set, d.binding, d.depth⟩, ?_⟩
        have hresolve : d.resolve names = .ok ⟨accessor, d.set, d.binding, d.depth⟩ := by
          rw [WrittenMark.resolve, haccessor]
        rw [Option.mapM_some, hresolve]
        rfl
    obtain ⟨direct, hmark⟩ := hmark
    refine ⟨⟨w.name, (types.intern w.type).1, direct⟩ :: ps, types', ?_⟩
    rw [declareParams, hmark]
    change ((declareParams names ws (types.intern w.type).2 >>= fun read =>
      pure (⟨w.name, (types.intern w.type).1, direct⟩ :: read.1, read.2)) : Except ParseError _) = _
    rw [hps]
    rfl

theorem exists_declare {s : Signature}
    (h : ∀ w ∈ s.params, ∀ d, w.direct = some d → d.accessor ∈ names) (types : TypeTable) :
    ∃ f types', s.declare names types = .ok (f, types') := by
  obtain ⟨ps, types', hps⟩ := exists_declareParams h types
  unfold Signature.declare
  rw [hps]
  exact ⟨_, _, rfl⟩

/-- **Functions are declared, if their marks refer to functions that there are.** -/
theorem exists_declareAll {os : List Outline}
    (h : ∀ o ∈ os, ∀ w ∈ o.signature.params, ∀ d, w.direct = some d → d.accessor ∈ names)
    (types : TypeTable) : ∃ fs types', declareAll names os types = .ok (fs, types') := by
  induction os generalizing types with
  | nil => exact ⟨[], types, rfl⟩
  | cons o os ih =>
    obtain ⟨f, types₁, hf⟩ := exists_declare (h o List.mem_cons_self) types
    obtain ⟨fs, types₂, hfs⟩ := ih (fun other hother => h other (List.mem_cons_of_mem _ hother)) types₁
    refine ⟨f :: fs, types₂, ?_⟩
    rw [declareAll, hf]
    change ((declareAll names os types₁ >>= fun read => pure (f :: read.1, read.2)) :
      Except ParseError _) = _
    rw [hfs]
    rfl

end Declare

/-! ## Reading bodies again -/

/-- The function has been read from what is written: it has the signature, and its body is written
so, whatever module with the same names it is in. -/
structure WrittenFunction.ReadAs (names : List String) (types : TypeTable) (w : WrittenFunction)
    (g : Function) : Prop where
  readable : w.signature.Readable
  writes : w.signature.Writes names types g
  body : ∀ m : Module, m.names = names → w.body = g.body.map fun b => (g.writeBlock m b []).1

section Bodies

variable {m : Module} {f f' : Function} {w : WrittenFunction} {o : Outline} {types : TypeTable}

/-- Where a signature stands does not matter for what it says. -/
theorem Signature.Writes.of_at {names : List String} {s : Signature} {line : Nat}
    (h : (s.at line).Writes names types f) : s.Writes names types f where
  isDeclaration := h.isDeclaration
  convention := h.convention
  name := h.name
  params := by
    refine (List.forall₂_map_left_iff.mp h.params).imp fun p q hp => ⟨hp.name, hp.type, ?_⟩
    rw [← hp.mark, WrittenParam.at]
    cases p.direct <;> rfl
  result := h.result
  isPure := h.isPure

/-- The function with a body that has been read. -/
def Function.withDraft (f : Function) (b : Block) (d : BodyDraft) : Function :=
  { f with expressions := d.expressions, names := d.values.map Prod.swap, body := some b }

theorem Function.acyclic_withDraft {ctx : BodyContext} {b : Block} {d : BodyDraft}
    (hd : d.Valid ctx) : (f.withDraft b d).Acyclic := by
  refine acyclic_of_lt ?_
  rintro id op ⟨e, he, hop⟩
  exact (hd.operand id e he op hop).1

theorem BodyDraft.Valid.completedBy {names : List String} {b : Block} {d : BodyDraft}
    (hd : d.Valid ⟨names, f.params⟩) : d.CompletedBy ⟨names, f.params⟩ (f.withDraft b d) := by
  refine ⟨fun _ _ he => he, fun name id hv => ?_, rfl⟩
  have hnodup : ((d.values.map Prod.swap).map Prod.fst).Nodup := by
    rw [List.map_map]
    exact hd.ids
  exact lookup_of_mem hnodup (List.mem_map_of_mem (f := Prod.swap) hv)

/-- **The body of a function that can be written is read as one that is written alike.** -/
theorem Function.Writable.exists_readBody (hf : f.Writable m) (hm : m.NamesDistinct) {b : Block}
    (hb : f.body = some b) (hlegible : (f.writeBlock m b []).1.Legible)
    (hparams : f'.params.map Param.name = f.params.map Param.name) {line close : Nat}
    (hclose : line + 1 + lineCount ((f.writeBlock m b []).1.pieces 2) ≤ close)
    (rest : List Located) (last : Nat) :
    ∃ b' d, f'.readBody m.names ⟨⟨.punct '{', line⟩ ::
        (locate (line + 1) ((f.writeBlock m b []).1.pieces 2) ++ ⟨.punct '}', close⟩ :: rest), last⟩
        = .ok (f'.withDraft b' d) ∧
      ∀ m' : Module, m'.names = m.names →
        ((f'.withDraft b' d).writeBlock m' b' []).1 = (f.writeBlock m b []).1 := by
  have hsteps := Function.along_follows hf.toLegible hf.wellFormed
  have hcalls : f.calls = b.calls := by rw [Function.calls, hb]
  rw [Function.steps, hb] at hsteps
  have hctx : BodyContext.Suits ⟨m.names, f'.params⟩ f := ⟨hparams, hf.params⟩
  have hempty : Mirrors ⟨m.names, f'.params⟩ f [] .empty :=
    ⟨BodyDraft.valid_empty _, rfl, fun _ hid => absurd hid List.not_mem_nil⟩
  obtain ⟨b', d, hagain⟩ := hempty.exists_block hf.toLegible hf.wellFormed hctx
    (fun _ _ _ => Iff.rfl) hsteps (m := m) fun c hc => by
      rw [← hcalls] at hc
      exact ⟨hm.idxOf?_nameOf (hf.wellFormed.callee_lt c hc), hf.wellFormed.result c hc⟩
  refine ⟨b', d, ?_, fun m' hm' => ?_⟩
  · have hbody : ∀ tokens, tokens = ⟨.punct '{', line⟩ ::
        (locate (line + 1) ((f.writeBlock m b []).1.pieces 2) ++ ⟨.punct '}', close⟩ :: rest) →
        (BodyReader.body ⟨m.names, f'.params⟩).Reads .empty tokens b' d rest := by
      rintro tokens rfl
      refine BodyReader.reads_lift_bind (Reader.reads_bound _)
        (BodyReader.reads_lift_bind (Reader.reads_sign '{' line _)
          (BodyReader.reads_blockWithin hagain.builds hlegible _ 2 (line + 1) close rest ?_ hclose))
      simp only [List.length_append, List.length_cons]
      omega
    unfold Function.readBody
    rw [hbody _ rfl last]
    rfl
  · have hvalid := hagain.mirrors.valid
    have hwrites := hagain.writes (f'.withDraft b' d) m' hvalid.completedBy
      (Function.acyclic_withDraft hvalid) hm'
    exact (congrArg Prod.fst hwrites : _)

/-- **A function that can be written is read from what is written of it.** -/
theorem Function.Writable.exists_readAs (hf : f.Writable m) (hm : m.NamesDistinct)
    (hw : f.WrittenAs m w) (hlegible : w.Legible) (ho : o.IsOf w)
    (hf' : o.signature.Declares m.names types f') :
    ∃ g, (match o.body with
      | some start => f'.readBody m.names start
      | none => pure f') = .ok g ∧ w.ReadAs m.names types g := by
  have hwrites : w.signature.Writes m.names types f' := by
    obtain ⟨line, hline⟩ := ho.signature
    exact Signature.Writes.of_at (hline ▸ hf'.toWrites)
  have hdeclaration := hlegible.isDeclaration.trans hwrites.isDeclaration
  cases hb : f.body with
  | none =>
    have hwb : w.body = none := by rw [hw.body, hb, Option.map_none]
    refine ⟨f', ?_, hlegible.readable, hwrites, fun m' _ => ?_⟩
    · rw [ho.declaration hwb]
      rfl
    · rw [hwb, Option.isNone_none] at hdeclaration
      rw [hwb, Option.isNone_iff_eq_none.mp hdeclaration.symm, Option.map_none]
  | some b =>
    have hwb : w.body = some (f.writeBlock m b []).1 := by rw [hw.body, hb, Option.map_some]
    have hparams : f'.params.map Param.name = f.params.map Param.name := by
      have hnames : ∀ {types} {g : Function}, w.signature.Writes m.names types g →
          g.params.map Param.name = w.signature.params.map WrittenParam.name := fun hg =>
        (map_eq_map_of_forall₂ (hg.params.imp fun _ _ hp => hp.name)).symm
      rw [hnames hwrites, hnames hw.writes]
    obtain ⟨line, close, rest, last, hbody, hclose⟩ := ho.definition _ hwb
    obtain ⟨b', d, hread, hagain⟩ :=
      hf.exists_readBody hm hb (hlegible.body _ hwb) hparams hclose rest last
    refine ⟨f'.withDraft b' d, ?_, hlegible.readable, ?_, fun m' hm' => ?_⟩
    · rw [hbody]
      exact hread
    · rw [hwb] at hdeclaration
      exact { hwrites with isDeclaration := hwrites.isDeclaration.trans hdeclaration.symm }
    · rw [hwb]
      exact congrArg some (hagain m' hm').symm

/-- **The functions of a module are read from what is written of them.** -/
theorem exists_readBodies (hm : m.NamesDistinct) {fs fs' : List Function}
    {ws : List WrittenFunction} {os : List Outline} (hfs : ∀ f ∈ fs, f.Writable m)
    (hlegible : ∀ w ∈ ws, w.Legible) (hws : List.Forall₂ (Function.WrittenAs m) fs ws)
    (hos : List.Forall₂ (fun w o => o.IsOf w) ws os)
    (hdeclares : List.Forall₂ (fun o f => Signature.Declares m.names types o.signature f) os fs') :
    ∃ gs, readBodies m.names os fs' = .ok gs ∧
      List.Forall₂ (WrittenFunction.ReadAs m.names types) ws gs := by
  induction hws generalizing os fs' with
  | nil =>
    cases hos
    cases hdeclares
    exact ⟨[], rfl, .nil⟩
  | @cons f w fs ws hw _ ih =>
    cases hos with
    | @cons _ o _ os ho hos =>
      cases hdeclares with
      | @cons _ f' _ fs' hf' hdeclares =>
        obtain ⟨g, hg, hread⟩ := (hfs f List.mem_cons_self).exists_readAs hm hw
          (hlegible w List.mem_cons_self) ho hf'
        obtain ⟨gs, hgs, hall⟩ := ih (fun other hother => hfs other (List.mem_cons_of_mem _ hother))
          (fun other hother => hlegible other (List.mem_cons_of_mem _ hother)) hos hdeclares
        refine ⟨g :: gs, ?_, .cons hread hall⟩
        unfold readBodies
        cases hbody : o.body <;>
        · rw [hbody] at hg
          dsimp only at hg ⊢
          rw [hg, hgs]
          rfl

end Bodies

/-! ## Modules -/

/-- The module can be written: names are distinct, each function has a legible signature, and each
of its tokens a text. -/
structure Module.Writable (m : Module) : Prop where
  distinct : m.NamesDistinct
  written : ∃ ws, m.WrittenAs ws
  functions : ∀ f ∈ m.functions, f.Writable m

namespace Module

variable {m : Module} {ws : List WrittenFunction}

theorem WrittenAs.names_eq (h : m.WrittenAs ws) : m.names = ws.map (·.signature.name) :=
  map_eq_map_of_forall₂ (h.imp fun _ _ hw => hw.writes.name.symm)

theorem WrittenAs.isName (h : m.WrittenAs ws) : ∀ name ∈ m.names, IsName name := by
  intro name hname
  rw [h.names_eq] at hname
  obtain ⟨w, hw, rfl⟩ := List.mem_map.mp hname
  obtain ⟨f, -, hf⟩ := exists_mem_of_forall₂ h hw
  exact hf.readable.name

/-- What has been read from what is written is written alike. -/
theorem writtenAs_of_readAs {names : List String} {types : TypeTable} {gs : List Function}
    (hnames : ws.map (·.signature.name) = names)
    (h : List.Forall₂ (WrittenFunction.ReadAs names types) ws gs) :
    WrittenAs ⟨types, gs.toArray⟩ ws := by
  have hsame : Module.names ⟨types, gs.toArray⟩ = names := by
    rw [← hnames]
    exact (map_eq_map_of_forall₂ (h.imp fun _ _ hg => hg.writes.name)).symm
  refine h.flip.imp fun g w hg => ⟨?_, hg.readable, hg.body _ hsame⟩
  rw [hsame]
  exact hg.writes

/-- **The listing of a module that can be written is accepted, and the module that is read from it
is written alike.** -/
theorem Writable.exists_read_writtenAs (h : m.Writable) :
    ∃ m' ws, Module.read m.listing = .ok m' ∧ m.WrittenAs ws ∧ m'.WrittenAs ws := by
  obtain ⟨ws, hws⟩ := h.written
  have hlegible : ∀ w ∈ ws, w.Legible := by
    intro w hw
    obtain ⟨f, hf, hfw⟩ := exists_mem_of_forall₂ hws hw
    exact hfw.legible (h.functions f (Array.mem_def.mpr hf)) hws.isName
  have htokens : readTokens m.listing = .ok (locate 1 (WrittenFunction.piecesEach true ws)) := by
    rw [listing, layOut_eq hws]
    exact readTokens_render (WrittenFunction.legible_piecesEach hlegible true)
  -- The first turn.
  have htaken : ∀ w ∈ ws, w.signature.name ∉ ([] : List String) := fun _ _ => List.not_mem_nil
  obtain ⟨os, hos, hof⟩ := Reader.exists_outlinesWithin hlegible (hws.names_eq ▸ h.distinct) htaken
    true 1
    (Cursor.start (locate 1 (WrittenFunction.piecesEach true ws))).lastLine (Nat.lt_succ_self _)
  have houtlines : Reader.outlines.run (.start (locate 1 (WrittenFunction.piecesEach true ws)))
      = .ok (os, _) :=
    ((Reader.reads_bound _).run_bind _ _).trans hos
  have hnames : os.map (·.signature.name) = m.names := by
    rw [hws.names_eq]
    refine (map_eq_map_of_forall₂ (hof.imp fun w o ho => ?_)).symm
    obtain ⟨line, hline⟩ := ho.signature
    rw [hline]
    rfl
  -- The declarations.
  have hmarks : ∀ o ∈ os, ∀ p ∈ o.signature.params, ∀ d, p.direct = some d → d.accessor ∈ m.names := by
    intro o ho p hp d hd
    obtain ⟨w, hw, hof⟩ := exists_mem_of_forall₂ hof ho
    obtain ⟨f, -, hf⟩ := exists_mem_of_forall₂ hws hw
    obtain ⟨line, hline⟩ := hof.signature
    rw [hline] at hp
    obtain ⟨q, hq, rfl⟩ := List.mem_map.mp hp
    obtain ⟨mark, hmark, rfl⟩ := Option.map_eq_some_iff.mp hd
    have haccessor := hf.writes.accessor_mem hq hmark
    exact haccessor
  obtain ⟨fs, types, hfs⟩ := exists_declareAll hmarks .empty
  obtain ⟨-, -, hdeclares⟩ := declareAll_ok hfs TypeTable.componentsEarlier_empty
  -- The second turn.
  obtain ⟨gs, hgs, hreads⟩ := exists_readBodies h.distinct
    (fun f hf => h.functions f (Array.mem_def.mpr hf)) hlegible hws hof hdeclares
  refine ⟨⟨types, gs.toArray⟩, ws, ?_, hws, writtenAs_of_readAs hws.names_eq.symm hreads⟩
  unfold Module.read Module.ofTokens
  rw [htokens]
  change (Reader.outlines.run (.start (locate 1 (WrittenFunction.piecesEach true ws))) >>= _) = _
  rw [houtlines]
  change (declareAll (os.map (·.signature.name)) os .empty >>= _) = _
  rw [hnames, hfs]
  change (readBodies m.names os fs >>= _) = _
  rw [hgs]
  rfl

/-- The module that is read from the listing has the same listing. -/
theorem Writable.exists_read_listing (h : m.Writable) :
    ∃ m', Module.read m.listing = .ok m' ∧ m'.listing = m.listing := by
  obtain ⟨m', ws, hread, hws, hws'⟩ := h.exists_read_writtenAs
  exact ⟨m', hread, by rw [listing, listing, layOut_eq hws, layOut_eq hws']⟩

/-! ## Modules that were read -/

/-- No number in single precision in the text is infinite. -/
def NumbersFinite (source : String) : Prop :=
  ∀ tokens, readTokens source = .ok tokens →
    ∀ t ∈ tokens, ∀ x, t.token = .float x → x.magnitude < Single.infinity

theorem finite_of_read {source : String} (h : Module.read source = .ok m)
    (hfinite : NumbersFinite source) {f : Function} (hf : f ∈ m.functions) : f.Finite := by
  intro id x hx
  obtain ⟨tokens, htokens, hstand⟩ := exists_token_of_read h
  obtain ⟨t, ht, htoken⟩ := hstand f hf id x hx
  exact hfinite tokens htokens t ht x htoken

/-- The function that was read by a signature, as it is written. -/
theorem exists_writtenAs {s : Signature} {f : Function} (h : f.IsRead m.names m.types s) :
    ∃ w, f.WrittenAs m w :=
  ⟨⟨s, f.body.map fun b => (f.writeBlock m b []).1⟩, h.writes, h.readable, rfl⟩

/-- **A module that was read from a text without infinite numbers can be written.** -/
theorem writable_of_read {source : String} (h : Module.read source = .ok m)
    (hfinite : NumbersFinite source) : m.Writable := by
  obtain ⟨signatures, hread⟩ := isRead_of_read h
  have hm := hread.wellFormed
  refine ⟨hm.names, ?_, fun f hf => ?_⟩
  · refine exists_forall₂ fun f hf => ?_
    obtain ⟨s, -, hs⟩ := hread.function (Array.mem_def.mpr hf)
    exact exists_writtenAs hs
  · obtain ⟨s, -, hs⟩ := hread.function hf
    refine ⟨hs.legible, hm.functions f hf, finite_of_read h hfinite hf, fun p hp name hname => ?_⟩
    obtain ⟨w, hw, hwrites⟩ := exists_mem_of_forall₂ hs.writes.params hp
    exact (hs.readable.params w hw).name name (hwrites.name.trans hname)

/-- **The listing of a module that was read stays the same when it is read again**, whatever the text
was that it was read from, if the numbers in that were finite. -/
theorem read_listing_stable {source : String} (h : Module.read source = .ok m)
    (hfinite : NumbersFinite source) :
    ∃ m', Module.read m.listing = .ok m' ∧ m'.listing = m.listing :=
  (writable_of_read h hfinite).exists_read_listing

/-- A value that hides a parameter, one that is defined in a block and used behind it, a call of a
function that is declared below, and a mark. -/
def scatteredSource : String :=
  "fn @f(%x: i32) \x7b
  %y = add %x, 1
  %x = add 2, %y
  loop \x7b
    if true \x7b
      %v = mul %x, %x
    \x7d
  \x7d
  call @g(%v, 0.5)
\x7d
declare @g(i32 direct(@f, 0, 1, 0), f32)"

theorem read_listing_stable_scattered : ∃ m m', Module.read scatteredSource = .ok m ∧
    NumbersFinite scatteredSource ∧ Module.read m.listing = .ok m' ∧ m'.listing = m.listing := by
  have hcheck : (readTokens scatteredSource).toOption.any (fun tokens =>
      (Module.ofTokens tokens).toOption.isSome && tokens.all fun t =>
        match t.token with
        | .float x => decide (x.magnitude < Single.infinity)
        | _ => true) := by
    decide +kernel
  cases htokens : readTokens scatteredSource with
  | error e =>
    rw [htokens] at hcheck
    cases hcheck
  | ok tokens =>
    rw [htokens] at hcheck
    obtain ⟨hread, hall⟩ := Bool.and_eq_true_iff.mp hcheck
    obtain ⟨m, hm⟩ := Option.isSome_iff_exists.mp hread
    have hfinite : NumbersFinite scatteredSource := by
      intro tokens' hok t ht x hx
      cases htokens.symm.trans hok
      have hfloat := List.all_eq_true.mp hall t ht
      rw [hx] at hfloat
      exact of_decide_eq_true hfloat
    have hsource : Module.read scatteredSource = .ok m := by
      unfold Module.read
      rw [htokens]
      cases hof : Module.ofTokens tokens with
      | error e =>
        rw [hof] at hm
        cases hm
      | ok found =>
        rw [hof] at hm
        cases hm
        exact hof
    obtain ⟨m', hread', hlisting⟩ := read_listing_stable hsource hfinite
    exact ⟨m, m', hsource, hfinite, hread', hlisting⟩

end Module

end ResourceBinding
