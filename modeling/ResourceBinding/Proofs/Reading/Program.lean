import ResourceBinding.Proofs.Program.Edits
import ResourceBinding.Proofs.Reading.Function
import ResourceBinding.Proofs.Reading.Types
import ResourceBinding.Reading.Program

/-!
# What a module that was read consists of

Each function of a module that was read is declared by a signature that text has a form for, and has
the body that was read for it, if it is defined (`Module.read_ok`). So the module is well-formed
(`Module.wellFormed_of_read`), and in particular linked, with distinct names.
-/

namespace ResourceBinding

/-! ## The first turn -/

theorem mem_of_mem_afterBlock {depth : Nat} {tokens rest : List Located} {t : Located}
    (h : afterBlock depth tokens = some rest) (ht : t ∈ rest) : t ∈ tokens := by
  induction depth, tokens using afterBlock.induct with
  | case1 => cases h
  | case2 depth line tokens ih => exact List.mem_cons_of_mem _ (ih h)
  | case3 line tokens =>
    cases h
    exact List.mem_cons_of_mem _ ht
  | case4 depth line tokens ih => exact List.mem_cons_of_mem _ (ih h)
  | case5 depth first tokens hopen hclose hclose' ih =>
    rw [afterBlock] at h
    · exact List.mem_cons_of_mem _ (ih h)
    · exact hopen
    · exact hclose
    · exact hclose'

/-- An outline that has been read: a definition has a body, where names are names. -/
structure Outline.Valid (o : Outline) : Prop where
  readable : o.signature.Readable
  body : o.body.isNone = o.signature.isDeclaration
  named : ∀ start, o.body = some start → start.Named

namespace Reader

theorem ensures_skipBody (line : Nat) : (skipBody line).Ensures fun _ => True := by
  refine (ensures_sign _).bind fun _ _ => ?_
  intro cursor a cursor' hcursor hrun
  obtain ⟨found, cursor₁, hget, hrun⟩ := exists_of_run_bind hrun
  cases hget
  split at hrun
  · rename_i rest hrest
    cases hrun
    exact ⟨fun t ht => mem_of_mem_afterBlock hrest ht, trivial⟩
  · cases hrun

theorem ensures_outline (taken : List String) : (outline taken).Ensures fun o =>
    o.Valid ∧ o.signature.name ∉ taken := by
  refine ensures_line.bind fun line _ => ensures_signature.bind fun s hs =>
    ensures_ite (fun _ => ensures_refuse _ _) fun htaken => ?_
  have hfree : s.name ∉ taken := by simpa using htaken
  refine ensures_ite (fun hdeclaration => ?_) fun hdeclaration => ?_
  · exact ensures_pure ⟨⟨hs, hdeclaration.symm, fun _ h => by cases h⟩, hfree⟩
  · refine ensures_get.bind fun start hstart => (ensures_skipBody line).bind fun _ _ =>
      ensures_pure ⟨⟨hs, ?_, fun cursor h => ?_⟩, hfree⟩
    · exact (Bool.eq_false_iff.mpr hdeclaration).symm
    · exact Option.some.inj h ▸ hstart

/-- The names of outlines differ from each other, and from those that are taken. -/
theorem ensures_outlinesWithin : ∀ (n : Nat) (taken : List String),
    (outlinesWithin n taken).Ensures fun os => (∀ o ∈ os, o.Valid) ∧
      (os.map (·.signature.name)).Nodup ∧ ∀ o ∈ os, o.signature.name ∉ taken
  | 0, _ => ensures_pure ⟨by simp, .nil, by simp⟩
  | n + 1, taken => by
    refine ensures_peek.bind fun next _ =>
      ensures_ite (fun _ => ensures_pure ⟨by simp, .nil, by simp⟩) fun _ => ?_
    refine (ensures_outline taken).bind fun first hfirst =>
      (ensures_outlinesWithin n (first.signature.name :: taken)).bind fun others hothers =>
        ensures_pure ⟨?_, List.nodup_cons.mpr ⟨fun hmem => ?_, hothers.2.1⟩, ?_⟩
    · exact List.forall_mem_cons.mpr ⟨hfirst.1, hothers.1⟩
    · obtain ⟨o, ho, heq⟩ := List.mem_map.mp hmem
      exact hothers.2.2 o ho (by simp [heq])
    · refine List.forall_mem_cons.mpr ⟨hfirst.2, fun o ho hmem => ?_⟩
      exact hothers.2.2 o ho (List.mem_cons_of_mem _ hmem)

end Reader

/-! ## Declaring the functions -/

/-- The parameter is written so: its type is written out, and the function that its mark refers to
is named. -/
structure WrittenParam.Writes (names : List String) (types : TypeTable) (w : WrittenParam)
    (p : Param) : Prop where
  name : w.name = p.name
  type : types.written? p.type = some w.type
  mark : w.direct.map (fun d => (some d.accessor, d.set, d.binding, d.depth))
    = p.direct.map fun d => (names[d.accessor]?, d.set, d.binding, d.depth)

/-- The signature of the function is written so. -/
structure Signature.Writes (names : List String) (types : TypeTable) (s : Signature)
    (f : Function) : Prop where
  isDeclaration : s.isDeclaration = f.isDeclaration
  convention : s.convention = f.convention
  name : s.name = f.name
  params : List.Forall₂ (WrittenParam.Writes names types) s.params f.params
  result : s.result.map some = f.result.map types.written?
  isPure : s.isPure = f.isPure

/-- The function is declared by the signature. A definition has an empty body. -/
structure Signature.Declares (names : List String) (types : TypeTable) (s : Signature)
    (f : Function) : Prop extends Writes names types s f where
  expressions : f.expressions = #[]
  names_eq : f.names = []
  body : ∀ b, f.body = some b → b = .nil

section Declare

variable {names : List String} {types types' : TypeTable}

theorem WrittenParam.Writes.mono {w : WrittenParam} {p : Param} (h : w.Writes names types p)
    (hkept : types.Extends types') : w.Writes names types' p :=
  { h with type := hkept.written? h.type }

theorem Signature.Writes.mono {s : Signature} {f : Function} (h : s.Writes names types f)
    (hkept : types.Extends types') : s.Writes names types' f := by
  refine { h with params := h.params.imp fun _ _ hp => hp.mono hkept, result := ?_ }
  have hresult := h.result
  cases hr : s.result with
  | none =>
    rw [hr] at hresult
    rw [Option.map_eq_none_iff.mp hresult.symm]
    rfl
  | some w =>
    rw [hr] at hresult
    obtain ⟨type, htype, hw⟩ := Option.map_eq_some_iff.mp hresult.symm
    rw [htype, Option.map_some, Option.map_some, hkept.written? hw]

theorem Signature.Declares.mono {s : Signature} {f : Function} (h : s.Declares names types f)
    (hkept : types.Extends types') : s.Declares names types' f :=
  { h with toWrites := h.toWrites.mono hkept }

theorem Signature.Writes.typed {s : Signature} {f : Function} (h : s.Writes names types f) :
    f.Typed types.size := by
  refine ⟨fun p hp => ?_, fun type htype => ?_⟩
  · obtain ⟨w, -, hw⟩ := exists_mem_of_forall₂ h.params hp
    exact TypeTable.lt_size_of_written? hw.type
  · have hresult := h.result
    rw [htype, Option.map_some] at hresult
    obtain ⟨w, -, hw⟩ := Option.map_eq_some_iff.mp hresult
    exact TypeTable.lt_size_of_written? hw.symm

theorem WrittenMark.resolve_ok {w : WrittenMark} {d : FixedResource}
    (h : w.resolve names = .ok d) : some w.accessor = names[d.accessor]? ∧ w.set = d.set ∧
      w.binding = d.binding ∧ w.depth = d.depth := by
  unfold WrittenMark.resolve at h
  split at h
  · rename_i accessor haccessor
    cases h
    refine ⟨?_, rfl, rfl, rfl⟩
    rw [List.idxOf?, List.findIdx?_eq_some_iff_getElem] at haccessor
    obtain ⟨hlt, heq, -⟩ := haccessor
    rw [List.getElem?_eq_getElem hlt, eq_of_beq heq]
  · cases h

theorem declareParams_ok : ∀ {ws : List WrittenParam} {types types' : TypeTable} {ps : List Param},
    declareParams names ws types = .ok (ps, types') → types.ComponentsEarlier →
    types'.ComponentsEarlier ∧ types.Extends types' ∧
      List.Forall₂ (WrittenParam.Writes names types') ws ps
  | [], types, _, _, h, htypes => by
    cases h
    exact ⟨htypes, .refl types, .nil⟩
  | w :: ws, types, types', ps, h, htypes => by
    unfold declareParams at h
    obtain ⟨direct, hdirect, h⟩ := exists_of_bind_ok h
    obtain ⟨⟨others, types₂⟩, hothers, h⟩ := exists_of_bind_ok h
    cases h
    have hentered := htypes.intern w.type
    have hwritten := htypes.written?_intern w.type
    obtain ⟨hearlier, hkept, hall⟩ := declareParams_ok hothers hentered.earlier
    refine ⟨hearlier, hentered.kept.trans hkept, .cons ⟨rfl, hkept.written? hwritten, ?_⟩ hall⟩
    cases hmark : w.direct with
    | none =>
      rw [hmark] at hdirect
      cases hdirect
      rfl
    | some mark =>
      rw [hmark] at hdirect
      obtain ⟨d, hd, rfl⟩ := exists_of_map_ok hdirect
      obtain ⟨haccessor, hset, hbinding, hdepth⟩ := WrittenMark.resolve_ok hd
      simp only [Option.map_some, haccessor, hset, hbinding, hdepth]

theorem Signature.declare_ok {s : Signature} {f : Function}
    (h : s.declare names types = .ok (f, types')) (htypes : types.ComponentsEarlier) :
    types'.ComponentsEarlier ∧ types.Extends types' ∧ s.Declares names types' f := by
  unfold Signature.declare at h
  obtain ⟨⟨params, types₁⟩, hparams, h⟩ := exists_of_bind_ok h
  obtain ⟨hearlier, hkept, hall⟩ := declareParams_ok hparams htypes
  have hdeclaration : s.isDeclaration
      = (if s.isDeclaration then none else some Block.nil : Option Block).isNone := by
    cases s.isDeclaration <;> rfl
  have hbody : ∀ b, (if s.isDeclaration then none else some Block.nil) = some b → b = .nil := by
    intro b hb
    cases hs : s.isDeclaration <;> simp [hs] at hb
    exact hb.symm
  cases hresult : s.result with
  | none =>
    simp only [hresult] at h
    cases h
    exact ⟨hearlier, hkept, ⟨hdeclaration, rfl, rfl, hall, by rw [hresult]; rfl, rfl⟩, rfl, rfl,
      hbody⟩
  | some written =>
    simp only [hresult] at h
    cases h
    have hentered := hearlier.intern written
    have hwritten := hearlier.written?_intern written
    refine ⟨hentered.earlier, hkept.trans hentered.kept, ⟨hdeclaration, rfl, rfl,
      hall.imp fun _ _ hp => hp.mono hentered.kept, ?_, rfl⟩, rfl, rfl, hbody⟩
    rw [hresult, Option.map_some, Option.map_some, hwritten]

theorem declareAll_ok : ∀ {os : List Outline} {types types' : TypeTable} {fs : List Function},
    declareAll names os types = .ok (fs, types') → types.ComponentsEarlier →
    types'.ComponentsEarlier ∧ types.Extends types' ∧
      List.Forall₂ (fun o f => Signature.Declares names types' o.signature f) os fs
  | [], types, _, _, h, htypes => by
    cases h
    exact ⟨htypes, .refl types, .nil⟩
  | o :: os, types, types', fs, h, htypes => by
    unfold declareAll at h
    obtain ⟨⟨f, types₁⟩, hf, h⟩ := exists_of_bind_ok h
    obtain ⟨⟨others, types₂⟩, hothers, h⟩ := exists_of_bind_ok h
    cases h
    obtain ⟨hearlier, hkept, hdeclares⟩ := Signature.declare_ok hf htypes
    obtain ⟨hearlier', hkept', hall⟩ := declareAll_ok hothers hearlier
    exact ⟨hearlier', hkept.trans hkept', .cons (hdeclares.mono hkept') hall⟩

/-! ### The table of types -/

section Table

/-- What holds of a table, and still does when a type of the signature has been entered. -/
structure Signature.Enters (P : TypeTable → Prop) (s : Signature) : Prop where
  params : ∀ w ∈ s.params, ∀ types, P types → P (types.intern w.type).2
  result : ∀ w, s.result = some w → ∀ types, P types → P (types.intern w).2

variable {P : TypeTable → Prop}

theorem declareParams_types : ∀ {ws : List WrittenParam} {types types' : TypeTable}
    {ps : List Param}, declareParams names ws types = .ok (ps, types') →
    (∀ w ∈ ws, ∀ types, P types → P (types.intern w.type).2) → P types → P types'
  | [], types, _, _, h, _, htypes => by
    cases h
    exact htypes
  | w :: ws, types, types', ps, h, hws, htypes => by
    unfold declareParams at h
    obtain ⟨direct, -, h⟩ := exists_of_bind_ok h
    obtain ⟨⟨others, types₂⟩, hothers, h⟩ := exists_of_bind_ok h
    cases h
    exact declareParams_types hothers (fun other hother => hws other (List.mem_cons_of_mem _ hother))
      (hws w List.mem_cons_self _ htypes)

theorem Signature.Enters.declare {s : Signature} {f : Function} (hs : s.Enters P)
    (h : s.declare names types = .ok (f, types')) (htypes : P types) : P types' := by
  unfold Signature.declare at h
  obtain ⟨⟨params, types₁⟩, hparams, h⟩ := exists_of_bind_ok h
  have hentered := declareParams_types hparams hs.params htypes
  cases hresult : s.result with
  | none =>
    simp only [hresult] at h
    cases h
    exact hentered
  | some written =>
    simp only [hresult] at h
    cases h
    exact hs.result written hresult _ hentered

theorem declareAll_types : ∀ {os : List Outline} {types types' : TypeTable} {fs : List Function},
    declareAll names os types = .ok (fs, types') → (∀ o ∈ os, o.signature.Enters P) → P types →
    P types'
  | [], types, _, _, h, _, htypes => by
    cases h
    exact htypes
  | o :: os, types, types', fs, h, hos, htypes => by
    unfold declareAll at h
    obtain ⟨⟨f, types₁⟩, hf, h⟩ := exists_of_bind_ok h
    obtain ⟨⟨others, types₂⟩, hothers, h⟩ := exists_of_bind_ok h
    cases h
    exact declareAll_types hothers (fun other hother => hos other (List.mem_cons_of_mem _ hother))
      ((hos o List.mem_cons_self).declare hf htypes)

end Table

end Declare

/-! ## The second turn -/

/-- The function has been read: its signature is written so, and it has the body that was read for
it, or none. -/
structure Function.IsRead (names : List String) (types : TypeTable) (s : Signature)
    (f : Function) : Prop where
  readable : s.Readable
  writes : s.Writes names types f
  body : (f.body = none ∧ f.expressions = #[] ∧ f.names = []) ∨
    ∃ b d, f.Drafted names b d

/-- A function that was read can be written out again. -/
theorem Function.IsRead.legible {names : List String} {types : TypeTable} {s : Signature}
    {f : Function} (h : f.IsRead names types s) : f.Legible := by
  rcases h.body with ⟨hbody, hstore, -⟩ | ⟨b, d, hdrafted⟩
  · exact Function.legible_of_isDeclaration hbody hstore
  · exact hdrafted.legible

section Bodies

variable {names : List String} {types : TypeTable}

theorem Function.readBody_ok {f g : Function} {start : Cursor} (hstart : start.Named)
    (h : f.readBody names start = .ok g) : ∃ b d, g.Drafted names b d ∧
      g = { f with expressions := d.expressions, names := d.values.map Prod.swap, body := some b } ∧
      BodyDraft.Cites start.rest .empty d := by
  unfold Function.readBody at h
  obtain ⟨⟨⟨body, draft⟩, cursor⟩, hrun, h⟩ := exists_of_bind_ok h
  cases h
  obtain ⟨⟨-, hcites⟩, hread⟩ := BodyReader.ensures_body ⟨names, f.params⟩ _ _ _ _ hstart hrun
  exact ⟨body, draft, ⟨hread, rfl, rfl, rfl⟩, rfl, hcites⟩

theorem Outline.Valid.isRead {o : Outline} {f g : Function} (ho : o.Valid)
    (hf : o.signature.Declares names types f)
    (h : (match o.body with
      | some start => f.readBody names start
      | none => pure f) = .ok g) : g.IsRead names types o.signature := by
  have hdeclaration := ho.body.trans hf.isDeclaration
  cases hbody : o.body with
  | none =>
    rw [hbody] at h hdeclaration
    cases h
    have hnone : f.body = none := Option.isNone_iff_eq_none.mp hdeclaration.symm
    exact ⟨ho.readable, hf.toWrites, .inl ⟨hnone, hf.expressions, hf.names_eq⟩⟩
  | some start =>
    rw [hbody] at h hdeclaration
    obtain ⟨b, d, hdrafted, rfl, -⟩ := Function.readBody_ok (ho.named start hbody) h
    refine ⟨ho.readable, ?_, .inr ⟨b, d, hdrafted⟩⟩
    exact { hf.toWrites with isDeclaration := hf.isDeclaration.trans hdeclaration.symm }

/-- Functions get their bodies one by one. -/
theorem exists_of_readBodies {o : Outline} {os : List Outline} {f : Function} {fs gs : List Function}
    (h : readBodies names (o :: os) (f :: fs) = .ok gs) :
    ∃ g others, (match o.body with
        | some start => f.readBody names start
        | none => pure f) = .ok g ∧ readBodies names os fs = .ok others ∧ gs = g :: others := by
  unfold readBodies at h
  cases hbody : o.body
  all_goals
    rw [hbody] at h
    obtain ⟨g, hg, h⟩ := exists_of_bind_ok h
    obtain ⟨others, hothers, h⟩ := exists_of_bind_ok h
    cases h
    exact ⟨g, others, hg, hothers, rfl⟩

theorem readBodies_ok : ∀ {os : List Outline} {fs gs : List Function},
    readBodies names os fs = .ok gs → (∀ o ∈ os, o.Valid) →
    List.Forall₂ (fun o f => Signature.Declares names types o.signature f) os fs →
    List.Forall₂ (fun o g => Function.IsRead names types o.signature g) os gs
  | _, _, gs, h, _, .nil => by
    cases h
    exact .nil
  | o :: os, f :: fs, gs, h, hvalid, .cons hf hfs => by
    obtain ⟨g, others, hg, hothers, rfl⟩ := exists_of_readBodies h
    exact .cons ((hvalid o List.mem_cons_self).isRead hf hg)
      (readBodies_ok hothers (fun o ho => hvalid o (List.mem_cons_of_mem _ ho)) hfs)

end Bodies

/-- The module has been read from text with these signatures. -/
structure Module.IsRead (signatures : List Signature) (m : Module) : Prop where
  distinct : (signatures.map Signature.name).Nodup
  earlier : m.types.ComponentsEarlier
  functions : List.Forall₂ (Function.IsRead (signatures.map Signature.name) m.types) signatures
    m.functions.toList

namespace Module

variable {source : String} {m : Module}

/-- **A module that was read has the functions that the text has signatures and bodies for.** -/
theorem isRead_of_read (h : Module.read source = .ok m) :
    ∃ signatures, m.IsRead signatures := by
  unfold Module.read Module.ofTokens at h
  obtain ⟨tokens, htokens, h⟩ := exists_of_bind_ok h
  obtain ⟨⟨outlines, cursor⟩, houtlines, h⟩ := exists_of_bind_ok h
  obtain ⟨⟨declared, types⟩, hdeclared, h⟩ := exists_of_bind_ok h
  obtain ⟨functions, hfunctions, h⟩ := exists_of_bind_ok h
  cases h
  have hcontract : Reader.outlines.Ensures _ :=
    Reader.ensures_bound.bind fun n _ => Reader.ensures_outlinesWithin n []
  obtain ⟨-, hvalid, hnodup, -⟩ := hcontract _ _ _ (Cursor.named_start htokens) houtlines
  obtain ⟨hearlier, -, hdeclares⟩ := declareAll_ok hdeclared TypeTable.componentsEarlier_empty
  have hread := readBodies_ok hfunctions hvalid hdeclares
  refine ⟨outlines.map Outline.signature, ?_, hearlier, ?_⟩
  · rw [List.map_map]
    exact hnodup
  · rw [List.map_map]
    exact List.forall₂_map_left_iff.mpr hread

namespace IsRead

variable {signatures : List Signature}

theorem names_eq (h : m.IsRead signatures) : m.names = signatures.map Signature.name :=
  map_eq_map_of_forall₂ (h.functions.flip.imp fun _ _ hf => hf.writes.name.symm)

theorem function (h : m.IsRead signatures) {f : Function} (hf : f ∈ m.functions) :
    ∃ s ∈ signatures, f.IsRead m.names m.types s := by
  rw [h.names_eq]
  exact exists_mem_of_forall₂ h.functions (Array.mem_def.mp hf)

/-- **A module that was read is well-formed.** -/
theorem wellFormed (h : m.IsRead signatures) : m.WellFormed where
  names := by
    rw [NamesDistinct, h.names_eq]
    exact h.distinct
  earlier := h.earlier
  functions := by
    intro f hf
    obtain ⟨s, -, hread⟩ := h.function hf
    rw [← length_names]
    rcases hread.body with ⟨hbody, hstore, -⟩ | ⟨b, d, hdrafted⟩
    · exact Function.wellFormed_of_isDeclaration hbody hstore hread.writes.typed
    · exact hdrafted.wellFormed hread.writes.typed

end IsRead

theorem wellFormed_of_read (h : Module.read source = .ok m) : m.WellFormed := by
  obtain ⟨signatures, hread⟩ := isRead_of_read h
  exact hread.wellFormed

/-- What holds of the table without types, and is kept by entering a type of a signature, holds of
the table of a module that was read. -/
theorem types_of_read {P : TypeTable → Prop} (h : Module.read source = .ok m) (hempty : P .empty)
    (hsignature : ∀ s : Signature, s.Readable → s.Enters P) : P m.types := by
  unfold Module.read Module.ofTokens at h
  obtain ⟨tokens, htokens, h⟩ := exists_of_bind_ok h
  obtain ⟨⟨outlines, cursor⟩, houtlines, h⟩ := exists_of_bind_ok h
  obtain ⟨⟨declared, types⟩, hdeclared, h⟩ := exists_of_bind_ok h
  obtain ⟨functions, -, h⟩ := exists_of_bind_ok h
  cases h
  have hcontract : Reader.outlines.Ensures _ :=
    Reader.ensures_bound.bind fun n _ => Reader.ensures_outlinesWithin n []
  obtain ⟨-, hvalid, -⟩ := hcontract _ _ _ (Cursor.named_start htokens) houtlines
  exact declareAll_types hdeclared (fun o ho => hsignature _ (hvalid o ho).readable) hempty

/-- **No two types of a module that was read are written alike.** -/
theorem canonical_of_read (h : Module.read source = .ok m) : m.types.Canonical :=
  types_of_read h TypeTable.canonical_empty fun _ _ =>
    ⟨fun w _ _ htypes => htypes.intern w.type, fun w _ _ htypes => htypes.intern w⟩

/-- **The types of a module that was read can be written.** -/
theorem readableTypes_of_read (h : Module.read source = .ok m) : m.types.Readable :=
  types_of_read h TypeTable.readable_empty fun _ hs =>
    ⟨fun w hw _ htypes => htypes.intern (hs.params w hw).type,
      fun w hw _ htypes => htypes.intern (hs.result w hw)⟩

/-- A module that was read has distinct names and is linked. -/
theorem read_ok (h : Module.read source = .ok m) : m.NamesDistinct ∧ m.Linked :=
  have hm := wellFormed_of_read h
  ⟨hm.names, hm.linked⟩

end Module

end ResourceBinding
