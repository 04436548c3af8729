import ResourceBinding.Proofs.Reading.Program

/-!
# Numbers that were read stand in the text

Each number in single precision that a module has been read with is a token of the text
(`Module.exists_token_of_read`).
-/

namespace ResourceBinding

namespace Reader

variable {taken : List String} {cursor cursor' : Cursor}

/-- The body of an outline stands in the text. -/
theorem subset_of_outline {o : Outline} (hcursor : cursor.Named)
    (h : (outline taken).run cursor = .ok (o, cursor')) :
    ∀ start, o.body = some start → start.rest ⊆ cursor.rest := by
  intro start hstart
  obtain ⟨line, cursor₁, hline, h⟩ := exists_of_run_bind h
  obtain ⟨s, cursor₂, hsignature, h⟩ := exists_of_run_bind h
  have hsubset₁ := (ensures_line cursor line cursor₁ hcursor hline).1
  have hsubset₂ := (ensures_signature cursor₁ s cursor₂ (hcursor.of_subset hsubset₁) hsignature).1
  split at h
  · cases h
  · split at h
    · cases h
      cases hstart
    · obtain ⟨found, cursor₃, hget, h⟩ := exists_of_run_bind h
      cases hget
      obtain ⟨_, _, _, h⟩ := exists_of_run_bind h
      cases h
      cases hstart
      exact List.Subset.trans hsubset₂ hsubset₁

theorem subset_of_outlinesWithin : ∀ {n : Nat} {taken : List String} {cursor cursor' : Cursor}
    {os : List Outline}, cursor.Named →
    (outlinesWithin n taken).run cursor = .ok (os, cursor') →
    ∀ o ∈ os, ∀ start, o.body = some start → start.rest ⊆ cursor.rest
  | 0, _, _, _, _, _, h, _, ho => by
    cases h
    cases ho
  | n + 1, taken, cursor, cursor', os, hcursor, h, o, ho => by
    obtain ⟨next, cursor₁, hpeek, h⟩ := exists_of_run_bind h
    cases hpeek
    split at h
    · cases h
      cases ho
    · obtain ⟨first, cursor₁, hfirst, h⟩ := exists_of_run_bind h
      obtain ⟨others, cursor₂, hothers, h⟩ := exists_of_run_bind h
      cases h
      rcases List.mem_cons.mp ho with rfl | ho
      · exact subset_of_outline hcursor hfirst
      · have hsubset := (ensures_outline taken cursor first cursor₁ hcursor hfirst).1
        intro start hstart
        exact List.Subset.trans
          (subset_of_outlinesWithin (hcursor.of_subset hsubset) hothers o ho start hstart) hsubset

end Reader

/-- The numbers of functions whose bodies were read stand among the tokens of the bodies. -/
theorem exists_token_of_readBodies {names : List String} {tokens : List Located} :
    ∀ {os : List Outline} {fs gs : List Function}, readBodies names os fs = .ok gs →
    (∀ f ∈ fs, f.expressions = #[]) →
    (∀ o ∈ os, ∀ start, o.body = some start → start.Named ∧ start.rest ⊆ tokens) →
    ∀ g ∈ gs, ∀ id x, g.expr? id = some (.literal (.f32 x)) → ∃ t ∈ tokens, t.token = .float x
  | [], _, gs, h, _, _, g, hg => by
    cases h
    cases hg
  | _ :: _, [], gs, h, _, _, g, hg => by
    cases h
    cases hg
  | o :: os, f :: fs, gs, h, hfs, hos, g, hg => by
    obtain ⟨first, others, hfirst, hothers, rfl⟩ := exists_of_readBodies h
    rcases List.mem_cons.mp hg with rfl | hg
    · intro id x hx
      cases hbody : o.body with
      | none =>
        rw [hbody] at hfirst
        cases hfirst
        rw [Function.expr?, hfs _ List.mem_cons_self] at hx
        cases hx
      | some start =>
        rw [hbody] at hfirst
        obtain ⟨hnamed, hsubset⟩ := hos o List.mem_cons_self start hbody
        obtain ⟨b, d, hdrafted, -, hcites⟩ := Function.readBody_ok hnamed hfirst
        rw [hdrafted.expr?_eq] at hx
        rcases hcites id x hx with hempty | ⟨t, ht, htoken⟩
        · cases hempty
        · exact ⟨t, hsubset ht, htoken⟩
    · exact exists_token_of_readBodies hothers
        (fun f hf => hfs f (List.mem_cons_of_mem _ hf))
        (fun o ho => hos o (List.mem_cons_of_mem _ ho)) g hg

/-- **Each number in single precision that a module was read with stands in the text.** -/
theorem Module.exists_token_of_read {source : String} {m : Module}
    (h : Module.read source = .ok m) : ∃ tokens, readTokens source = .ok tokens ∧
      ∀ f ∈ m.functions, ∀ id x, f.expr? id = some (.literal (.f32 x)) →
        ∃ t ∈ tokens, t.token = .float x := by
  unfold Module.read Module.ofTokens at h
  obtain ⟨tokens, htokens, h⟩ := exists_of_bind_ok h
  obtain ⟨⟨outlines, cursor⟩, houtlines, h⟩ := exists_of_bind_ok h
  obtain ⟨⟨declared, types⟩, hdeclared, h⟩ := exists_of_bind_ok h
  obtain ⟨functions, hfunctions, h⟩ := exists_of_bind_ok h
  cases h
  have hstart := Cursor.named_start htokens
  have hcontract : Reader.outlines.Ensures _ :=
    Reader.ensures_bound.bind fun n _ => Reader.ensures_outlinesWithin n []
  obtain ⟨-, hvalid, -⟩ := hcontract _ _ _ hstart houtlines
  obtain ⟨n, cursor₁, hbound, hwithin⟩ := exists_of_run_bind houtlines
  cases hbound
  obtain ⟨-, -, hdeclares⟩ := declareAll_ok hdeclared TypeTable.componentsEarlier_empty
  refine ⟨tokens, htokens, fun f hf => ?_⟩
  refine exists_token_of_readBodies hfunctions (fun f hf => ?_) (fun o ho start hbody => ?_) f
    (List.mem_toArray.mp hf)
  · obtain ⟨o, -, ho⟩ := exists_mem_of_forall₂ hdeclares hf
    exact ho.expressions
  · exact ⟨(hvalid o ho).named start hbody,
      Reader.subset_of_outlinesWithin hstart hwithin o ho start hbody⟩

end ResourceBinding
