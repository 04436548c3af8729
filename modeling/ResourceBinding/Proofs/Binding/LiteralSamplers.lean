import ResourceBinding.Binding.LiteralSamplers
import ResourceBinding.Proofs.Binding.Kernels
import ResourceBinding.Proofs.Program.Edits

/-!
# What binding the literal samplers comes to

The rows of a sampler map number their samplers from zero on in one set. Rewriting replaces the
calls that make samplers by calls of the accessor, with the operands of a row, and keeps everything
linked.
-/

namespace ResourceBinding

/-- The operands that the accessor of literal samplers is called with. -/
def SamplerRow.operands (row : SamplerRow) : List Literal :=
  [.u32 row.set, .u32 row.binding, .u32 row.mapIndex]

/-! ## The rows -/

/-- The rows number their samplers from zero on in one set. -/
def SamplerRow.InSet (set : Nat) (rows : List SamplerRow) : Prop :=
  rows.map (fun row => (row.set, row.binding)) = (List.range rows.length).map fun i => (set, i)

theorem inSet_addSamplerRow {set : Nat} {rows : List SamplerRow} (h : SamplerRow.InSet set rows)
    (sampler : Sampler) (index : Nat) :
    SamplerRow.InSet set (addSamplerRow set rows sampler index) := by
  unfold addSamplerRow
  split
  · exact h
  · rw [SamplerRow.InSet] at h ⊢
    simp only [List.map_append, h, List.length_append, List.length_singleton, List.range_succ,
      List.map_cons, List.map_nil]

theorem addSamplerRow_ne_nil (set : Nat) (rows : List SamplerRow) (sampler : Sampler)
    (index : Nat) : addSamplerRow set rows sampler index ≠ [] := by
  unfold addSamplerRow
  split
  · rename_i h
    rintro rfl
    cases h
  · simp

theorem foldl_addSamplerRow (set : Nat) (samplers : List (Sampler × Nat)) :
    ∀ rows : List SamplerRow, SamplerRow.InSet set rows →
      let all := samplers.foldl (fun rows (s, i) => addSamplerRow set rows s i) rows
      SamplerRow.InSet set all ∧ (all = [] ↔ rows = [] ∧ samplers = []) := by
  induction samplers with
  | nil => exact fun _ h => ⟨h, by simp⟩
  | cons sampler samplers ih =>
    intro rows h
    obtain ⟨hset, hnil⟩ := ih _ (inSet_addSamplerRow h sampler.1 sampler.2)
    refine ⟨hset, ?_⟩
    rw [List.foldl_cons, hnil]
    simp [addSamplerRow_ne_nil]

/-- **The rows of a sampler map number their samplers from zero on.** There are some, unless the
map is empty. -/
theorem inSet_samplerRows (set : Nat) (samplers : SamplerMap) :
    SamplerRow.InSet set (samplerRows set samplers) ∧
      (samplerRows set samplers = [] ↔ samplers = []) := by
  obtain ⟨hset, hnil⟩ := foldl_addSamplerRow set samplers.zipIdx [] rfl
  refine ⟨hset, hnil.trans ?_⟩
  simp

theorem SamplerRow.InSet.set_eq {set : Nat} {rows : List SamplerRow} (h : InSet set rows)
    {row : SamplerRow} (hrow : row ∈ rows) : row.set = set := by
  have hmem : (row.set, row.binding) ∈ (List.range rows.length).map fun i => (set, i) :=
    h ▸ List.mem_map_of_mem hrow
  obtain ⟨i, -, heq⟩ := List.mem_map.mp hmem
  exact (congrArg Prod.fst heq).symm

/-! ## The calls -/

namespace SamplerBinding

/-- What a call becomes in the function `g`: it stays as it is, or it makes a sampler and becomes
the call of the accessor with the operands of a row. -/
inductive Rewrites (b : SamplerBinding) (g : Function) : Call → Call → Prop
  | other {c : Call} : c.callee ≠ b.initializer → Rewrites b g c c
  | maker {c : Call} {row : SamplerRow} {operands : List ExprId} : c.callee = b.initializer →
      row ∈ b.rows → operands.map g.literal? = row.operands.map some →
      Rewrites b g c { c with callee := b.accessor, arguments := operands }

variable {b : SamplerBinding} {f g h : Function}

theorem Rewrites.mono {c c' : Call} (hgh : ∀ id l, g.literal? id = some l → h.literal? id = some l)
    (hc : b.Rewrites g c c') : b.Rewrites h c c' := by
  cases hc with
  | other hne => exact .other hne
  | maker hcallee hrow hoperands =>
    exact .maker hcallee hrow
      (Function.map_literal?_mono hgh hoperands)

theorem mem_rows_of_row? {c : Call} {row : SamplerRow} (h : b.row? f c = .ok row) :
    row ∈ b.rows := by
  unfold row? at h
  split at h
  · cases h
  · split at h
    · cases h
    · rename_i found hfound
      cases h
      exact List.mem_of_find?_eq_some hfound

theorem rewriteCall_ok {c c' : Call} (hrun : (b.rewriteCall c).run f = .ok (c', g)) :
    f.AddsLiterals g ∧ b.Rewrites g c c' := by
  change b.rewriteCall c f = _ at hrun
  unfold rewriteCall at hrun
  split at hrun
  · rename_i hcallee
    split at hrun
    · cases hrun
    · rename_i row hrow
      have hadds := Function.addsLiterals_appendLiterals row.operands f
      obtain ⟨-, hoperands⟩ := Function.appends_appendLiterals 0 row.operands f
      cases hrun
      exact ⟨hadds, .maker hcallee (mem_rows_of_row? hrow) hoperands⟩
  · rename_i hne
    cases hrun
    exact ⟨.refl f, .other hne⟩

/-- Rewriting the calls of a block adds literals to the function, and replaces each call, in place,
by one that is related to it: as `R` has it of a single call, wherever more literals do not matter
to `R`. -/
theorem mapCallsM_replaces {R : Function → Call → Call → Prop}
    (hmono : ∀ {f g : Function} {c c' : Call}, f.AddsLiterals g → R f c c' → R g c c')
    (hcall : ∀ {f g : Function} {c c' : Call}, (b.rewriteCall c).run f = .ok (c', g) → R g c c')
    {body body' : Block} : ∀ {f g : Function}, (body.mapCallsM b.rewriteCall).run f = .ok (body', g) →
      f.AddsLiterals g ∧ body.Replaces (R g) body' := by
  induction body generalizing body' with
  | nil =>
    intro f g hrun
    cases hrun
    exact ⟨.refl f, .nil⟩
  | cons head rest ih =>
    intro f g hrun
    cases head with
    | call c =>
      obtain ⟨c', f₁, hc, hrun⟩ := exists_of_run_bind hrun
      obtain ⟨rest', f₂, hrest, hrun⟩ := exists_of_run_bind hrun
      cases hrun
      obtain ⟨hadds, hothers⟩ := ih hrest
      exact ⟨(rewriteCall_ok hc).1.trans hadds, .call (hmono hadds (hcall hc)) hothers⟩
    | _ =>
      obtain ⟨rest', f₂, hrest, hrun⟩ := exists_of_run_bind hrun
      cases hrun
      obtain ⟨hadds, hothers⟩ := ih hrest
      exact ⟨hadds, .other (by simp) hothers⟩
  | branch condition accept reject rest iha ihr ih =>
    intro f g hrun
    obtain ⟨accept', f₁, haccept, hrun⟩ := exists_of_run_bind hrun
    obtain ⟨reject', f₂, hreject, hrun⟩ := exists_of_run_bind hrun
    obtain ⟨rest', f₃, hrest, hrun⟩ := exists_of_run_bind hrun
    cases hrun
    obtain ⟨hadds₁, ha⟩ := iha haccept
    obtain ⟨hadds₂, hr⟩ := ihr hreject
    obtain ⟨hadds₃, hs⟩ := ih hrest
    exact ⟨(hadds₁.trans hadds₂).trans hadds₃, .branch
      (ha.imp fun _ _ => hmono (hadds₂.trans hadds₃)) (hr.imp fun _ _ => hmono hadds₃) hs⟩
  | loop body rest ihb ih =>
    intro f g hrun
    obtain ⟨body', f₁, hbody, hrun⟩ := exists_of_run_bind hrun
    obtain ⟨rest', f₂, hrest, hrun⟩ := exists_of_run_bind hrun
    cases hrun
    obtain ⟨hadds₁, hb⟩ := ihb hbody
    obtain ⟨hadds₂, hs⟩ := ih hrest
    exact ⟨hadds₁.trans hadds₂, .loop (hb.imp fun _ _ => hmono hadds₂) hs⟩

/-- **Rewriting the calls of a block replaces each of them, in place.** It adds literals to the
function. -/
theorem mapCallsM_ok {body body' : Block} {f g : Function}
    (hrun : (body.mapCallsM b.rewriteCall).run f = .ok (body', g)) :
    f.AddsLiterals g ∧ body.Replaces (b.Rewrites g) body' :=
  mapCallsM_replaces (R := b.Rewrites) (fun hadds hc => hc.mono fun _ _ => hadds.literal?)
    (fun hc => (rewriteCall_ok hc).2) hrun

/-! ## The functions -/

/-- Setting positions in turn sets those that are there. -/
theorem getElem?_foldl_setIfInBounds {e : Expr} (id : Nat) (ids : List ExprId) :
    ∀ es : Array Expr, (ids.foldl (fun es id => es.setIfInBounds id e) es)[id]?
      = if id ∈ ids ∧ id < es.size then some e else es[id]? := by
  induction ids with
  | nil => simp
  | cons first ids ih =>
    intro es
    rw [List.foldl_cons, ih, Array.size_setIfInBounds, Array.getElem?_setIfInBounds]
    grind

theorem size_foldl_setIfInBounds {e : Expr} (ids : List ExprId) :
    ∀ es : Array Expr, (ids.foldl (fun es id => es.setIfInBounds id e) es).size = es.size := by
  induction ids with
  | nil => exact fun _ => rfl
  | cons first ids ih => exact fun es => (ih _).trans Array.size_setIfInBounds

theorem mem_resultsOf {callee : FunctionId} {id : ExprId} :
    id ∈ f.resultsOf callee ↔ ∃ c ∈ f.calls, c.callee = callee ∧ c.result = some id := by
  simp [Function.resultsOf, and_assoc]

/-- How the steps of a rewritten function differ: some of them use literals instead. -/
def KeepsStep (g : Function) (s t : Step) : Prop :=
  t.makes = s.makes ∧ ∀ op ∈ t.uses, op ∈ s.uses ∨ ∃ l, g.literal? op = some l

/-- A function without a body stays as it is. In the others the calls are replaced, and then the
results of what made samplers. -/
theorem rewrite_cases (hrun : b.rewrite f = .ok g) :
    (f.body = none ∧ g = f) ∨ ∃ body body' f₁, f.body = some body ∧
      (body.mapCallsM b.rewriteCall).run f = .ok (body', f₁) ∧ g.body = some body' ∧
      g = { f₁ with expressions := g.expressions, body := g.body } ∧
      g.expressions.size = f₁.expressions.size ∧
      ∀ id : Nat, g.expr? id = if id ∈ f.resultsOf b.initializer ∧ id < f₁.expressions.size
        then some (.result b.accessor) else f₁.expr? id := by
  unfold rewrite at hrun
  split at hrun
  · rename_i hbody
    cases hrun
    exact .inl ⟨hbody, rfl⟩
  · rename_i body hbody
    split at hrun
    · cases hrun
    · rename_i body' f₁ hmap
      cases hrun
      exact .inr ⟨body, body', f₁, hbody, hmap, rfl, rfl, size_foldl_setIfInBounds _ _,
        fun id => getElem?_foldl_setIfInBounds id _ _⟩

/-- What a function becomes: its body is rewritten, which adds literals, and the results of what
made samplers become results of the accessor. -/
theorem rewrite_ok (hrun : b.rewrite f = .ok g) :
    g = { f with expressions := g.expressions, body := g.body } ∧
      g.body.isSome = f.body.isSome ∧
      ∃ f₁, f.AddsLiterals f₁ ∧ List.Forall₂ (b.Rewrites f₁) f.calls g.calls ∧
        List.Forall₂ (KeepsStep f₁) f.steps g.steps ∧ g.expressions.size = f₁.expressions.size ∧
        ∀ id : Nat, g.expr? id = if id ∈ f.resultsOf b.initializer ∧ id < f₁.expressions.size
          then some (.result b.accessor) else f₁.expr? id := by
  have hsame : ∀ {h : Function} (s : Step), KeepsStep h s s := fun s => ⟨rfl, fun op hop => .inl hop⟩
  rcases rewrite_cases hrun with ⟨hbody, rfl⟩ | ⟨body, body', f₁, hbody, hmap, hbody', hframe, hrest⟩
  · have hcalls : g.calls = [] := by simp [Function.calls, hbody]
    refine ⟨rfl, rfl, g, .refl g, by rw [hcalls]; exact .nil,
      List.forall₂_same.mpr fun s _ => hsame s, rfl, fun id => ?_⟩
    rw [if_neg]
    rw [mem_resultsOf, hcalls]
    simp
  · obtain ⟨hadds, hreplaces⟩ := mapCallsM_ok hmap
    refine ⟨?_, by simp [hbody, hbody'], f₁, hadds, ?_, ?_, hrest⟩
    · rw [hframe, hadds.frame]
    · simpa [Function.calls, hbody, hbody'] using hreplaces.calls
    · simp only [Function.steps, hbody, hbody']
      refine hreplaces.steps hsame fun c c' hc => ?_
      cases hc with
      | other => exact hsame _
      | maker _ _ hoperands =>
        exact ⟨rfl, fun op hop => .inr (Function.exists_literal_of_mem hoperands hop)⟩

section Rewrite

variable {size types : Nat}

/-- The results of calls that make samplers are results that say so. -/
theorem expr?_of_mem_resultsOf (hf : f.Linked size) {callee : FunctionId} {id : ExprId}
    (h : id ∈ f.resultsOf callee) : f.expr? id = some (.result callee) := by
  obtain ⟨c, hc, hcallee, hr⟩ := mem_resultsOf.mp h
  rw [← hcallee]
  exact hf.result c hc id hr

/-- Only the results of calls that make samplers are overwritten. -/
theorem expr?_rewrite (hf : f.Linked size) {f₁ : Function} (hadds : f.AddsLiterals f₁)
    (hexpr : ∀ id : Nat, g.expr? id =
      if id ∈ f.resultsOf b.initializer ∧ id < f₁.expressions.size
        then some (.result b.accessor) else f₁.expr? id)
    {id : ExprId} {e : Expr} (hne : e ≠ .result b.initializer) (he : f₁.expr? id = some e) :
    g.expr? id = some e := by
  rw [hexpr, if_neg, he]
  rintro ⟨hid, -⟩
  exact hne (Option.some.inj (he.symm.trans (hadds.expr? (expr?_of_mem_resultsOf hf hid))))

/-- What stands in the rewritten function stood in the old one, or is a literal or a result. -/
theorem expr?_of_rewrite (hf : f.Linked size) {f₁ : Function} (hadds : f.AddsLiterals f₁)
    (hexpr : ∀ id : Nat, g.expr? id =
      if id ∈ f.resultsOf b.initializer ∧ id < f₁.expressions.size
        then some (.result b.accessor) else f₁.expr? id)
    {id : ExprId} {e : Expr} (he : g.expr? id = some e) :
    f.expr? id = some e ∨ (∃ l, e = .literal l) ∨
      (∃ callee, f.expr? id = some (.result callee)) ∧ e = .result b.accessor := by
  rw [hexpr] at he
  split at he
  · rename_i hid
    cases he
    exact .inr (.inr ⟨⟨_, expr?_of_mem_resultsOf hf hid.1⟩, rfl⟩)
  · by_cases hlt : (id : Nat) < f.expressions.size
    · exact .inl ((hadds.old id hlt).symm.trans he)
    · exact .inr (.inl (hadds.literal id e (Nat.not_lt.mp hlt) he))

/-- **Rewriting a linked function keeps it linked.** -/
theorem rewrite_linked (hf : f.Linked size) (haccessor : (b.accessor : Nat) < size)
    (hrun : b.rewrite f = .ok g) : g.Linked size := by
  obtain ⟨-, -, f₁, hadds, hrewrites, -, -, hexpr⟩ := rewrite_ok hrun
  constructor
  · intro c hc
    obtain ⟨old, hold, hrewrite⟩ := exists_mem_of_forall₂ hrewrites hc
    cases hrewrite with
    | other => exact hf.callee_lt c hold
    | maker => exact haccessor
  · intro c hc r hr
    obtain ⟨old, hold, hrewrite⟩ := exists_mem_of_forall₂ hrewrites hc
    cases hrewrite with
    | other hne =>
      refine expr?_rewrite hf hadds hexpr ?_ (hadds.expr? (hf.result c hold r hr))
      simpa using hne
    | maker hcallee _ _ =>
      have hmem : r ∈ f.resultsOf b.initializer := mem_resultsOf.mpr ⟨old, hold, hcallee, hr⟩
      have hlt := Function.lt_size_of_expr? (hadds.expr? (expr?_of_mem_resultsOf hf hmem))
      rw [hexpr, if_pos ⟨hmem, hlt⟩]

/-- **Each call of the accessor in a rewritten function passes the operands of a row**, if there was
none before. -/
theorem rewrite_accounts (hf : f.Linked size) (hnew : ∀ c ∈ f.calls, c.callee ≠ b.accessor)
    (hrun : b.rewrite f = .ok g) :
    g.Accounts (· = b.accessor) fun _ ls => ls ∈ b.rows.map SamplerRow.operands := by
  obtain ⟨-, -, f₁, hadds, hrewrites, -, -, hexpr⟩ := rewrite_ok hrun
  have hliterals : ∀ id l, f₁.literal? id = some l → g.literal? id = some l := by
    intro id l hl
    rw [Function.literal?_eq_some_iff] at hl ⊢
    exact expr?_rewrite hf hadds hexpr (by simp) hl
  intro c hc hcallee
  obtain ⟨old, hold, hrewrite⟩ := exists_mem_of_forall₂ hrewrites hc
  cases hrewrite with
  | other => exact absurd hcallee (hnew c hold)
  | @maker row _ _ hrow hoperands =>
    refine ⟨row.operands, List.mem_map_of_mem hrow, ?_⟩
    exact Function.map_literal?_mono hliterals hoperands

/-- **Rewriting keeps a function well-formed.** -/
theorem rewrite_wellFormed (hf : f.WellFormed size types) (haccessor : (b.accessor : Nat) < size)
    (hrun : b.rewrite f = .ok g) : g.WellFormed size types := by
  have hlinked := rewrite_linked hf.toLinked haccessor hrun
  obtain ⟨hframe, -, f₁, hadds, -, hsteps, hsize, hexpr⟩ := rewrite_ok hrun
  have hback : ∀ id e, g.expr? id = some e → _ := fun id e he =>
    expr?_of_rewrite hf.toLinked hadds hexpr he
  refine hf.reframe hlinked (Nat.le_refl _) (by rw [hframe]) (by rw [hframe])
    (hsize ▸ hadds.size_le) (fun r callee hr => ?_) ?_ ?_ ?_ ?_
  · rcases hback r _ hr with hold | ⟨l, hl⟩ | ⟨-, heq⟩
    · exact hf.result_callee r callee hold
    · cases hl
    · cases heq
      exact haccessor
  · rw [← hadds.resultIds_eq]
    refine resultsIn_congr hsize fun id => ?_
    have hid := hexpr id
    simp only [Function.expr?] at hid
    rw [hid]
    split
    · rename_i hmem
      have hold := hadds.expr? (expr?_of_mem_resultsOf hf.toLinked hmem.1)
      simp only [Function.expr?] at hold
      rw [hold]
      rfl
    · rfl
  · rintro a op ⟨e, he, hop⟩
    rcases hback a e he with hold | ⟨l, rfl⟩ | ⟨-, rfl⟩
    · exact ⟨e, hold, hop⟩
    · cases hop
    · cases hop
  · intro id p hp
    rcases hback id _ hp with hold | ⟨l, hl⟩ | ⟨-, heq⟩
    · exact hold
    · cases hl
    · cases heq
  · refine hsteps.imp fun s t hst => ⟨hst.1, fun op hop => (hst.2 op hop).imp_right ?_⟩
    rintro ⟨l, hl⟩
    rw [Function.literal?_eq_some_iff] at hl
    refine ⟨l, Function.literal?_eq_some_iff.mpr ?_⟩
    exact expr?_rewrite hf.toLinked hadds hexpr (by simp) hl

end Rewrite

end SamplerBinding

/-! ## The module -/

namespace Module

variable {m m' : Module} {rows : List SamplerRow} {changed : Bool}

/-- The module whose functions have been rewritten, before the function that makes samplers is
removed: `m` itself if nothing calls it. -/
def RewrittenTo (m : Module) (rows : List SamplerRow) (initializer : FunctionId) (m₁ : Module) :
    Prop :=
  (m.samplerUser? = none ∧ m₁ = m) ∨
    (m₁.types = m.samplerAccessor.2.types ∧
      List.Forall₂ (SamplerBinding.rewrite ⟨rows, initializer, m.samplerAccessor.1⟩ · = .ok ·)
        m.samplerAccessor.2.functions.toList m₁.functions.toList)

/-- **Binding the samplers rewrites all functions and removes the one that makes samplers**, if
there is one. It tells whether there is. -/
theorem bindSamplers_cases (h : m.bindSamplers rows = .ok (m', changed)) :
    (m.find? ReservedName.samplerMaker = none ∧ m' = m ∧ changed = false) ∨
      ∃ initializer removed m₁, m.find? ReservedName.samplerMaker = some initializer ∧
        m.RewrittenTo rows initializer m₁ ∧ m₁.remove initializer = .ok (removed, m') ∧
        changed = true := by
  unfold bindSamplers at h
  split at h
  · rename_i hnone
    cases h
    exact .inl ⟨hnone, rfl, rfl⟩
  · rename_i initializer hfind
    split at h
    · rename_i huser
      rw [pure_bind] at h
      cases hremove : m.remove initializer with
      | error cause =>
        simp only [hremove] at h
        cases h
      | ok r =>
        simp only [hremove] at h
        cases h
        exact .inr ⟨initializer, r.1, m, hfind, .inl ⟨huser, rfl⟩, hremove, rfl⟩
    · cases hmap : m.samplerAccessor.2.functions.mapM
          (SamplerBinding.rewrite ⟨rows, initializer, m.samplerAccessor.1⟩) with
      | error fault =>
        simp only [hmap] at h
        cases h
      | ok functions =>
        simp only [hmap] at h
        obtain ⟨functions', hfunctions, h⟩ := exists_of_bind_ok h
        obtain rfl := Except.ok.inj hfunctions
        obtain ⟨m₁, hm₁, h⟩ := exists_of_bind_ok h
        obtain rfl := Except.ok.inj hm₁
        cases hremove : Module.remove { m.samplerAccessor.2 with functions } initializer with
        | error cause =>
          simp only [hremove] at h
          cases h
        | ok r =>
          simp only [hremove] at h
          cases h
          exact .inr ⟨initializer, r.1, { m.samplerAccessor.2 with functions }, hfind,
            .inr ⟨rfl, forall₂_of_array_mapM hmap⟩, hremove, rfl⟩

theorem bindSamplers_ok (h : m.bindSamplers rows = .ok (m', changed)) :
    (m.find? ReservedName.samplerMaker = none ∧ m' = m) ∨
      ∃ initializer removed m₁, m.find? ReservedName.samplerMaker = some initializer ∧
        m.RewrittenTo rows initializer m₁ ∧ m₁.remove initializer = .ok (removed, m') := by
  rcases bindSamplers_cases h with ⟨hnone, hsame, -⟩ |
    ⟨initializer, removed, m₁, hfind, hrewritten, hremove, -⟩
  · exact .inl ⟨hnone, hsame⟩
  · exact .inr ⟨initializer, removed, m₁, hfind, hrewritten, hremove⟩

/-- The accessor of literal samplers is there already, or is declared. -/
theorem samplerAccessor_eq (m : Module) :
    (∃ f, m.function? m.samplerAccessor.1 = some f ∧ f.name = ReservedName.samplerAccessor ∧
      m.samplerAccessor.2.functions = m.functions) ∨
    (m.find? ReservedName.samplerAccessor = none ∧ m.samplerAccessor.1 = m.functions.size ∧
      ∃ f : Function, f.name = ReservedName.samplerAccessor ∧ f.body = none ∧
        f.expressions = #[] ∧ m.samplerAccessor.2.functions = m.functions.push f) := by
  let scalar := m.insertShape (.scalar .u32)
  let sampler := scalar.2.insertShape .sampler
  let f : Function := { Function.declaration ReservedName.samplerAccessor
    [scalar.1, scalar.1, scalar.1] (some sampler.1) with isPure := true }
  have heq : m.samplerAccessor = sampler.2.ensure f := rfl
  rw [heq]
  rcases sampler.2.ensure_eq f with ⟨g, hg, hname, hsame⟩ | ⟨hnone, hpush⟩
  · exact .inl ⟨g, hg, hname, by rw [hsame]; rfl⟩
  · rw [hpush]
    exact .inr ⟨hnone, rfl, f, rfl, rfl, rfl, rfl⟩

/-- Declaring the accessor keeps a module linked that had none, and nothing calls it yet. -/
theorem linked_samplerAccessor (hm : m.Linked)
    (hfree : m.find? ReservedName.samplerAccessor = none) :
    m.samplerAccessor.2.Linked ∧
      (m.samplerAccessor.1 : Nat) < m.samplerAccessor.2.functions.size ∧
      m.samplerAccessor.2.nameOf m.samplerAccessor.1 = ReservedName.samplerAccessor ∧
      ∀ f ∈ m.samplerAccessor.2.functions,
        (∀ c ∈ f.calls, c.callee ≠ m.samplerAccessor.1) ∧
          (f ∈ m.functions ∨ f.name = ReservedName.samplerAccessor ∧ f.body = none) := by
  rcases m.samplerAccessor_eq with ⟨f, hf, hname, -⟩ | ⟨-, hid, d, hname, hbody, -, hpush⟩
  · exact absurd hname (find?_eq_none_iff.mp hfree f (mem_functions_iff.mpr ⟨_, hf⟩))
  have hmem : ∀ f ∈ m.samplerAccessor.2.functions, f ∈ m.functions ∨ f = d := by
    intro f hf
    rwa [hpush, Array.mem_push] at hf
  refine ⟨fun f hf => ?_, ?_, ?_, fun f hf => ?_⟩
  · rw [hpush, Array.size_push]
    rcases hmem f hf with hold | rfl
    · exact (hm f hold).mono (Nat.le_succ _)
    · exact Function.linked_of_isDeclaration hbody
  · rw [hid, hpush, Array.size_push]
    exact Nat.lt_succ_self _
  · have hd : m.samplerAccessor.2.function? m.samplerAccessor.1 = some d := by
      rw [function?, hpush, hid]
      exact Array.getElem?_push_size
    rw [nameOf_of_function? hd, hname]
  · rcases hmem f hf with hold | rfl
    · refine ⟨fun c hc => ?_, .inl hold⟩
      rw [hid]
      exact Nat.ne_of_lt ((hm f hold).callee_lt c hc)
    · exact ⟨by simp [Function.calls, hbody], .inr ⟨hname, hbody⟩⟩

theorem NamesDistinct.samplerAccessor (hm : m.NamesDistinct) :
    m.samplerAccessor.2.NamesDistinct := by
  rcases m.samplerAccessor_eq with ⟨-, -, -, hsame⟩ | ⟨hnone, -, f, hname, -, -, hpush⟩
  · rwa [NamesDistinct, names, hsame]
  · exact hm.push (hname ▸ hnone) hpush

/-- **Binding the samplers keeps the names distinct.** -/
theorem NamesDistinct.bindSamplers (hm : m.NamesDistinct)
    (h : m.bindSamplers rows = .ok (m', changed)) : m'.NamesDistinct := by
  rcases bindSamplers_ok h with ⟨-, rfl⟩ | ⟨initializer, removed, m₁, -, hrewritten, hremove⟩
  · exact hm
  · rcases hrewritten with ⟨-, rfl⟩ | ⟨-, hrewrites⟩
    · exact hm.remove hremove
    · refine NamesDistinct.remove ?_ hremove
      rw [NamesDistinct, ← names_eq_of_forall₂ hrewrites fun f g hfg => ?_]
      · exact hm.samplerAccessor
      · rw [(SamplerBinding.rewrite_ok hfg).1]

/-- Rewriting the functions of a linked module keeps it linked, and has all calls of the accessor
pass the operands of a row. -/
theorem RewrittenTo.linked {initializer : FunctionId} {m₁ : Module} (hm : m.NamesDistinct)
    (hlinked : m.Linked) (hfree : m.find? ReservedName.samplerAccessor = none)
    (h : m.RewrittenTo rows initializer m₁) :
    m₁.Linked ∧ m₁.Accounts ReservedName.samplerAccessor (rows.map SamplerRow.operands) ∧
      ∀ g ∈ m₁.functions, (∃ f ∈ m.functions, f.name = g.name) ∨
        g.name = ReservedName.samplerAccessor ∧ g.body = none := by
  rcases h with ⟨-, rfl⟩ | ⟨-, hrewrites⟩
  · exact ⟨hlinked, accounts_of_find? hlinked hfree, fun g hg => .inl ⟨g, hg, rfl⟩⟩
  obtain ⟨haccessor, hlt, hname, hfunctions⟩ := linked_samplerAccessor hlinked hfree
  have hsize : m₁.functions.size = m.samplerAccessor.2.functions.size := by
    simpa using (List.Forall₂.length_eq hrewrites).symm
  have hnames : m.samplerAccessor.2.names = m₁.names :=
    names_eq_of_forall₂ hrewrites fun f g hfg => by rw [(SamplerBinding.rewrite_ok hfg).1]
  -- Names are distinct, so what has the name of the accessor is the accessor.
  have hcallee : ∀ id, m₁.nameOf id = ReservedName.samplerAccessor → id = m.samplerAccessor.1 := by
    intro id hid
    rw [nameOf_eq, ← hnames, ← nameOf_eq] at hid
    obtain ⟨f, hf, hfname⟩ := function?_of_nameOf hid (by decide)
    obtain ⟨g, hg, hgname⟩ := function?_of_nameOf hname (by decide)
    exact hm.samplerAccessor.eq_of_name hf hg (hfname.trans hgname.symm)
  have hrewritten : ∀ g ∈ m₁.functions, ∃ f ∈ m.samplerAccessor.2.functions,
      SamplerBinding.rewrite ⟨rows, initializer, m.samplerAccessor.1⟩ f = .ok g := by
    intro g hg
    obtain ⟨f, hf, hfg⟩ := exists_mem_of_forall₂ hrewrites (Array.mem_def.mp hg)
    exact ⟨f, Array.mem_def.mpr hf, hfg⟩
  refine ⟨fun g hg => ?_, fun g hg c hc hasked => ?_, fun g hg => ?_⟩
  · obtain ⟨f, hf, hfg⟩ := hrewritten g hg
    rw [hsize]
    exact SamplerBinding.rewrite_linked (haccessor f hf) hlt hfg
  · obtain ⟨f, hf, hfg⟩ := hrewritten g hg
    exact SamplerBinding.rewrite_accounts (haccessor f hf) (hfunctions f hf).1 hfg c hc
      (hcallee _ hasked)
  · obtain ⟨f, hf, hfg⟩ := hrewritten g hg
    obtain ⟨hframe, hbody, -⟩ := SamplerBinding.rewrite_ok hfg
    have hgname : g.name = f.name := by rw [hframe]
    rcases (hfunctions f hf).2 with hold | ⟨hfname, hfbody⟩
    · exact .inl ⟨f, hold, hgname.symm⟩
    · refine .inr ⟨hgname.trans hfname, ?_⟩
      rwa [hfbody, Option.isSome_none, Option.isSome_eq_false_iff, Option.isNone_iff_eq_none]
        at hbody

/-- **Once the samplers of a linked module are bound, it is linked still**, and all calls of the
accessor pass the operands of a row. The accessor is all that has been added. -/
theorem bindSamplers_linked (hm : m.NamesDistinct) (hlinked : m.Linked)
    (hfree : m.find? ReservedName.samplerAccessor = none)
    (h : m.bindSamplers rows = .ok (m', changed)) :
    m'.Linked ∧ m'.Accounts ReservedName.samplerAccessor (rows.map SamplerRow.operands) ∧
      ∀ g ∈ m'.functions, (∃ f ∈ m.functions, f.name = g.name) ∨
        g.name = ReservedName.samplerAccessor ∧ g.body = none := by
  rcases bindSamplers_ok h with ⟨-, rfl⟩ | ⟨initializer, removed, m₁, -, hrewritten, hremove⟩
  · exact ⟨hlinked, accounts_of_find? hlinked hfree, fun g hg => .inl ⟨g, hg, rfl⟩⟩
  · obtain ⟨hlinked₁, haccounts, hfunctions⟩ := hrewritten.linked hm hlinked hfree
    refine ⟨hlinked₁.remove hremove, haccounts.remove hremove, fun g hg => ?_⟩
    obtain ⟨old, hold, rfl⟩ := exists_of_mem_remove hremove hg
    rcases hfunctions old hold with hname | ⟨hname, hbody⟩
    · exact .inl hname
    · exact .inr ⟨hname, by rw [Function.mapCallees, hbody]; rfl⟩

end Module

end ResourceBinding
