import ResourceBinding.FixedResource.Resolution
import ResourceBinding.Proofs.Binding.LiteralSamplers
import ResourceBinding.Proofs.Reading.Function

/-!
# Edits keep names apart

A listing makes up a name for each value that has none. A function is well-named if no name in it is
one of those, and if it can be written out with the names that it has (`Function.WellNamed`).

What is added to a function has no name of its own, and nothing of the function is moved into a
place where a value hides it (`Function.KeepsNames`). So a well-named function stays one, whatever is
bound in it (`Function.WellNamed.keepsNames`), and can be written out then
(`Function.WellNamed.legible`).
-/

namespace ResourceBinding

/-! ## Names that are made up -/

/-- The name is one that a listing makes up. -/
def IsMadeUp (name : String) : Prop :=
  ∃ id : Nat, name = s!"_{id}"

theorem toList_madeUp (id : Nat) : (s!"_{id}").toList = '_' :: Nat.toDigits 10 id := by
  change ("_" ++ id.repr).toList = _
  rw [String.toList_append, Nat.toList_repr]
  rfl

theorem isName_madeUp (id : Nat) : IsName s!"_{id}" := by
  rw [IsName, toList_madeUp]
  refine ⟨List.cons_ne_nil _ _, fun c hc => ?_⟩
  rcases List.mem_cons.mp hc with rfl | hc
  · rfl
  · have hdigit := Nat.isDigit_of_mem_toDigits (by decide) (by decide) hc
    simp [isNameChar, Char.isAlphanum, hdigit]

theorem madeUp_injective {id other : Nat} (h : s!"_{id}" = s!"_{other}") : id = other := by
  have hlist := congrArg String.toList h
  rw [toList_madeUp, toList_madeUp] at hlist
  have hdigits : Nat.toDigits 10 id = Nat.toDigits 10 other := (List.cons.inj hlist).2
  calc id = Nat.ofDigitChars 10 (Nat.toDigits 10 id) 0 := Nat.ofDigitChars_ten_toDigits.symm
    _ = Nat.ofDigitChars 10 (Nat.toDigits 10 other) 0 := by rw [hdigits]
    _ = other := Nat.ofDigitChars_ten_toDigits

namespace Function

variable {f g : Function} {ids ids' : List ExprId}

/-! ## Well-named functions -/

/-- The names that were chosen in a function are none that a listing makes up, and its listing can
be read with them. -/
structure WellNamed (f : Function) : Prop where
  name : IsName f.name
  value_lt : ∀ id name, f.exprName? id = some name → (id : Nat) < f.expressions.size
  value_inj : ∀ id id' name, f.exprName? id = some name → f.exprName? id' = some name → id = id'
  value : ∀ id name, f.exprName? id = some name → IsName name ∧ ¬ IsMadeUp name
  param : ∀ name, some name ∈ f.params.map Param.name → IsName name ∧ ¬ IsMadeUp name
  param_named : f.body.isSome → none ∉ f.params.map Param.name
  parameter : ∀ id p, f.expr? id = some (.parameter p) →
    (f.params.map Param.name).findIdx? (· == some (f.paramName p)) = some p
  operands : ∀ id e, f.expr? id = some e → f.Apart e.operands
  uses : ∀ s ∈ f.steps, f.Apart s.uses

/-- No name in the function is one that a listing makes up. -/
structure NamesChosen (f : Function) : Prop where
  value : ∀ id name, f.exprName? id = some name → ¬ IsMadeUp name
  param : ∀ p ∈ f.params, ∀ name, p.name = some name → ¬ IsMadeUp name

/-- An expression is shown by the name that was chosen for it, or by one that is made up. -/
theorem shownName_eq (f : Function) (id : ExprId) :
    f.exprName? id = some (f.shownName id) ∨
      f.exprName? id = none ∧ f.shownName id = s!"_{id}" := by
  unfold shownName
  cases h : f.exprName? id with
  | none => exact .inr ⟨rfl, rfl⟩
  | some name => exact .inl rfl

theorem paramName_eq (f : Function) (p : Nat) :
    f.paramName p = (((f.params.map Param.name)[p]?).join).getD s!"arg{p}" := by
  rw [List.getElem?_map, paramName]
  cases f.params[p]? with
  | none => rfl
  | some param => cases hname : param.name <;> simp [hname]

namespace WellNamed

/-- The name of a parameter that is used was chosen. -/
theorem paramName (hf : f.WellNamed) {id : ExprId} {p : Nat}
    (hp : f.expr? id = some (.parameter p)) : ¬ IsMadeUp (f.paramName p) := by
  obtain ⟨hlt, heq, -⟩ := List.findIdx?_eq_some_iff_getElem.mp (hf.parameter id p hp)
  refine (hf.param _ ?_).2
  rw [← eq_of_beq heq]
  exact List.getElem_mem hlt

/-- **The listing of a well-named function can be read**, where its numbers have 32 bits. -/
theorem legible (hf : f.WellNamed) (hrange : ∀ id l, f.expr? id = some (.literal l) → l.InRange) :
    f.Legible where
  named := by
    intro id e _ _
    rcases f.shownName_eq id with hchosen | ⟨-, hmade⟩
    · exact (hf.value id _ hchosen).1
    · rw [hmade]
      exact isName_madeUp id
  name_inj := by
    intro id id' _ _ _ _ _ _ heq
    rcases f.shownName_eq id with hchosen | ⟨-, hmade⟩ <;>
      rcases f.shownName_eq id' with hchosen' | ⟨-, hmade'⟩
    · exact hf.value_inj id id' _ hchosen (heq ▸ hchosen')
    · exact absurd ⟨id', heq.trans hmade'⟩ (hf.value id _ hchosen).2
    · exact absurd ⟨id, heq.symm.trans hmade⟩ (hf.value id' _ hchosen').2
    · exact madeUp_injective (hmade.symm.trans (heq.trans hmade'))
  parameter := by
    intro id p hp
    have hfound := hf.parameter id p hp
    rwa [List.findIdx?_map] at hfound
  literal := hrange
  operands := hf.operands
  uses := hf.uses

end WellNamed

/-- A declaration is well-named if what names it has are. -/
theorem wellNamed_of_isDeclaration (hbody : f.body = none) (hstore : f.expressions = #[])
    (hnames : f.names = []) (hname : IsName f.name)
    (hparams : ∀ name, some name ∈ f.params.map Param.name → IsName name ∧ ¬ IsMadeUp name) :
    f.WellNamed := by
  constructor
  case name => exact hname
  case param => exact hparams
  all_goals simp [exprName?, expr?, steps, hbody, hstore, hnames]

/-- **A function whose body was read is well-named**, if no name in it is made up. -/
theorem Drafted.wellNamed {names : List String} {b : Block} {d : BodyDraft}
    (h : f.Drafted names b d) (hname : IsName f.name)
    (hparams : ∀ p ∈ f.params, ∃ name, p.name = some name ∧ IsName name ∧ ¬ IsMadeUp name)
    (hvalues : ∀ id name, f.exprName? id = some name → ¬ IsMadeUp name) : f.WellNamed where
  name := hname
  value_lt := by
    intro id name hid
    obtain ⟨-, e, he, -⟩ := h.read.valid.value name id (h.exprName?_eq_some_iff.mp hid)
    exact lt_size_of_expr? (h.expr?_eq id ▸ he)
  value_inj := by
    intro id id' name hid hid'
    have hsame := (lookup_of_mem h.read.valid.names (h.exprName?_eq_some_iff.mp hid)).symm.trans
      (lookup_of_mem h.read.valid.names (h.exprName?_eq_some_iff.mp hid'))
    exact Option.some.inj hsame
  value := fun id name hid =>
    ⟨(h.read.valid.value name id (h.exprName?_eq_some_iff.mp hid)).1, hvalues id name hid⟩
  param := by
    intro name hmem
    obtain ⟨p, hp, heq⟩ := List.mem_map.mp hmem
    obtain ⟨chosen, hchosen, hgood⟩ := hparams p hp
    obtain rfl := Option.some.inj (hchosen.symm.trans heq)
    exact hgood
  param_named := by
    intro _ hmem
    obtain ⟨p, hp, heq⟩ := List.mem_map.mp hmem
    obtain ⟨chosen, hchosen, -⟩ := hparams p hp
    cases hchosen.symm.trans heq
  parameter := by
    intro id p hp
    rw [List.findIdx?_map]
    exact h.legible.parameter id p hp
  operands := h.legible.operands
  uses := h.legible.uses

/-! ## Edits that keep names apart -/

/-- What is used together in `g` was used together in `f`, but for literals and for what has been
added. -/
def Gathers (f g : Function) (ids ids' : List ExprId) : Prop :=
  ∀ op ∈ ids', op ∈ ids ∨ f.expressions.size ≤ op ∨ ∃ l, g.literal? op = some l

/-- `g` has the names of `f`. What was in `f` is built on nothing else that was in `f`, and is not
used together with anything else. -/
structure KeepsNames (f g : Function) : Prop where
  name : g.name = f.name
  names : g.names = f.names
  params : g.params.map Param.name = f.params.map Param.name
  body : g.body.isSome = f.body.isSome
  size_le : f.expressions.size ≤ g.expressions.size
  parameter : ∀ id p, g.expr? id = some (.parameter p) → f.expr? id = some (.parameter p)
  named : ∀ id e, (id : Nat) < f.expressions.size → g.expr? id = some e → e.isNamed →
    ∃ old, f.expr? id = some old ∧ old.isNamed
  uses : ∀ a b, g.Uses a b → (b : Nat) < f.expressions.size → f.Uses a b
  steps : ∀ t ∈ g.steps, ∃ s, (s ∈ f.steps ∨ s.uses = []) ∧ f.Gathers g s.uses t.uses

namespace KeepsNames

theorem shownName_eq (h : f.KeepsNames g) (id : ExprId) : g.shownName id = f.shownName id := by
  rw [shownName, shownName, exprName?, exprName?, h.names]

theorem paramName_eq (h : f.KeepsNames g) (p : Nat) : g.paramName p = f.paramName p := by
  rw [Function.paramName_eq, Function.paramName_eq, h.params]

/-- What leads to something old is old, and has led there before. -/
theorem reaches (h : f.KeepsNames g) {a b : ExprId} (hreaches : g.Reaches a b)
    (hb : (b : Nat) < f.expressions.size) : (a : Nat) < f.expressions.size ∧ f.Reaches a b := by
  induction hreaches using Relation.ReflTransGen.head_induction_on with
  | refl => exact ⟨hb, .refl⟩
  | head huses _ ih =>
    have hold := h.uses _ _ huses ih.1
    obtain ⟨e, he, -⟩ := id hold
    exact ⟨lt_size_of_expr? he, .head hold ih.2⟩

/-- **What could stand side by side still can.** -/
theorem apart (h : f.KeepsNames g) (hf : f.WellNamed) (hids : f.Apart ids)
    (hgathers : f.Gathers g ids ids') : g.Apart ids' := by
  intro op hop p hp other hother v e hreaches he hnamed
  have hold := h.parameter op p hp
  rw [h.shownName_eq, h.paramName_eq]
  by_cases hv : (v : Nat) < f.expressions.size
  · obtain ⟨hlt, hreaches'⟩ := h.reaches hreaches hv
    obtain ⟨old, holdv, hnamed'⟩ := h.named v e hv he hnamed
    have hopmem : op ∈ ids := by
      rcases hgathers op hop with hmem | hle | ⟨l, hl⟩
      · exact hmem
      · exact absurd (lt_size_of_expr? hold) (Nat.not_lt.mpr hle)
      · cases hp.symm.trans (literal?_eq_some_iff.mp hl)
    rcases hgathers other hother with hmem | hle | ⟨l, hl⟩
    · exact hids op hopmem p hold other hmem v old hreaches' holdv hnamed'
    · exact absurd hlt (Nat.not_lt.mpr hle)
    · -- A literal reaches nothing but itself, and has no name.
      rw [literal?_eq_some_iff] at hl
      rcases hreaches.cases_head with rfl | ⟨op', ⟨e', he', hop'⟩, -⟩
      · cases he.symm.trans hl
        cases hnamed
      · cases he'.symm.trans hl
        cases hop'
  · rcases f.shownName_eq v with hchosen | ⟨-, hmade⟩
    · exact absurd (hf.value_lt v _ hchosen) hv
    · exact fun heq => hf.paramName hold ⟨v, heq.symm.trans hmade⟩

end KeepsNames

/-- **An edit that keeps names apart keeps a function well-named.** -/
theorem WellNamed.keepsNames (hf : f.WellNamed) (h : f.KeepsNames g) : g.WellNamed := by
  have hvalue : ∀ id, g.exprName? id = f.exprName? id := fun id => by
    rw [exprName?, exprName?, h.names]
  refine {
    name := h.name ▸ hf.name
    value_lt := fun id name hid =>
      Nat.lt_of_lt_of_le (hf.value_lt id name (hvalue id ▸ hid)) h.size_le
    value_inj := fun id id' name hid hid' =>
      hf.value_inj id id' name (hvalue id ▸ hid) (hvalue id' ▸ hid')
    value := fun id name hid => hf.value id name (hvalue id ▸ hid)
    param := fun name hmem => hf.param name (h.params ▸ hmem)
    param_named := fun hbody => by
      rw [h.params]
      exact hf.param_named (h.body ▸ hbody)
    parameter := fun id p hp => by
      rw [h.params, h.paramName_eq]
      exact hf.parameter id p (h.parameter id p hp)
    operands := fun id e he => ?_
    uses := fun t ht => ?_ }
  · cases hold : f.expr? id with
    | none =>
      have hnone : f.Apart [] := fun _ hop => absurd hop List.not_mem_nil
      refine h.apart hf hnone fun op hop => ?_
      refine .inr (.inl (Nat.not_lt.mp fun hlt => ?_))
      obtain ⟨e', he', -⟩ := h.uses id op ⟨e, he, hop⟩ hlt
      cases hold.symm.trans he'
    | some old =>
      refine h.apart hf (hf.operands id old hold) fun op hop => ?_
      by_cases hlt : (op : Nat) < f.expressions.size
      · obtain ⟨e', he', hmem⟩ := h.uses id op ⟨e, he, hop⟩ hlt
        cases hold.symm.trans he'
        exact .inl hmem
      · exact .inr (.inl (Nat.not_lt.mp hlt))
  · obtain ⟨s, hs, hgathers⟩ := h.steps t ht
    refine h.apart hf ?_ hgathers
    rcases hs with hs | hs
    · exact hf.uses s hs
    · rw [hs]
      exact fun _ hop => absurd hop List.not_mem_nil

/-! ## Which edits do -/

/-- **A revision with calls in front of the body keeps names apart.** -/
theorem keepsNames_revise {σ : ExprId → ExprId} {calls : List Call} (hrev : Revises σ f g)
    (hbody : f.body.isSome)
    (hcalls : ∀ c ∈ calls, ∀ op ∈ c.arguments, ∃ l, g.literal? op = some l) :
    f.KeepsNames (g.prependCalls calls) := by
  have hframe := hrev.frame
  have hgbody : g.body.isSome := by rwa [hrev.body, Option.isSome_map]
  refine {
    name := by rw [prependCalls, hframe]
    names := by rw [prependCalls, hframe]
    params := by rw [prependCalls, hframe]
    body := ?_
    size_le := hrev.size_le
    parameter := fun id p hp => hrev.parameter_iff.mp hp
    named := fun id e hid he hnamed => ?_
    uses := fun a b huses hb => ?_
    steps := fun t ht => ?_ }
  · rw [prependCalls, Option.isSome_map, hgbody, hbody]
  · obtain ⟨old, hold⟩ := exists_expr?_of_lt hid
    cases (hrev.expr id old hold).symm.trans he
    exact ⟨old, hold, by cases old <;> exact hnamed⟩
  · have ha := (hrev.reaches_of_lt (.single huses) hb).1
    exact hrev.uses_of_lt huses ha hb
  · rw [steps_prependCalls hgbody, List.mem_append] at ht
    rcases ht with ht | ht
    · obtain ⟨c, hc, rfl⟩ := List.mem_map.mp ht
      exact ⟨⟨[], []⟩, .inr rfl, fun op hop => .inr (.inr (hcalls c hc op hop))⟩
    · rw [hrev.steps_eq] at ht
      obtain ⟨s, hs, rfl⟩ := List.mem_map.mp ht
      refine ⟨s, .inl hs, fun op hop => ?_⟩
      obtain ⟨source, hsource, rfl⟩ := List.mem_map.mp hop
      rcases hrev.lands source with hsame | ⟨hge, -⟩
      · exact .inl (hsame.symm ▸ hsource)
      · exact .inr (.inl hge)

/-- Marking a parameter keeps names apart. -/
theorem keepsNames_setMark (f : Function) (index : Nat) (mark : Option FixedResource) :
    f.KeepsNames (f.setMark index mark) where
  name := rfl
  names := rfl
  params := by
    refine List.ext_getElem? fun i => ?_
    simp only [setMark, List.getElem?_map, List.getElem?_modify]
    cases f.params[i]? with
    | none => rfl
    | some p => by_cases h : index = i <;> simp [h]
  body := rfl
  size_le := Nat.le_refl _
  parameter := fun _ _ hp => hp
  named := fun _ e _ he hnamed => ⟨e, he, hnamed⟩
  uses := fun _ _ huses _ => huses
  steps := fun t ht => ⟨t, .inl ht, fun _ hop => .inl hop⟩

/-- Moving references to functions keeps names apart. -/
theorem keepsNames_mapCallees (f : Function) (move : FunctionId → FunctionId) :
    f.KeepsNames (f.mapCallees move) := by
  have hold : ∀ {id : ExprId} {e : Expr}, (f.mapCallees move).expr? id = some e →
      ∃ old, f.expr? id = some old ∧ old.mapCallee move = e := by
    intro id e he
    rw [expr?_mapCallees] at he
    exact Option.map_eq_some_iff.mp he
  refine {
    name := rfl
    names := rfl
    params := by simp [mapCallees, Function.comp_def]
    body := by simp [mapCallees]
    size_le := by simp [mapCallees]
    parameter := fun id p hp => ?_
    named := fun id e _ he hnamed => ?_
    uses := fun a b huses _ => ?_
    steps := fun t ht => ⟨t, .inl (f.steps_mapCallees move ▸ ht), fun op hop => .inl hop⟩ }
  · obtain ⟨old, hold, heq⟩ := hold hp
    cases old with
    | parameter => exact hold.trans (congrArg some heq)
    | _ => cases heq
  · obtain ⟨old, hold, rfl⟩ := hold he
    exact ⟨old, hold, by cases old <;> exact hnamed⟩
  · obtain ⟨e, he, hb⟩ := huses
    obtain ⟨old, hold, rfl⟩ := hold he
    exact ⟨old, hold, by rwa [Expr.operands_mapCallee] at hb⟩

end Function

/-- **Binding the literal samplers of a function keeps names apart.** -/
theorem SamplerBinding.keepsNames_rewrite {b : SamplerBinding} {f g : Function} {size : Nat}
    (hf : f.Linked size) (hrun : b.rewrite f = .ok g) : f.KeepsNames g := by
  obtain ⟨hframe, hbody, f₁, hadds, -, hsteps, hsize, hexpr⟩ := rewrite_ok hrun
  refine {
    name := by rw [hframe]
    names := by rw [hframe]
    params := by rw [hframe]
    body := hbody
    size_le := hsize ▸ hadds.size_le
    parameter := fun id p hp => ?_
    named := fun id e _ he hnamed => ?_
    uses := fun a op huses _ => ?_
    steps := fun t ht => ?_ }
  · rcases expr?_of_rewrite hf hadds hexpr hp with hold | ⟨l, hl⟩ | ⟨-, heq⟩
    · exact hold
    · cases hl
    · cases heq
  · rcases expr?_of_rewrite hf hadds hexpr he with hold | ⟨l, rfl⟩ | ⟨⟨callee, hold⟩, -⟩
    · exact ⟨e, hold, hnamed⟩
    · cases hnamed
    · exact ⟨_, hold, rfl⟩
  · obtain ⟨e, he, hop⟩ := huses
    rcases expr?_of_rewrite hf hadds hexpr he with hold | ⟨l, rfl⟩ | ⟨-, rfl⟩
    · exact ⟨e, hold, hop⟩
    · cases hop
    · cases hop
  · obtain ⟨s, hs, -, huses⟩ := exists_mem_of_forall₂ hsteps ht
    refine ⟨s, .inl hs, fun op hop => (huses op hop).imp_right fun hl => .inr ?_⟩
    obtain ⟨l, hl⟩ := hl
    rw [Function.literal?_eq_some_iff] at hl
    exact ⟨l, Function.literal?_eq_some_iff.mpr (expr?_rewrite hf hadds hexpr (by simp) hl)⟩

end ResourceBinding
