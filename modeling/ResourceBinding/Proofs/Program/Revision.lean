import ResourceBinding.Program.Function

/-!
# Revisions of a function

Both edits that fetch a resource inside of a function work alike: they add expressions at the end
of the store, and turn each use of a parameter into a use of one of them.

* `Function.Appends n f g`: `g` is `f` with more expressions, whose operands are not before `n`.
* `Function.Redirects σ f g`: `g` has the expressions of `f`, where an operand `id` has become
  `σ id`. Only parameters are moved.
* `Function.Revises σ f g`: the statements are redirected as well, parameters are moved only to
  what has been added, and all else stays.

Substituting for a parameter is a revision (`revises_substituteParameter`), and one revision after
another is one (`Revises.trans`). What a revision leaves alone is derived here once.
-/

namespace ResourceBinding

/-! ## Operands -/

theorem Expr.mapOperands_congr {σ τ : ExprId → ExprId} {e : Expr}
    (h : ∀ op ∈ e.operands, σ op = τ op) : e.mapOperands σ = e.mapOperands τ := by
  cases e with
  | access base indices =>
    simp only [operands, List.mem_cons, forall_eq_or_imp] at h
    simp only [mapOperands, h.1, List.map_congr_left h.2]
  | load pointer =>
    simp only [mapOperands, h pointer (by simp [operands])]
  | binary op left right =>
    simp only [mapOperands, h left (by simp [operands]), h right (by simp [operands])]
  | _ => rfl

theorem Expr.mapOperands_eq_self {σ : ExprId → ExprId} {e : Expr}
    (h : ∀ op ∈ e.operands, σ op = op) : e.mapOperands σ = e :=
  (mapOperands_congr h).trans e.mapOperands_id

theorem Expr.mapOperands_mapOperands (σ τ : ExprId → ExprId) (e : Expr) :
    (e.mapOperands σ).mapOperands τ = e.mapOperands (τ ∘ σ) := by
  cases e <;> simp [mapOperands]

@[simp]
theorem Expr.mapOperands_eq_parameter_iff {σ : ExprId → ExprId} {e : Expr} {p : Nat} :
    e.mapOperands σ = .parameter p ↔ e = .parameter p := by
  cases e <;> simp [mapOperands]

theorem Stmt.mapOperands_mapOperands (σ τ : ExprId → ExprId) (s : Stmt) :
    (s.mapOperands σ).mapOperands τ = s.mapOperands (τ ∘ σ) := by
  cases s <;> simp [mapOperands]

theorem Stmt.mapOperands_id (s : Stmt) : s.mapOperands id = s := by
  cases s <;> simp [mapOperands]

theorem Block.mapOperands_mapOperands (σ τ : ExprId → ExprId) (b : Block) :
    (b.mapOperands σ).mapOperands τ = b.mapOperands (τ ∘ σ) := by
  induction b with
  | nil => rfl
  | cons head rest ih => simp only [mapOperands, Stmt.mapOperands_mapOperands, ih]
  | branch condition accept reject rest iha ihr ih =>
    simp only [mapOperands, iha, ihr, ih, Function.comp_apply]
  | loop body rest ihb ih => simp only [mapOperands, ihb, ih]

theorem Block.mapOperands_id (b : Block) : b.mapOperands id = b := by
  induction b with
  | nil => rfl
  | cons head rest ih => simp only [mapOperands, Stmt.mapOperands_id, ih]
  | branch condition accept reject rest iha ihr ih => simp only [mapOperands, iha, ihr, ih, id_eq]
  | loop body rest ihb ih => simp only [mapOperands, ihb, ih]

namespace Function

/-! ## The store -/

theorem lt_size_of_expr? {f : Function} {id : Nat} {e : Expr} (h : f.expr? id = some e) :
    id < f.expressions.size :=
  (Array.getElem?_eq_some_iff.mp h).1

theorem exists_expr?_of_lt {f : Function} {id : Nat} (h : id < f.expressions.size) :
    ∃ e, f.expr? id = some e :=
  ⟨f.expressions[id], Array.getElem?_eq_getElem h⟩

theorem literal?_eq_some_iff {f : Function} {id : ExprId} {l : Literal} :
    f.literal? id = some l ↔ f.expr? id = some (.literal l) := by
  unfold literal?
  split
  · rename_i k hk
    simp [hk]
  · rename_i hne
    constructor
    · intro h
      cases h
    · intro h
      exact absurd h (hne l)

theorem exists_literal_of_mem {f : Function} {ids : List ExprId} {ls : List Literal}
    (h : ids.map f.literal? = ls.map some) {id : ExprId} (hid : id ∈ ids) :
    ∃ l, f.literal? id = some l := by
  have hmem : f.literal? id ∈ ls.map some := h ▸ List.mem_map_of_mem hid
  obtain ⟨l, -, hl⟩ := List.mem_map.mp hmem
  exact ⟨l, hl.symm⟩

/-- Operands that are literals stay so where each literal does. -/
theorem map_literal?_mono {f g : Function}
    (hfg : ∀ id l, f.literal? id = some l → g.literal? id = some l) {ids : List ExprId}
    {ls : List Literal} (h : ids.map f.literal? = ls.map some) :
    ids.map g.literal? = ls.map some := by
  rw [← h]
  refine List.map_congr_left fun id hid => ?_
  obtain ⟨l, hl⟩ := exists_literal_of_mem h hid
  rw [hl]
  exact hfg id l hl

theorem expr?_append_of_lt {f : Function} (e : Expr) {id : Nat}
    (h : id < f.expressions.size) : (f.append e).2.expr? id = f.expr? id := by
  change (f.expressions.push e)[id]? = f.expressions[id]?
  rw [Array.getElem?_push_lt h, Array.getElem?_eq_getElem h]

@[simp]
theorem expr?_append_self (f : Function) (e : Expr) :
    (f.append e).2.expr? f.expressions.size = some e :=
  Array.getElem?_push_size

/-! ## Expressions at the end -/

/-- `g` is `f` with more expressions at the end, none of them a parameter. Their operands are not
before `n`, and stand before them. -/
structure Appends (n : Nat) (f g : Function) : Prop where
  frame : g = { f with expressions := g.expressions }
  size_le : f.expressions.size ≤ g.expressions.size
  old : ∀ id : Nat, id < f.expressions.size → g.expr? id = f.expr? id
  fresh : ∀ (id : Nat) (e : Expr), f.expressions.size ≤ id → g.expr? id = some e →
    (∀ p, e ≠ .parameter p) ∧ ∀ op : Nat, op ∈ e.operands → n ≤ op ∧ op < id

variable {n : Nat} {f g h : Function}

theorem Appends.refl (n : Nat) (f : Function) : Appends n f f where
  frame := rfl
  size_le := Nat.le_refl _
  old := fun _ _ => rfl
  fresh := fun _ _ hid he => absurd (lt_size_of_expr? he) (Nat.not_lt.mpr hid)

theorem Appends.trans (hfg : Appends n f g) (hgh : Appends n g h) : Appends n f h where
  frame := by
    have hh := hgh.frame
    rw [hfg.frame] at hh
    exact hh
  size_le := Nat.le_trans hfg.size_le hgh.size_le
  old := fun id hid =>
    (hgh.old id (Nat.lt_of_lt_of_le hid hfg.size_le)).trans (hfg.old id hid)
  fresh := by
    intro id e hid he
    by_cases hlt : id < g.expressions.size
    · rw [hgh.old id hlt] at he
      exact hfg.fresh id e hid he
    · exact hgh.fresh id e (by omega) he

theorem Appends.expr? (hfg : Appends n f g) {id : ExprId} {e : Expr} (he : f.expr? id = some e) :
    g.expr? id = some e :=
  (hfg.old id (lt_size_of_expr? he)).trans he

theorem Appends.literal? (hfg : Appends n f g) {id : ExprId} {l : Literal}
    (hl : f.literal? id = some l) : g.literal? id = some l :=
  literal?_eq_some_iff.mpr (hfg.expr? (literal?_eq_some_iff.mp hl))

/-- What has been added is no parameter, so the occurrences of parameters stay the same. -/
theorem Appends.parameter_iff (hfg : Appends n f g) {id : Nat} {p : Nat} :
    g.expr? id = some (.parameter p) ↔ f.expr? id = some (.parameter p) := by
  refine ⟨fun he => ?_, hfg.expr?⟩
  by_cases hlt : id < f.expressions.size
  · rw [← hfg.old id hlt]
    exact he
  · exact absurd rfl ((hfg.fresh id _ (by omega) he).1 p)

theorem appends_append {e : Expr} (hp : ∀ p, e ≠ .parameter p)
    (hops : ∀ op : Nat, op ∈ e.operands → n ≤ op ∧ op < f.expressions.size) :
    Appends n f (f.append e).2 where
  frame := rfl
  size_le := by simp [append]
  old := fun _ => expr?_append_of_lt e
  fresh := by
    intro id e' hid he
    have hlt := lt_size_of_expr? he
    simp only [append, Array.size_push] at hlt
    obtain rfl : id = f.expressions.size := by omega
    obtain rfl : e = e' := Option.some.inj ((expr?_append_self f e).symm.trans he)
    exact ⟨hp, hops⟩

theorem appends_appendLiterals (n : Nat) (ls : List Literal) (f : Function) :
    Appends n f (appendLiterals ls f).2 ∧
      (appendLiterals ls f).1.map (appendLiterals ls f).2.literal? = ls.map some := by
  induction ls generalizing f with
  | nil => exact ⟨.refl n f, rfl⟩
  | cons l ls ih =>
    have hfirst : Appends n f (f.append (.literal l)).2 :=
      appends_append (by simp) (by simp [Expr.operands])
    obtain ⟨hrest, hlits⟩ := ih (f.append (.literal l)).2
    refine ⟨hfirst.trans hrest, ?_⟩
    have hl : (f.append (.literal l)).2.literal? f.expressions.size = some l :=
      literal?_eq_some_iff.mpr (expr?_append_self f _)
    simp only [appendLiterals, List.map_cons]
    rw [hlits]
    exact congrArg (· :: _) (hrest.literal? hl)

/-- The literals that are added stand behind what was there. -/
theorem size_le_of_mem_appendLiterals (ls : List Literal) :
    ∀ {f : Function}, ∀ id ∈ (appendLiterals ls f).1, f.expressions.size ≤ id := by
  induction ls with
  | nil => exact fun id hid => absurd hid List.not_mem_nil
  | cons l ls ih =>
    intro f id hid
    rcases List.mem_cons.mp hid with rfl | hid
    · exact Nat.le_refl _
    · have hle := ih (f := (f.append (.literal l)).2) id hid
      simp only [append, Array.size_push] at hle
      exact Nat.le_of_succ_le hle

/-- What is added for a call: its operands, which are literals, and behind them its result. -/
theorem appends_call (f : Function) (callee : FunctionId) (ls : List Literal) :
    ∃ (ids : List ExprId) (f₁ : Function) (r : Nat) (f₂ : Function),
      appendLiterals ls f = (ids, f₁) ∧ f₁.append (.result callee) = (r, f₂) ∧
      Appends f.expressions.size f f₂ ∧ ids.map f₂.literal? = ls.map some ∧
      f.expressions.size ≤ r ∧ f₂.expr? r = some (.result callee) := by
  obtain ⟨happ, hids⟩ := appends_appendLiterals f.expressions.size ls f
  have hresult : Appends f.expressions.size (appendLiterals ls f).2
      ((appendLiterals ls f).2.append (.result callee)).2 :=
    appends_append (by simp) (by simp [Expr.operands])
  refine ⟨_, _, _, _, rfl, rfl, happ.trans hresult, ?_, happ.size_le, expr?_append_self _ _⟩
  exact map_literal?_mono (fun _ _ => hresult.literal?) hids

/-- The shared zero index of an access comes right before it. -/
theorem appends_appendZeroAccess {base : Nat} (k : Nat) (hn : n ≤ f.expressions.size)
    (hge : n ≤ base) (hlt : base < f.expressions.size) :
    Appends n f (f.appendZeroAccess base k).2 ∧
      (f.appendZeroAccess base k).2.expr? f.expressions.size = some (.literal (.u32 0)) ∧
      (f.appendZeroAccess base k).2.expr? (f.appendZeroAccess base k).1
        = some (.access base (List.replicate k f.expressions.size)) := by
  have hsize : (f.append (.literal (.u32 0))).2.expressions.size = f.expressions.size + 1 := by
    simp [append]
  have hzero : Appends n f (f.append (.literal (.u32 0))).2 :=
    appends_append (by simp) (by simp [Expr.operands])
  have haccess : Appends n (f.append (.literal (.u32 0))).2 (f.appendZeroAccess base k).2 := by
    refine appends_append (by simp) fun op hop => ?_
    rw [hsize]
    simp only [Expr.operands, List.mem_cons, List.mem_replicate] at hop
    rcases hop with rfl | ⟨-, rfl⟩
    · exact ⟨hge, by omega⟩
    · exact ⟨hn, Nat.lt_succ_self _⟩
  refine ⟨hzero.trans haccess, haccess.expr? (expr?_append_self f _), ?_⟩
  exact expr?_append_self (f.append (.literal (.u32 0))).2 _

/-! ## Revisions -/

/-- `g` has the expressions of `f`, where each operand `id` has become `σ id`. Only parameters are
moved. -/
structure Redirects (σ : ExprId → ExprId) (f g : Function) : Prop where
  expr : ∀ (id : Nat) (e : Expr), f.expr? id = some e → g.expr? id = some (e.mapOperands σ)
  stays : ∀ id : Nat, (∀ p, f.expr? id ≠ some (.parameter p)) → σ id = id

/-- `g` is `f` with more expressions at the end, and with each use of an expression `id` turned
into a use of `σ id`, which is `id` or has been added. -/
structure Revises (σ : ExprId → ExprId) (f g : Function) : Prop extends Redirects σ f g where
  frame : g = { f with expressions := g.expressions, body := g.body }
  size_le : f.expressions.size ≤ g.expressions.size
  body : g.body = f.body.map (·.mapOperands σ)
  fresh : ∀ (id : Nat) (e : Expr), f.expressions.size ≤ id → g.expr? id = some e →
    (∀ p, e ≠ .parameter p) ∧ ∀ op : Nat, op ∈ e.operands → f.expressions.size ≤ op ∧ op < id
  lands : ∀ id : Nat, σ id = id ∨
    (f.expressions.size ≤ σ id ∧ (σ id : Nat) < g.expressions.size)

variable {σ τ : ExprId → ExprId}

theorem Redirects.stays_of_expr? (hfg : Redirects σ f g) {id : Nat} {e : Expr}
    (he : f.expr? id = some e) (hp : ∀ p, e ≠ .parameter p) : σ id = id :=
  hfg.stays id fun p hpar => hp p (Option.some.inj (he.symm.trans hpar))

theorem Revises.refl (f : Function) : Revises id f f where
  expr := fun _ e he => by rw [Expr.mapOperands_id, he]
  stays := fun _ _ => rfl
  frame := rfl
  size_le := Nat.le_refl _
  body := by
    cases f.body with
    | none => rfl
    | some b => simp [Block.mapOperands_id]
  fresh := fun _ _ hid he => absurd (lt_size_of_expr? he) (Nat.not_lt.mpr hid)
  lands := fun _ => Or.inl rfl

/-- Revising neither adds nor removes an occurrence of a parameter. -/
theorem Revises.parameter_iff (hfg : Revises σ f g) {id : Nat} {p : Nat} :
    g.expr? id = some (.parameter p) ↔ f.expr? id = some (.parameter p) := by
  constructor
  · intro hg
    cases hf : f.expr? id with
    | none =>
      have hge : f.expressions.size ≤ id := Array.getElem?_eq_none_iff.mp hf
      exact absurd rfl ((hfg.fresh id _ hge hg).1 p)
    | some e =>
      rw [hfg.expr id e hf, Option.some.injEq, Expr.mapOperands_eq_parameter_iff] at hg
      rw [hg]
  · intro hf
    rw [hfg.expr id _ hf]
    rfl

/-- What has been added is not moved by the next revision. -/
theorem Revises.stays_of_le (hfg : Revises σ f g) (hgh : Redirects τ g h) {id : Nat}
    (hid : f.expressions.size ≤ id) : τ id = id := by
  refine hgh.stays id fun p hp => ?_
  have := lt_size_of_expr? (hfg.parameter_iff.mp hp)
  omega

/-- **Two revisions in turn are one.** -/
theorem Revises.trans (hfg : Revises σ f g) (hgh : Revises τ g h) : Revises (τ ∘ σ) f h where
  expr := by
    intro id e he
    rw [hgh.expr id _ (hfg.expr id e he), Expr.mapOperands_mapOperands]
  stays := by
    intro id hid
    simp only [Function.comp_apply, hfg.stays id hid]
    exact hgh.stays id fun p hp => hid p (hfg.parameter_iff.mp hp)
  frame := by
    have hh := hgh.frame
    rw [hfg.frame] at hh
    exact hh
  size_le := Nat.le_trans hfg.size_le hgh.size_le
  body := by
    rw [hgh.body, hfg.body]
    cases f.body with
    | none => rfl
    | some b => simp [Block.mapOperands_mapOperands]
  fresh := by
    intro id e hid he
    by_cases hlt : id < g.expressions.size
    · obtain ⟨e', he'⟩ := exists_expr?_of_lt hlt
      obtain ⟨hp, hops⟩ := hfg.fresh id e' hid he'
      -- The operands of what `g` has added were added as well, and are not parameters.
      have hsame : e'.mapOperands τ = e' :=
        Expr.mapOperands_eq_self fun op hop => hfg.stays_of_le hgh.toRedirects (hops op hop).1
      rw [hgh.expr id e' he', hsame] at he
      obtain rfl := Option.some.inj he
      exact ⟨hp, hops⟩
    · obtain ⟨hp, hops⟩ := hgh.fresh id e (by omega) he
      exact ⟨hp, fun op hop => ⟨Nat.le_trans hfg.size_le (hops op hop).1, (hops op hop).2⟩⟩
  lands := by
    intro id
    rcases hfg.lands id with hs | ⟨hge, hlt⟩
    · rcases hgh.lands id with ht | ⟨hge, hlt⟩
      · exact Or.inl (by simp [hs, ht])
      · refine Or.inr ?_
        simp only [Function.comp_apply, hs]
        exact ⟨Nat.le_trans hfg.size_le hge, hlt⟩
    · refine Or.inr ?_
      simp only [Function.comp_apply, hfg.stays_of_le hgh.toRedirects hge]
      exact ⟨hge, Nat.lt_of_lt_of_le hlt hgh.size_le⟩

/-! ## Substituting for a parameter -/

/-- What the uses of a parameter are turned into uses of. -/
def redirectParameter (f : Function) (index : Nat) (target id : ExprId) : ExprId :=
  if f.expr? id = some (.parameter index) then target else id

theorem mem_parameterOccurrences {f : Function} {index id : Nat} :
    id ∈ f.parameterOccurrences index ↔ f.expr? id = some (.parameter index) := by
  simp only [parameterOccurrences, List.mem_filter, List.mem_range, beq_iff_eq]
  exact ⟨And.right, fun he => ⟨lt_size_of_expr? he, he⟩⟩

/-- What substituting for some expressions does to a use. -/
def redirectAll (sources : List ExprId) (target id : ExprId) : ExprId :=
  if id ∈ sources then target else id

theorem expr?_substitute {source target id : ExprId} {e : Expr} (he : f.expr? id = some e)
    (ht : id = target → source ∉ e.operands) :
    (f.substitute source target).expr? id = some (e.mapOperands (redirect source target)) := by
  have hid : f.expressions[id]? = some e := he
  simp only [expr?, substitute, Array.getElem?_mapIdx, hid, Option.map_some, Option.some.injEq]
  split
  · rename_i hit
    refine (Expr.mapOperands_eq_self fun op hop => if_neg fun hsrc => ht hit ?_).symm
    exact hsrc ▸ hop
  · rfl

theorem size_substitute (f : Function) (source target : ExprId) :
    (f.substitute source target).expressions.size = f.expressions.size := by
  simp [substitute]

/-- Substituting `target` for some expressions in turn does it at once, unless `target` is one of
them or uses one. -/
theorem foldl_substitute {target : ExprId} {e : Expr} (sources : List ExprId) :
    ∀ {f : Function}, f.expr? target = some e → target ∉ sources →
      (∀ op ∈ e.operands, op ∉ sources) →
      let g := sources.foldl (·.substitute · target) f
      g = { f with expressions := g.expressions, body := g.body } ∧
        g.expressions.size = f.expressions.size ∧
        g.body = f.body.map (·.mapOperands (redirectAll sources target)) ∧
        ∀ id e, f.expr? id = some e →
          g.expr? id = some (e.mapOperands (redirectAll sources target)) := by
  induction sources with
  | nil =>
    intro f _ _ _
    have hid : redirectAll [] target = id := funext fun op => by simp [redirectAll]
    refine ⟨rfl, rfl, ?_, fun id e he => ?_⟩
    · cases hb : f.body with
      | none => simp [hb]
      | some b => simp [hb, hid, Block.mapOperands_id]
    · rw [hid, Expr.mapOperands_id]
      exact he
  | cons source sources ih =>
    intro f he hnot hops
    simp only [List.mem_cons, not_or] at hnot hops
    have hcomp : redirectAll sources target ∘ redirect source target
        = redirectAll (source :: sources) target := by
      funext op
      by_cases h : op = source
      · simp [redirectAll, redirect, h, hnot.2]
      · simp [redirectAll, redirect, h]
    -- The target stays as it is, so the induction goes on with it.
    have he' : (f.substitute source target).expr? target = some e := by
      rw [expr?_substitute he fun _ hmem => (hops source hmem).1 rfl]
      exact congrArg some (Expr.mapOperands_eq_self fun op hop => if_neg (hops op hop).1)
    obtain ⟨hframe, hsize, hbody, hold⟩ := ih he' hnot.2 fun op hop => (hops op hop).2
    refine ⟨?_, ?_, ?_, fun id e₁ he₁ => ?_⟩
    · exact hframe
    · exact hsize.trans (size_substitute f source target)
    · rw [List.foldl_cons, hbody, ← hcomp]
      cases hb : f.body with
      | none => simp [substitute, hb]
      | some b => simp [substitute, hb, Block.mapOperands_mapOperands]
    · have h₁ : (f.substitute source target).expr? id
          = some (e₁.mapOperands (redirect source target)) := by
        refine expr?_substitute he₁ fun hid hmem => ?_
        subst hid
        obtain rfl : e = e₁ := Option.some.inj (he.symm.trans he₁)
        exact (hops source hmem).1 rfl
      rw [List.foldl_cons, hold id _ h₁, Expr.mapOperands_mapOperands, hcomp]

/-- **Adding expressions and substituting one of them for a parameter is a revision.** It leaves
what has been added as it is. -/
theorem revises_substituteParameter (hfg : Appends f.expressions.size f g) (index : Nat)
    {target : Nat} (hge : f.expressions.size ≤ target) (hlt : target < g.expressions.size) :
    Revises (f.redirectParameter index target) f (g.substituteParameter index target) ∧
      Redirects (f.redirectParameter index target) g (g.substituteParameter index target) ∧
      ∀ id : Nat, f.expressions.size ≤ id →
        (g.substituteParameter index target).expr? id = g.expr? id := by
  obtain ⟨e, he⟩ := exists_expr?_of_lt hlt
  have hocc : ∀ id : Nat, id ∈ g.parameterOccurrences index ↔
      f.expr? id = some (.parameter index) := fun id =>
    mem_parameterOccurrences.trans hfg.parameter_iff
  -- All occurrences were there before, so what has been added is not substituted in.
  have hnot : ∀ id : Nat, f.expressions.size ≤ id → id ∉ g.parameterOccurrences index := by
    intro id hid hmem
    have := lt_size_of_expr? ((hocc id).mp hmem)
    omega
  have hσ : redirectAll (g.parameterOccurrences index) target
      = f.redirectParameter index target := by
    funext id
    simp only [redirectAll, redirectParameter, hocc]
  obtain ⟨hframe, hsize, hbody, hold⟩ := foldl_substitute (g.parameterOccurrences index) he
    (hnot target hge) fun op hop => hnot op ((hfg.fresh target e hge he).2 op hop).1
  rw [hσ] at hbody hold
  have hadded : ∀ id : Nat, f.expressions.size ≤ id →
      (g.substituteParameter index target).expr? id = g.expr? id := by
    intro id hid
    by_cases hidlt : id < g.expressions.size
    · obtain ⟨e₁, he₁⟩ := exists_expr?_of_lt hidlt
      have hsame : e₁.mapOperands (f.redirectParameter index target) = e₁ := by
        refine Expr.mapOperands_eq_self fun op hop => if_neg fun hpar => ?_
        exact hnot op ((hfg.fresh id e₁ hid he₁).2 op hop).1 ((hocc op).mpr hpar)
      rw [he₁, ← hsame]
      exact hold id e₁ he₁
    · have hnone : g.expr? id = none := Array.getElem?_eq_none (Nat.not_lt.mp hidlt)
      rw [hnone]
      exact Array.getElem?_eq_none (Nat.le_trans (Nat.le_of_eq hsize) (Nat.not_lt.mp hidlt))
  have hgbody : g.body = f.body := by rw [hfg.frame]
  have hred : Redirects (f.redirectParameter index target) g
      (g.substituteParameter index target) :=
    ⟨hold, fun id hid => if_neg fun hpar => hid index (hfg.expr? hpar)⟩
  refine ⟨⟨⟨fun id e₁ he₁ => hold id e₁ (hfg.expr? he₁), fun id hid => if_neg (hid index)⟩, ?_, ?_,
    ?_, fun id e₁ hid he₁ => ?_, fun id => ?_⟩, hred, hadded⟩
  · exact hframe.trans (congrArg
      (fun k : Function => { k with
        expressions := (g.substituteParameter index target).expressions
        body := (g.substituteParameter index target).body }) hfg.frame)
  · exact Nat.le_trans hfg.size_le (Nat.le_of_eq hsize.symm)
  · rw [← hgbody]
    exact hbody
  · rw [hadded id hid] at he₁
    exact hfg.fresh id e₁ hid he₁
  · by_cases hpar : f.expr? id = some (.parameter index)
    · refine Or.inr ?_
      simp only [redirectParameter, hpar, if_true]
      exact ⟨hge, Nat.lt_of_lt_of_le hlt (Nat.le_of_eq hsize.symm)⟩
    · exact Or.inl (if_neg hpar)

/-! ## What stays as it was -/

theorem Redirects.literal? (hfg : Redirects σ f g) {id : Nat} {l : Literal}
    (hl : f.literal? id = some l) : g.literal? id = some l := by
  rw [literal?_eq_some_iff] at hl ⊢
  exact hfg.expr id _ hl

theorem Redirects.expr?_result (hfg : Redirects σ f g) {id : Nat} {callee : FunctionId}
    (h : f.expr? id = some (.result callee)) : g.expr? id = some (.result callee) :=
  hfg.expr id _ h

/-- Operands that are literals are not moved. -/
theorem Redirects.map_eq_self (hfg : Redirects σ f g) {ids : List ExprId} {ls : List Literal}
    (h : ids.map f.literal? = ls.map some) : ids.map σ = ids := by
  refine (List.map_congr_left fun id hid => ?_).trans (List.map_id ids)
  obtain ⟨l, hl⟩ := exists_literal_of_mem h hid
  exact hfg.stays_of_expr? (literal?_eq_some_iff.mp hl) fun p => by simp

theorem Revises.calls_eq (hfg : Revises σ f g) :
    g.calls = f.calls.map fun c => { c with arguments := c.arguments.map σ } := by
  unfold calls
  rw [hfg.body]
  cases f.body with
  | none => rfl
  | some b => simp

end Function

end ResourceBinding
