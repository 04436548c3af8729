import ResourceBinding.Proofs.Program.Revision
import Mathlib.Data.Finset.Card
import Mathlib.Logic.Relation

/-!
# Values as trees

The store of a function shares expressions. `Function.Unfolds f id t` says that `t` is the tree that
the expression `id` stands for, with every operand in place of its position. A call is an effect,
so the result of a call stays a leaf, told by its place in the store.

* `Function.exists_unfolds`: in a function whose expressions do not use themselves, what reaches no
  dangling operand unfolds.
* `Function.Redirects.unfolds`: redirecting parameters replaces leaves, and nothing else.
* `Function.Revises.acyclic`: it brings in no cycle.
* `Function.Revises.not_reads_parameter`: no operand is left that has been moved away from.
-/

namespace ResourceBinding

/-- A value with its operands in place. -/
inductive ValueTree where
  | literal (literal : Literal)
  | parameter (index : Nat)
  /-- The result of the call that makes the expression `id`. -/
  | result (callee : FunctionId) (id : ExprId)
  | access (base : ValueTree) (indices : List ValueTree)
  | load (pointer : ValueTree)
  | binary (op : BinaryOp) (left right : ValueTree)

namespace ValueTree

mutual

/-- The tree with `ρ p` in place of each parameter `p`. -/
def substitute (ρ : Nat → ValueTree) : ValueTree → ValueTree
  | literal l => literal l
  | parameter p => ρ p
  | result callee id => result callee id
  | access base indices => access (substitute ρ base) (substituteEach ρ indices)
  | load pointer => load (substitute ρ pointer)
  | binary op left right => binary op (substitute ρ left) (substitute ρ right)

/-- The trees with `ρ p` in place of each parameter `p`. -/
def substituteEach (ρ : Nat → ValueTree) : List ValueTree → List ValueTree
  | [] => []
  | t :: ts => substitute ρ t :: substituteEach ρ ts

end

mutual

/-- Substituting each parameter for itself changes nothing. -/
theorem substitute_parameter : ∀ t : ValueTree, t.substitute parameter = t
  | literal _ | parameter _ | result _ _ => rfl
  | access base indices => by
    rw [substitute, substitute_parameter base, substituteEach_parameter indices]
  | load pointer => by rw [substitute, substitute_parameter pointer]
  | binary op left right => by
    rw [substitute, substitute_parameter left, substitute_parameter right]

theorem substituteEach_parameter : ∀ ts : List ValueTree, substituteEach parameter ts = ts
  | [] => rfl
  | t :: ts => by rw [substituteEach, substitute_parameter t, substituteEach_parameter ts]

end

section Substitution

variable (ρ τ : Nat → ValueTree)

mutual

/-- **Two substitutions in turn are one.** -/
theorem substitute_substitute : ∀ t : ValueTree,
    (t.substitute ρ).substitute τ = t.substitute fun p => (ρ p).substitute τ
  | literal _ | parameter _ | result _ _ => rfl
  | access base indices => by
    simp only [substitute, substitute_substitute base, substituteEach_substituteEach indices]
  | load pointer => by simp only [substitute, substitute_substitute pointer]
  | binary op left right => by
    simp only [substitute, substitute_substitute left, substitute_substitute right]

theorem substituteEach_substituteEach : ∀ ts : List ValueTree,
    substituteEach τ (substituteEach ρ ts) = substituteEach (fun p => (ρ p).substitute τ) ts
  | [] => rfl
  | t :: ts => by
    simp only [substituteEach, substitute_substitute t, substituteEach_substituteEach ts]

end

end Substitution

mutual

/-- The tree where each result is one of the function that its own has moved to. -/
def mapCallees (move : FunctionId → FunctionId) : ValueTree → ValueTree
  | literal l => literal l
  | parameter p => parameter p
  | result callee id => result (move callee) id
  | access base indices => access (mapCallees move base) (mapCalleesEach move indices)
  | load pointer => load (mapCallees move pointer)
  | binary op left right => binary op (mapCallees move left) (mapCallees move right)

/-- The trees where each result is one of the function that its own has moved to. -/
def mapCalleesEach (move : FunctionId → FunctionId) : List ValueTree → List ValueTree
  | [] => []
  | t :: ts => mapCallees move t :: mapCalleesEach move ts

end

end ValueTree

namespace Function

/-! ## Unfolding -/

/-- The expression `id` has the operand `op`. -/
def Uses (f : Function) (id op : ExprId) : Prop :=
  ∃ e, f.expr? id = some e ∧ op ∈ e.operands

mutual

/-- The expression `id` stands for the tree. -/
inductive Unfolds (f : Function) : ExprId → ValueTree → Prop
  | literal {id : ExprId} {l : Literal} :
      f.expr? id = some (.literal l) → Unfolds f id (.literal l)
  | parameter {id : ExprId} {p : Nat} :
      f.expr? id = some (.parameter p) → Unfolds f id (.parameter p)
  | result {id : ExprId} {callee : FunctionId} :
      f.expr? id = some (.result callee) → Unfolds f id (.result callee id)
  | access {id base : ExprId} {indices : List ExprId} {t : ValueTree} {ts : List ValueTree} :
      f.expr? id = some (.access base indices) → Unfolds f base t → UnfoldsEach f indices ts →
      Unfolds f id (.access t ts)
  | load {id pointer : ExprId} {t : ValueTree} :
      f.expr? id = some (.load pointer) → Unfolds f pointer t → Unfolds f id (.load t)
  | binary {id left right : ExprId} {op : BinaryOp} {t u : ValueTree} :
      f.expr? id = some (.binary op left right) → Unfolds f left t → Unfolds f right u →
      Unfolds f id (.binary op t u)

/-- The expressions stand for the trees, one for one. -/
inductive UnfoldsEach (f : Function) : List ExprId → List ValueTree → Prop
  | nil : UnfoldsEach f [] []
  | cons {id : ExprId} {ids : List ExprId} {t : ValueTree} {ts : List ValueTree} :
      Unfolds f id t → UnfoldsEach f ids ts → UnfoldsEach f (id :: ids) (t :: ts)

end

variable {f g : Function} {σ : ExprId → ExprId}

mutual

/-- **Redirecting parameters replaces the leaves that stand for them.** -/
theorem Redirects.unfolds {ρ : Nat → ValueTree} (hfg : Redirects σ f g)
    (hρ : ∀ id p, f.expr? id = some (.parameter p) → g.Unfolds (σ id) (ρ p)) :
    ∀ {t : ValueTree} {id : ExprId}, f.Unfolds id t → g.Unfolds (σ id) (t.substitute ρ)
  | .literal l, id, .literal he => by
    rw [hfg.stays_of_expr? he fun p => by simp]
    exact .literal (hfg.expr id _ he)
  | .parameter p, id, .parameter he => hρ id p he
  | .result callee id, _, .result he => by
    rw [hfg.stays_of_expr? he fun p => by simp]
    exact .result (hfg.expr id _ he)
  | .access t ts, id, .access he hbase hindices => by
    rw [hfg.stays_of_expr? he fun p => by simp]
    exact .access (hfg.expr id _ he) (Redirects.unfolds hfg hρ hbase)
      (Redirects.unfoldsEach hfg hρ hindices)
  | .load t, id, .load he hpointer => by
    rw [hfg.stays_of_expr? he fun p => by simp]
    exact .load (hfg.expr id _ he) (Redirects.unfolds hfg hρ hpointer)
  | .binary op t u, id, .binary he hleft hright => by
    rw [hfg.stays_of_expr? he fun p => by simp]
    exact .binary (hfg.expr id _ he) (Redirects.unfolds hfg hρ hleft)
      (Redirects.unfolds hfg hρ hright)

theorem Redirects.unfoldsEach {ρ : Nat → ValueTree} (hfg : Redirects σ f g)
    (hρ : ∀ id p, f.expr? id = some (.parameter p) → g.Unfolds (σ id) (ρ p)) :
    ∀ {ts : List ValueTree} {ids : List ExprId}, f.UnfoldsEach ids ts →
      g.UnfoldsEach (ids.map σ) (ValueTree.substituteEach ρ ts)
  | [], _, .nil => .nil
  | _ :: _, _, .cons h hs => .cons (Redirects.unfolds hfg hρ h) (Redirects.unfoldsEach hfg hρ hs)

end

mutual

/-- An expression stands for one tree. -/
theorem Unfolds.unique : ∀ {t u : ValueTree} {id : ExprId},
    f.Unfolds id t → f.Unfolds id u → t = u
  | _, _, _, .literal h, h' => by
    cases h' <;> simp_all
  | _, _, _, .parameter h, h' => by
    cases h' <;> simp_all
  | _, _, _, .result h, h' => by
    cases h' <;> simp_all
  | .access _ _, _, _, .access h hbase hindices, h' => by
    cases h' with
    | access h₂ hbase₂ hindices₂ =>
      cases h.symm.trans h₂
      rw [Unfolds.unique hbase hbase₂, UnfoldsEach.unique hindices hindices₂]
    | _ h₂ => cases h.symm.trans h₂
  | .load _, _, _, .load h hpointer, h' => by
    cases h' with
    | load h₂ hpointer₂ =>
      cases h.symm.trans h₂
      rw [Unfolds.unique hpointer hpointer₂]
    | _ h₂ => cases h.symm.trans h₂
  | .binary _ _ _, _, _, .binary h hleft hright, h' => by
    cases h' with
    | binary h₂ hleft₂ hright₂ =>
      cases h.symm.trans h₂
      rw [Unfolds.unique hleft hleft₂, Unfolds.unique hright hright₂]
    | _ h₂ => cases h.symm.trans h₂

theorem UnfoldsEach.unique : ∀ {ts us : List ValueTree} {ids : List ExprId},
    f.UnfoldsEach ids ts → f.UnfoldsEach ids us → ts = us
  | [], _, _, .nil, .nil => rfl
  | _ :: _, _, _, .cons h hs, .cons h' hs' => by
    rw [Unfolds.unique h h', UnfoldsEach.unique hs hs']

end

theorem Unfolds.iff_eq {t u : ValueTree} {id : ExprId} (h : f.Unfolds id t) :
    f.Unfolds id u ↔ u = t :=
  ⟨fun hu => hu.unique h, fun heq => heq ▸ h⟩

section Moved

variable {move : FunctionId → FunctionId}

mutual

/-- **Moving references moves the results in trees**, and changes nothing else about them. -/
theorem Unfolds.mapCallees
    (hfg : ∀ id e, f.expr? id = some e → g.expr? id = some (e.mapCallee move)) :
    ∀ {t : ValueTree} {id : ExprId}, f.Unfolds id t → g.Unfolds id (t.mapCallees move)
  | _, _, .literal h => .literal (hfg _ _ h)
  | _, _, .parameter h => .parameter (hfg _ _ h)
  | _, _, .result h => .result (hfg _ _ h)
  | .access _ _, _, .access h hbase hindices =>
    .access (hfg _ _ h) (Unfolds.mapCallees hfg hbase) (UnfoldsEach.mapCallees hfg hindices)
  | .load _, _, .load h hpointer => .load (hfg _ _ h) (Unfolds.mapCallees hfg hpointer)
  | .binary _ _ _, _, .binary h hleft hright =>
    .binary (hfg _ _ h) (Unfolds.mapCallees hfg hleft) (Unfolds.mapCallees hfg hright)

theorem UnfoldsEach.mapCallees
    (hfg : ∀ id e, f.expr? id = some e → g.expr? id = some (e.mapCallee move)) :
    ∀ {ts : List ValueTree} {ids : List ExprId}, f.UnfoldsEach ids ts →
      g.UnfoldsEach ids (ValueTree.mapCalleesEach move ts)
  | [], _, .nil => .nil
  | _ :: _, _, .cons h hs => .cons (Unfolds.mapCallees hfg h) (UnfoldsEach.mapCallees hfg hs)

end

end Moved

section Transfer

variable {P : ExprId → Prop}

mutual

/-- What unfolds by way of expressions that another function has as well unfolds there. -/
theorem Unfolds.transfer (hfg : ∀ id e, P id → f.expr? id = some e → g.expr? id = some e)
    (hP : ∀ id op, P id → f.Uses id op → P op) :
    ∀ {t : ValueTree} {id : ExprId}, P id → f.Unfolds id t → g.Unfolds id t
  | _, _, hid, .literal h => .literal (hfg _ _ hid h)
  | _, _, hid, .parameter h => .parameter (hfg _ _ hid h)
  | _, _, hid, .result h => .result (hfg _ _ hid h)
  | .access _ _, id, hid, .access h hbase hindices =>
    have hop := fun op hop => hP id op hid ⟨_, h, hop⟩
    .access (hfg _ _ hid h)
      (Unfolds.transfer hfg hP (hop _ (by simp [Expr.operands])) hbase)
      (UnfoldsEach.transfer hfg hP (fun op hmem => hop op (by simp [Expr.operands, hmem])) hindices)
  | .load _, id, hid, .load h hpointer =>
    .load (hfg _ _ hid h)
      (Unfolds.transfer hfg hP (hP id _ hid ⟨_, h, by simp [Expr.operands]⟩) hpointer)
  | .binary _ _ _, id, hid, .binary h hleft hright =>
    .binary (hfg _ _ hid h)
      (Unfolds.transfer hfg hP (hP id _ hid ⟨_, h, by simp [Expr.operands]⟩) hleft)
      (Unfolds.transfer hfg hP (hP id _ hid ⟨_, h, by simp [Expr.operands]⟩) hright)

theorem UnfoldsEach.transfer (hfg : ∀ id e, P id → f.expr? id = some e → g.expr? id = some e)
    (hP : ∀ id op, P id → f.Uses id op → P op) :
    ∀ {ts : List ValueTree} {ids : List ExprId}, (∀ id ∈ ids, P id) → f.UnfoldsEach ids ts →
      g.UnfoldsEach ids ts
  | [], _, _, .nil => .nil
  | _ :: _, _, hids, .cons h hs =>
    .cons (Unfolds.transfer hfg hP (hids _ (by simp)) h)
      (UnfoldsEach.transfer hfg hP (fun id hid => hids id (by simp [hid])) hs)

end

end Transfer

theorem Unfolds.mono (hfg : ∀ id e, f.expr? id = some e → g.expr? id = some e) {t : ValueTree}
    {id : ExprId} (h : f.Unfolds id t) : g.Unfolds id t :=
  h.transfer (P := fun _ => True) (fun id e _ => hfg id e) (fun _ _ _ _ => trivial) trivial

theorem unfoldsEach_replicate {id : ExprId} {t : ValueTree} (h : f.Unfolds id t) :
    ∀ k, f.UnfoldsEach (List.replicate k id) (List.replicate k t)
  | 0 => .nil
  | k + 1 => .cons h (unfoldsEach_replicate h k)

theorem unfolds_appendZeroAccess {base : Nat} {t : ValueTree} (k : Nat)
    (hbase : base < f.expressions.size) (ht : f.Unfolds base t) :
    (f.appendZeroAccess base k).2.Unfolds (f.appendZeroAccess base k).1
      (.access t (List.replicate k (.literal (.u32 0)))) := by
  obtain ⟨happ, hzero, haccess⟩ :=
    appends_appendZeroAccess k (Nat.zero_le _) (Nat.zero_le base) hbase
  exact .access haccess (ht.mono fun _ _ => happ.expr?) (unfoldsEach_replicate (.literal hzero) k)

/-! ## Cycles -/

/-- No expression uses itself, be it through others. -/
def Acyclic (f : Function) : Prop :=
  ∀ id, ¬ Relation.TransGen f.Uses id id

/-- Where each expression uses only those that stand before it, it reaches no others. -/
theorem lt_of_transGen_uses (h : ∀ a b : Nat, f.Uses a b → b < a) {a b : Nat}
    (hb : Relation.TransGen f.Uses a b) : b < a := by
  induction hb with
  | single hb => exact h _ _ hb
  | tail _ hb ih => exact Nat.lt_trans (h _ _ hb) ih

theorem acyclic_of_lt (h : ∀ a b : Nat, f.Uses a b → b < a) : f.Acyclic :=
  fun _ hid => Nat.lt_irrefl _ (lt_of_transGen_uses h hid)

/-- Whether each expression uses only those that stand before it. -/
def usesEarlier (f : Function) : Bool :=
  f.expressions.toList.zipIdx.all fun (e, id) => e.operands.all (· < id)

/-- A store that was filled in order has no cycle. -/
theorem acyclic_of_usesEarlier (h : f.usesEarlier) : f.Acyclic := by
  refine acyclic_of_lt ?_
  rintro a b ⟨e, he, hb⟩
  have hmem : (e, a) ∈ f.expressions.toList.zipIdx :=
    List.mk_mem_zipIdx_iff_getElem?.mpr (by simpa [expr?] using he)
  have hall := List.all_eq_true.mp h _ hmem
  simpa using List.all_eq_true.mp hall b hb

theorem Revises.uses_of_le (hfg : Revises σ f g) {a b : Nat} (h : g.Uses a b)
    (ha : f.expressions.size ≤ a) : f.expressions.size ≤ b ∧ b < a := by
  obtain ⟨e, he, hb⟩ := h
  exact (hfg.fresh a e ha he).2 b hb

theorem Revises.uses_of_lt (hfg : Revises σ f g) {a b : Nat} (h : g.Uses a b)
    (ha : a < f.expressions.size) (hb : b < f.expressions.size) : f.Uses a b := by
  obtain ⟨e, he, hop⟩ := h
  obtain ⟨e', he'⟩ := exists_expr?_of_lt ha
  obtain rfl := Option.some.inj ((hfg.expr a e' he').symm.trans he)
  rw [Expr.operands_mapOperands, List.mem_map] at hop
  obtain ⟨op, hmem, rfl⟩ := hop
  rcases hfg.lands op with hs | ⟨hge, -⟩
  · rw [hs]
    exact ⟨e', he', hmem⟩
  · omega

/-- What an old expression is built on was there before, as far as it leads to old ones. -/
theorem Revises.reaches_of_lt (hfg : Revises σ f g) {a b : Nat}
    (h : Relation.ReflTransGen g.Uses a b) (hb : b < f.expressions.size) :
    a < f.expressions.size ∧ Relation.ReflTransGen f.Uses a b := by
  induction h using Relation.ReflTransGen.head_induction_on with
  | refl => exact ⟨hb, .refl⟩
  | @head c d huses _ ih =>
    obtain ⟨hd, hreaches⟩ := ih
    have hc : c < f.expressions.size := by
      refine Nat.lt_of_not_le fun hle => ?_
      exact Nat.not_lt.mpr (hfg.uses_of_le huses hle).1 hd
    exact ⟨hc, .head (hfg.uses_of_lt huses hc hd) hreaches⟩

/-- **A revision brings in no cycle.** What has been added uses only what was added before it, and
the rest uses what it used, or what has been added. -/
theorem Revises.acyclic (hfg : Revises σ f g) (hf : f.Acyclic) : g.Acyclic := by
  -- From what has been added, uses lead down and never back to the rest.
  have hnew : ∀ {a b : Nat}, Relation.TransGen g.Uses a b → f.expressions.size ≤ a →
      f.expressions.size ≤ b ∧ b < a := by
    intro a b h ha
    induction h with
    | single h => exact hfg.uses_of_le h ha
    | tail _ h ih =>
      have h' := hfg.uses_of_le h ih.1
      exact ⟨h'.1, Nat.lt_trans h'.2 ih.2⟩
  -- Hence a path between old expressions was there before.
  have hold : ∀ {a b : Nat}, Relation.TransGen g.Uses a b → a < f.expressions.size →
      b < f.expressions.size → Relation.TransGen f.Uses a b := by
    intro a b h ha
    induction h with
    | single h => exact fun hb => .single (hfg.uses_of_lt h ha hb)
    | @tail c d _ h ih =>
      intro hd
      by_cases hc : c < f.expressions.size
      · exact (ih hc).tail (hfg.uses_of_lt h hc hd)
      · have := (hfg.uses_of_le h (Nat.not_lt.mp hc)).1
        omega
  intro id hid
  by_cases hlt : id < f.expressions.size
  · exact hf id (hold hid hlt hlt)
  · exact Nat.lt_irrefl _ (hnew hid (Nat.not_lt.mp hlt)).2

open Classical in
/-- The number of expressions that an expression is built on, itself among them. -/
noncomputable def rank (f : Function) (id : ExprId) : Nat :=
  ((Finset.range f.expressions.size).filter fun op => Relation.ReflTransGen f.Uses id op).card

theorem rank_le (f : Function) (id : ExprId) : f.rank id ≤ f.expressions.size := by
  classical
  exact (Finset.card_filter_le _ _).trans_eq (Finset.card_range _)

/-- **Without cycles, an operand has a smaller rank than what uses it.** -/
theorem rank_lt (hf : f.Acyclic) {id op : ExprId} (h : f.Uses id op) : f.rank op < f.rank id := by
  classical
  refine Finset.card_lt_card (Finset.ssubset_iff_of_subset (fun b hb => ?_) |>.mpr ⟨id, ?_, ?_⟩)
  · rw [Finset.mem_filter] at hb ⊢
    exact ⟨hb.1, .head h hb.2⟩
  · obtain ⟨e, he, -⟩ := h
    exact Finset.mem_filter.mpr ⟨Finset.mem_range.mpr (lt_size_of_expr? he), .refl⟩
  · rw [Finset.mem_filter, not_and]
    exact fun _ hback => hf id (.head' h hback)

/-- **Without cycles, what reaches no dangling operand unfolds.** -/
theorem exists_unfolds (hf : f.Acyclic) {id : ExprId}
    (hin : ∀ op : Nat, Relation.ReflTransGen f.Uses id op → op < f.expressions.size) :
    ∃ t, f.Unfolds id t := by
  induction hn : f.rank id using Nat.strong_induction_on generalizing id with
  | _ n ih =>
    have hstep : ∀ op, f.Uses id op → ∃ t, f.Unfolds op t := fun op hop =>
      ih _ (hn ▸ rank_lt hf hop) (fun b hb => hin b (.head hop hb)) rfl
    have hall : ∀ ops : List ExprId, (∀ op ∈ ops, f.Uses id op) → ∃ ts, f.UnfoldsEach ops ts := by
      intro ops
      induction ops with
      | nil => exact fun _ => ⟨[], .nil⟩
      | cons op ops ih =>
        intro h
        obtain ⟨t, ht⟩ := hstep op (h op (by simp))
        obtain ⟨ts, hts⟩ := ih fun b hb => h b (by simp [hb])
        exact ⟨t :: ts, .cons ht hts⟩
    obtain ⟨e, he⟩ := exists_expr?_of_lt (hin id .refl)
    cases e with
    | literal l => exact ⟨_, .literal he⟩
    | parameter p => exact ⟨_, .parameter he⟩
    | result callee => exact ⟨_, .result he⟩
    | access base indices =>
      obtain ⟨t, ht⟩ := hstep base ⟨_, he, by simp [Expr.operands]⟩
      obtain ⟨ts, hts⟩ := hall indices fun op hop => ⟨_, he, by simp [Expr.operands, hop]⟩
      exact ⟨_, .access he ht hts⟩
    | load pointer =>
      obtain ⟨t, ht⟩ := hstep pointer ⟨_, he, by simp [Expr.operands]⟩
      exact ⟨_, .load he ht⟩
    | binary op left right =>
      obtain ⟨t, ht⟩ := hstep left ⟨_, he, by simp [Expr.operands]⟩
      obtain ⟨u, hu⟩ := hstep right ⟨_, he, by simp [Expr.operands]⟩
      exact ⟨_, .binary he ht hu⟩

end Function

/-! ## Operands that are left -/

/-- A block uses the operands of its calls. -/
theorem Block.mem_operands_of_mem_calls {body : Block} {c : Call} {op : ExprId}
    (hc : c ∈ body.calls) (hop : op ∈ c.arguments) : op ∈ body.operands := by
  induction body with
  | nil => cases hc
  | cons head rest ih =>
    cases head with
    | call first =>
      rcases List.mem_cons.mp hc with rfl | hc
      · exact List.mem_append_left _ hop
      · exact List.mem_append_right _ (ih hc)
    | _ => exact List.mem_append_right _ (ih hc)
  | branch condition accept reject rest iha ihr ih =>
    simp only [calls, List.mem_append] at hc
    simp only [operands, List.mem_cons, List.mem_append]
    rcases hc with (hc | hc) | hc
    · exact .inr (.inl (.inl (iha hc)))
    · exact .inr (.inl (.inr (ihr hc)))
    · exact .inr (.inr (ih hc))
  | loop body rest ihb ih =>
    simp only [calls, List.mem_append] at hc
    simp only [operands, List.mem_append]
    exact hc.imp ihb ih

theorem Block.operands_prepend (cs : List Call) (b : Block) :
    (b.prepend cs).operands = cs.flatMap Call.arguments ++ b.operands := by
  induction cs with
  | nil => rfl
  | cons c cs ih =>
    change c.arguments ++ (b.prepend cs).operands = _
    rw [ih, List.flatMap_cons, List.append_assoc]

namespace Function

variable {σ : ExprId → ExprId} {f g : Function}

/-- An expression or a statement of the function has the operand `op`. -/
def Reads (f : Function) (op : ExprId) : Prop :=
  (∃ id, f.Uses id op) ∨ ∃ body, f.body = some body ∧ op ∈ body.operands

theorem reads_of_mem_arguments {c : Call} {op : ExprId} (hc : c ∈ f.calls)
    (hop : op ∈ c.arguments) : f.Reads op := by
  unfold calls at hc
  split at hc
  · rename_i body hbody
    exact .inr ⟨body, hbody, Block.mem_operands_of_mem_calls hc hop⟩
  · cases hc

theorem Revises.reads (hfg : Revises σ f g) {op : Nat} (h : g.Reads op) :
    f.expressions.size ≤ op ∨ ∃ source, f.Reads source ∧ σ source = op := by
  rcases h with ⟨id, e, he, hop⟩ | ⟨body, hbody, hop⟩
  · by_cases hlt : id < f.expressions.size
    · obtain ⟨e', he'⟩ := exists_expr?_of_lt hlt
      obtain rfl := Option.some.inj ((hfg.expr id e' he').symm.trans he)
      rw [Expr.operands_mapOperands, List.mem_map] at hop
      obtain ⟨source, hsource, rfl⟩ := hop
      exact Or.inr ⟨source, Or.inl ⟨id, e', he', hsource⟩, rfl⟩
    · exact Or.inl ((hfg.fresh id e (Nat.not_lt.mp hlt) he).2 op hop).1
  · rw [hfg.body] at hbody
    obtain ⟨old, hold, rfl⟩ := Option.map_eq_some_iff.mp hbody
    rw [Block.operands_mapOperands, List.mem_map] at hop
    obtain ⟨source, hsource, rfl⟩ := hop
    exact Or.inr ⟨source, Or.inr ⟨old, hold, hsource⟩, rfl⟩

/-- **What a revision has moved away from is not used any more.** -/
theorem Revises.not_reads_parameter (hfg : Revises σ f g) {p : Nat}
    (hmoved : ∀ id : Nat, f.expr? id = some (.parameter p) → f.expressions.size ≤ σ id)
    {op : Nat} (hop : g.expr? op = some (.parameter p)) : ¬ g.Reads op := by
  intro h
  have hlt := lt_size_of_expr? (hfg.parameter_iff.mp hop)
  rcases hfg.reads h with hge | ⟨source, -, rfl⟩
  · omega
  · rcases hfg.lands source with hs | ⟨hge, -⟩
    · rw [hs] at hop
      have := hmoved source (hfg.parameter_iff.mp hop)
      omega
    · omega

/-- Calls with literal operands read no parameter. -/
theorem not_reads_prependCalls {g : Function} {cs : List Call} {op : ExprId}
    (hcs : ∀ c ∈ cs, ∃ ls : List Literal, c.arguments.map g.literal? = ls.map some) {p : Nat}
    (hop : g.expr? op = some (.parameter p)) (h : ¬ g.Reads op) : ¬ (g.prependCalls cs).Reads op := by
  rintro (huses | ⟨body, hbody, hmem⟩)
  · exact h (.inl huses)
  · obtain ⟨old, hold, rfl⟩ := Option.map_eq_some_iff.mp hbody
    rw [Block.operands_prepend, List.mem_append] at hmem
    rcases hmem with hmem | hmem
    -- The operands of the calls are literals, and a literal is no parameter.
    · obtain ⟨c, hc, harg⟩ := List.mem_flatMap.mp hmem
      obtain ⟨ls, hls⟩ := hcs c hc
      obtain ⟨l, hl⟩ := exists_literal_of_mem hls harg
      cases hop.symm.trans (literal?_eq_some_iff.mp hl)
    · exact h (.inr ⟨old, hold, hmem⟩)

end Function

end ResourceBinding
