import ResourceBinding.Binding.Kernels
import ResourceBinding.Proofs.Program.Lookup
import ResourceBinding.Proofs.Program.ValueTree
import ResourceBinding.Proofs.Run

/-!
# What a kernel with bound arguments computes

Binding an argument adds a call in front of the body and puts a tree over its result in place of
the parameter.

* `Function.binds_bindEach`: binding arguments in turn is one revision. Each call passes its
  accessor the operands of the row, and the parameters of the rows are replaced at once.
* `Module.function?_bindArguments`: the functions of a module with bound arguments.
-/

namespace ResourceBinding

/-- The operands that the accessor of an argument is called with. -/
def ArgumentRow.operands (row : ArgumentRow) : List Literal :=
  [.u32 row.set, .u32 row.binding, .u32 row.kind.tag, .u32 row.position]

/-- What stands for an argument of the kind, where `fetched` is the result of its accessor. -/
def ArgumentKind.replacement (kind : ArgumentKind) (fetched : ValueTree) : ValueTree :=
  match kind with
  | buffer => .access fetched (List.replicate 3 (.literal (.u32 0)))
  | pod => .load (.access fetched (List.replicate 2 (.literal (.u32 0))))
  | readOnlyImage | writeOnlyImage | sampler | workgroup => fetched

/-- No parameter is left in what stands for an argument. -/
theorem ArgumentKind.substitute_replacement (kind : ArgumentKind) (ρ : Nat → ValueTree)
    (callee : FunctionId) (r : ExprId) :
    (kind.replacement (.result callee r)).substitute ρ = kind.replacement (.result callee r) := by
  cases kind <;> rfl

namespace Function

variable {n : Nat} {f g h : Function}

/-! ## One argument -/

/-- The value for an argument is a tree over the result of its accessor. -/
theorem appends_appendArgument (kind : ArgumentKind) {r : Nat} {t : ValueTree}
    (hn : n ≤ f.expressions.size) (hge : n ≤ r) (hlt : r < f.expressions.size)
    (ht : f.Unfolds r t) :
    Appends n f (f.appendArgument kind r).2 ∧
      n ≤ (f.appendArgument kind r).1 ∧
      ((f.appendArgument kind r).1 : Nat) < (f.appendArgument kind r).2.expressions.size ∧
      (f.appendArgument kind r).2.Unfolds (f.appendArgument kind r).1 (kind.replacement t) := by
  cases kind with
  | buffer =>
    obtain ⟨happ, -, haccess⟩ := appends_appendZeroAccess 3 hn hge hlt
    refine ⟨happ, ?_, lt_size_of_expr? haccess, unfolds_appendZeroAccess 3 hlt ht⟩
    exact Nat.le_trans hn (by simp [appendArgument, appendZeroAccess, append])
  | pod =>
    obtain ⟨happ, -, haccess⟩ := appends_appendZeroAccess 2 hn hge hlt
    have hpointer : n ≤ (f.appendZeroAccess r 2).1 :=
      Nat.le_trans hn (by simp [appendZeroAccess, append])
    have hload : Appends n (f.appendZeroAccess r 2).2 (f.appendArgument .pod r).2 := by
      refine appends_append (by simp) fun op hop => ?_
      simp only [Expr.operands, List.mem_singleton] at hop
      subst hop
      exact ⟨hpointer, lt_size_of_expr? haccess⟩
    have hself : (f.appendArgument .pod r).2.expr? (f.appendArgument .pod r).1
        = some (.load (f.appendZeroAccess r 2).1) :=
      expr?_append_self (f.appendZeroAccess r 2).2 _
    refine ⟨happ.trans hload, Nat.le_trans hn happ.size_le, lt_size_of_expr? hself, ?_⟩
    exact .load hself ((unfolds_appendZeroAccess 2 hlt ht).mono fun _ _ => hload.expr?)
  | _ => exact ⟨.refl n f, hge, hlt, ht⟩

/-- The call fetches the argument of a row for the function. -/
structure Fetches (g : Function) (first : FunctionId) (row : ArgumentRow) (c : Call) (r : ExprId) :
    Prop where
  callee : c.callee = first + row.discriminant
  operands : c.arguments.map g.literal? = row.operands.map some
  result : c.result = some r
  expr : g.expr? r = some (.result c.callee)

theorem Redirects.fetches {σ : ExprId → ExprId} (hfg : Redirects σ f g) {first : FunctionId}
    {row : ArgumentRow} {c : Call} {r : ExprId} (h : f.Fetches first row c r) :
    g.Fetches first row c r :=
  { h with
    operands := map_literal?_mono (fun _ _ => hfg.literal?) h.operands
    expr := hfg.expr?_result h.expr }

/-- What is added to bind an argument: the operands, the result of the call, and the value over
it. -/
theorem appends_bindArgument (f : Function) (first : FunctionId) (row : ArgumentRow) :
    ∃ (ids : List ExprId) (r value : Nat) (g : Function),
      f.bindArgument first row = (⟨first + row.discriminant, ids, some r⟩,
        g.substituteParameter row.position value) ∧
      Appends f.expressions.size f g ∧
      ids.map g.literal? = row.operands.map some ∧
      (f.expressions.size ≤ r ∧ g.expr? r = some (.result (first + row.discriminant))) ∧
      (f.expressions.size ≤ value ∧ value < g.expressions.size) ∧
      g.Unfolds value (row.kind.replacement (.result (first + row.discriminant) r)) := by
  obtain ⟨ids, f₁, r, f₂, hf₁, hf₂, happ, hids, hge, hr⟩ :=
    f.appends_call (first + row.discriminant) row.operands
  obtain ⟨happ', hvaluege, hvaluelt, htree⟩ :=
    appends_appendArgument row.kind happ.size_le hge (lt_size_of_expr? hr) (.result hr)
  obtain ⟨value, g, hg⟩ : ∃ value g, f₂.appendArgument row.kind r = (value, g) := ⟨_, _, rfl⟩
  rw [hg] at happ' hvaluege hvaluelt htree
  refine ⟨ids, r, value, g, ?_, happ.trans happ', ?_, ⟨hge, happ'.expr? hr⟩,
    ⟨hvaluege, hvaluelt⟩, htree⟩
  · rw [ArgumentRow.operands] at hf₁
    simp only [bindArgument, hf₁, hf₂, hg]
  · exact map_literal?_mono (fun _ _ => happ'.literal?) hids

/-- **Binding an argument replaces its parameter by a tree over the result of a new call.** -/
theorem bindArgument_revises (f : Function) (first : FunctionId) (row : ArgumentRow) :
    ∃ (σ : ExprId → ExprId) (r : Nat),
      Revises σ f (f.bindArgument first row).2 ∧
      (f.bindArgument first row).2.Fetches first row (f.bindArgument first row).1 r ∧
      f.expressions.size ≤ r ∧
      (∀ id : Nat, f.expr? id = some (.parameter row.position) → f.expressions.size ≤ σ id ∧
        (f.bindArgument first row).2.Unfolds (σ id)
          (row.kind.replacement (.result (first + row.discriminant) r))) ∧
      ∀ id p, f.expr? id = some (.parameter p) → p ≠ row.position → σ id = id := by
  obtain ⟨ids, r, value, g, hbind, happ, hids, ⟨hrge, hr⟩, ⟨hge, hlt⟩, htree⟩ :=
    appends_bindArgument f first row
  obtain ⟨hrev, hred, hadded⟩ := revises_substituteParameter happ row.position hge hlt
  rw [hbind]
  refine ⟨f.redirectParameter row.position value, r, hrev, ⟨rfl, ?_, rfl, ?_⟩, hrge,
    fun id hid => ?_, fun id p hid hp => ?_⟩
  · exact map_literal?_mono (fun _ _ => hred.literal?) hids
  · exact hred.expr?_result hr
  · rw [redirectParameter, if_pos hid]
    refine ⟨hge, htree.transfer (P := fun id : Nat => f.expressions.size ≤ id)
      (fun id e hid he => (hadded id hid).trans he) (fun id op hid hop => ?_) hge⟩
    obtain ⟨e, he, hmem⟩ := hop
    exact ((happ.fresh id e hid he).2 op hmem).1
  · rw [redirectParameter, if_neg]
    intro h
    rw [hid] at h
    exact hp (by simpa using h)

/-! ## All arguments of a kernel -/

/-- The function `g` is `f` with the arguments of some rows bound: the calls fetch them, and each
use of an expression `id` has become a use of `σ id`. A parameter `p` of a row is replaced by the
tree `ρ p`. -/
structure Binds (first : FunctionId) (rows : List ArgumentRow) (f g : Function)
    (calls : List Call) (σ : ExprId → ExprId) (ρ : Nat → ValueTree) : Prop where
  revises : Revises σ f g
  fetches : List.Forall₂ (fun row c => ∃ r, g.Fetches first row c r ∧
    ρ row.position = row.kind.replacement (.result c.callee r)) rows calls
  fresh : ∀ c ∈ calls, ∃ r : Nat, c.result = some r ∧ f.expressions.size ≤ r
  distinct : (calls.map Call.result).Nodup
  unfolds : ∀ id p, f.expr? id = some (.parameter p) → g.Unfolds (σ id) (ρ p)
  moved : ∀ id p : Nat, p ∈ rows.map ArgumentRow.position →
    f.expr? id = some (.parameter p) → f.expressions.size ≤ σ id
  kept : ∀ p, p ∉ rows.map ArgumentRow.position → ρ p = .parameter p

/-- One more argument is bound, before the others: no argument is in the way of another, as what has
been added for one is left alone by the next. -/
theorem Binds.cons {first : FunctionId} {row : ArgumentRow} {rows : List ArgumentRow} {call : Call}
    {calls : List Call} {σ σ' : ExprId → ExprId} {ρ : Nat → ValueTree} {r : Nat}
    (hb : Binds first rows g h calls σ' ρ) (hnew : row.position ∉ rows.map ArgumentRow.position)
    (hrev : Revises σ f g) (hfetch : g.Fetches first row call r) (hr : f.expressions.size ≤ r)
    (htree : ∀ id : Nat, f.expr? id = some (.parameter row.position) → f.expressions.size ≤ σ id ∧
      g.Unfolds (σ id) (row.kind.replacement (.result (first + row.discriminant) r)))
    (hstay : ∀ id p, f.expr? id = some (.parameter p) → p ≠ row.position → σ id = id) :
    Binds first (row :: rows) f h (call :: calls) (σ' ∘ σ) fun p =>
      if p = row.position then row.kind.replacement (.result (first + row.discriminant) r)
      else ρ p where
  revises := hrev.trans hb.revises
  fetches := by
    refine .cons ⟨r, hb.revises.fetches hfetch, by rw [if_pos rfl, hfetch.callee]⟩ ?_
    have hmem := (List.forall₂_and_left (p := (· ∈ rows)) rows _).mpr ⟨fun _ h => h, hb.fetches⟩
    refine List.Forall₂.imp ?_ hmem
    rintro other c ⟨hmem, r', hfetch', htree'⟩
    -- The other rows have other positions, so their trees are not in the way of the first.
    have hother : other.position ≠ row.position := fun heq => hnew (heq ▸ List.mem_map_of_mem hmem)
    exact ⟨r', hfetch', by rw [if_neg hother, htree']⟩
  fresh := fun c hc => by
    rcases List.mem_cons.mp hc with rfl | hc
    · exact ⟨r, hfetch.result, hr⟩
    · obtain ⟨r', hr', hge⟩ := hb.fresh c hc
      exact ⟨r', hr', Nat.le_trans hrev.size_le hge⟩
  distinct := by
    refine List.nodup_cons.mpr ⟨fun hmem => ?_, hb.distinct⟩
    obtain ⟨c, hc, heq⟩ := List.mem_map.mp hmem
    obtain ⟨r', hr', hge⟩ := hb.fresh c hc
    rw [hr', hfetch.result, Option.some.injEq] at heq
    exact absurd (lt_size_of_expr? hfetch.expr) (Nat.not_lt.mpr (heq ▸ hge))
  unfolds := fun id p hid => by
    by_cases hp : p = row.position
    · subst hp
      have htree := hb.revises.unfolds hb.unfolds (htree id hid).2
      rw [ArgumentKind.substitute_replacement] at htree
      rw [if_pos rfl]
      exact htree
    · rw [if_neg hp, Function.comp_apply, hstay id p hid hp]
      exact hb.unfolds id p (hrev.parameter_iff.mpr hid)
  moved := fun id p hp hid => by
    rw [List.map_cons, List.mem_cons] at hp
    by_cases heq : p = row.position
    · subst heq
      have hge := (htree id hid).1
      rw [Function.comp_apply, hrev.stays_of_le hb.revises.toRedirects hge]
      exact hge
    · have hge := hb.moved id p (hp.resolve_left heq) (hrev.parameter_iff.mpr hid)
      rw [Function.comp_apply, hstay id p hid heq]
      exact Nat.le_trans hrev.size_le hge
  kept := fun p hp => by
    rw [List.map_cons, List.mem_cons, not_or] at hp
    rw [if_neg hp.1]
    exact hb.kept p hp.2

/-- **Binding arguments in turn replaces their parameters at once.** -/
theorem binds_bindEach (first : FunctionId) (rows : List ArgumentRow) :
    ∀ f : Function, (rows.map ArgumentRow.position).Nodup →
      ∃ σ ρ, Binds first rows f (bindEach first rows f).2 (bindEach first rows f).1 σ ρ := by
  induction rows with
  | nil =>
    intro f _
    exact ⟨id, .parameter, .refl f, .nil, by simp [bindEach], by simp [bindEach],
      fun _ _ h => .parameter h, by simp, fun _ _ => rfl⟩
  | cons row rows ih =>
    intro f hnodup
    rw [List.map_cons, List.nodup_cons] at hnodup
    obtain ⟨hnew, hnodup⟩ := hnodup
    obtain ⟨σ, r, hrev, hfetch, hr, htree, hstay⟩ := bindArgument_revises f first row
    obtain ⟨call, g, hg⟩ : ∃ call g, f.bindArgument first row = (call, g) := ⟨_, _, rfl⟩
    simp only [hg] at hrev hfetch htree
    obtain ⟨σ', ρ, hb⟩ := ih g hnodup
    simp only [bindEach, hg]
    exact ⟨σ' ∘ σ, _, hb.cons hnew hrev hfetch hr htree hstay⟩

theorem bindArguments_nil (f : Function) (first : FunctionId) : f.bindArguments first [] = f := by
  change { f with body := f.body.map (Block.prepend []) } = f
  have hprepend : Block.prepend [] = id := rfl
  rw [hprepend, Option.map_id_fun, id]

/-- Binding the arguments of a function edits its expressions and its body alone. -/
theorem bindArguments_frame (f : Function) (first : FunctionId) {rows : List ArgumentRow}
    (hnodup : (rows.map ArgumentRow.position).Nodup) :
    let g := f.bindArguments first rows
    g = { f with expressions := g.expressions, body := g.body } ∧
      g.body.isSome = f.body.isSome := by
  obtain ⟨σ, ρ, hb⟩ := binds_bindEach first rows f hnodup
  refine ⟨?_, ?_⟩
  · exact congrArg (Function.prependCalls · (bindEach first rows f).1) hb.revises.frame
  · change (Option.map _ (bindEach first rows f).2.body).isSome = _
    rw [Option.isSome_map, hb.revises.body, Option.isSome_map]

end Function

/-! ## The module -/

/-- The function declares the accessor with a number. -/
def Function.DeclaresAccessor (f : Function) (index : Nat) : Prop :=
  ∃ u32 result, f = { Function.declaration (ReservedName.accessor index)
    [u32, u32, u32, u32] (some result) with isPure := true }

namespace Module

variable {m : Module}

theorem functions_insertShape (m : Module) (shape : Shape) :
    (m.insertShape shape).2.functions = m.functions := rfl

theorem functions_insertAccessorResult (m : Module) (index : Nat) (type : TypeId) :
    (m.insertAccessorResult index type).2.functions = m.functions := by
  unfold insertAccessorResult
  split <;> rfl

/-- Declaring an accessor adds its declaration behind the functions. -/
theorem functions_addAccessor (m : Module) (index : Nat) (key : Discriminant) :
    ∃ f, f.DeclaresAccessor index ∧
      (m.addAccessor index key).functions = m.functions.push f := by
  let inserted := m.insertAccessorResult index key.type
  refine ⟨_, ⟨(inserted.2.insertShape (.scalar .u32)).1, inserted.1, rfl⟩, ?_⟩
  simp only [addAccessor, push, functions_insertShape, functions_insertAccessorResult, inserted]

/-- Declaring accessors adds their declarations behind the functions, in order. -/
theorem functions_addAccessors (keys : List Discriminant) :
    ∀ (m : Module) (index : Nat), ∃ fs : List Function,
      (m.addAccessors index keys).functions = m.functions ++ fs.toArray ∧
      fs.length = keys.length ∧
        ∀ (i : Nat) (f : Function), fs[i]? = some f → f.DeclaresAccessor (index + i) := by
  induction keys with
  | nil => exact fun m index => ⟨[], by simp [addAccessors], rfl, by simp⟩
  | cons key keys ih =>
    intro m index
    obtain ⟨f, hf, hfunctions⟩ := m.functions_addAccessor index key
    obtain ⟨fs, hfs, hlength, hdeclares⟩ := ih (m.addAccessor index key) (index + 1)
    refine ⟨f :: fs, ?_, by simp [hlength], fun i g hg => ?_⟩
    · rw [addAccessors, hfs, hfunctions]
      simp
    · cases i with
      | zero =>
        cases hg
        exact hf
      | succ i =>
        have := hdeclares i g (by simpa using hg)
        rwa [Nat.add_assoc, Nat.add_comm 1] at this

variable {keys : List Discriminant} {planned : List (FunctionId × List ArgumentRow)}

/-- What becomes of a function that was there: a kernel with rows has its arguments bound. -/
theorem function?_bindArguments (hnodup : (planned.map Prod.fst).Nodup) {id : Nat}
    (hid : id < m.functions.size) :
    (m.bindArguments keys planned).function? id = (m.function? id).map fun f =>
      ((planned.lookup id).map (f.bindArguments m.functions.size)).getD f := by
  obtain ⟨fs, hfs, -, -⟩ := functions_addAccessors keys m 0
  have hold : (m.addAccessors 0 keys).function? id = m.function? id := by
    simp only [function?, hfs]
    rw [Array.getElem?_append_left hid]
  rw [← hold]
  exact function?_foldl_modify (fun rows f => f.bindArguments m.functions.size rows) id planned _
    hnodup

/-- Behind the functions that were there, binding arguments leaves what has been declared. -/
theorem function?_bindArguments_of_le (hnodup : (planned.map Prod.fst).Nodup)
    (hold : ∀ p ∈ planned, (p.1 : Nat) < m.functions.size) {id : Nat}
    (hid : m.functions.size ≤ id) :
    (m.bindArguments keys planned).function? id = (m.addAccessors 0 keys).function? id := by
  have hnone : planned.lookup id = none := by
    rw [List.lookup_eq_none_iff]
    intro p hp
    rw [bne_iff_ne]
    exact Nat.ne_of_gt (Nat.lt_of_lt_of_le (hold p hp) hid)
  refine (function?_foldl_modify (fun rows f => f.bindArguments m.functions.size rows) _ planned
    _ hnodup).trans ?_
  rw [hnone]
  simp only [Option.map_none, Option.getD_none, Option.map_id']

/-- The functions behind those that were there are the accessors, in the order of their numbers. -/
theorem function?_bindArguments_add (hnodup : (planned.map Prod.fst).Nodup)
    (hold : ∀ p ∈ planned, (p.1 : Nat) < m.functions.size) (i : Nat) :
    (i < keys.length → ∃ f, f.DeclaresAccessor i ∧
      (m.bindArguments keys planned).function? (m.functions.size + i) = some f) ∧
    (keys.length ≤ i →
      (m.bindArguments keys planned).function? (m.functions.size + i) = none) := by
  obtain ⟨fs, hfs, hlength, hdeclares⟩ := functions_addAccessors keys m 0
  have hadded : (m.bindArguments keys planned).function? (m.functions.size + i) = fs[i]? := by
    rw [function?_bindArguments_of_le hnodup hold (Nat.le_add_right _ _), function?, hfs,
      Array.getElem?_append_right (Nat.le_add_right _ _)]
    simp
  rw [hadded, ← hlength]
  refine ⟨fun hi => ⟨fs[i], ?_, List.getElem?_eq_getElem hi⟩, List.getElem?_eq_none⟩
  have := hdeclares i _ (List.getElem?_eq_getElem hi)
  rwa [Nat.zero_add] at this

theorem types_bindArguments (m : Module) (keys : List Discriminant)
    (planned : List (FunctionId × List ArgumentRow)) :
    (m.bindArguments keys planned).types = (m.addAccessors 0 keys).types := by
  unfold bindArguments
  generalize m.addAccessors 0 keys = start
  induction planned generalizing start with
  | nil => rfl
  | cons row planned ih => exact ih _

end Module

end ResourceBinding
