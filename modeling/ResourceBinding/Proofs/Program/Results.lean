import ResourceBinding.Program.Function
import ResourceBinding.Proofs.Program.Revision

/-!
# The results of calls in a store

`Function.resultIds` lists the expressions that are results of calls. Here is how the list reads
after each edit: it grows by a result that is added, and no other edit changes it.
-/

namespace ResourceBinding

/-- Whether an expression is the result of a call. -/
def Expr.isResult : Expr → Bool
  | result _ => true
  | literal _ | parameter _ | access _ _ | load _ | binary _ _ _ => false

theorem Expr.isResult_iff {e : Expr} : e.isResult ↔ ∃ callee, e = .result callee := by
  cases e <;> simp [isResult]

@[simp]
theorem Expr.isResult_mapOperands (σ : ExprId → ExprId) (e : Expr) :
    (e.mapOperands σ).isResult = e.isResult := by
  cases e <;> rfl

@[simp]
theorem Expr.isResult_mapCallee (move : FunctionId → FunctionId) (e : Expr) :
    (e.mapCallee move).isResult = e.isResult := by
  cases e <;> rfl

/-- The positions of the results of calls in a store, in order. -/
def resultsIn (es : Array Expr) : List ExprId :=
  (List.range es.size).filter fun id => es[id]?.any Expr.isResult

theorem mem_resultsIn {es : Array Expr} {r : Nat} :
    r ∈ resultsIn es ↔ ∃ callee, es[r]? = some (.result callee) := by
  simp only [resultsIn, List.mem_filter, List.mem_range, Option.any_eq_true, Expr.isResult_iff]
  constructor
  · rintro ⟨-, e, he, callee, rfl⟩
    exact ⟨callee, he⟩
  · rintro ⟨callee, he⟩
    exact ⟨(Array.getElem?_eq_some_iff.mp he).1, _, he, callee, rfl⟩

theorem nodup_resultsIn (es : Array Expr) : (resultsIn es).Nodup :=
  List.nodup_range.filter _

theorem resultsIn_congr {es es' : Array Expr} (hsize : es'.size = es.size)
    (h : ∀ id : Nat, es'[id]?.any Expr.isResult = es[id]?.any Expr.isResult) :
    resultsIn es' = resultsIn es := by
  simp only [resultsIn, hsize, h]

theorem resultsIn_push (es : Array Expr) (e : Expr) :
    resultsIn (es.push e) = resultsIn es ++ if e.isResult then [es.size] else [] := by
  have hold : (List.range es.size).filter (fun id => (es.push e)[id]?.any Expr.isResult)
      = resultsIn es := by
    refine List.filter_congr fun id hid => ?_
    rw [Array.getElem?_push_lt (List.mem_range.mp hid),
      Array.getElem?_eq_getElem (List.mem_range.mp hid)]
  rw [resultsIn, Array.size_push, List.range_succ, List.filter_append, hold]
  cases he : e.isResult <;> simp [he]

namespace Function

variable {f g : Function}

/-- The expressions that are results of calls, in order. -/
def resultIds (f : Function) : List ExprId :=
  resultsIn f.expressions

theorem mem_resultIds {r : ExprId} :
    r ∈ f.resultIds ↔ ∃ callee, f.expr? r = some (.result callee) :=
  mem_resultsIn

@[simp]
theorem resultIds_append_result (f : Function) (callee : FunctionId) :
    (f.append (.result callee)).2.resultIds = f.resultIds ++ [f.expressions.size] :=
  resultsIn_push _ _

theorem resultIds_append {e : Expr} (f : Function) (he : e.isResult = false) :
    (f.append e).2.resultIds = f.resultIds := by
  refine (resultsIn_push _ _).trans ?_
  rw [he]
  exact List.append_nil _

@[simp]
theorem resultIds_appendZeroAccess (f : Function) (base : ExprId) (k : Nat) :
    (f.appendZeroAccess base k).2.resultIds = f.resultIds :=
  (resultIds_append (f.append (.literal (.u32 0))).2 rfl).trans (resultIds_append f rfl)

@[simp]
theorem resultIds_substitute (f : Function) (source target : ExprId) :
    (f.substitute source target).resultIds = f.resultIds := by
  refine resultsIn_congr (size_substitute f source target) fun id => ?_
  simp only [substitute, Array.getElem?_mapIdx]
  cases f.expressions[id]? with
  | none => rfl
  | some e =>
    simp only [Option.map_some, Option.any_some]
    split
    · rfl
    · exact Expr.isResult_mapOperands _ e

@[simp]
theorem resultIds_substituteParameter (f : Function) (index : Nat) (target : ExprId) :
    (f.substituteParameter index target).resultIds = f.resultIds := by
  unfold substituteParameter
  generalize f.parameterOccurrences index = sources
  induction sources generalizing f with
  | nil => rfl
  | cons source sources ih => exact (ih _).trans (resultIds_substitute f source target)

/-- `g` is `f` with literals at the end. -/
structure AddsLiterals (f g : Function) : Prop extends Appends 0 f g where
  literal : ∀ (id : Nat) (e : Expr), f.expressions.size ≤ id → g.expr? id = some e →
    ∃ l, e = .literal l

theorem AddsLiterals.refl (f : Function) : AddsLiterals f f :=
  ⟨.refl 0 f, fun _ _ hid he => absurd (lt_size_of_expr? he) (Nat.not_lt.mpr hid)⟩

theorem AddsLiterals.trans {h : Function} (hfg : AddsLiterals f g) (hgh : AddsLiterals g h) :
    AddsLiterals f h := by
  refine ⟨hfg.toAppends.trans hgh.toAppends, fun id e hid he => ?_⟩
  by_cases hlt : id < g.expressions.size
  · rw [hgh.old id hlt] at he
    exact hfg.literal id e hid he
  · exact hgh.literal id e (Nat.not_lt.mp hlt) he

theorem addsLiterals_appendLiterals (ls : List Literal) (f : Function) :
    AddsLiterals f (appendLiterals ls f).2 := by
  induction ls generalizing f with
  | nil => exact .refl f
  | cons l ls ih =>
    refine .trans ⟨appends_append (by simp) (by simp [Expr.operands]), fun id e hid he => ?_⟩ (ih _)
    have hlt := lt_size_of_expr? he
    simp only [append, Array.size_push] at hlt
    obtain rfl : id = f.expressions.size := by omega
    exact ⟨l, (Option.some.inj ((expr?_append_self f _).symm.trans he)).symm⟩

/-- Literals are no results. -/
theorem AddsLiterals.resultIds_eq (hfg : AddsLiterals f g) : g.resultIds = f.resultIds := by
  obtain ⟨k, hk⟩ := Nat.exists_eq_add_of_le hfg.size_le
  unfold resultIds resultsIn
  rw [hk, List.range_add, List.filter_append]
  have hold : (List.range f.expressions.size).filter (fun id => g.expressions[id]?.any Expr.isResult)
      = (List.range f.expressions.size).filter fun id => f.expressions[id]?.any Expr.isResult := by
    refine List.filter_congr fun id hid => ?_
    exact congrArg (Option.any Expr.isResult) (hfg.old id (List.mem_range.mp hid))
  rw [hold]
  refine List.append_right_eq_self.mpr (List.filter_eq_nil_iff.mpr fun id hid hany => ?_)
  obtain ⟨i, -, rfl⟩ := List.mem_map.mp hid
  rw [Option.any_eq_true] at hany
  obtain ⟨e, he, hresult⟩ := hany
  obtain ⟨l, rfl⟩ := hfg.literal _ e (Nat.le_add_right _ _) he
  cases hresult

@[simp]
theorem resultIds_appendLiterals (ls : List Literal) (f : Function) :
    (appendLiterals ls f).2.resultIds = f.resultIds :=
  (addsLiterals_appendLiterals ls f).resultIds_eq

@[simp]
theorem resultIds_mapCallees (f : Function) (move : FunctionId → FunctionId) :
    (f.mapCallees move).resultIds = f.resultIds := by
  refine resultsIn_congr (by simp [mapCallees]) fun id => ?_
  simp only [mapCallees, Array.getElem?_map, Option.any_map]
  cases f.expressions[id]? with
  | none => rfl
  | some e => exact Expr.isResult_mapCallee _ e

end Function

end ResourceBinding
