import ResourceBinding.Proofs.Program.Edits

/-!
# What references denote after a removal

Functions are referred to by position, so removing one moves the references to those behind it. The
others go on denoting what they denoted (`Module.remove_references`).

That leaves the references to the function that is gone. There is none by a call, which is what a
removal is refused for, but there may be one by the result of a call or by a mark. It stays as it is,
so that it comes to denote the next function, or none. All references are kept exactly if there is
no such one (`Module.remove_keeps_references_iff`). In a well-formed module it can only be a mark
(`Module.WellFormed.mem_marks_of_references`).
-/

namespace ResourceBinding

/-- The function that an expression refers to. -/
def Expr.callee? : Expr → Option FunctionId
  | result callee => some callee
  | literal _ | parameter _ | access _ _ | load _ | binary _ _ _ => none

theorem Expr.callee?_eq_some_iff {e : Expr} {callee : FunctionId} :
    e.callee? = some callee ↔ e = .result callee := by
  cases e <;> simp [callee?]

theorem Expr.callee?_mapCallee (move : FunctionId → FunctionId) (e : Expr) :
    (e.mapCallee move).callee? = e.callee?.map move := by
  cases e <;> rfl

namespace Function

variable {f : Function} {size types : Nat}

/-- The functions that the marks of the parameters refer to. -/
def marked (f : Function) : List FunctionId :=
  f.params.filterMap fun p => p.direct.map FixedResource.accessor

/-- All references of a function to functions: by its calls, by results of calls, and by marks. -/
def references (f : Function) : List FunctionId :=
  f.calls.map Call.callee ++ f.expressions.toList.filterMap Expr.callee? ++ f.marked

theorem mem_references {callee : FunctionId} : callee ∈ f.references ↔
    (∃ c ∈ f.calls, c.callee = callee) ∨ (∃ id, f.expr? id = some (.result callee)) ∨
      callee ∈ f.marked := by
  simp only [references, List.mem_append, List.mem_map, List.mem_filterMap, Expr.callee?_eq_some_iff,
    exists_eq_right, or_assoc]
  refine or_congr_right (or_congr_left ?_)
  rw [← Array.mem_def, Array.mem_iff_getElem?]
  rfl

/-- Moving the references of a function moves each of them. -/
theorem references_mapCallees (f : Function) (move : FunctionId → FunctionId) :
    (f.mapCallees move).references = f.references.map move := by
  have hresults : (f.mapCallees move).expressions.toList.filterMap Expr.callee?
      = (f.expressions.toList.filterMap Expr.callee?).map move := by
    simp only [mapCallees, Array.toList_map, List.filterMap_map, List.map_filterMap]
    exact congrArg (List.filterMap · _) (funext (Expr.callee?_mapCallee move))
  have hmarked : (f.mapCallees move).marked = f.marked.map move := by
    simp only [marked, mapCallees, List.filterMap_map, List.map_filterMap]
    refine congrArg (List.filterMap · _) (funext fun p => ?_)
    cases hp : p.direct <;> simp [hp]
  simp only [references, hresults, hmarked, calls_mapCallees, List.map_append, List.map_map]
  rfl

end Function

namespace Module

variable {m m' : Module} {id : FunctionId} {removed : Function}

/-- A reference in `m` and one in `m'` are to functions of one name, or both to none. -/
def SameReferent (m m' : Module) (r s : FunctionId) : Prop :=
  (m'.function? s).map Function.name = (m.function? r).map Function.name

theorem shift_self (id : FunctionId) : shift id id = id :=
  if_neg (Nat.lt_irrefl id)

/-- What stands where the removed function stood is the one that stood behind it. -/
theorem function?_remove_self (h : m.remove id = .ok (removed, m')) :
    m'.function? id = (m.function? (id + 1)).map (·.mapCallees (shift id)) := by
  obtain ⟨-, -, -, -, hfunction⟩ := remove_ok h
  rw [hfunction, unshift, if_neg (Nat.lt_irrefl id)]

theorem function?_remove_shift (h : m.remove id = .ok (removed, m')) {r : FunctionId}
    (hr : r ≠ id) :
    m'.function? (shift id r) = (m.function? r).map (·.mapCallees (shift id)) := by
  obtain ⟨-, -, -, -, hfunction⟩ := remove_ok h
  rw [hfunction, unshift_shift hr]

/-- **Removing a function keeps the order of the others, and what they refer to**, but for results
and marks that refer to the function itself. These come to denote the function that stood behind it,
or none if it was the last. -/
theorem remove_references (h : m.remove id = .ok (removed, m')) :
    m'.names = m.names.eraseIdx id ∧
    (∀ j f, j ≠ id → m.function? j = some f → ∃ g, m'.function? (shift id j) = some g ∧
      g.name = f.name ∧ g.references = f.references.map (shift id)) ∧
    (∀ r, r ≠ id → m.SameReferent m' r (shift id r)) ∧
    (∀ f ∈ m.functions, ∀ c ∈ f.calls, c.callee ≠ id) ∧
    m.SameReferent m' (id + 1) (shift id id) := by
  obtain ⟨-, hcalls, -, hnames, -⟩ := remove_ok h
  refine ⟨hnames, fun j f hj hf => ?_, fun r hr => ?_, hcalls, ?_⟩
  · refine ⟨f.mapCallees (shift id), ?_, rfl, f.references_mapCallees _⟩
    rw [function?_remove_shift h hj, hf, Option.map_some]
  · rw [SameReferent, function?_remove_shift h hr, Option.map_map]
    rfl
  · rw [SameReferent, shift_self, function?_remove_self h, Option.map_map]
    rfl

/-- What refers to the removed function denotes another one afterwards, or none. -/
theorem not_sameReferent_self (hm : m.NamesDistinct) (h : m.remove id = .ok (removed, m')) :
    ¬ m.SameReferent m' id (shift id id) := by
  obtain ⟨hremoved, -⟩ := remove_ok h
  rw [SameReferent, shift_self, function?_remove_self h, hremoved]
  cases hnext : m.function? (id + 1) with
  | none => simp
  | some next =>
    intro heq
    have hsame := hm.eq_of_name hnext hremoved (Option.some.inj heq)
    exact absurd hsame (Nat.succ_ne_self id)

/-- **All references of the other functions denote what they denoted if none is to the function that
is removed**, and only then. -/
theorem remove_keeps_references_iff (hm : m.NamesDistinct)
    (h : m.remove id = .ok (removed, m')) :
    (∀ j f, j ≠ id → m.function? j = some f → ∃ g, m'.function? (shift id j) = some g ∧
      List.Forall₂ (m.SameReferent m') f.references g.references) ↔
    ∀ j f, j ≠ id → m.function? j = some f → id ∉ f.references := by
  obtain ⟨-, hmoved, hkept, -, -⟩ := remove_references h
  constructor
  · intro hsame j f hj hf hid
    obtain ⟨g, hg, -, hreferences⟩ := hmoved j f hj hf
    obtain ⟨g', hg', hforall⟩ := hsame j f hj hf
    cases hg.symm.trans hg'
    rw [hreferences, List.forall₂_map_right_iff, List.forall₂_same] at hforall
    exact not_sameReferent_self hm h (hforall id hid)
  · intro hnone j f hj hf
    obtain ⟨g, hg, -, hreferences⟩ := hmoved j f hj hf
    refine ⟨g, hg, ?_⟩
    rw [hreferences, List.forall₂_map_right_iff, List.forall₂_same]
    intro r hr
    refine hkept r fun heq => hnone j f hj hf (heq ▸ hr)

/-- In a well-formed module, what can be removed is referred to by marks alone: each result is that
of a call. -/
theorem WellFormed.mem_marks_of_references (hm : m.WellFormed)
    (h : m.remove id = .ok (removed, m')) {j : FunctionId} {f : Function}
    (hf : m.function? j = some f) (hid : id ∈ f.references) : id ∈ f.marked := by
  obtain ⟨-, hcalls, -⟩ := remove_ok h
  have hnone := hcalls f (mem_functions_iff.mpr ⟨j, hf⟩)
  rcases Function.mem_references.mp hid with ⟨c, hc, hcallee⟩ | ⟨r, hr⟩ | hmarked
  · exact absurd hcallee (hnone c hc)
  · obtain ⟨c, hc, hcallee⟩ := (hm.function hf).exists_call_of_result hr
    exact absurd hcallee (hnone c hc)
  · exact hmarked

/-- A function whose parameter is marked with an accessor that nothing calls, the accessor, and
another function. -/
def idleAccessor : Module where
  types := ⟨#[⟨none, .scalar .f32⟩, ⟨none, .pointer 0 .global⟩]⟩
  functions := #[
    { Function.declaration "user" [] none with
      params := [⟨some "p", 1, some ⟨1, 0, 0, 0⟩⟩], body := some .nil },
    Function.declaration "accessor" [] (some 1),
    Function.declaration "other" [] none]

/-- Once the accessor is removed, the mark denotes the other function. -/
theorem idleAccessor_remove : ∃ removed m', idleAccessor.remove 1 = .ok (removed, m') ∧
    (idleAccessor.function? 0).map Function.references = some [1] ∧
    idleAccessor.nameOf 1 = "accessor" ∧
    (m'.function? 0).map Function.references = some [1] ∧ m'.nameOf 1 = "other" :=
  ⟨_, _, rfl, by decide +kernel, by decide +kernel, by decide +kernel, by decide +kernel⟩

end Module

end ResourceBinding
