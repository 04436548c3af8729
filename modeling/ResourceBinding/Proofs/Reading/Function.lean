import ResourceBinding.Proofs.Program.WellFormed
import ResourceBinding.Proofs.Reading.Body

/-!
# Functions with a body that was read

A function whose body was read is well-formed (`Function.Drafted.wellFormed`) and can be written out
again (`Function.Drafted.legible`).
-/

namespace ResourceBinding

/-- The operands can stand side by side: nothing that any of them is built on has the name of a
parameter among them. -/
def Function.Apart (f : Function) (ids : List ExprId) : Prop :=
  ∀ op ∈ ids, ∀ p, f.expr? op = some (.parameter p) → ∀ other ∈ ids, ∀ v e, f.Reaches other v →
    f.expr? v = some e → e.isNamed → f.shownName v ≠ f.paramName p

theorem Function.Apart.tail {f : Function} {id : ExprId} {ids : List ExprId} (h : f.Apart (id :: ids)) :
    f.Apart ids := fun op hop p hp other hother =>
  h op (List.mem_cons_of_mem _ hop) p hp other (List.mem_cons_of_mem _ hother)

/-- What the listing of a function needs to be read again: values have names that tell them apart,
parameters are found by their names, and where a parameter is used, no value that is needed there
has its name. -/
structure Function.Legible (f : Function) : Prop where
  named : ∀ id e, f.expr? id = some e → e.isNamed → IsName (f.shownName id)
  name_inj : ∀ id id' e e', f.expr? id = some e → e.isNamed → f.expr? id' = some e' → e'.isNamed →
    f.shownName id = f.shownName id' → id = id'
  parameter : ∀ id p, f.expr? id = some (.parameter p) →
    f.params.findIdx? (·.name == some (f.paramName p)) = some p
  literal : ∀ id l, f.expr? id = some (.literal l) → l.InRange
  operands : ∀ id e, f.expr? id = some e → f.Apart e.operands
  uses : ∀ s ∈ f.steps, f.Apart s.uses

namespace Function

variable {names : List String} {f : Function} {b : Block} {d : BodyDraft} {types : Nat}

theorem legible_of_isDeclaration (hbody : f.body = none) (hstore : f.expressions = #[]) :
    f.Legible := by
  constructor <;> simp [expr?, steps, hbody, hstore]

/-- The parameter with a name is shown by it. -/
theorem paramName_of_findIdx? {name : String} {p : Nat}
    (h : f.params.findIdx? (·.name == some name) = some p) : f.paramName p = name := by
  obtain ⟨hlt, heq, -⟩ := List.findIdx?_eq_some_iff_getElem.mp h
  have hname : (f.params[p]?).bind Param.name = some name := by
    rw [List.getElem?_eq_getElem hlt]
    exact eq_of_beq heq
  rw [paramName, hname]

theorem shownName_of_exprName? {id : ExprId} {name : String} (h : f.exprName? id = some name) :
    f.shownName id = name := by
  rw [shownName, h]

/-- The body of the function has been read as `b`, and the store and the names with it. -/
structure Drafted (names : List String) (f : Function) (b : Block) (d : BodyDraft) : Prop where
  read : BodyReader.ReadsBlock ⟨names, f.params⟩ .empty b d
  body : f.body = some b
  expressions : f.expressions = d.expressions
  names_eq : f.names = d.values.map Prod.swap

namespace Drafted

theorem expr?_eq (h : f.Drafted names b d) (id : ExprId) : f.expr? id = d.expr? id := by
  rw [expr?, h.expressions, BodyDraft.expr?]

theorem steps_eq (h : f.Drafted names b d) : f.steps = b.steps := by
  rw [steps, h.body]

theorem calls_eq (h : f.Drafted names b d) : f.calls = b.calls := by
  rw [calls, h.body]

theorem exprName?_eq_some_iff (h : f.Drafted names b d) {id : ExprId} {name : String} :
    f.exprName? id = some name ↔ (name, id) ∈ d.values := by
  have hmem : (id, name) ∈ d.values.map Prod.swap ↔ (name, id) ∈ d.values :=
    List.mem_map_of_injective Prod.swap_injective (a := (name, id))
  have hnodup : ((d.values.map Prod.swap).map Prod.fst).Nodup := by
    rw [List.map_map]
    exact h.read.valid.ids
  rw [exprName?, h.names_eq, ← hmem]
  exact ⟨mem_of_lookup, lookup_of_mem hnodup⟩

/-- A statement was read when the store had a certain size. -/
theorem step (h : f.Drafted names b d) {before after : List Step} {s : Step}
    (hsteps : f.steps = before ++ s :: after) :
    d.StepRead ⟨names, f.params⟩ (made before) s := by
  rw [h.steps_eq] at hsteps
  have := along_iff.mp h.read.steps before s after hsteps
  rwa [show resultsIn BodyDraft.empty.expressions = [] from rfl, List.nil_append] at this

theorem uses_lt (h : f.Drafted names b d) (id op : Nat) (huses : f.Uses id op) : op < id := by
  obtain ⟨e, he, hop⟩ := huses
  exact (h.read.valid.operand id e (h.expr?_eq id ▸ he) op hop).1

/-- **A function whose body was read is well-formed.** -/
theorem wellFormed (h : f.Drafted names b d) (htyped : f.Typed types) :
    f.WellFormed names.length types where
  callee_lt := fun c hc => (h.read.linked c (h.calls_eq ▸ hc)).1
  result := by
    intro c hc r hr
    rw [h.expr?_eq]
    exact (h.read.linked c (h.calls_eq ▸ hc)).2 r hr
  toTyped := htyped
  result_callee := fun r callee hr => h.read.valid.callee_lt r callee (h.expr?_eq r ▸ hr)
  operand_lt := by
    intro op hop
    rcases reads_iff.mp hop with ⟨id, huses⟩ | ⟨s, hs, hop⟩
    · have hlt := h.uses_lt id op huses
      obtain ⟨e, he, -⟩ := huses
      exact Nat.lt_trans hlt (lt_size_of_expr? he)
    · obtain ⟨before, after, hsteps⟩ := List.append_of_mem hs
      obtain ⟨n, hn, -, huses⟩ := h.step hsteps
      rw [h.expressions]
      exact Nat.lt_of_lt_of_le (huses op hop).1 hn
  acyclic := acyclic_of_lt h.uses_lt
  made_once := by
    intro r callee hr
    refine made_once_of_perm (List.Perm.of_eq ?_) hr
    rw [resultIds, h.expressions, h.read.results, h.steps_eq]
    rfl
  made_before := by
    intro before s after hsteps op hop r hleads
    obtain ⟨n, -, hresults, huses⟩ := h.step hsteps
    obtain ⟨hreaches, callee, hr⟩ := hleads
    refine hresults r (mem_resultsIn.mpr ⟨callee, (h.expr?_eq r).symm.trans hr⟩) ?_
    have hop := (huses op hop).1
    rcases Relation.reflTransGen_iff_eq_or_transGen.mp hreaches with rfl | htrans
    · exact hop
    · exact Nat.lt_trans (lt_of_transGen_uses h.uses_lt htrans) hop
  parameter_lt := by
    intro id p hp
    obtain ⟨name, hname⟩ := h.read.valid.parameter id p (h.expr?_eq id ▸ hp)
    exact (List.findIdx?_eq_some_iff_getElem.mp hname).1

/-- A value is shown by the name that it was read with. -/
theorem mem_values (h : f.Drafted names b d) {id : ExprId} {e : Expr} (he : f.expr? id = some e)
    (hnamed : e.isNamed) : (f.shownName id, id) ∈ d.values := by
  obtain ⟨name, hname⟩ := h.read.valid.named id e (h.expr?_eq id ▸ he) hnamed
  rwa [shownName_of_exprName? (h.exprName?_eq_some_iff.mpr hname)]

theorem findIdx?_paramName (h : f.Drafted names b d) {id : ExprId} {p : Nat}
    (hp : f.expr? id = some (.parameter p)) :
    f.params.findIdx? (·.name == some (f.paramName p)) = some p := by
  obtain ⟨name, hname⟩ := h.read.valid.parameter id p (h.expr?_eq id ▸ hp)
  rwa [paramName_of_findIdx? hname]

/-- What has been read when the store had a certain size can stand side by side. -/
theorem apart (h : f.Drafted names b d) {ids : List ExprId} {n : Nat}
    (hids : ∀ op ∈ ids, (op : Nat) < n ∧ d.Unhidden ⟨names, f.params⟩ n op) : f.Apart ids := by
  intro op hop p hp other hother v e hreaches he hnamed heq
  have hle : (v : Nat) ≤ other := by
    rcases Relation.reflTransGen_iff_eq_or_transGen.mp hreaches with rfl | htrans
    · exact Nat.le_refl _
    · exact Nat.le_of_lt (lt_of_transGen_uses h.uses_lt htrans)
  have hname : (f.params[p]?).bind Param.name = some (f.paramName p) := by
    obtain ⟨hlt, heq, -⟩ := List.findIdx?_eq_some_iff_getElem.mp (h.findIdx?_paramName hp)
    rw [List.getElem?_eq_getElem hlt]
    exact eq_of_beq heq
  have hlater := (hids op hop).2 p _ (h.expr?_eq op ▸ hp) hname v (heq ▸ h.mem_values he hnamed)
  exact Nat.lt_irrefl _ (Nat.lt_of_lt_of_le (hids other hother).1 (Nat.le_trans hlater hle))

/-- **A function whose body was read can be written out again.** -/
theorem legible (h : f.Drafted names b d) : f.Legible where
  named := fun id _ he hnamed => (h.read.valid.value _ id (h.mem_values he hnamed)).1
  name_inj := by
    intro id id' e e' he hnamed he' hnamed' heq
    have hsame := (lookup_of_mem h.read.valid.names (h.mem_values he hnamed)).symm.trans
      (heq ▸ lookup_of_mem h.read.valid.names (h.mem_values he' hnamed'))
    exact Option.some.inj hsame
  parameter := fun _ _ hp => h.findIdx?_paramName hp
  literal := fun id l hl => h.read.valid.literal id l (h.expr?_eq id ▸ hl)
  operands := fun id e he => h.apart (h.read.valid.operand id e (h.expr?_eq id ▸ he))
  uses := by
    intro s hs
    obtain ⟨before, after, hsteps⟩ := List.append_of_mem hs
    obtain ⟨n, -, -, huses⟩ := h.step hsteps
    exact h.apart huses

end Drafted

end Function

end ResourceBinding
