import ResourceBinding.FixedResource.Resolution
import ResourceBinding.Proofs.FixedResource.Provenance

/-!
# Marks

Marking a parameter changes no other mark, and nothing that the pass looks at: verdicts
(`Module.verdict_setMark`), the call graph (`Module.callGraph_setMark`) and the parameters that are
resolved (`Module.candidates_setMark`) are what they were.
-/

namespace ResourceBinding.Module

variable {m : Module} {id other : FunctionId} {index i : Nat} {f : Function}

theorem function?_setMark (m : Module) (id : FunctionId) (index : Nat)
    (mark : Option FixedResource) (other : FunctionId) :
    (m.modify id (·.setMark index mark)).function? other
      = (m.function? other).map fun f => if id = other then f.setMark index mark else f := by
  rw [function?_modify]
  by_cases h : id = other
  · simp [h]
  · simp [h]

theorem mark?_setMark (hf : m.function? id = some f) (hindex : index < f.params.length)
    (mark : Option FixedResource) :
    (m.modify id (·.setMark index mark)).mark? id index = mark := by
  unfold mark?
  rw [function?_setMark, hf]
  simp [Function.setMark, hindex]

theorem mark?_setMark_of_ne (mark : Option FixedResource) (h : (other, i) ≠ (id, index)) :
    (m.modify id (·.setMark index mark)).mark? other i = m.mark? other i := by
  unfold mark?
  rw [function?_setMark]
  cases m.function? other with
  | none => rfl
  | some f =>
    by_cases hid : id = other
    · subst hid
      have hne : index ≠ i := fun heq => h (by rw [heq])
      simp [Function.setMark, hne]
    · simp [hid]

theorem setMark_mark? (m : Module) (id : FunctionId) (index : Nat) :
    m.modify id (·.setMark index (m.mark? id index)) = m := by
  refine modify_eq_self fun f hf => ?_
  have hparams : (f.params.modify index fun p => { p with direct := m.mark? id index })
      = f.params := by
    refine List.ext_getElem? fun i => ?_
    rw [List.getElem?_modify]
    by_cases hi : index = i
    · subst hi
      cases hp : f.params[index]? with
      | none => rfl
      | some p => simp [mark?, hf, hp]
    · simp [hi]
  rw [Function.setMark, hparams]

/-! ## Verdicts -/

theorem isAccessor_setMark (m : Module) (id : FunctionId) (index : Nat)
    (mark : Option FixedResource) (other : FunctionId) :
    (m.modify id (·.setMark index mark)).isAccessor other = m.isAccessor other := by
  refine isAccessor_congr ?_
  rw [function?_setMark, Option.map_map]
  refine congrArg (Option.map · _) (funext fun f => ?_)
  rw [Function.comp_apply]
  split <;> rfl

theorem callsTo_setMark (m : Module) (id : FunctionId) (index : Nat)
    (mark : Option FixedResource) (callee : FunctionId) :
    (m.modify id (·.setMark index mark)).callsTo callee = m.callsTo callee := by
  refine callsTo_congr fun caller => ?_
  rw [function?_setMark, Option.map_map]
  refine congrArg (Option.map · _) (funext fun f => ?_)
  rw [Function.comp_apply]
  split <;> rfl

theorem argumentProvenance_setMark (m : Module) (id : FunctionId) (index : Nat)
    (mark : Option FixedResource) (i : Nat) (site : FunctionId × Call) :
    (m.modify id (·.setMark index mark)).argumentProvenance i site
      = m.argumentProvenance i site := by
  cases hf : m.function? site.1 with
  | none =>
    unfold argumentProvenance
    rw [function?_setMark, hf]
    cases site.2.arguments[i]? <;> rfl
  | some f =>
    refine argumentProvenance_congr (m.isAccessor_setMark id index mark) hf
      (g := if id = site.1 then f.setMark index mark else f) ?_ ?_ ?_
    · rw [function?_setMark, hf]
      rfl
    · split <;> rfl
    · split <;> rfl

theorem parameterProvenance_setMark (m : Module) (id : FunctionId) (index : Nat)
    (mark : Option FixedResource) :
    (m.modify id (·.setMark index mark)).parameterProvenance = m.parameterProvenance := by
  funext other i
  exact parameterProvenance_congr (m.callsTo_setMark id index mark other) fun site _ =>
    m.argumentProvenance_setMark id index mark i site

/-- **Marks do not matter to verdicts.** -/
theorem verdict_setMark (m : Module) (id : FunctionId) (index : Nat)
    (mark : Option FixedResource) :
    (m.modify id (·.setMark index mark)).verdict = m.verdict := by
  funext other i
  rw [verdict, verdict, parameterProvenance_setMark]

/-! ## Which parameters are resolved -/

theorem isDefined_setMark (m : Module) (id : FunctionId) (index : Nat)
    (mark : Option FixedResource) (other : FunctionId) :
    (m.modify id (·.setMark index mark)).isDefined other = m.isDefined other := by
  unfold isDefined
  rw [function?_setMark, Option.any_map]
  refine congrArg (Option.any · _) (funext fun f => ?_)
  split <;> rfl

/-- Marks do not matter to the call graph. -/
theorem callGraph_setMark (m : Module) (id : FunctionId) (index : Nat)
    (mark : Option FixedResource) :
    (m.modify id (·.setMark index mark)).callGraph = m.callGraph := by
  have hsize : (m.modify id (·.setMark index mark)).functions.size = m.functions.size := by
    simp [modify]
  have hcallees : ∀ f g : Function, g.calls = f.calls →
      (m.modify id (·.setMark index mark)).definedCallees g = m.definedCallees f := by
    intro f g hcalls
    rw [definedCallees, definedCallees, hsize, hcalls]
    simp only [isDefined_setMark]
  have hkernels : ∀ p : Module, p.kernels.map Prod.fst
      = ((p.indexed.map fun p => (p.1, p.2.isKernel)).filter Prod.snd).map Prod.fst := by
    intro p
    rw [kernels, List.filter_map, List.map_map]
    rfl
  unfold callGraph
  congr 1
  · refine Array.ext_getElem? fun other => ?_
    have hother := m.function?_setMark id index mark other
    unfold function? at hother
    rw [Array.getElem?_map, Array.getElem?_map, hother, Option.map_map]
    refine congrArg (Option.map · _) (funext fun f => hcallees _ _ ?_)
    split <;> rfl
  · rw [hkernels, hkernels, indexed_congr fun other => ?_]
    rw [function?_setMark, Option.map_map]
    refine congrArg (Option.map · _) (funext fun f => ?_)
    rw [Function.comp_apply]
    split <;> rfl

theorem resourceParams_setMark (f : Function) (index : Nat) (mark : Option FixedResource)
    (types : TypeTable) : (f.setMark index mark).resourceParams types = f.resourceParams types := by
  unfold Function.resourceParams Function.setMark
  rw [List.length_modify]
  refine congrArg (List.filter · _) (funext fun i => ?_)
  rw [List.getElem?_modify]
  by_cases hi : index = i
  · cases f.params[i]? <;> simp [hi]
  · simp [hi]

/-- Marks do not matter to which parameters are resolved. -/
theorem candidates_setMark (m : Module) (id : FunctionId) (index : Nat)
    (mark : Option FixedResource) :
    (m.modify id (·.setMark index mark)).candidates = m.candidates := by
  funext order
  unfold candidates
  refine congrArg (List.flatMap · _) (funext fun other => ?_)
  rw [function?_setMark]
  cases m.function? other with
  | none => rfl
  | some f =>
    by_cases hid : id = other
    · subst hid
      simp only [Option.map_some, if_true]
      rw [show (m.modify id (·.setMark index mark)).types = m.types from rfl,
        resourceParams_setMark]
      rfl
    · simp only [Option.map_some, hid, if_false]
      rfl

end ResourceBinding.Module
