import ResourceBinding.Proofs.FixedResource.Verdicts
import ResourceBinding.Proofs.Program.Edits

/-!
# Resolving parameters keeps modules well-formed

Each step marks a parameter, and may let its function fetch a resource. Both keep the module
well-formed, and so does a run of them, from its first step to its last
(`Resolution.wellFormed_run`).
-/

namespace ResourceBinding

namespace Function

variable {f g : Function} {size types index : Nat} {o : Provenance}

theorem WellFormed.setMark (hf : f.WellFormed size types) (index : Nat)
    (mark : Option FixedResource) : (f.setMark index mark).WellFormed size types := by
  refine hf.reframe (linked_setMark hf.toLinked index mark) (Nat.le_refl _) ?_ rfl (Nat.le_refl _)
    hf.result_callee rfl (fun _ _ h => h) (fun _ _ h => h)
    (List.forall₂_same.mpr fun s _ => ⟨rfl, fun op hop => .inl hop⟩)
  refine List.ext_getElem? fun i => ?_
  simp only [Function.setMark, List.getElem?_map, List.getElem?_modify]
  cases f.params[i]? with
  | none => rfl
  | some p => by_cases h : index = i <;> simp [h]

/-- **Fetching a resource keeps a function well-formed.** -/
theorem WellFormed.fetchParameter (hf : f.WellFormed size types)
    (hlt : (o.resource.accessor : Nat) < size) (h : f.fetchParameter index o = .ok g) :
    g.WellFormed size types := by
  have hbody := isSome_body_of_fetchParameter h
  obtain ⟨ls, ids, r, f₁, σ, -, hrev, hids, ⟨-, hresults, hr⟩, rfl⟩ := fetchParameter_ok h
  refine hf.revise hrev hbody ⟨hresults, fun c hc => ?_, fun c hc r' hr' => ?_, fun c hc => ?_⟩
  · rw [List.mem_singleton.mp hc]
    exact hlt
  · obtain rfl := List.mem_singleton.mp hc
    cases hr'
    exact hr
  · rw [List.mem_singleton.mp hc]
    exact ⟨ls, hids⟩

end Function

namespace Module.WellFormed

variable {m : Module} {id : FunctionId} {index : Nat}

theorem setMark (hm : m.WellFormed) (id : FunctionId) (index : Nat)
    (mark : Option FixedResource) : (m.modify id (·.setMark index mark)).WellFormed := by
  cases hf : m.function? id with
  | none =>
    rw [modify_eq_self fun f h => by cases hf.symm.trans h]
    exact hm
  | some f => exact hm.modify hf rfl ((hm.function hf).setMark index mark)

end Module.WellFormed

namespace Resolution

variable {s : Resolution}

/-- **A step keeps the program well-formed.** -/
theorem wellFormed_step (options : Options) (hs : s.program.WellFormed) (id : FunctionId)
    (index : Nat) : (s.step options id index).program.WellFormed := by
  refine step_keeps Module.WellFormed options s id index (hs.setMark id index _)
    fun h ho hf hg => ?_
  have haccessor := (Module.parameterProvenance_ok h.linked ho).1
  refine h.modify hf (congrArg Prod.fst (Function.role_fetchParameter hg)) ?_
  exact (h.function hf).fetchParameter (Module.lt_size_of_isAccessor haccessor) hg

/-- **A run keeps the program well-formed, wherever it is stopped.** -/
theorem wellFormed_run (options : Options) (candidates : List (FunctionId × Nat)) :
    ∀ {s : Resolution}, s.program.WellFormed →
      ((s.run options candidates).program).WellFormed :=
  run_induction (·.program.WellFormed) candidates fun _ p _ h => wellFormed_step options h p.1 p.2

end Resolution

end ResourceBinding
