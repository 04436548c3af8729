import ResourceBinding.Proofs.Program.Lookup

/-!
# Chains of calls

A chain of calls leads from a kernel to a function. One function *guards* another if every chain to
the other passes through it, as a dominator does in a flow graph.

* `Module.Guards.of_callers`: what guards all callers of a function guards the function.
* `Module.CallChain.transfer`: chains in a module with more calls of declarations.
-/

namespace ResourceBinding.Module

variable {m m' : Module} {gate caller id : FunctionId}

/-- The function `caller` has a call of `callee`. -/
def Calls (m : Module) (caller callee : FunctionId) : Prop :=
  ∃ f, m.function? caller = some f ∧ ∃ c ∈ f.calls, c.callee = callee

/-- The path leads from a kernel to `id` by calls: each function on it calls the next. -/
inductive CallChain (m : Module) : List FunctionId → FunctionId → Prop
  | kernel {id : FunctionId} {f : Function} :
      m.function? id = some f → f.isKernel → CallChain m [id] id
  | call {path : List FunctionId} {caller callee : FunctionId} :
      CallChain m path caller → m.Calls caller callee → CallChain m (path ++ [callee]) callee

/-- Every chain of calls that leads from a kernel to `id` passes through `gate`. -/
def Guards (m : Module) (gate id : FunctionId) : Prop :=
  ∀ path, m.CallChain path id → gate ∈ path

theorem calls_iff_mem_callsTo {callee : FunctionId} :
    m.Calls caller callee ↔ ∃ c, (caller, c) ∈ m.callsTo callee := by
  simp only [mem_callsTo]
  constructor
  · rintro ⟨f, hf, c, hc, hcallee⟩
    exact ⟨c, f, hf, hc, hcallee⟩
  · rintro ⟨c, f, hf, hc, hcallee⟩
    exact ⟨f, hf, c, hc, hcallee⟩

/-- A chain ends with the function it leads to. -/
theorem CallChain.mem {path : List FunctionId} (h : m.CallChain path id) : id ∈ path := by
  cases h with
  | kernel => exact List.mem_singleton_self id
  | call => exact List.mem_append_right _ (List.mem_singleton_self id)

theorem Guards.refl (m : Module) (id : FunctionId) : m.Guards id id :=
  fun _ h => h.mem

/-- **What guards all callers of a function guards the function.** A kernel is the exception, as a
chain may start there. -/
theorem Guards.of_callers (hkernel : ∀ f, m.function? id = some f → ¬ f.isKernel)
    (h : ∀ caller, m.Calls caller id → m.Guards gate caller) : m.Guards gate id := by
  intro path hpath
  cases hpath with
  | kernel hf hk => exact absurd hk (hkernel _ hf)
  | call hchain hcall => exact List.mem_append_left _ (h _ hcall _ hchain)

/-- **A chain is one in another module with the same kernels**, if each call on it is a call there
too. The calls are compared only where the callee has the property `P` that callers have. -/
theorem CallChain.transfer {P : FunctionId → Prop}
    (hkernel : ∀ id f, m.function? id = some f → f.isKernel →
      ∃ g, m'.function? id = some g ∧ g.isKernel)
    (hcaller : ∀ caller callee, m.Calls caller callee → P caller)
    (hcalls : ∀ caller callee, m.Calls caller callee → P callee → m'.Calls caller callee)
    {path : List FunctionId} (h : m.CallChain path id) (hid : P id) : m'.CallChain path id := by
  induction h with
  | kernel hf hk =>
    obtain ⟨g, hg, hgk⟩ := hkernel _ _ hf hk
    exact .kernel hg hgk
  | call _ hcall ih => exact .call (ih (hcaller _ _ hcall)) (hcalls _ _ hcall hid)

end ResourceBinding.Module
