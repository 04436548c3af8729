import ResourceBinding.Proofs.Program.Lookup
import ResourceBinding.Proofs.Program.Revision

/-!
# References that lead somewhere

A function is linked if its calls are of functions of its module, and if the result of a call is an
expression that says so. `Module.Accounts` tells where the operands of calls come from. Revising a
function and removing one from the module keep both.
-/

namespace ResourceBinding

/-- The calls of the function are of the first `size` functions, and their results are results of
these functions. -/
structure Function.Linked (size : Nat) (f : Function) : Prop where
  callee_lt : ∀ c ∈ f.calls, (c.callee : Nat) < size
  result : ∀ c ∈ f.calls, ∀ r, c.result = some r → f.expr? r = some (.result c.callee)

/-- All functions are linked. -/
def Module.Linked (m : Module) : Prop :=
  ∀ f ∈ m.functions, f.Linked m.functions.size

/-- Each call of the function has literal operands that are granted for its callee, if its callee is
one of those asked for. -/
def Function.Accounts (asked : FunctionId → Prop) (granted : FunctionId → List Literal → Prop)
    (f : Function) : Prop :=
  ∀ c ∈ f.calls, asked c.callee → ∃ ls, granted c.callee ls ∧
    c.arguments.map f.literal? = ls.map some

/-- Each call of a function with the name has literal operands that are among the known ones. -/
def Module.Accounts (m : Module) (name : String) (known : List (List Literal)) : Prop :=
  ∀ f ∈ m.functions, f.Accounts (m.nameOf · = name) fun _ ls => ls ∈ known

namespace Function

variable {σ : ExprId → ExprId} {f g : Function} {size : Nat} {asked : FunctionId → Prop}
  {granted : FunctionId → List Literal → Prop} {calls : List Call}

theorem Linked.mono {size' : Nat} (h : f.Linked size) (hle : size ≤ size') : f.Linked size' :=
  { h with callee_lt := fun c hc => Nat.lt_of_lt_of_le (h.callee_lt c hc) hle }

theorem linked_of_isDeclaration (h : f.body = none) : f.Linked size := by
  constructor <;> simp [calls, h]

theorem isSome_body_of_mem_calls {c : Call} (hc : c ∈ f.calls) : f.body.isSome := by
  unfold calls at hc
  split at hc
  · rename_i hbody
    rw [hbody]
    rfl
  · cases hc

theorem accounts_of_isDeclaration (h : f.body = none) : f.Accounts asked granted := by
  simp [Accounts, calls, h]

/-- A call of a revised function was there before, with operands that have been moved. -/
theorem Revises.exists_call (hfg : Revises σ f g) {c : Call} (hc : c ∈ g.calls) :
    ∃ old ∈ f.calls, c.callee = old.callee ∧ c.result = old.result ∧
      c.arguments = old.arguments.map σ := by
  rw [hfg.calls_eq, List.mem_map] at hc
  obtain ⟨old, hold, rfl⟩ := hc
  exact ⟨old, hold, rfl, rfl, rfl⟩

theorem Revises.linked (hfg : Revises σ f g) (h : f.Linked size) : g.Linked size := by
  constructor
  · intro c hc
    obtain ⟨old, hold, hcallee, -, -⟩ := hfg.exists_call hc
    exact hcallee ▸ h.callee_lt old hold
  · intro c hc r hr
    obtain ⟨old, hold, hcallee, hresult, -⟩ := hfg.exists_call hc
    rw [hcallee]
    exact hfg.expr?_result (h.result old hold r (hresult ▸ hr))

theorem Revises.accounts (hfg : Revises σ f g) (h : f.Accounts asked granted) :
    g.Accounts asked granted := by
  intro c hc hasked
  obtain ⟨old, hold, hcallee, -, harguments⟩ := hfg.exists_call hc
  obtain ⟨ls, hls, hliterals⟩ := h old hold (hcallee ▸ hasked)
  refine ⟨ls, hcallee ▸ hls, ?_⟩
  rw [harguments, hfg.map_eq_self hliterals]
  exact map_literal?_mono (fun _ _ => hfg.literal?) hliterals

theorem calls_prependCalls (f : Function) (calls : List Call) :
    (f.prependCalls calls).calls = if f.body.isSome then calls ++ f.calls else [] := by
  unfold prependCalls Function.calls
  cases f.body <;> simp

theorem linked_prependCalls (h : f.Linked size)
    (hcalls : ∀ c ∈ calls, (c.callee : Nat) < size ∧
      ∀ r, c.result = some r → f.expr? r = some (.result c.callee)) :
    (f.prependCalls calls).Linked size := by
  have hmem : ∀ c ∈ (f.prependCalls calls).calls, c ∈ calls ∨ c ∈ f.calls := by
    intro c hc
    rw [calls_prependCalls] at hc
    split at hc
    · exact List.mem_append.mp hc
    · cases hc
  constructor
  · intro c hc
    rcases hmem c hc with hc | hc
    · exact (hcalls c hc).1
    · exact h.callee_lt c hc
  · intro c hc r hr
    rcases hmem c hc with hc | hc
    · exact (hcalls c hc).2 r hr
    · exact h.result c hc r hr

theorem accounts_prependCalls (h : f.Accounts asked granted)
    (hcalls : ∀ c ∈ calls, asked c.callee →
      ∃ ls, granted c.callee ls ∧ c.arguments.map f.literal? = ls.map some) :
    (f.prependCalls calls).Accounts asked granted := by
  intro c hc hasked
  rw [calls_prependCalls] at hc
  split at hc
  · rcases List.mem_append.mp hc with hc | hc
    · exact hcalls c hc hasked
    · exact h c hc hasked
  · cases hc

/-! ## Moved references -/

variable {move : FunctionId → FunctionId}

@[simp]
theorem calls_mapCallees (f : Function) (move : FunctionId → FunctionId) :
    (f.mapCallees move).calls = f.calls.map fun c => { c with callee := move c.callee } := by
  unfold mapCallees Function.calls
  cases f.body <;> simp

theorem expr?_mapCallees (f : Function) (move : FunctionId → FunctionId) (id : ExprId) :
    (f.mapCallees move).expr? id = (f.expr? id).map (·.mapCallee move) := by
  simp [mapCallees, expr?]

theorem literal?_mapCallees {id : ExprId} {l : Literal} (h : f.literal? id = some l) :
    (f.mapCallees move).literal? id = some l := by
  rw [literal?_eq_some_iff] at h ⊢
  rw [expr?_mapCallees, h]
  rfl

theorem Linked.mapCallees {size' : Nat} (h : f.Linked size)
    (hmove : ∀ c ∈ f.calls, (move c.callee : Nat) < size') : (f.mapCallees move).Linked size' := by
  constructor
  · intro c hc
    rw [calls_mapCallees, List.mem_map] at hc
    obtain ⟨old, hold, rfl⟩ := hc
    exact hmove old hold
  · intro c hc r hr
    rw [calls_mapCallees, List.mem_map] at hc
    obtain ⟨old, hold, rfl⟩ := hc
    rw [expr?_mapCallees, h.result old hold r hr]
    rfl

theorem Accounts.mapCallees {asked' : FunctionId → Prop}
    {granted' : FunctionId → List Literal → Prop} (h : f.Accounts asked granted)
    (hmove : ∀ c ∈ f.calls, asked' (move c.callee) → asked c.callee)
    (hgranted : ∀ id ls, granted id ls → granted' (move id) ls) :
    (f.mapCallees move).Accounts asked' granted' := by
  intro c hc hasked
  rw [calls_mapCallees, List.mem_map] at hc
  obtain ⟨old, hold, rfl⟩ := hc
  obtain ⟨ls, hls, hliterals⟩ := h old hold (hmove old hold hasked)
  exact ⟨ls, hgranted _ ls hls, map_literal?_mono (fun _ _ => literal?_mapCallees) hliterals⟩

end Function

/-! ## Modules -/

namespace Module

variable {m m' : Module} {id : FunctionId} {f : Function}

theorem shift_lt {k size size' : Nat} (hne : k ≠ id) (hk : k < size) (hid : id < size)
    (hsize : size' + 1 = size) : (shift id k : Nat) < size' := by
  grind [shift]

theorem nameOf_shift (h : m.remove id = .ok (f, m')) {k : FunctionId} (hne : k ≠ id) :
    m'.nameOf (shift id k) = m.nameOf k := by
  obtain ⟨-, -, -, -, hfunction⟩ := remove_ok h
  rw [nameOf, nameOf, hfunction, unshift_shift hne]
  cases m.function? k <;> rfl

theorem exists_of_mem_remove (h : m.remove id = .ok (f, m')) {g : Function}
    (hg : g ∈ m'.functions) : ∃ old ∈ m.functions, g = old.mapCallees (shift id) := by
  obtain ⟨-, -, -, -, hfunction⟩ := remove_ok h
  obtain ⟨j, hj⟩ := mem_functions_iff.mp hg
  rw [hfunction] at hj
  obtain ⟨old, hold, rfl⟩ := Option.map_eq_some_iff.mp hj
  exact ⟨old, mem_functions_iff.mpr ⟨_, hold⟩, rfl⟩

/-- Where no function has the name, there is no call to account for. -/
theorem accounts_of_find? {name : String} {known : List (List Literal)} (hm : m.Linked)
    (h : m.find? name = none) : m.Accounts name known := by
  intro f hf c hc hname
  obtain ⟨g, hg⟩ := exists_function?_of_lt ((hm f hf).callee_lt c hc)
  rw [nameOf_of_function? hg] at hname
  exact absurd hname (find?_eq_none_iff.mp h g (mem_functions_iff.mpr ⟨_, hg⟩))

theorem Linked.remove (hm : m.Linked) (h : m.remove id = .ok (f, m')) : m'.Linked := by
  intro g hg
  obtain ⟨old, hold, rfl⟩ := exists_of_mem_remove h hg
  obtain ⟨hid, hcalls, hsize, -, -⟩ := remove_ok h
  exact (hm old hold).mapCallees fun c hc =>
    shift_lt (hcalls old hold c hc) ((hm old hold).callee_lt c hc) (lt_size_of_function? hid) hsize

theorem Accounts.remove {name : String} {known : List (List Literal)}
    (hm : m.Accounts name known) (h : m.remove id = .ok (f, m')) : m'.Accounts name known := by
  intro g hg
  obtain ⟨old, hold, rfl⟩ := exists_of_mem_remove h hg
  obtain ⟨-, hcalls, -, -, -⟩ := remove_ok h
  refine (hm old hold).mapCallees (fun c hc hasked => ?_) fun _ _ hls => hls
  rw [nameOf_shift h (hcalls old hold c hc)] at hasked
  exact hasked

theorem NamesDistinct.remove (hm : m.NamesDistinct) (h : m.remove id = .ok (f, m')) :
    m'.NamesDistinct := by
  obtain ⟨-, -, -, hnames, -⟩ := remove_ok h
  rw [NamesDistinct, hnames]
  exact (List.eraseIdx_sublist _ _).nodup hm

end Module

end ResourceBinding
