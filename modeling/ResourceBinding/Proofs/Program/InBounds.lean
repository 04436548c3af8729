import ResourceBinding.Proofs.Calls.Order
import ResourceBinding.Proofs.FixedResource.Verdicts
import ResourceBinding.Proofs.Program.Edits
import ResourceBinding.Proofs.Program.Listing

/-!
# Lookups that find something

The passes and the listing follow references without asking whether they lead somewhere, and follow
types and operands without asking whether that ends. In a well-formed module it does
(`Module.WellFormed.inBounds`).
-/

namespace ResourceBinding

/-- The references in a module that are followed without a check lead somewhere, and what follows
types and operands in depth comes to an end. -/
structure Module.InBounds (m : Module) : Prop where
  /-- The types in signatures are in the table, and can be written out. -/
  written : ∀ f ∈ m.functions, ∀ type, type ∈ f.params.map Param.type ∨ f.result = some type →
    ∃ w, m.types.written? type = some w
  component : ∀ id entry, m.types.get? id = some entry → ∀ c ∈ entry.shape.components,
    ∃ w, m.types.written? c = some w
  callee : ∀ f ∈ m.functions, ∀ c ∈ f.calls, ∃ g, m.function? c.callee = some g
  caller : ∀ id, ∀ site ∈ m.callsTo id, ∃ f, m.function? site.1 = some f
  result : ∀ f ∈ m.functions, ∀ c ∈ f.calls, ∀ r, c.result = some r → ∃ e, f.expr? r = some e
  operand : ∀ f ∈ m.functions, ∀ op, f.Reads op → ∃ e, f.expr? op = some e
  parameter : ∀ f ∈ m.functions, ∀ id p, f.expr? id = some (.parameter p) →
    ∃ param, f.params[p]? = some param
  reached : ∀ id ∈ m.callGraph.callersFirst.toList, ∃ f, m.function? id = some f
  candidate : ∀ p ∈ m.candidates m.callGraph.callersFirst.toList,
    ∃ f param, m.function? p.1 = some f ∧ f.params[p.2]? = some param
  /-- Definitions are laid out in full: to follow operands further changes nothing. -/
  definition : ∀ f ∈ m.functions, ∀ indent depth id shown, f.expressions.size < depth →
    f.layOutDefinition indent depth id shown
      = f.layOutDefinition indent (f.expressions.size + 1) id shown

namespace Module

/-- **In a well-formed module, every lookup finds something.** -/
theorem WellFormed.inBounds {m : Module} (hm : m.WellFormed) : m.InBounds where
  written := by
    intro f hf type htype
    refine hm.earlier.exists_written type ?_
    rcases htype with hparam | hresult
    · obtain ⟨p, hp, rfl⟩ := List.mem_map.mp hparam
      exact (hm.functions f hf).param_type p hp
    · exact (hm.functions f hf).result_type type hresult
  component := fun id entry hentry c hc => hm.earlier.exists_written c
    (Nat.lt_trans (hm.earlier id entry hentry c hc) (TypeTable.lt_size_of_get? hentry))
  callee := fun f hf c hc => exists_function?_of_lt ((hm.functions f hf).callee_lt c hc)
  caller := by
    intro id site hsite
    obtain ⟨f, hf, -⟩ := mem_callsTo.mp hsite
    exact ⟨f, hf⟩
  result := fun f hf c hc r hr => ⟨_, (hm.functions f hf).result c hc r hr⟩
  operand := fun f hf op hop => Function.exists_expr?_of_lt ((hm.functions f hf).operand_lt op hop)
  parameter := fun f hf id p hp =>
    ⟨_, List.getElem?_eq_getElem ((hm.functions f hf).parameter_lt id p hp)⟩
  reached := by
    intro id hid
    obtain ⟨f, hf, -⟩ := isDefined_iff.mp (isDefined_of_mem_callersFirst hid)
    exact ⟨f, hf⟩
  candidate := by
    intro p hp
    obtain ⟨-, f, hf, -, hindex⟩ := mem_candidates.mp hp
    exact ⟨f, _, hf, List.getElem?_eq_getElem (lt_length_of_mem_resourceParams hindex)⟩
  definition := fun f hf indent depth id shown hdepth =>
    Function.layOutDefinition_of_rank_lt (hm.functions f hf).acyclic indent
      (Nat.lt_of_le_of_lt (f.rank_le id) hdepth) (Nat.lt_succ_of_le (f.rank_le id)) shown

end Module

end ResourceBinding
