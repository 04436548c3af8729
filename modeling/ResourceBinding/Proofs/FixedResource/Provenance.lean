import ResourceBinding.Proofs.Calls.Chain
import ResourceBinding.Proofs.FixedResource.Tracing
import ResourceBinding.Proofs.Program.Links
import ResourceBinding.Proofs.Run

/-!
# What an origin tells about the callers

An origin is read off a call: a function that passes on a resource has called its accessor, with
constants for the set and the binding (`Function.Obtains`). If a parameter is resolved, all callers
of its function have called one accessor for one set and binding
(`Module.parameterProvenance_ok`).

An origin is found in the callers alone, and is the same in a module where these are alike
(`Module.parameterProvenance_congr`).
-/

namespace ResourceBinding

/-! ## Accessors -/

theorem Module.isAccessor_iff {m : Module} {id : FunctionId} :
    m.isAccessor id = true ↔ ReservedName.isAccessor (m.nameOf id) = true ∨
      m.nameOf id = ReservedName.samplerAccessor := by
  rw [isAccessor, nameOf]
  cases m.function? id with
  | none =>
    have hword : ReservedName.isAccessor "?" = false := by decide +kernel
    simp [hword, ReservedName.samplerAccessor]
  | some f => simp

theorem Module.lt_size_of_isAccessor {m : Module} {id : FunctionId} (h : m.isAccessor id = true) :
    (id : Nat) < m.functions.size := by
  obtain ⟨f, hf, -⟩ := (Option.any_eq_true _ _).mp h
  exact lt_size_of_function? hf

/-- Whether a function is an accessor depends on its name. -/
theorem Module.isAccessor_congr {m m' : Module} {id : FunctionId}
    (h : (m'.function? id).map Function.name = (m.function? id).map Function.name) :
    m'.isAccessor id = m.isAccessor id := by
  unfold isAccessor
  cases hf : m.function? id <;> cases hg : m'.function? id <;> simp_all

/-! ## Origins -/

/-- The function has a call of the accessor with these operands, which give the set and the binding
of the resource. -/
def Function.Obtains (f : Function) (o : Provenance) : Prop :=
  ∃ c ∈ f.calls, c.callee = o.resource.accessor ∧ o.operands = c.arguments.map f.literal? ∧
    constantOperand o.operands 0 = .ok o.resource.set ∧
    constantOperand o.operands 1 = .ok o.resource.binding

theorem Provenance.merge_ok {first other o : Provenance} (h : first.merge other = .ok o) :
    other.resource = first.resource ∧ o.resource = first.resource ∧
      o.operands = first.operands := by
  unfold merge at h
  by_cases hresource : first.resource = other.resource
  · rw [if_neg (not_not_intro hresource)] at h
    split at h
    · cases h
      exact ⟨hresource.symm, rfl, rfl⟩
    · cases h
      exact ⟨hresource.symm, rfl, rfl⟩
  · rw [if_pos hresource] at h
    cases h

namespace Module

variable {m : Module} {caller : Function} {size index : Nat} {value : ExprId} {o : Provenance}

/-- **A value that leads to a resource is obtained by a call**, behind however many accesses it
is. -/
theorem Traces.obtains (h : m.Traces caller value o) (hcaller : caller.Linked size) :
    m.isAccessor o.resource.accessor ∧ caller.Obtains o := by
  obtain ⟨result, c, -, -, hcall, hobtained, hoperands⟩ := h
  have hmem : c ∈ caller.calls := List.mem_of_find?_eq_some hcall
  have hresult : c.result = some result := by simpa using List.find?_some hcall
  -- The expression and the call tell of one callee.
  have hcallee : c.callee = o.resource.accessor := by
    simpa using (hcaller.result c hmem result hresult).symm.trans hobtained.result
  refine ⟨hobtained.accessor, c, hmem, hcallee, hoperands, ?_, ?_⟩
  · rw [hoperands]
    exact Function.hasOperand_iff.mp hobtained.set
  · rw [hoperands]
    exact Function.hasOperand_iff.mp hobtained.binding

theorem argumentProvenance_ok (hm : m.Linked) {site : FunctionId × Call}
    (h : m.argumentProvenance index site = .ok o) :
    m.isAccessor o.resource.accessor ∧ ∃ f, m.function? site.1 = some f ∧ f.Obtains o := by
  obtain ⟨value, f, -, hf, htraces⟩ := argumentProvenance_eq_ok_iff.mp h
  obtain ⟨haccessor, hobtains⟩ := htraces.obtains (hm f (mem_functions_iff.mpr ⟨_, hf⟩))
  exact ⟨haccessor, f, hf, hobtains⟩

/-- What is common to all calls is what the first one passes, and all others pass the same
resource. -/
theorem commonProvenance_ok {sites : List (FunctionId × Call)} :
    ∀ {first : Provenance}, m.commonProvenance index first sites = .ok o →
      o.resource = first.resource ∧ o.operands = first.operands ∧
        ∀ site ∈ sites, ∃ other, m.argumentProvenance index site = .ok other ∧
          other.resource = o.resource := by
  induction sites with
  | nil =>
    intro first h
    cases h
    exact ⟨rfl, rfl, by simp⟩
  | cons site sites ih =>
    intro first h
    unfold commonProvenance at h
    obtain ⟨other, hother, h⟩ := exists_of_bind_ok h
    obtain ⟨merged, hmerge, h⟩ := exists_of_bind_ok h
    obtain ⟨hsame, hresource, hoperands⟩ := Provenance.merge_ok hmerge
    obtain ⟨hresource', hoperands', hsites⟩ := ih h
    have ho : o.resource = first.resource := hresource'.trans hresource
    refine ⟨ho, hoperands'.trans hoperands, fun site' hsite => ?_⟩
    rcases List.mem_cons.mp hsite with rfl | hsite
    · exact ⟨other, hother, hsame.trans ho.symm⟩
    · exact hsites site' hsite

/-- **A parameter is resolved only if all callers obtain one resource.** The operands are those of
one of them. -/
theorem parameterProvenance_ok (hm : m.Linked) {id : FunctionId}
    (h : m.parameterProvenance id index = .ok o) :
    m.isAccessor o.resource.accessor ∧
      (∃ caller f, m.Calls caller id ∧ m.function? caller = some f ∧ f.Obtains o) ∧
      ∀ caller, m.Calls caller id → ∃ f o', m.function? caller = some f ∧ f.Obtains o' ∧
        o'.resource = o.resource := by
  unfold parameterProvenance at h
  split at h
  · cases h
  · rename_i site sites hsites
    obtain ⟨first, hfirst, h⟩ := exists_of_bind_ok h
    obtain ⟨hresource, hoperands, hothers⟩ := commonProvenance_ok h
    obtain ⟨haccessor, f, hf, hobtains⟩ := argumentProvenance_ok hm hfirst
    refine ⟨hresource ▸ haccessor, ⟨site.1, f, ?_, hf, ?_⟩, fun caller hcaller => ?_⟩
    · exact calls_iff_mem_callsTo.mpr ⟨site.2, hsites ▸ List.mem_cons_self⟩
    · rw [Function.Obtains, hresource, hoperands]
      exact hobtains
    · obtain ⟨c, hc⟩ := calls_iff_mem_callsTo.mp hcaller
      rw [hsites] at hc
      rcases List.mem_cons.mp hc with rfl | hc
      · exact ⟨f, first, hf, hobtains, hresource.symm⟩
      · obtain ⟨other, hother, hsame⟩ := hothers _ hc
        obtain ⟨-, g, hg, hobtains'⟩ := argumentProvenance_ok hm hother
        exact ⟨g, other, hg, hobtains', hsame⟩

/-! ## What an origin depends on -/

variable {m' : Module} {f g : Function} {id : FunctionId}

/-- An origin depends on the expressions and the body of the caller, and on which functions are
accessors. -/
theorem provenanceWithin_congr (haccessor : ∀ id, m'.isAccessor id = m.isAccessor id)
    (hexpressions : g.expressions = f.expressions) (hbody : g.body = f.body) (levels : Nat) :
    ∀ value, m'.provenanceWithin g levels value = m.provenanceWithin f levels value := by
  have hexpr : g.expr? = f.expr? := funext fun id => by
    rw [Function.expr?, Function.expr?, hexpressions]
  have hliteral : g.literal? = f.literal? := funext fun id => by
    rw [Function.literal?, Function.literal?, hexpr]
  have hzero : g.isZeroIndex = f.isZeroIndex := funext fun id => by
    rw [Function.isZeroIndex, Function.isZeroIndex, hliteral]
  have hcall : ∀ value callee, m'.callProvenance g value callee = m.callProvenance f value callee := by
    intro value callee
    have hcallOf : g.callOf? value = f.callOf? value := by
      rw [Function.callOf?, Function.callOf?, Function.calls, Function.calls, hbody]
    rw [callProvenance, callProvenance, haccessor, hcallOf, hliteral]
  induction levels with
  | zero =>
    intro value
    unfold provenanceWithin
    simp only [hexpr, hzero, hcall]
  | succ levels ih =>
    intro value
    unfold provenanceWithin
    simp only [hexpr, hzero, hcall, ih]

/-- What a value leads to depends on the expressions and the body of the function, and on which
functions are accessors. -/
theorem Traces.congr (h : m.Traces f value o) (haccessor : ∀ id, m'.isAccessor id = m.isAccessor id)
    (hexpressions : g.expressions = f.expressions) (hbody : g.body = f.body) :
    m'.Traces g value o := by
  rw [← provenance_eq_ok_iff, ← h.provenance, Module.provenance, Module.provenance, hexpressions]
  exact provenanceWithin_congr haccessor hexpressions hbody _ value

theorem argumentProvenance_congr {site : FunctionId × Call}
    (haccessor : ∀ id, m'.isAccessor id = m.isAccessor id)
    (hf : m.function? site.1 = some f) (hg : m'.function? site.1 = some g)
    (hexpressions : g.expressions = f.expressions) (hbody : g.body = f.body) :
    m'.argumentProvenance index site = m.argumentProvenance index site := by
  unfold argumentProvenance
  rw [hf, hg]
  cases site.2.arguments[index]? with
  | none => rfl
  | some value =>
    simp only [provenance, hexpressions]
    exact provenanceWithin_congr haccessor hexpressions hbody _ value

theorem commonProvenance_congr {sites : List (FunctionId × Call)}
    (h : ∀ site ∈ sites, m'.argumentProvenance index site = m.argumentProvenance index site) :
    ∀ first, m'.commonProvenance index first sites = m.commonProvenance index first sites := by
  induction sites with
  | nil => exact fun _ => rfl
  | cons site sites ih =>
    intro first
    unfold commonProvenance
    rw [h site List.mem_cons_self]
    simp only [ih fun s hs => h s (List.mem_cons_of_mem _ hs)]

/-- A parameter has the same origin where the calls of its function are the same, in callers of
which the same is true. -/
theorem parameterProvenance_congr (hcalls : m'.callsTo id = m.callsTo id)
    (h : ∀ site ∈ m.callsTo id,
      m'.argumentProvenance index site = m.argumentProvenance index site) :
    m'.parameterProvenance id index = m.parameterProvenance id index := by
  unfold parameterProvenance
  rw [hcalls]
  cases hsites : m.callsTo id with
  | nil => rfl
  | cons site sites =>
    rw [hsites] at h
    simp only [h site List.mem_cons_self,
      commonProvenance_congr fun s hs => h s (List.mem_cons_of_mem _ hs)]

end Module

end ResourceBinding
