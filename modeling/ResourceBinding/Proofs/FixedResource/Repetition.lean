import ResourceBinding.Proofs.FixedResource.Exactness
import ResourceBinding.Proofs.FixedResource.Resolution

/-!
# What a function repeats of its callers

A function that fetches the resource of a parameter repeats what its callers do to pass it. The
accesses are the same at every call, since nothing is fetched where they differ. The operands of the
accessor are those of the first call, and the others are asked for the set and the binding alone.

* `Module.fetch_repeats`: what the function repeats of the first call, and of all calls.
* `AllocationReport.Covers.operands_eq`: after an allocation the operands of all calls are the same,
  as each slot has one row in the report.
-/

namespace ResourceBinding

namespace Module

variable {m : Module} {id : FunctionId} {index : Nat} {o : Provenance} {f g : Function}

/-! ## Where accesses differ -/

/-- The common origin keeps the counts of indices if they are the same at all calls. If not, it
drops them for good. -/
theorem commonProvenance_indexCounts {sites : List (FunctionId × Call)} :
    ∀ {first : Provenance}, m.commonProvenance index first sites = .ok o →
      (o.indexCounts = first.indexCounts ∧ ∀ site ∈ sites, ∃ other,
        m.argumentProvenance index site = .ok other ∧ other.indexCounts = first.indexCounts) ∨
      (o.indexCounts = [] ∧ ∃ site ∈ sites, ∃ other,
        m.argumentProvenance index site = .ok other ∧ other.indexCounts ≠ first.indexCounts) := by
  induction sites with
  | nil =>
    intro first h
    cases h
    exact .inl ⟨rfl, by simp⟩
  | cons site sites ih =>
    intro first h
    unfold commonProvenance at h
    obtain ⟨other, hother, h⟩ := exists_of_bind_ok h
    obtain ⟨merged, hmerge, h⟩ := exists_of_bind_ok h
    unfold Provenance.merge at hmerge
    split at hmerge
    · cases hmerge
    split at hmerge
    · rename_i hdiffers
      cases hmerge
      refine .inr ⟨?_, site, List.mem_cons_self, other, hother, Ne.symm hdiffers⟩
      rcases ih h with ⟨hcounts, -⟩ | ⟨hcounts, -⟩
      · exact hcounts
      · exact hcounts
    · rename_i hsame
      cases hmerge
      rcases ih h with ⟨hcounts, hsites⟩ | ⟨hcounts, site', hsite', hdiffers⟩
      · refine .inl ⟨hcounts, List.forall_mem_cons.mpr ⟨⟨other, hother, ?_⟩, hsites⟩⟩
        exact (not_not.mp hsame).symm
      · exact .inr ⟨hcounts, site', List.mem_cons_of_mem _ hsite', hdiffers⟩

/-- The origin of a parameter is that of the first call, but for the counts of indices. -/
theorem parameterProvenance_first (ho : m.parameterProvenance id index = .ok o) :
    ∃ site sites first, m.callsTo id = site :: sites ∧
      m.argumentProvenance index site = .ok first ∧
      m.commonProvenance index first sites = .ok o := by
  unfold parameterProvenance at ho
  split at ho
  · cases ho
  · rename_i site sites hsites
    obtain ⟨first, hfirst, ho⟩ := exists_of_bind_ok ho
    exact ⟨site, sites, first, hsites, hfirst, ho⟩

/-- **The counts of indices are as many as the accesses if they are the same at all calls**, and
only then. -/
theorem parameterProvenance_indexCounts (ho : m.parameterProvenance id index = .ok o) :
    (o.indexCounts.length = o.resource.depth ∧ ∀ site ∈ m.callsTo id, ∃ other,
      m.argumentProvenance index site = .ok other ∧ other.indexCounts = o.indexCounts) ∨
    (o.indexCounts.length ≠ o.resource.depth ∧ ∃ site ∈ m.callsTo id, ∃ site' ∈ m.callsTo id,
      ∃ other other', m.argumentProvenance index site = .ok other ∧
        m.argumentProvenance index site' = .ok other' ∧
        other.indexCounts ≠ other'.indexCounts) := by
  obtain ⟨site, sites, first, hsites, hfirst, hcommon⟩ := parameterProvenance_first ho
  obtain ⟨hresource, -, hothers⟩ := commonProvenance_ok hcommon
  have hdepth : first.indexCounts.length = o.resource.depth := by
    rw [length_indexCounts hfirst, hresource]
  rw [hsites]
  rcases commonProvenance_indexCounts hcommon with
    ⟨hcounts, hsame⟩ | ⟨hcounts, site', hsite', other, hother, hdiffers⟩
  · refine .inl ⟨by rw [hcounts, hdepth], ?_⟩
    rw [hcounts]
    exact List.forall_mem_cons.mpr ⟨⟨first, hfirst, rfl⟩, hsame⟩
  · refine .inr ⟨fun hzero => hdiffers ?_, site', List.mem_cons_of_mem _ hsite', site,
      List.mem_cons_self, other, first, hother, hfirst, hdiffers⟩
    -- Without accesses, there is nothing in which the calls could differ.
    obtain ⟨other', hother', hresource'⟩ := hothers site' hsite'
    cases hother.symm.trans hother'
    rw [hcounts, List.length_nil] at hzero
    have hlength := length_indexCounts hother
    rw [hresource', ← hzero] at hlength
    rw [← hzero] at hdepth
    rw [List.eq_nil_of_length_eq_zero hlength, List.eq_nil_of_length_eq_zero hdepth]

/-! ## What is fetched -/

/-- **A function repeats the accesses of every call, and the operands of the first one.** It first
calls the accessor. Each use of the parameter becomes a use of a value that leads to the result of
this call, through the accesses that lead to it at every call of the function; and the operands are
the literals that the first call of the function has for the accessor. -/
theorem fetch_repeats (ho : m.parameterProvenance id index = .ok o)
    (hg : f.fetchParameter index o = .ok g) :
    ∃ site sites first, m.callsTo id = site :: sites ∧
      m.argumentProvenance index site = .ok first ∧
      (∃ operands result target,
        g.body = f.body.map (fun b => (b.mapOperands (f.redirectParameter index target)).prepend
          [⟨first.resource.accessor, operands, some result⟩]) ∧
        (∀ id e, f.expr? id = some e →
          g.expr? id = some (e.mapOperands (f.redirectParameter index target))) ∧
        operands.map g.literal? = first.operands ∧
        g.expr? result = some (.result first.resource.accessor) ∧
        g.Peels first.indexCounts target result) ∧
      ∀ s ∈ m.callsTo id, ∃ other, m.argumentProvenance index s = .ok other ∧
        other.resource = first.resource ∧ other.indexCounts = first.indexCounts := by
  obtain ⟨F⟩ := Function.exists_fetch hg
  obtain ⟨site, sites, first, hsites, hfirst, hcommon⟩ := parameterProvenance_first ho
  obtain ⟨hresource, hoperands, hothers⟩ := commonProvenance_ok hcommon
  -- What is fetched has as many accesses as its depth says, so no call differs.
  obtain ⟨-, hcounts⟩ := (parameterProvenance_indexCounts ho).resolve_right fun h => h.1 F.depth
  have hsame : o.indexCounts = first.indexCounts := by
    obtain ⟨other, hother, hcounts⟩ := hcounts site (hsites ▸ List.mem_cons_self)
    cases hfirst.symm.trans hother
    exact hcounts.symm
  refine ⟨site, sites, first, hsites, hfirst, ⟨F.operands, F.result, F.target, ?_, ?_, ?_, ?_, ?_⟩,
    fun s hs => ?_⟩
  · rw [F.body_eq, hresource]
  · rw [F.expr?_eq]
    exact F.revises.expr
  · rw [F.literal?_eq, ← hoperands, F.passes, F.known]
  · rw [F.expr?_eq, ← hresource]
    exact F.expr_result
  · rw [← hsame]
    exact F.peels.mono fun _ _ he => by rwa [F.expr?_eq]
  · obtain ⟨other, hother, hcounts⟩ := hcounts s hs
    refine ⟨other, hother, ?_, hcounts.trans hsame⟩
    rw [hsites] at hs
    rcases List.mem_cons.mp hs with rfl | hs
    · cases hfirst.symm.trans hother
      rfl
    · obtain ⟨other', hother', hresource'⟩ := hothers s hs
      cases hother.symm.trans hother'
      exact hresource'.trans hresource

end Module

/-! ## After an allocation -/

namespace AllocationReport.Covers

variable {report : AllocationReport} {start m : Module} {index : Nat} {o o' : Provenance}
  {site site' : FunctionId × Call}

/-- **Calls that pass one resource have the same operands for its accessor**, all of them, in a
module where the calls of accessors are those of the report. -/
theorem operands_eq (h : report.Covers start m) (hstart : start.AllocatedBy report)
    (ho : m.argumentProvenance index site = .ok o)
    (ho' : m.argumentProvenance index site' = .ok o') (hresource : o.resource = o'.resource) :
    o.operands = o'.operands := by
  obtain ⟨haccessor, f, hf, hobtains⟩ := Module.argumentProvenance_ok h.linked ho
  obtain ⟨haccessor', f', hf', hobtains'⟩ := Module.argumentProvenance_ok h.linked ho'
  obtain ⟨ls, hls, hgrants, hslot⟩ := h.grants_of_obtains hf hobtains haccessor
  obtain ⟨ls', hls', hgrants', hslot'⟩ := h.grants_of_obtains hf' hobtains' haccessor'
  rw [← hresource] at hgrants' hslot'
  rw [hls, hls']
  have hnodup := List.nodup_append.mp hstart.slots
  -- The accessor tells samplers from arguments, and the slot tells the row.
  cases hgrants with
  | @sampler row hrow hname =>
    cases hgrants' with
    | @sampler row' hrow' =>
      obtain ⟨hset, hbinding⟩ := SamplerRow.givesSlot_iff.mp hslot
      obtain ⟨hset', hbinding'⟩ := SamplerRow.givesSlot_iff.mp hslot'
      obtain rfl := List.inj_on_of_nodup_map hnodup.1 hrow hrow'
        (Prod.ext (hset.trans hset'.symm) (hbinding.trans hbinding'.symm))
      rfl
    | argument _ hname' =>
      exact absurd (hname'.symm.trans hname) (ReservedName.accessor_ne_samplerAccessor _)
  | @argument row kernel k hrow hname =>
    cases hgrants' with
    | sampler _ hname' =>
      exact absurd (hname.symm.trans hname') (ReservedName.accessor_ne_samplerAccessor _)
    | @argument row' _ _ hrow' =>
      obtain ⟨hset, hbinding⟩ := ArgumentRow.givesSlot_iff.mp hslot
      obtain ⟨hset', hbinding'⟩ := ArgumentRow.givesSlot_iff.mp hslot'
      obtain rfl := AllocationReport.eq_of_slot hstart.slots hrow hrow' (hset.trans hset'.symm)
        (hbinding.trans hbinding'.symm)
      rfl

end AllocationReport.Covers

end ResourceBinding
