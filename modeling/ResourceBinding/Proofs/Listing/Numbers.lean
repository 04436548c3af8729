import ResourceBinding.Binding.Kernels
import ResourceBinding.Proofs.Binding.LiteralSamplers
import ResourceBinding.Proofs.FixedResource.Fetching
import ResourceBinding.Proofs.FixedResource.Provenance
import ResourceBinding.Proofs.Listing.Functions

/-!
# Edits add no infinite numbers

The numbers in single precision of a function stay finite. All that is added to it are integers, or
operands that a call in another function passes (`Function.Finite.fetchParameter`).
-/

namespace ResourceBinding

namespace Function

variable {f g : Function} {id : ExprId}

/-! ## What is added -/

theorem Finite.append (hf : f.Finite) {e : Expr}
    (he : ∀ x, e = .literal (.f32 x) → x.magnitude < Single.infinity) : (f.append e).2.Finite := by
  intro id x hx
  by_cases hlt : (id : Nat) < f.expressions.size
  · rw [expr?_append_of_lt e hlt] at hx
    exact hf id x hx
  · have hsize : (id : Nat) < (f.expressions.push e).size := lt_size_of_expr? hx
    rw [Array.size_push] at hsize
    obtain rfl : id = f.expressions.size :=
      Nat.le_antisymm (Nat.le_of_lt_succ hsize) (Nat.not_lt.mp hlt)
    exact he x (Option.some.inj ((expr?_append_self f e).symm.trans hx))

theorem Finite.appendLiterals (hf : f.Finite) {ls : List Literal}
    (hls : ∀ x, .f32 x ∈ ls → x.magnitude < Single.infinity) : (appendLiterals ls f).2.Finite := by
  induction ls generalizing f with
  | nil => exact hf
  | cons l ls ih =>
    refine ih (hf.append fun x hx => ?_) fun x hx => hls x (List.mem_cons_of_mem _ hx)
    cases hx
    exact hls x List.mem_cons_self

theorem Finite.appendZeroAccess (hf : f.Finite) (base : ExprId) (indices : Nat) :
    (f.appendZeroAccess base indices).2.Finite :=
  (hf.append (by simp)).append (by simp)

/-! ## What is moved -/

theorem Finite.substitute (hf : f.Finite) (source target : ExprId) :
    (f.substitute source target).Finite := by
  intro id x hx
  simp only [expr?, Function.substitute, Array.getElem?_mapIdx, Option.map_eq_some_iff] at hx
  obtain ⟨e, he, heq⟩ := hx
  have hsame : e = .literal (.f32 x) := by
    split at heq
    · exact heq
    · cases e with
      | literal => exact heq
      | _ => cases heq
  exact hf id x (hsame ▸ he)

theorem Finite.substituteParameter (hf : f.Finite) (index : Nat) (target : ExprId) :
    (f.substituteParameter index target).Finite := by
  unfold Function.substituteParameter
  generalize f.parameterOccurrences index = sources
  induction sources generalizing f with
  | nil => exact hf
  | cons source sources ih => exact ih (hf.substitute source target)

theorem Finite.mapCallees (hf : f.Finite) (move : FunctionId → FunctionId) :
    (f.mapCallees move).Finite := by
  intro id x hx
  rw [expr?_mapCallees, Option.map_eq_some_iff] at hx
  obtain ⟨e, he, heq⟩ := hx
  cases e with
  | literal =>
    cases heq
    exact hf id x he
  | _ => cases heq

/-! ## What is bound -/

theorem Finite.appendArgument (hf : f.Finite) (kind : ArgumentKind) (result : ExprId) :
    (f.appendArgument kind result).2.Finite := by
  cases kind with
  | buffer => exact hf.appendZeroAccess result 3
  | pod => exact (hf.appendZeroAccess result 2).append (by simp)
  | _ => exact hf

theorem Finite.bindArgument (hf : f.Finite) (first : FunctionId) (row : ArgumentRow) :
    (f.bindArgument first row).2.Finite := by
  have hintegers : ∀ x, .f32 x ∈ [Literal.u32 row.set, .u32 row.binding, .u32 row.kind.tag,
      .u32 row.position] → x.magnitude < Single.infinity := by simp
  have hcall := (hf.appendLiterals hintegers).append (e := .result (first + row.discriminant))
    (by simp)
  exact (hcall.appendArgument row.kind _).substituteParameter _ _

/-- **Binding its arguments adds no infinite numbers to a kernel.** -/
theorem Finite.bindArguments (hf : f.Finite) (first : FunctionId) (rows : List ArgumentRow) :
    (f.bindArguments first rows).Finite := by
  have hbound : (bindEach first rows f).2.Finite := by
    induction rows generalizing f with
    | nil => exact hf
    | cons row rows ih => exact ih (hf.bindArgument first row)
  exact hbound

theorem Finite.appendAccesses (hf : f.Finite) (value : ExprId) (counts : List Nat) :
    (f.appendAccesses value counts).2.Finite := by
  induction counts with
  | nil => exact hf
  | cons indices counts ih => exact ih.appendZeroAccess _ indices

/-- **Fetching a resource adds no infinite numbers**, if there are none among the operands. -/
theorem Finite.fetchParameter (hf : f.Finite) {index : Nat} {o : Provenance}
    (ho : ∀ x, some (.f32 x) ∈ o.operands → x.magnitude < Single.infinity)
    (h : f.fetchParameter index o = .ok g) : g.Finite := by
  unfold Function.fetchParameter at h
  split at h
  · cases h
  · rename_i ls hls
    split at h
    · cases h
    · split at h
      · cases h
      · cases h
        refine Finite.substituteParameter (Finite.appendAccesses ?_ _ _) _ _
        refine Finite.append (hf.appendLiterals fun x hx => ho x ?_) (by simp)
        rw [eq_map_some_of_mapM hls]
        exact List.mem_map_of_mem hx

/-- The operands that a caller passes are among its numbers. -/
theorem Finite.obtains (hf : f.Finite) {o : Provenance} (h : f.Obtains o) :
    ∀ x, some (.f32 x) ∈ o.operands → x.magnitude < Single.infinity := by
  intro x hx
  obtain ⟨c, -, -, hoperands, -, -⟩ := h
  rw [hoperands] at hx
  obtain ⟨id, -, hid⟩ := List.mem_map.mp hx
  exact hf id x (literal?_eq_some_iff.mp hid)

end Function

/-! ## Literal samplers -/

namespace SamplerBinding

variable {b : SamplerBinding} {f g : Function}

theorem finite_rewriteCall {c c' : Call} (hf : f.Finite)
    (hrun : (b.rewriteCall c).run f = .ok (c', g)) : g.Finite := by
  change b.rewriteCall c f = _ at hrun
  unfold rewriteCall at hrun
  split at hrun
  · split at hrun
    · cases hrun
    · rename_i row _
      have hintegers : ∀ x, .f32 x ∈ [Literal.u32 row.set, .u32 row.binding, .u32 row.mapIndex] →
          x.magnitude < Single.infinity := by simp
      cases hrun
      exact hf.appendLiterals hintegers
  · cases hrun
    exact hf

theorem finite_mapCallsM {body body' : Block} : ∀ {f g : Function}, f.Finite →
    (body.mapCallsM b.rewriteCall).run f = .ok (body', g) → g.Finite := by
  induction body generalizing body' with
  | nil =>
    intro f g hf hrun
    cases hrun
    exact hf
  | cons head rest ih =>
    intro f g hf hrun
    cases head with
    | call c =>
      obtain ⟨c', f₁, hc, hrun⟩ := exists_of_run_bind hrun
      obtain ⟨rest', f₂, hrest, hrun⟩ := exists_of_run_bind hrun
      cases hrun
      exact ih (finite_rewriteCall hf hc) hrest
    | _ =>
      obtain ⟨rest', f₂, hrest, hrun⟩ := exists_of_run_bind hrun
      cases hrun
      exact ih hf hrest
  | branch condition accept reject rest iha ihr ih =>
    intro f g hf hrun
    obtain ⟨accept', f₁, haccept, hrun⟩ := exists_of_run_bind hrun
    obtain ⟨reject', f₂, hreject, hrun⟩ := exists_of_run_bind hrun
    obtain ⟨rest', f₃, hrest, hrun⟩ := exists_of_run_bind hrun
    cases hrun
    exact ih (ihr (iha hf haccept) hreject) hrest
  | loop body rest ihb ih =>
    intro f g hf hrun
    obtain ⟨body', f₁, hbody, hrun⟩ := exists_of_run_bind hrun
    obtain ⟨rest', f₂, hrest, hrun⟩ := exists_of_run_bind hrun
    cases hrun
    exact ih (ihb hf hbody) hrest

/-- **Binding the literal samplers of a function adds no infinite numbers to it.** -/
theorem finite_rewrite (hf : f.Finite) (hrun : b.rewrite f = .ok g) : g.Finite := by
  unfold rewrite at hrun
  split at hrun
  · cases hrun
    exact hf
  · split at hrun
    · cases hrun
    · rename_i body' f₁ hmap
      cases hrun
      intro id x hx
      rw [Function.expr?, getElem?_foldl_setIfInBounds] at hx
      split at hx
      · cases hx
      · exact finite_mapCallsM hf hmap id x hx

end SamplerBinding

end ResourceBinding
