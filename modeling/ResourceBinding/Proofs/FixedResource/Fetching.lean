import ResourceBinding.FixedResource.Resolution
import ResourceBinding.Proofs.FixedResource.Accesses
import ResourceBinding.Proofs.Program.Links
import ResourceBinding.Proofs.Program.Results
import ResourceBinding.Proofs.Program.ValueTree

/-!
# A function that fetches a resource

Fetching what a parameter was resolved to is a revision with one call in front of the body. The
call passes the operands of the origin to its accessor. What has been put in the place of the
parameter leads to its result, through the accesses of the origin, and stands for these accesses
around it (`Function.Fetch`).
-/

namespace ResourceBinding

/-- Operands that are known to be literals are literals. -/
theorem eq_map_some_of_mapM {os : List (Option Literal)} :
    ∀ {ls : List Literal}, os.mapM id = some ls → os = ls.map some := by
  induction os with
  | nil =>
    intro ls h
    cases h
    rfl
  | cons o os ih =>
    intro ls h
    rw [List.mapM_cons] at h
    obtain ⟨l, hl, h⟩ := Option.bind_eq_some_iff.mp h
    obtain ⟨rest, hrest, h⟩ := Option.bind_eq_some_iff.mp h
    cases h
    rw [List.map_cons, ← ih hrest, ← hl, id_eq]

theorem exists_mapM_of_not_mem {os : List (Option Literal)} (h : none ∉ os) :
    ∃ ls, os.mapM id = some ls := by
  induction os with
  | nil => exact ⟨[], rfl⟩
  | cons o os ih =>
    rw [List.mem_cons, not_or] at h
    obtain ⟨l, rfl⟩ := Option.ne_none_iff_exists'.mp (Ne.symm h.1)
    obtain ⟨ls, hls⟩ := ih h.2
    exact ⟨l :: ls, by simp [List.mapM_cons, hls]⟩

/-- Accesses at zero indices around a value. The counts are how many indices they have, the outermost
first. -/
def ValueTree.zeroAccesses : List Nat → ValueTree → ValueTree
  | [], value => value
  | indices :: inner, value =>
    .access (zeroAccesses inner value) (List.replicate indices (.literal (.u32 0)))

/-- No parameter is left in accesses around a result. -/
theorem ValueTree.substitute_zeroAccesses (ρ : Nat → ValueTree) (callee : FunctionId) (r : ExprId) :
    ∀ counts : List Nat, (zeroAccesses counts (.result callee r)).substitute ρ
      = zeroAccesses counts (.result callee r)
  | [] => rfl
  | indices :: inner => by
    have hzeros : ∀ k, substituteEach ρ (List.replicate k (.literal (.u32 0)))
        = List.replicate k (.literal (.u32 0)) := by
      intro k
      induction k with
      | zero => rfl
      | succ k ih => simp only [List.replicate_succ, substituteEach, substitute, ih]
    rw [zeroAccesses, substitute, substitute_zeroAccesses ρ callee r inner, hzeros]

namespace Function

variable {n : Nat} {f g : Function}

/-- Accesses around a value that has been added are added as well. -/
theorem appends_appendAccesses {value : Nat} (counts : List Nat) (hn : n ≤ f.expressions.size)
    (hge : n ≤ value) (hlt : value < f.expressions.size) :
    Appends n f (f.appendAccesses value counts).2 ∧
      n ≤ (f.appendAccesses value counts).1 ∧
      ((f.appendAccesses value counts).1 : Nat)
        < (f.appendAccesses value counts).2.expressions.size := by
  induction counts with
  | nil => exact ⟨.refl n f, hge, hlt⟩
  | cons indices counts ih =>
    obtain ⟨happ, hge', hlt'⟩ := ih
    obtain ⟨happ', -, haccess⟩ :=
      appends_appendZeroAccess indices (Nat.le_trans hn happ.size_le) hge' hlt'
    refine ⟨happ.trans happ', ?_, lt_size_of_expr? haccess⟩
    exact Nat.le_trans (Nat.le_trans hn happ.size_le)
      (by simp [appendAccesses, appendZeroAccess, append])

@[simp]
theorem resultIds_appendAccesses (f : Function) (value : ExprId) (counts : List Nat) :
    (f.appendAccesses value counts).2.resultIds = f.resultIds := by
  induction counts with
  | nil => rfl
  | cons indices counts ih => exact (resultIds_appendZeroAccess _ _ _).trans ih

/-- The accesses around a value lead to it. -/
theorem peels_appendAccesses {value : Nat} (counts : List Nat)
    (hlt : value < f.expressions.size) :
    (f.appendAccesses value counts).2.Peels counts (f.appendAccesses value counts).1 value := by
  induction counts with
  | nil => exact .here
  | cons indices counts ih =>
    obtain ⟨-, -, hlt'⟩ := appends_appendAccesses counts (Nat.zero_le _) (Nat.zero_le _) hlt
    obtain ⟨happ, hzero, haccess⟩ :=
      appends_appendZeroAccess indices (Nat.zero_le _) (Nat.zero_le _) hlt'
    have hpeels := Peels.mono (fun _ _ => happ.expr?) ih
    have hindices : (List.replicate indices
        (f.appendAccesses value counts).2.expressions.size).all
          ((f.appendAccesses value counts).2.appendZeroAccess
            (f.appendAccesses value counts).1 indices).2.isZeroIndex = true := by
      refine List.all_eq_true.mpr fun i hi => ?_
      obtain rfl := List.eq_of_mem_replicate hi
      exact (Option.any_eq_true _ _).mpr ⟨_, literal?_eq_some_iff.mpr hzero, rfl⟩
    have hfirst := Peels.access ⟨haccess, hindices⟩ hpeels
    rwa [List.length_replicate] at hfirst

/-- The accesses around a value stand for what they are. -/
theorem unfolds_appendAccesses {value : Nat} {t : ValueTree} (counts : List Nat)
    (hlt : value < f.expressions.size) (ht : f.Unfolds value t) :
    (f.appendAccesses value counts).2.Unfolds (f.appendAccesses value counts).1
      (.zeroAccesses counts t) := by
  induction counts with
  | nil => exact ht
  | cons indices counts ih =>
    obtain ⟨-, -, hlt'⟩ := appends_appendAccesses counts (Nat.zero_le _) (Nat.zero_le _) hlt
    exact unfolds_appendZeroAccess indices hlt' ih

/-- The function `g` is `f`, which fetches the origin of a parameter: it first calls the accessor,
and has in the place of the parameter what leads to the result of this call. -/
structure Fetch (index : Nat) (o : Provenance) (f g : Function) where
  literals : List Literal
  operands : List ExprId
  result : ExprId
  /-- What the uses of the parameter have become uses of. -/
  target : ExprId
  /-- The function without the call. -/
  revised : Function
  known : o.operands = literals.map some
  depth : o.indexCounts.length = o.resource.depth
  body : f.body.isSome
  revises : Revises (f.redirectParameter index target) f revised
  target_new : f.expressions.size ≤ target
  passes : operands.map revised.literal? = literals.map some
  operands_new : ∀ op ∈ operands, f.expressions.size ≤ op
  result_new : f.expressions.size ≤ result
  resultIds : revised.resultIds = f.resultIds ++ [result]
  expr_result : revised.expr? result = some (.result o.resource.accessor)
  peels : revised.Peels o.indexCounts target result
  unfolds : revised.Unfolds target (.zeroAccesses o.indexCounts (.result o.resource.accessor result))
  eq : g = revised.prependCalls [⟨o.resource.accessor, operands, some result⟩]

/-- What is added to fetch a resource: the operands, the result of the call, and the accesses around
it. -/
theorem appends_fetch (f : Function) (accessor : FunctionId) (ls : List Literal)
    (counts : List Nat) :
    ∃ (ids : List ExprId) (f₁ : Function) (r : Nat) (f₂ : Function) (value : Nat) (f₃ : Function),
      (appendLiterals ls f = (ids, f₁) ∧ f₁.append (.result accessor) = (r, f₂) ∧
        f₂.appendAccesses r counts = (value, f₃)) ∧
      Appends f.expressions.size f f₃ ∧
      (ids.map f₃.literal? = ls.map some ∧ ∀ op ∈ ids, f.expressions.size ≤ op) ∧
      (f.expressions.size ≤ r ∧ f₃.expr? r = some (.result accessor) ∧
        f₃.resultIds = f.resultIds ++ [r]) ∧
      (f.expressions.size ≤ value ∧ value < f₃.expressions.size ∧ f₃.Peels counts value r ∧
        f₃.Unfolds value (.zeroAccesses counts (.result accessor r))) := by
  obtain ⟨ids, f₁, r, f₂, hf₁, hf₂, happ, hids, hge, hr⟩ := f.appends_call accessor ls
  obtain ⟨happ', hvaluege, hvaluelt⟩ :=
    appends_appendAccesses counts happ.size_le hge (lt_size_of_expr? hr)
  have hpeels := peels_appendAccesses counts (lt_size_of_expr? hr)
  have htree := unfolds_appendAccesses counts (lt_size_of_expr? hr) (.result hr)
  have hidsge := size_le_of_mem_appendLiterals ls (f := f)
  have hresults : (f₂.appendAccesses r counts).2.resultIds = f.resultIds ++ [r] := by
    have hliterals := resultIds_appendLiterals ls f
    have hresult := resultIds_append_result f₁ accessor
    obtain rfl : f₁.expressions.size = r := congrArg Prod.fst hf₂
    rw [hf₁] at hliterals
    rw [hf₂, hliterals] at hresult
    exact (f₂.resultIds_appendAccesses _ counts).trans hresult
  rw [hf₁] at hidsge
  exact ⟨ids, f₁, r, f₂, _, _, ⟨hf₁, hf₂, rfl⟩, happ.trans happ',
    ⟨map_literal?_mono (fun _ _ => happ'.literal?) hids, hidsge⟩,
    ⟨hge, happ'.expr? hr, hresults⟩, hvaluege, hvaluelt, hpeels, htree⟩

theorem exists_fetch {index : Nat} {o : Provenance} (h : f.fetchParameter index o = .ok g) :
    Nonempty (Fetch index o f g) := by
  unfold fetchParameter at h
  split at h
  · cases h
  rename_i ls hls
  split at h
  · cases h
  rename_i hdepth
  split at h
  · cases h
  rename_i hbody
  obtain ⟨ids, f₁, r, f₂, value, f₃, ⟨hf₁, hf₂, hf₃⟩, happ, ⟨hids, hidsge⟩, ⟨hge, hr, hresults⟩,
    hvaluege, hvaluelt, hpeels, htree⟩ := f.appends_fetch o.resource.accessor ls o.indexCounts
  simp only [hf₁, hf₂, hf₃] at h
  cases h
  obtain ⟨hrev, hred, hadded⟩ := revises_substituteParameter happ index hvaluege hvaluelt
  -- What has been added is no parameter, so it stays where it is.
  have hstays : ∀ {id : Nat}, f.expressions.size ≤ id →
      f.redirectParameter index value id = id := fun hid =>
    if_neg fun hp => absurd (lt_size_of_expr? hp) (Nat.not_lt.mpr hid)
  have hredirected := hred.peels hpeels
  rw [hstays hvaluege, hstays hge] at hredirected
  -- The tree is built on what has been added alone, which is left as it is.
  have htree' := htree.transfer (P := fun id : Nat => f.expressions.size ≤ id)
    (fun id e hid he => (hadded id hid).trans he)
    (fun id op hid ⟨e, he, hop⟩ => ((happ.fresh id e hid he).2 op hop).1) hvaluege
  exact ⟨{
    literals := ls
    operands := ids
    result := r
    target := value
    revised := f₃.substituteParameter index value
    known := eq_map_some_of_mapM hls
    depth := not_not.mp hdepth
    body := by rwa [isDeclaration, Bool.not_eq_true, Option.isNone_eq_false_iff] at hbody
    revises := hrev
    target_new := hvaluege
    passes := map_literal?_mono (fun _ _ => hred.literal?) hids
    operands_new := hidsge
    result_new := hge
    resultIds := (resultIds_substituteParameter _ _ _).trans hresults
    expr_result := hred.expr?_result hr
    peels := hredirected
    unfolds := htree'
    eq := rfl }⟩

/-- **A function that fetches a resource is revised, and first calls the accessor.** The operands
of the call are those of the origin, and its result has been added, the only one. -/
theorem fetchParameter_ok {index : Nat} {o : Provenance} (h : f.fetchParameter index o = .ok g) :
    ∃ (ls : List Literal) (ids : List ExprId) (r : ExprId) (f₁ : Function) (σ : ExprId → ExprId),
      o.operands = ls.map some ∧ Revises σ f f₁ ∧
      ids.map f₁.literal? = ls.map some ∧
      (f.expressions.size ≤ r ∧ f₁.resultIds = f.resultIds ++ [r] ∧
        f₁.expr? r = some (.result o.resource.accessor)) ∧
      g = f₁.prependCalls [⟨o.resource.accessor, ids, some r⟩] := by
  obtain ⟨F⟩ := exists_fetch h
  exact ⟨F.literals, F.operands, F.result, F.revised, _, F.known, F.revises, F.passes,
    ⟨F.result_new, F.resultIds, F.expr_result⟩, F.eq⟩

/-- A function with a body fetches an origin, unless an operand is unknown or the accesses are not
counted. -/
theorem fetchParameter_or (index : Nat) (o : Provenance) (hbody : f.body.isSome) :
    (∃ g, f.fetchParameter index o = .ok g) ∨
      (∃ declined, f.fetchParameter index o = .error declined) ∧
        (none ∈ o.operands ∨ o.indexCounts.length ≠ o.resource.depth) := by
  by_cases hknown : none ∈ o.operands
  · refine .inr ⟨?_, .inl hknown⟩
    unfold fetchParameter
    split
    · exact ⟨_, rfl⟩
    · rename_i ls hls
      rw [eq_map_some_of_mapM hls] at hknown
      simp at hknown
  by_cases hcounts : o.indexCounts.length = o.resource.depth
  · obtain ⟨ls, hls⟩ := exists_mapM_of_not_mem hknown
    have hdefined : f.isDeclaration = false := by
      rwa [isDeclaration, Option.isNone_eq_false_iff]
    cases hfetch : f.fetchParameter index o with
    | ok g => exact .inl ⟨g, rfl⟩
    | error declined =>
      unfold fetchParameter at hfetch
      simp [hls, hcounts, hdefined] at hfetch
  · refine .inr ⟨?_, .inr hcounts⟩
    unfold fetchParameter
    split
    · exact ⟨_, rfl⟩
    · rw [if_pos hcounts]
      exact ⟨_, rfl⟩

/-- Only what has a body fetches anything. -/
theorem isSome_body_of_fetchParameter {index : Nat} {o : Provenance}
    (h : f.fetchParameter index o = .ok g) : f.body.isSome := by
  obtain ⟨F⟩ := exists_fetch h
  exact F.body

/-- A revised function with a body calls what has been put in front, and then what it called. -/
theorem Revises.calls_prependCalls {σ : ExprId → ExprId} (hfg : Revises σ f g)
    (hbody : f.body.isSome) (calls : List Call) : (g.prependCalls calls).calls
      = calls ++ f.calls.map fun c => { c with arguments := c.arguments.map σ } := by
  rw [Function.calls_prependCalls, if_pos, hfg.calls_eq]
  rwa [hfg.body, Option.isSome_map]

namespace Fetch

variable {index : Nat} {o : Provenance} (F : Fetch index o f g)

theorem expr?_eq : g.expr? = F.revised.expr? :=
  (congrArg expr? F.eq).trans rfl

theorem literal?_eq : g.literal? = F.revised.literal? :=
  (congrArg literal? F.eq).trans rfl

/-- The statements use what has been put in the place of the parameter, behind the call. -/
theorem body_eq : g.body = f.body.map fun b =>
    (b.mapOperands (f.redirectParameter index F.target)).prepend
      [⟨o.resource.accessor, F.operands, some F.result⟩] := by
  refine (congrArg Function.body F.eq).trans ?_
  rw [prependCalls, F.revises.body, Option.map_map]
  rfl

theorem calls_eq : g.calls = ⟨o.resource.accessor, F.operands, some F.result⟩ ::
    f.calls.map fun c => { c with
      arguments := c.arguments.map (f.redirectParameter index F.target) } :=
  (congrArg Function.calls F.eq).trans (F.revises.calls_prependCalls F.body _)

/-- What led to an expression leads to what has been put in its place. -/
theorem redirects {counts : List Nat} {value origin : ExprId} (h : f.Peels counts value origin) :
    g.Peels counts (f.redirectParameter index F.target value)
      (f.redirectParameter index F.target origin) :=
  (F.revises.peels h).mono fun id e he => by rwa [F.expr?_eq]

end Fetch

end Function

/-! ## What the edits of the pass leave alone -/

/-- What no step of the pass changes in a function. -/
def Function.role (f : Function) : String × Convention × Bool :=
  (f.name, f.convention, f.body.isSome)

theorem Function.isKernel_of_role {f g : Function} (h : f.role = g.role) (hg : g.isKernel) :
    f.isKernel := by
  have hconvention : f.convention = g.convention := congrArg (·.2.1) h
  have hbody : f.body.isSome = g.body.isSome := congrArg (·.2.2) h
  rwa [isKernel_iff, hconvention, hbody, ← isKernel_iff]

/-- The function `g` is `f` with more calls, whose callees have the property. -/
structure Function.Calling (added : FunctionId → Prop) (f g : Function) : Prop where
  role : g.role = f.role
  calls : ∀ c ∈ g.calls, (∃ old ∈ f.calls, old.callee = c.callee) ∨ added c.callee
  keeps : ∀ c ∈ f.calls, ∃ new ∈ g.calls, new.callee = c.callee

namespace Function

variable {f g : Function} {added : FunctionId → Prop} {size index : Nat} {o : Provenance}

theorem calling_setMark (f : Function) (index : Nat) (mark : Option FixedResource) :
    f.Calling added (f.setMark index mark) :=
  ⟨rfl, fun c hc => .inl ⟨c, hc, rfl⟩, fun c hc => ⟨c, hc, rfl⟩⟩

theorem linked_setMark (hf : f.Linked size) (index : Nat) (mark : Option FixedResource) :
    (f.setMark index mark).Linked size :=
  ⟨hf.callee_lt, hf.result⟩

theorem role_fetchParameter (h : f.fetchParameter index o = .ok g) : g.role = f.role := by
  obtain ⟨ls, ids, r, f₁, σ, -, hrev, -, -, rfl⟩ := fetchParameter_ok h
  have hname : f₁.name = f.name := by rw [hrev.frame]
  have hconvention : f₁.convention = f.convention := by rw [hrev.frame]
  simp only [role, prependCalls, hname, hconvention, Option.isSome_map, hrev.body]

/-- A function that fetches a resource has one call more. -/
theorem calling_fetchParameter (h : f.fetchParameter index o = .ok g)
    (hadded : added o.resource.accessor) : f.Calling added g := by
  have hbody := isSome_body_of_fetchParameter h
  have hrole := role_fetchParameter h
  obtain ⟨ls, ids, r, f₁, σ, -, hrev, -, -, rfl⟩ := fetchParameter_ok h
  have hcalls := hrev.calls_prependCalls hbody [⟨o.resource.accessor, ids, some r⟩]
  refine ⟨hrole, fun c hc => ?_, fun c hc => ?_⟩
  · rw [hcalls] at hc
    rcases List.mem_cons.mp hc with rfl | hc
    · exact .inr hadded
    · obtain ⟨old, hold, rfl⟩ := List.mem_map.mp hc
      exact .inl ⟨old, hold, rfl⟩
  · refine ⟨{ c with arguments := c.arguments.map σ }, ?_, rfl⟩
    rw [hcalls]
    exact List.mem_cons_of_mem _ (List.mem_map_of_mem hc)

theorem linked_fetchParameter (h : f.fetchParameter index o = .ok g) (hf : f.Linked size)
    (hlt : (o.resource.accessor : Nat) < size) : g.Linked size := by
  obtain ⟨ls, ids, r, f₁, σ, -, hrev, -, ⟨-, -, hr⟩, rfl⟩ := fetchParameter_ok h
  refine linked_prependCalls (hrev.linked hf) fun c hc => ?_
  obtain rfl := List.mem_singleton.mp hc
  exact ⟨hlt, fun r' hr' => Option.some.inj hr' ▸ hr⟩

end Function

end ResourceBinding
