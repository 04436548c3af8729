import ResourceBinding.Proofs.Binding.Interface
import Mathlib.Data.List.Dedup

/-!
# What is wrong with a module

What is wrong with a module can be told from the module as it was given (`Module.fault?`): an
argument of a type that is passed for none, a sampler that is not in the map, an argument in the
memory of a work group, or a function with the name of an accessor.

Here is why numbering the buffers fails as it does (`Module.errorOf_bufferNumbering`), and why
binding the samplers does (`Module.errorOf_allocateSamplers`). No other fault occurs: once all
samplers are bound, nothing calls the function that makes samplers, so that it can be removed.
-/

namespace ResourceBinding

/-! ## First elements -/

theorem findSome?_congr {α β : Type} {f g : α → Option β} :
    ∀ {as : List α}, (∀ a ∈ as, f a = g a) → as.findSome? f = as.findSome? g
  | [], _ => rfl
  | a :: as, h => by
    rw [List.findSome?_cons, List.findSome?_cons, h a List.mem_cons_self,
      findSome?_congr fun b hb => h b (List.mem_cons_of_mem a hb)]

theorem findSome?_flatMap {α β γ : Type} (f : β → Option γ) (g : α → List β) :
    ∀ as : List α, (as.flatMap g).findSome? f = as.findSome? fun a => (g a).findSome? f
  | [] => rfl
  | a :: as => by
    rw [List.flatMap_cons, List.findSome?_append, findSome?_flatMap f g as, List.findSome?_cons]
    cases (g a).findSome? f <;> rfl

/-! ## What is wrong with a module -/

/-- What is wrong with a call that makes a sampler. -/
def Function.samplerFault? (f : Function) (samplers : SamplerMap) (c : Call) : Option Fault :=
  match (c.arguments.head?.bind f.literal?).bind Literal.natural? with
  | none => some (.samplerNotLiteral f.name)
  | some value =>
    if samplers.any (·.value == value) then none else some (.samplerNotListed value f.name)

namespace Module

/-- The calls that make samplers, each with its function: functions in the order of declaration, and
the calls of one function in program order. -/
def samplerCalls (m : Module) : List (Function × Call) :=
  match m.find? ReservedName.samplerMaker with
  | none => []
  | some maker => m.functions.toList.flatMap fun f =>
    (f.calls.filter (·.callee == maker)).map fun c => (f, c)

/-- The first argument of a kernel with a type that is passed for none. -/
def classificationFault? (m : Module) : Option Fault :=
  m.kernelArguments.findSome? fun a => (errorOf (m.types.argumentKind a.type)).map .unclassified

/-- Without a sampler map, no sampler may be made; with one, each that is made has to be in it. -/
def samplersFault? (m : Module) (samplers : SamplerMap) : Option Fault :=
  if samplers.isEmpty then m.samplerCalls.head?.map fun (f, _) => .noSamplerMap f.name
  else m.samplerCalls.findSome? fun (f, c) => f.samplerFault? samplers c

/-- What is wrong with an argument that stands behind others: it is in the memory of a work group,
or it is the first with its discriminant, and the name of the accessor is taken. -/
def argumentFault? (m : Module) (before : List KernelArgument) (a : KernelArgument) :
    Option Fault :=
  if m.types.argumentKind a.type matches .ok .workgroup then
    some (.workgroupArgument a.kernel a.position)
  else if a.key ∈ before.map KernelArgument.key then none
  else
    let name := ReservedName.accessor (before.map KernelArgument.key).dedup.length
    if (m.find? name).isSome then some (.edit (.nameTaken name)) else none

/-- The first fault of arguments that stand behind others. -/
def argumentsFault? (m : Module) : List KernelArgument → List KernelArgument → Option Fault
  | _, [] => none
  | before, a :: rest => (m.argumentFault? before a).or (m.argumentsFault? (before ++ [a]) rest)

/-- The first of all that is wrong with a module: types of arguments, then samplers, then the other
faults of arguments. -/
def fault? (m : Module) (samplers : SamplerMap) : Option Fault :=
  m.classificationFault?.or
    ((m.samplersFault? samplers).or (m.argumentsFault? [] (m.remainingArguments samplers)))

/-- The operands of each call are expressions of the function. -/
def OperandsPresent (m : Module) : Prop :=
  ∀ f ∈ m.functions, ∀ c ∈ f.calls, ∀ op ∈ c.arguments, (op : Nat) < f.expressions.size

end Module

/-! ## The types of arguments -/

namespace Module

variable {m : Module} {c : Compilation}

/-- Numbers a discriminant if it is that of a buffer. -/
def insertBuffer (m : Module) (n : Numbering) (key : Discriminant) :
    Except Unclassified Numbering := do
  match ← m.types.argumentKind key.type with
  | .buffer => return (n.insert key).2
  | _ => return n

/-- The arguments of the kernels are scanned in order. -/
theorem bufferNumbering_eq (m : Module) : m.bufferNumbering
    = (m.kernelArguments.map KernelArgument.key).foldlM m.insertBuffer .empty := by
  have harguments : ∀ g : FunctionId × Function → List Discriminant,
      (∀ k, g k = k.2.params.mapIdx fun position p => Discriminant.mk p.type position) →
      m.kernels.flatMap g = m.kernelArguments.map KernelArgument.key := by
    intro g hg
    rw [funext hg, ← flatMap_kernels, List.map_flatMap, List.flatMap_map]
    simp only [List.mapIdx_eq_zipIdx_map, List.map_map]
    rfl
  exact congrArg (List.foldlM _ Numbering.empty) (harguments _ fun _ => rfl)

theorem errorOf_bufferNumbering (m : Module) : errorOf m.bufferNumbering
    = m.kernelArguments.findSome? fun a => errorOf (m.types.argumentKind a.type) := by
  rw [bufferNumbering_eq, errorOf_foldlM (g := fun key => errorOf (m.types.argumentKind key.type)),
    List.findSome?_map]
  · rfl
  · intro n key
    unfold insertBuffer
    cases m.types.argumentKind key.type with
    | error cause => rfl
    | ok kind => cases kind <;> rfl

end Module

/-! ## Samplers -/

/-- The rows of a sampler map have its values. -/
theorem any_samplerRows (set : Nat) (samplers : SamplerMap) (value : Nat) :
    (samplerRows set samplers).any (·.value == value) = samplers.any (·.value == value) := by
  have hadd : ∀ rows sampler index, (addSamplerRow set rows sampler index).any (·.value == value)
      = (rows.any (·.value == value) || sampler.value == value) := by
    intro rows sampler index
    unfold addSamplerRow
    split
    · rename_i hold
      cases hvalue : sampler.value == value with
      | false => rw [Bool.or_false]
      | true => rw [← beq_iff_eq.mp hvalue, hold, Bool.true_or]
    · simp
  have hfold : ∀ (pairs : List (Sampler × Nat)) rows,
      (pairs.foldl (fun rows (s, i) => addSamplerRow set rows s i) rows).any (·.value == value)
        = (rows.any (·.value == value) || pairs.any (·.1.value == value)) := by
    intro pairs
    induction pairs with
    | nil => simp
    | cons pair pairs ih =>
      intro rows
      rw [List.foldl_cons, ih, hadd, List.any_cons, Bool.or_assoc]
  rw [samplerRows, hfold, List.any_nil, Bool.false_or]
  conv_rhs => rw [← List.zipIdx_map_fst 0 samplers, List.any_map]
  rfl

namespace SamplerBinding

variable {b : SamplerBinding} {f g : Function} {samplers : SamplerMap}

/-- The rows of the binding have the values of the map. -/
def Covers (b : SamplerBinding) (samplers : SamplerMap) : Prop :=
  ∀ value, b.rows.any (·.value == value) = samplers.any (·.value == value)

theorem errorOf_row? (hb : b.Covers samplers) (f : Function) (c : Call) :
    errorOf (b.row? f c) = f.samplerFault? samplers c := by
  unfold row? Function.samplerFault?
  cases (c.arguments.head?.bind f.literal?).bind Literal.natural? with
  | none => rfl
  | some value =>
    simp only [← hb value]
    cases hrow : b.rows.find? (·.value == value) with
    | none =>
      rw [if_neg]
      · rfl
      · simpa using hrow
    | some row =>
      rw [if_pos]
      · rfl
      · exact List.any_eq_true.mpr ⟨row, List.mem_of_find?_eq_some hrow,
          List.find?_some (p := fun row : SamplerRow => row.value == value) hrow⟩

/-- What a call of a function fails with, if it makes a sampler. -/
def fails (b : SamplerBinding) (samplers : SamplerMap) (f : Function) (c : Call) : Option Fault :=
  if c.callee = b.initializer then f.samplerFault? samplers c else none

theorem errorOf_rewriteCall (hb : b.Covers samplers) (f : Function) (c : Call) :
    errorOf ((b.rewriteCall c).run f) = b.fails samplers f c := by
  change errorOf (b.rewriteCall c f) = _
  unfold rewriteCall fails
  split
  · rw [← errorOf_row? hb]
    cases b.row? f c <;> rfl
  · rfl

/-- More literals in the store change nothing about a call whose operands were there before. -/
theorem fails_of_addsLiterals (h : f.AddsLiterals g) {c : Call}
    (hc : ∀ op ∈ c.arguments, (op : Nat) < f.expressions.size) :
    b.fails samplers g c = b.fails samplers f c := by
  have hname : g.name = f.name := by rw [h.frame]
  have hliteral : c.arguments.head?.bind g.literal? = c.arguments.head?.bind f.literal? := by
    cases hhead : c.arguments.head? with
    | none => rfl
    | some op =>
      have hop := hc op (List.mem_of_mem_head? (by rw [hhead]; rfl))
      have hexpr : g.expr? op = f.expr? op := h.old op hop
      simp only [Option.bind_some, Function.literal?, hexpr]
  unfold fails Function.samplerFault?
  rw [hname, hliteral]

/-- What is rewritten behind a block fails where the block does, and else where it does itself. -/
theorem errorOf_mapCallsM_bind {α : Type} {f g : Function} {body : Block}
    {next : Block → StateT Function (Except Fault) α} {fault : Option Fault}
    (hbody : ∀ {g : Function}, f.AddsLiterals g →
      errorOf ((body.mapCallsM b.rewriteCall).run g) = body.calls.findSome? (b.fails samplers f))
    (hnext : ∀ body' {g : Function}, f.AddsLiterals g → errorOf ((next body').run g) = fault)
    (hg : f.AddsLiterals g) :
    errorOf ((body.mapCallsM b.rewriteCall >>= next).run g)
      = (body.calls.findSome? (b.fails samplers f)).or fault := by
  rw [← hbody hg]
  exact errorOf_run_bind fun body' t hrun => hnext body' (hg.trans (mapCallsM_ok hrun).1)

/-- **Rewriting a block fails at its first call that makes a sampler and is wrong.** -/
theorem errorOf_mapCallsM (hb : b.Covers samplers) {f : Function} {body : Block}
    (hbody : ∀ c ∈ body.calls, ∀ op ∈ c.arguments, (op : Nat) < f.expressions.size) :
    ∀ {g : Function}, f.AddsLiterals g →
      errorOf ((body.mapCallsM b.rewriteCall).run g)
        = body.calls.findSome? (b.fails samplers f) := by
  induction body with
  | nil => exact fun _ => rfl
  | cons head rest ih =>
    intro g hg
    cases head with
    | call c =>
      have hc : b.fails samplers g c = b.fails samplers f c :=
        fails_of_addsLiterals hg (hbody c List.mem_cons_self)
      have hrest : ∀ c' t, (b.rewriteCall c).run g = .ok (c', t) →
          errorOf ((rest.mapCallsM b.rewriteCall >>= fun rest' =>
            pure (Block.cons (.call c') rest')).run t) = rest.calls.findSome? (b.fails samplers f) := by
        intro c' t hrun
        rw [errorOf_run_bind_pure]
        exact ih (fun c hc => hbody c (List.mem_cons_of_mem _ hc))
          (hg.trans (rewriteCall_ok hrun).1)
      have h := errorOf_run_bind hrest
      rw [errorOf_rewriteCall hb, hc] at h
      rw [Block.calls, List.findSome?_cons]
      refine h.trans ?_
      cases b.fails samplers f c <;> rfl
    | _ =>
      have h := ih hbody hg
      refine Eq.trans ?_ h
      exact errorOf_run_bind_pure _ _
  | branch condition accept reject rest iha ihr ih =>
    intro g hg
    have hcalls : (Block.branch condition accept reject rest).calls
        = accept.calls ++ reject.calls ++ rest.calls := rfl
    rw [hcalls] at hbody ⊢
    simp only [List.mem_append] at hbody
    rw [List.findSome?_append, List.findSome?_append, Option.or_assoc]
    refine errorOf_mapCallsM_bind (iha fun c hc => hbody c (.inl (.inl hc))) (fun _ _ ht => ?_) hg
    refine errorOf_mapCallsM_bind (ihr fun c hc => hbody c (.inl (.inr hc))) (fun _ _ hu => ?_) ht
    rw [errorOf_run_bind_pure]
    exact ih (fun c hc => hbody c (.inr hc)) hu
  | loop body rest ihb ih =>
    intro g hg
    have hcalls : (Block.loop body rest).calls = body.calls ++ rest.calls := rfl
    rw [hcalls] at hbody ⊢
    simp only [List.mem_append] at hbody
    rw [List.findSome?_append]
    refine errorOf_mapCallsM_bind (ihb fun c hc => hbody c (.inl hc)) (fun _ _ ht => ?_) hg
    rw [errorOf_run_bind_pure]
    exact ih (fun c hc => hbody c (.inr hc)) ht

/-- **Rewriting a function fails at its first call that makes a sampler and is wrong.** -/
theorem errorOf_rewrite (hb : b.Covers samplers)
    (hf : ∀ c ∈ f.calls, ∀ op ∈ c.arguments, (op : Nat) < f.expressions.size) :
    errorOf (b.rewrite f) = (f.calls.filter (·.callee == b.initializer)).findSome?
      (f.samplerFault? samplers) := by
  have hfails : (f.calls.filter (·.callee == b.initializer)).findSome? (f.samplerFault? samplers)
      = f.calls.findSome? (b.fails samplers f) := by
    induction f.calls with
    | nil => rfl
    | cons c cs ih =>
      by_cases hcallee : c.callee = b.initializer
      · rw [List.filter_cons_of_pos (by simpa using hcallee), List.findSome?_cons,
          List.findSome?_cons, ih, fails, if_pos hcallee]
      · rw [List.filter_cons_of_neg (by simpa using hcallee), List.findSome?_cons, ih, fails,
          if_neg hcallee]
  rw [hfails]
  unfold rewrite Function.calls
  unfold Function.calls at hf
  cases hbody : f.body with
  | none => rfl
  | some body =>
    rw [hbody] at hf
    have h := errorOf_mapCallsM hb hf (.refl f)
    simp only [← h]
    cases (body.mapCallsM b.rewriteCall).run f <;> rfl

end SamplerBinding

namespace Module

variable {m m' : Module} {samplers : SamplerMap} {rows : List SamplerRow} {c : Compilation}

/-- The first function that makes a sampler is that of the first call that does. -/
theorem samplerUser?_eq (m : Module) : m.samplerUser? = m.samplerCalls.head?.map Prod.fst := by
  unfold samplerUser? samplerCalls
  cases m.find? ReservedName.samplerMaker with
  | none => rfl
  | some maker =>
    have hall : m.functions.toList = m.indexed.map Prod.snd := by
      rw [indexed, List.map_map]
      exact (List.zipIdx_map_fst 0 m.functions.toList).symm
    simp only [hall, List.flatMap_map, List.head?_flatMap]
    induction m.indexed with
    | nil => rfl
    | cons p ps ih =>
      rw [List.find?_cons, List.findSome?_cons, List.head?_map]
      cases hcalls : p.2.calls.filter (·.callee == maker) with
      | nil =>
        have hnone : p.2.calls.any (·.callee == maker) = false := by
          rw [List.filter_eq_nil_iff] at hcalls
          simpa using hcalls
        simp only [hnone]
        exact ih
      | cons c cs =>
        have hc : c ∈ p.2.calls.filter (·.callee == maker) := hcalls ▸ List.mem_cons_self
        have hsome : p.2.calls.any (·.callee == maker) = true :=
          List.any_eq_true.mpr ⟨c, List.mem_filter.mp hc⟩
        simp only [hsome]
        rfl

theorem errorOf_remove {id : FunctionId} {f : Function} (hf : m.function? id = some f)
    (hcalls : ∀ g ∈ m.functions, ∀ c ∈ g.calls, c.callee ≠ id) : errorOf (m.remove id) = none := by
  have hnone : m.callsTo id = [] := by
    refine List.eq_nil_iff_forall_not_mem.mpr fun site hsite => ?_
    obtain ⟨g, hg, hc, hcallee⟩ := mem_callsTo.mp (show (site.1, site.2) ∈ _ from hsite)
    exact hcalls g (mem_functions_iff.mpr ⟨_, hg⟩) site.2 hc hcallee
  unfold remove
  simp only [hf, hnone, List.length_nil, if_true]
  rfl

/-- The accessor is another function than the one that makes samplers. -/
theorem samplerAccessor_ne {maker : FunctionId}
    (hmaker : m.find? ReservedName.samplerMaker = some maker) : m.samplerAccessor.1 ≠ maker := by
  obtain ⟨f, hf, hname⟩ := function?_of_find? hmaker
  rintro rfl
  rcases m.samplerAccessor_eq with ⟨g, hg, hname', -⟩ | ⟨-, hsize, -⟩
  · cases hf.symm.trans hg
    rw [hname] at hname'
    exact absurd hname' (by decide)
  · exact absurd (hsize ▸ lt_size_of_function? hf) (Nat.lt_irrefl _)

/-- **Once all functions are rewritten, nothing calls the function that makes samplers.** -/
theorem not_calls_of_rewrite {maker : FunctionId}
    (hmaker : m.find? ReservedName.samplerMaker = some maker) {functions : Array Function}
    (hmap : m.samplerAccessor.2.functions.mapM
      (SamplerBinding.rewrite ⟨rows, maker, m.samplerAccessor.1⟩) = .ok functions) :
    ∀ g ∈ functions, ∀ c ∈ g.calls, c.callee ≠ maker := by
  intro g hg c hc
  obtain ⟨f, -, hfg⟩ := exists_mem_of_forall₂ (forall₂_of_array_mapM hmap) (Array.mem_def.mp hg)
  obtain ⟨-, -, f₁, -, hrewrites, -⟩ := SamplerBinding.rewrite_ok hfg
  obtain ⟨old, -, hrewrite⟩ := exists_mem_of_forall₂ hrewrites hc
  cases hrewrite with
  | other hne => exact hne
  | maker => exact samplerAccessor_ne hmaker

theorem mem_samplerCalls {maker : FunctionId} {f : Function} {c : Call}
    (hmaker : m.find? ReservedName.samplerMaker = some maker) :
    (f, c) ∈ m.samplerCalls ↔ f ∈ m.functions ∧ c ∈ f.calls ∧ c.callee = maker := by
  simp [samplerCalls, hmaker]

/-- Rewriting the functions fails in the first one that makes a wrong sampler. The accessor, if it
is declared for this, makes none. -/
theorem findSome?_errorOf_rewrite {b : SamplerBinding} (hm : m.OperandsPresent)
    (hb : b.Covers samplers) :
    m.samplerAccessor.2.functions.toList.findSome? (fun f => errorOf (b.rewrite f))
      = m.functions.toList.findSome? fun f =>
        ((f.calls.filter (·.callee == b.initializer)).map fun c => (f, c)).findSome?
          fun (f, c) => f.samplerFault? samplers c := by
  have hold : m.functions.toList.findSome? (fun f => errorOf (b.rewrite f)) = _ :=
    findSome?_congr fun f hf => SamplerBinding.errorOf_rewrite hb (hm f (Array.mem_def.mpr hf))
  simp only [List.findSome?_map]
  rcases m.samplerAccessor_eq with ⟨-, -, -, hsame⟩ | ⟨-, -, f, -, hbody, -, hpush⟩
  · rw [hsame]
    exact hold
  · have hcalls : f.calls = [] := by simp [Function.calls, hbody]
    have hnone : errorOf (b.rewrite f) = none := by
      rw [SamplerBinding.errorOf_rewrite hb (by simp [hcalls]), hcalls]
      rfl
    rw [hpush, Array.toList_push, List.findSome?_append, List.findSome?_singleton, hnone,
      Option.or_none]
    exact hold

/-- A function that is there and that nothing calls can be removed. -/
theorem exists_remove {id : FunctionId} (hid : m.function? id ≠ none)
    (hcalls : ∀ g ∈ m.functions, ∀ c ∈ g.calls, c.callee ≠ id) : ∃ r, m.remove id = .ok r := by
  obtain ⟨g, hg⟩ := Option.ne_none_iff_exists'.mp hid
  exact errorOf_eq_none_iff.mp (errorOf_remove hg hcalls)

/-- Where the calls that make samplers have been rewritten, the function that makes them can be
removed. -/
theorem exists_remove_of_rewrite {maker : FunctionId}
    (hmaker : m.find? ReservedName.samplerMaker = some maker) {functions : Array Function}
    (hmap : m.samplerAccessor.2.functions.mapM
      (SamplerBinding.rewrite ⟨rows, maker, m.samplerAccessor.1⟩) = .ok functions) :
    ∃ r, ({ m.samplerAccessor.2 with functions } : Module).remove maker = .ok r := by
  obtain ⟨f, hf, -⟩ := function?_of_find? hmaker
  refine exists_remove (fun hnone => ?_) (not_calls_of_rewrite hmaker hmap)
  have hrewritten : m.RewrittenTo rows maker { m.samplerAccessor.2 with functions } :=
    .inr ⟨rfl, forall₂_of_array_mapM hmap⟩
  obtain ⟨declared, -, hnames, -⟩ := hrewritten.frame
  have hlength : functions.size = m.functions.size + declared.length := by
    simpa only [List.length_append, List.length_map, length_names]
      using congrArg List.length hnames
  have hle : functions.size ≤ maker := Array.getElem?_eq_none_iff.mp hnone
  have hlt : (maker : Nat) < m.functions.size := lt_size_of_function? hf
  exact Nat.not_lt.mpr hle (by rw [hlength]; exact Nat.lt_add_right _ hlt)

/-- **Binding the samplers fails at the first call that makes one and is wrong.** The function that
makes samplers can be removed in any case. -/
theorem errorOf_bindSamplers (hm : m.OperandsPresent)
    (hrows : ∀ value, rows.any (·.value == value) = samplers.any (·.value == value)) :
    errorOf (m.bindSamplers rows)
      = m.samplerCalls.findSome? fun (f, c) => f.samplerFault? samplers c := by
  unfold bindSamplers
  cases hmaker : m.find? ReservedName.samplerMaker with
  | none =>
    simp only [samplerCalls, hmaker]
    rfl
  | some maker =>
    cases huser : m.samplerUser? with
    | none =>
      have hnone : m.samplerCalls = [] := by
        rw [samplerUser?_eq, Option.map_eq_none_iff, List.head?_eq_none_iff] at huser
        exact huser
      simp only [hnone]
      obtain ⟨f, hf, -⟩ := function?_of_find? hmaker
      have hcalls : ∀ g ∈ m.functions, ∀ c ∈ g.calls, c.callee ≠ maker := fun g hg c hc hcallee =>
        absurd hnone (List.ne_nil_of_mem ((mem_samplerCalls hmaker).mpr ⟨hg, hc, hcallee⟩))
      obtain ⟨r, hr⟩ := exists_remove (by simp [hf]) hcalls
      rw [pure_bind, hr]
      rfl
    | some user =>
      let b : SamplerBinding := ⟨rows, maker, m.samplerAccessor.1⟩
      have hfaults : errorOf (m.samplerAccessor.2.functions.mapM b.rewrite)
          = m.samplerCalls.findSome? fun (f, c) => f.samplerFault? samplers c := by
        rw [errorOf_array_mapM, samplerCalls, hmaker]
        exact (findSome?_errorOf_rewrite hm (b := b) hrows).trans (findSome?_flatMap _ _ _).symm
      rw [← hfaults]
      cases hmap : m.samplerAccessor.2.functions.mapM b.rewrite with
      | error fault =>
        simp only [b] at hmap
        simp only [hmap]
        rfl
      | ok functions =>
        obtain ⟨r, hr⟩ := exists_remove_of_rewrite hmaker hmap
        have hpure : m.samplerAccessor.2.functions.mapM
            (SamplerBinding.rewrite ⟨rows, maker, m.samplerAccessor.1⟩) = pure functions := hmap
        simp only [hpure, pure_bind, hr]
        rfl

theorem errorOf_allocateSamplers (hm : m.OperandsPresent) (c : Compilation) :
    errorOf (m.allocateSamplers c).2.result = m.samplersFault? c.samplers := by
  unfold allocateSamplers samplersFault?
  by_cases hempty : c.samplers.isEmpty
  · simp only [hempty, if_true]
    rw [samplerUser?_eq]
    cases m.samplerCalls.head? <;> rfl
  · simp only [hempty]
    exact errorOf_bindSamplers hm (any_samplerRows _ _)

end Module

end ResourceBinding
