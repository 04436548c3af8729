import ResourceBinding.Proofs.Program.Results
import ResourceBinding.Proofs.Program.Steps
import ResourceBinding.Proofs.Reading.Tokens
import ResourceBinding.Reading.Body

/-!
# What has been read of a body

`BodyDraft.Valid` is what holds of the store, the names and the parameters at any point of a body.
Reading an operand adds to the store but gives no name and no result (`BodyDraft.Supplies`). What
has been read in all is told by its steps and its calls (`BodyDraft.Reads`), and two parts of a body
are told by those of the one and then of the other (`BodyDraft.Reads.trans`).

A parameter can be hidden by a value of the same name. An operand that means the parameter was read
before there was such a value (`BodyDraft.Unhidden`).
-/

namespace ResourceBinding

/-- The integer has the 32 bits of its type. -/
def Literal.InRange : Literal → Prop
  | i32 n => -0x80000000 ≤ n ∧ n < 0x80000000
  | u32 n => n < UInt32.size
  | bool _ | f32 _ => True

/-- Whether an expression has a name of its own: it is neither a literal nor a parameter. -/
def Expr.isNamed : Expr → Bool
  | literal _ | parameter _ => false
  | result _ | access _ _ | load _ | binary _ _ _ => true

theorem Expr.operands_of_not_isNamed {e : Expr} (h : e.isNamed = false) : e.operands = [] := by
  cases e <;> first | rfl | cases h

theorem Expr.not_isResult_of_not_isNamed {e : Expr} (h : e.isNamed = false) :
    e.isResult = false := by
  cases e <;> first | rfl | cases h

namespace BodyDraft

variable {ctx : BodyContext} {d d' d₁ d₂ : BodyDraft} {e : Expr} {name : String}

/-- The number of expressions so far, and the position of the next one. -/
def size (d : BodyDraft) : Nat :=
  d.expressions.size

/-- The expression at a position. -/
def expr? (d : BodyDraft) (id : ExprId) : Option Expr :=
  d.expressions[id]?

theorem lt_size_of_expr? {id : Nat} (h : d.expr? id = some e) : id < d.size :=
  (Array.getElem?_eq_some_iff.mp h).1

/-- The draft with one more expression. -/
def add (d : BodyDraft) (e : Expr) : BodyDraft :=
  { d with expressions := d.expressions.push e }

/-- The draft with one more expression, which has a name. -/
def addNamed (d : BodyDraft) (e : Expr) (name : String) : BodyDraft :=
  { d.add e with values := (name, d.size) :: d.values }

theorem expr?_add (d : BodyDraft) (e : Expr) (id : ExprId) :
    (d.add e).expr? id = if id = d.size then some e else d.expr? id :=
  Array.getElem?_push

theorem expr?_add_of_lt {id : Nat} (h : id < d.size) : (d.add e).expr? id = d.expr? id := by
  rw [expr?_add, if_neg (Nat.ne_of_lt h)]

@[simp]
theorem expr?_add_size (d : BodyDraft) (e : Expr) : (d.add e).expr? d.size = some e := by
  rw [expr?_add, if_pos rfl]

@[simp]
theorem size_add (d : BodyDraft) (e : Expr) : (d.add e).size = d.size + 1 :=
  Array.size_push _

/-! ## Growth -/

/-- Expressions and names have been added. The new names are those of new expressions. -/
structure Extends (d d' : BodyDraft) : Prop where
  expr : ∀ id e, d.expr? id = some e → d'.expr? id = some e
  values : ∃ new, d'.values = new ++ d.values ∧ ∀ v ∈ new, d.size ≤ v.2

theorem Extends.refl (d : BodyDraft) : d.Extends d :=
  ⟨fun _ _ h => h, [], rfl, fun _ h => absurd h List.not_mem_nil⟩

theorem Extends.size_le (h : d.Extends d') : d.size ≤ d'.size := by
  refine Nat.not_lt.mp fun hlt => ?_
  have hsome : d.expr? d'.size = some d.expressions[d'.size] := Array.getElem?_eq_getElem hlt
  exact Nat.lt_irrefl _ (lt_size_of_expr? (h.expr _ _ hsome))

theorem Extends.trans (h : d.Extends d₁) (h' : d₁.Extends d₂) : d.Extends d₂ := by
  obtain ⟨new, hnew, hle⟩ := h.values
  obtain ⟨new', hnew', hle'⟩ := h'.values
  refine ⟨fun id e he => h'.expr id e (h.expr id e he), new' ++ new, ?_, fun v hv => ?_⟩
  · rw [hnew', hnew, List.append_assoc]
  · rcases List.mem_append.mp hv with hv | hv
    · exact Nat.le_trans h.size_le (hle' v hv)
    · exact hle v hv

theorem Extends.expr?_of_lt (h : d.Extends d') {id : Nat} (hid : id < d.size) :
    d'.expr? id = d.expr? id := by
  have hsome : d.expr? id = some d.expressions[id] := Array.getElem?_eq_getElem hid
  rw [h.expr _ _ hsome, hsome]

theorem extends_add (d : BodyDraft) (e : Expr) : d.Extends (d.add e) := by
  refine ⟨fun id e' he => ?_, [], rfl, fun _ h => absurd h List.not_mem_nil⟩
  rw [expr?_add_of_lt (lt_size_of_expr? he)]
  exact he

theorem extends_addNamed (d : BodyDraft) (e : Expr) (name : String) :
    d.Extends (d.addNamed e name) := by
  refine ⟨(extends_add d e).expr, [(name, d.size)], rfl, fun v hv => ?_⟩
  rw [List.mem_singleton.mp hv]

/-! ## Valid drafts -/

/-- If the expression `op` is a parameter, then no value before `n` has its name. -/
def Unhidden (ctx : BodyContext) (d : BodyDraft) (n : Nat) (op : ExprId) : Prop :=
  ∀ p name, d.expr? op = some (.parameter p) → (ctx.params[p]?).bind Param.name = some name →
    ∀ v, (name, v) ∈ d.values → n ≤ v

theorem Unhidden.mono {n : Nat} {op : ExprId} (h : d.Unhidden ctx n op) (hext : d.Extends d')
    (hop : (op : Nat) < d.size) (hn : n ≤ d.size) : d'.Unhidden ctx n op := by
  obtain ⟨new, hnew, hle⟩ := hext.values
  intro p name hp hname v hv
  rw [hext.expr?_of_lt hop] at hp
  rw [hnew, List.mem_append] at hv
  rcases hv with hv | hv
  · exact Nat.le_trans hn (hle _ hv)
  · exact h p name hp hname v hv

/-- Operands come before what is built on them, names are given to values, each value has one, and
whatever the draft refers to is there. -/
structure Valid (ctx : BodyContext) (d : BodyDraft) : Prop where
  operand : ∀ id e, d.expr? id = some e → ∀ op ∈ e.operands,
    (op : Nat) < id ∧ d.Unhidden ctx id op
  callee_lt : ∀ r callee, d.expr? r = some (.result callee) → (callee : Nat) < ctx.functions.length
  parameter : ∀ id p, d.expr? id = some (.parameter p) →
    ∃ name, ctx.params.findIdx? (·.name == some name) = some p
  literal : ∀ id l, d.expr? id = some (.literal l) → l.InRange
  value : ∀ name id, (name, id) ∈ d.values → IsName name ∧ ∃ e, d.expr? id = some e ∧ e.isNamed
  named : ∀ id e, d.expr? id = some e → e.isNamed → ∃ name, (name, id) ∈ d.values
  names : (d.values.map Prod.fst).Nodup
  ids : (d.values.map Prod.snd).Nodup
  memo : ∀ p id, (p, id) ∈ d.parameters → d.expr? id = some (.parameter p)

theorem valid_empty (ctx : BodyContext) : empty.Valid ctx := by
  constructor <;> simp [empty, expr?]

namespace Valid

theorem value_lt (h : d.Valid ctx) {id : Nat} (hv : (name, id) ∈ d.values) : id < d.size := by
  obtain ⟨e, he, -⟩ := (h.value name id hv).2
  exact lt_size_of_expr? he

/-- A literal or a parameter has been added. -/
theorem add (h : d.Valid ctx) (hnamed : e.isNamed = false)
    (hparameter : ∀ p, e = .parameter p →
      ∃ name, ctx.params.findIdx? (·.name == some name) = some p)
    (hliteral : ∀ l, e = .literal l → l.InRange) : (d.add e).Valid ctx := by
  have hext := extends_add d e
  have hcases : ∀ (id : Nat) e', (d.add e).expr? id = some e' →
      d.expr? id = some e' ∨ (id = d.size ∧ e' = e) := by
    intro id e' he
    rw [expr?_add] at he
    split at he
    · exact .inr ⟨‹_›, (Option.some.inj he).symm⟩
    · exact .inl he
  refine { h with
    operand := fun id e' he op hop => ?_
    callee_lt := fun r callee hr => ?_
    parameter := fun id p hp => ?_
    literal := fun id l hl => ?_
    value := fun name id hv => ?_
    named := fun id e' he hnamed' => ?_
    memo := fun p id hmem => hext.expr id _ (h.memo p id hmem) }
  · rcases hcases id e' he with hold | ⟨-, rfl⟩
    · obtain ⟨hlt, hun⟩ := h.operand id e' hold op hop
      have hid := lt_size_of_expr? hold
      exact ⟨hlt, hun.mono hext (Nat.lt_trans hlt hid) (Nat.le_of_lt hid)⟩
    · rw [Expr.operands_of_not_isNamed hnamed] at hop
      cases hop
  · rcases hcases r _ hr with hold | ⟨-, rfl⟩
    · exact h.callee_lt r callee hold
    · cases hnamed
  · rcases hcases id _ hp with hold | ⟨-, heq⟩
    · exact h.parameter id p hold
    · exact hparameter p heq.symm
  · rcases hcases id _ hl with hold | ⟨-, heq⟩
    · exact h.literal id l hold
    · exact hliteral l heq.symm
  · obtain ⟨hname, e', he, hnamed'⟩ := h.value name id hv
    exact ⟨hname, e', hext.expr id e' he, hnamed'⟩
  · rcases hcases id e' he with hold | ⟨-, rfl⟩
    · exact h.named id e' hold hnamed'
    · cases hnamed.symm.trans hnamed'

/-- A parameter has been noted down. -/
theorem note (h : d.Valid ctx) {p : Nat} {id : ExprId} (hid : d.expr? id = some (.parameter p)) :
    ({ d with parameters := (p, id) :: d.parameters } : BodyDraft).Valid ctx := by
  refine { h with memo := fun p' id' hmem => ?_ }
  rcases List.mem_cons.mp hmem with heq | hmem
  · cases heq
    exact hid
  · exact h.memo p' id' hmem

/-- A value has been added with its name. -/
theorem addNamed (h : d.Valid ctx) (hnamed : e.isNamed) (hname : IsName name)
    (hnew : name ∉ d.values.map Prod.fst)
    (hoperand : ∀ op ∈ e.operands, (op : Nat) < d.size ∧ d.Unhidden ctx d.size op)
    (hcallee : ∀ callee, e = .result callee → (callee : Nat) < ctx.functions.length) :
    (d.addNamed e name).Valid ctx := by
  have hext := extends_addNamed d e name
  have hself : (d.addNamed e name).expr? d.size = some e := expr?_add_size d e
  have hcases : ∀ (id : Nat) e', (d.addNamed e name).expr? id = some e' →
      d.expr? id = some e' ∨ (id = d.size ∧ e' = e) := by
    intro id e' he
    have he' : (d.add e).expr? id = some e' := he
    rw [expr?_add] at he'
    split at he'
    · exact .inr ⟨‹_›, (Option.some.inj he').symm⟩
    · exact .inl he'
  refine {
    operand := fun id e' he op hop => ?_
    callee_lt := fun r callee hr => ?_
    parameter := fun id p hp => ?_
    literal := fun id l hl => ?_
    value := fun other id hv => ?_
    named := fun id e' he hnamed' => ?_
    names := List.nodup_cons.mpr ⟨hnew, h.names⟩
    ids := List.nodup_cons.mpr ⟨fun hmem => ?_, h.ids⟩
    memo := fun p id hmem => hext.expr id _ (h.memo p id hmem) }
  · rcases hcases id e' he with hold | ⟨rfl, rfl⟩
    · obtain ⟨hlt, hun⟩ := h.operand id e' hold op hop
      have hid := lt_size_of_expr? hold
      exact ⟨hlt, hun.mono hext (Nat.lt_trans hlt hid) (Nat.le_of_lt hid)⟩
    · obtain ⟨hlt, hun⟩ := hoperand op hop
      exact ⟨hlt, hun.mono hext hlt (Nat.le_refl _)⟩
  · rcases hcases r _ hr with hold | ⟨-, heq⟩
    · exact h.callee_lt r callee hold
    · exact hcallee callee heq.symm
  · rcases hcases id _ hp with hold | ⟨-, rfl⟩
    · exact h.parameter id p hold
    · cases hnamed
  · rcases hcases id _ hl with hold | ⟨-, rfl⟩
    · exact h.literal id l hold
    · cases hnamed
  · rcases List.mem_cons.mp hv with heq | hv
    · cases heq
      exact ⟨hname, e, hself, hnamed⟩
    · obtain ⟨hname', e', he', hnamed'⟩ := h.value other id hv
      exact ⟨hname', e', hext.expr id e' he', hnamed'⟩
  · rcases hcases id e' he with hold | ⟨rfl, rfl⟩
    · obtain ⟨other, hother⟩ := h.named id e' hold hnamed'
      exact ⟨other, List.mem_cons_of_mem _ hother⟩
    · exact ⟨name, List.mem_cons_self⟩
  · obtain ⟨⟨other, id⟩, hv, heq⟩ := List.mem_map.mp hmem
    have hlt := h.value_lt hv
    obtain rfl : id = d.size := heq
    exact Nat.lt_irrefl _ hlt

end Valid

/-! ## Operands -/

/-- Operands have been read: neither names nor results have been added. -/
structure Supplies (ctx : BodyContext) (d d' : BodyDraft) : Prop where
  valid : d'.Valid ctx
  expr : ∀ id e, d.expr? id = some e → d'.expr? id = some e
  values : d'.values = d.values
  results : resultsIn d'.expressions = resultsIn d.expressions

theorem Supplies.refl (h : d.Valid ctx) : d.Supplies ctx d :=
  ⟨h, fun _ _ he => he, rfl, rfl⟩

theorem Supplies.trans (h : d.Supplies ctx d₁) (h' : d₁.Supplies ctx d₂) : d.Supplies ctx d₂ :=
  ⟨h'.valid, fun id e he => h'.expr id e (h.expr id e he), h'.values.trans h.values,
    h'.results.trans h.results⟩

theorem Supplies.grows (h : d.Supplies ctx d') : d.Extends d' :=
  ⟨h.expr, [], h.values, fun _ hv => absurd hv List.not_mem_nil⟩

theorem supplies_add (h : (d.add e).Valid ctx) (hnamed : e.isNamed = false) :
    d.Supplies ctx (d.add e) := by
  refine ⟨h, (extends_add d e).expr, rfl, ?_⟩
  refine (resultsIn_push _ _).trans ?_
  rw [Expr.not_isResult_of_not_isNamed hnamed]
  exact List.append_nil _

/-- The expression can be used: it is in the store, and if it is a parameter, then no value has its
name. -/
structure Usable (ctx : BodyContext) (d : BodyDraft) (op : ExprId) : Prop where
  lt_size : (op : Nat) < d.size
  unhidden : ∀ p name, d.expr? op = some (.parameter p) →
    (ctx.params[p]?).bind Param.name = some name → name ∉ d.values.map Prod.fst

theorem Usable.unhidden_at {op : ExprId} (h : d.Usable ctx op) (n : Nat) :
    d.Unhidden ctx n op :=
  fun p name hp hname _ hv => absurd (List.mem_map_of_mem hv) (h.unhidden p name hp hname)

theorem Usable.mono {op : ExprId} (h : d.Usable ctx op) (hd : d.Supplies ctx d') :
    d'.Usable ctx op := by
  refine ⟨Nat.lt_of_lt_of_le h.lt_size hd.grows.size_le, fun p name hp => ?_⟩
  rw [hd.grows.expr?_of_lt h.lt_size] at hp
  rw [hd.values]
  exact h.unhidden p name hp

/-! ## Steps and calls -/

/-- The step was read when the store had a certain size: its operands are from before, and so are
the results of `done`. -/
def StepRead (ctx : BodyContext) (d : BodyDraft) (done : List ExprId) (s : Step) : Prop :=
  ∃ n ≤ d.size, (∀ r ∈ resultsIn d.expressions, (r : Nat) < n → r ∈ done) ∧
    ∀ op ∈ s.uses, (op : Nat) < n ∧ d.Unhidden ctx n op

theorem StepRead.mono {done : List ExprId} {s : Step} (h : d.StepRead ctx done s)
    (hext : d.Extends d') : d'.StepRead ctx done s := by
  obtain ⟨n, hn, hresults, huses⟩ := h
  refine ⟨n, Nat.le_trans hn hext.size_le, fun r hr hlt => ?_, fun op hop => ?_⟩
  · obtain ⟨callee, hr⟩ := mem_resultsIn.mp hr
    refine hresults r (mem_resultsIn.mpr ⟨callee, ?_⟩) hlt
    exact (hext.expr?_of_lt (Nat.lt_of_lt_of_le hlt hn)).symm.trans hr
  · obtain ⟨hlt, hun⟩ := huses op hop
    exact ⟨hlt, hun.mono hext (Nat.lt_of_lt_of_le hlt hn) hn⟩

/-- A part of a body has been read, with these steps and these calls. -/
structure Reads (ctx : BodyContext) (d d' : BodyDraft) (steps : List Step) (calls : List Call) :
    Prop where
  valid : d'.Valid ctx
  grows : d.Extends d'
  results : resultsIn d'.expressions = resultsIn d.expressions ++ made steps
  steps : Along (d'.StepRead ctx) (resultsIn d.expressions) steps
  linked : ∀ c ∈ calls, (c.callee : Nat) < ctx.functions.length ∧
    ∀ r, c.result = some r → d'.expr? r = some (.result c.callee)

namespace Reads

variable {steps steps' : List Step} {calls calls' : List Call}

theorem refl (h : d.Valid ctx) : d.Reads ctx d [] [] :=
  ⟨h, .refl d, (List.append_nil _).symm, trivial, fun _ hc => absurd hc List.not_mem_nil⟩

/-- **What is read in two parts has the steps and the calls of both.** -/
theorem trans (h : d.Reads ctx d₁ steps calls) (h' : d₁.Reads ctx d₂ steps' calls') :
    d.Reads ctx d₂ (steps ++ steps') (calls ++ calls') where
  valid := h'.valid
  grows := h.grows.trans h'.grows
  results := by rw [h'.results, h.results, made_append, List.append_assoc]
  steps := by
    refine along_append.mpr ⟨h.steps.imp fun _ _ hs => hs.mono h'.grows, ?_⟩
    rw [← h.results]
    exact h'.steps
  linked := by
    intro c hc
    rcases List.mem_append.mp hc with hc | hc
    · obtain ⟨hcallee, hresult⟩ := h.linked c hc
      exact ⟨hcallee, fun r hr => h'.grows.expr r _ (hresult r hr)⟩
    · exact h'.linked c hc

end Reads

/-- A statement has been read that makes nothing. -/
theorem Supplies.reads (h : d.Supplies ctx d') {ops : List ExprId} {calls : List Call}
    (hops : ∀ op ∈ ops, d'.Usable ctx op)
    (hcalls : ∀ c ∈ calls, (c.callee : Nat) < ctx.functions.length ∧ c.result = none) :
    d.Reads ctx d' [⟨ops, []⟩] calls where
  valid := h.valid
  grows := h.grows
  results := by rw [h.results, made_cons, made_nil, List.append_nil, List.append_nil]
  steps := by
    refine ⟨⟨d'.size, Nat.le_refl _, fun r hr _ => h.results ▸ hr, fun op hop => ?_⟩, trivial⟩
    exact ⟨(hops op hop).lt_size, (hops op hop).unhidden_at _⟩
  linked := fun c hc => ⟨(hcalls c hc).1, fun r hr => by cases (hcalls c hc).2.symm.trans hr⟩

/-- A definition that is no statement has been read. -/
theorem Supplies.reads_definition (h : d.Supplies ctx d') (hnamed : e.isNamed)
    (hresult : e.isResult = false) (hname : IsName name) (hnew : name ∉ d.values.map Prod.fst)
    (hops : ∀ op ∈ e.operands, d'.Usable ctx op) :
    d.Reads ctx (d'.addNamed e name) [] [] where
  valid := by
    refine h.valid.addNamed hnamed hname (h.values ▸ hnew)
      (fun op hop => ⟨(hops op hop).lt_size, (hops op hop).unhidden_at _⟩) fun callee heq => ?_
    subst heq
    cases hresult
  grows := h.grows.trans (extends_addNamed d' e name)
  results := by
    refine (resultsIn_push _ _).trans ?_
    rw [hresult, h.results]
    rfl
  steps := trivial
  linked := fun _ hc => absurd hc List.not_mem_nil

/-- A call that gives its result a name has been read. -/
theorem Supplies.reads_call (h : d.Supplies ctx d') {callee : FunctionId} {ops : List ExprId}
    (hcallee : (callee : Nat) < ctx.functions.length) (hname : IsName name)
    (hnew : name ∉ d.values.map Prod.fst) (hops : ∀ op ∈ ops, d'.Usable ctx op) :
    d.Reads ctx (d'.addNamed (.result callee) name) [⟨ops, [d'.size]⟩]
      [⟨callee, ops, some d'.size⟩] := by
  have hext := extends_addNamed d' (.result callee) name
  have hresults : resultsIn (d'.addNamed (.result callee) name).expressions
      = resultsIn d.expressions ++ [d'.size] := by
    rw [← h.results]
    exact resultsIn_push d'.expressions (.result callee)
  refine {
    valid := h.valid.addNamed rfl hname (h.values ▸ hnew) (fun op hop => absurd hop List.not_mem_nil)
      fun callee' heq => by cases heq; exact hcallee
    grows := h.grows.trans hext
    results := hresults
    steps := ⟨⟨d'.size, hext.size_le, fun r hr hlt => ?_, fun op hop => ?_⟩, trivial⟩
    linked := fun c hc => ?_ }
  · rw [hresults, List.mem_append, List.mem_singleton] at hr
    exact hr.resolve_right (Nat.ne_of_lt hlt)
  · exact ⟨(hops op hop).lt_size,
      ((hops op hop).unhidden_at _).mono hext (hops op hop).lt_size (Nat.le_refl _)⟩
  · obtain rfl := List.mem_singleton.mp hc
    refine ⟨hcallee, fun r hr => ?_⟩
    cases hr
    exact expr?_add_size d' _

end BodyDraft

end ResourceBinding
