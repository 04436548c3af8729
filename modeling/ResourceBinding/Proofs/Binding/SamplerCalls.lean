import ResourceBinding.Proofs.Binding.Faults
import ResourceBinding.Proofs.Binding.WellFormed
import ResourceBinding.Proofs.Program.Removal
import ResourceBinding.Proofs.Reading.Program

/-!
# Where samplers were made

Binding the literal samplers gives each value of the sampler map a binding where it first occurs
(`samplerRows_eq`). A call that makes a sampler becomes a call of the accessor, in the same place
and with the place of its value as operands, and nothing else changes but the positions of functions:
`Function.BindsSamplers` says so of one function, and `Module.BindsSamplers` of a module.

* `Function.BindsSamplers.of_rewrite`: what rewriting does to a function.
* `Function.BindsSamplers.mapCallees`: the removal of the function that makes samplers moves every
  reference along.
* `Module.allocateSamplers_binds`: what binding the samplers does to a module.
-/

namespace ResourceBinding

/-! ## The rows -/

/-- The samplers whose value does not stand before them in the map, each with its position. -/
def SamplerMap.firstOccurrences (samplers : SamplerMap) : List (Sampler × Nat) :=
  samplers.zipIdx.filter fun p => !(samplers.take p.2).any (·.value == p.1.value)

theorem SamplerMap.firstOccurrences_append (samplers : SamplerMap) (s : Sampler) :
    SamplerMap.firstOccurrences (samplers ++ [s]) = samplers.firstOccurrences ++
      if samplers.any (·.value == s.value) then [] else [(s, samplers.length)] := by
  have hold : samplers.zipIdx.filter (fun p =>
      !((samplers ++ [s]).take p.2).any (·.value == p.1.value)) = samplers.firstOccurrences := by
    refine List.filter_congr fun p hp => ?_
    have hlt := (List.getElem?_eq_some_iff.mp (List.mem_zipIdx_iff_getElem?.mp hp)).1
    rw [List.take_append_of_le_length (Nat.le_of_lt hlt)]
  rw [firstOccurrences, List.zipIdx_append, List.filter_append, hold, List.zipIdx_singleton,
    Nat.zero_add, List.filter_singleton, List.take_left]
  cases samplers.any (·.value == s.value) <;> rfl

theorem samplerRows_append (set : Nat) (samplers : SamplerMap) (s : Sampler) :
    samplerRows set (samplers ++ [s])
      = addSamplerRow set (samplerRows set samplers) s samplers.length := by
  rw [samplerRows, List.zipIdx_append, List.foldl_append, List.zipIdx_singleton, Nat.zero_add]
  rfl

/-- **Each value of a sampler map has a row, and they stand in the order of first occurrences.** The
binding counts the values, and the index counts all entries of the map. -/
theorem samplerRows_eq (set : Nat) (samplers : SamplerMap) : samplerRows set samplers
    = samplers.firstOccurrences.mapIdx fun k p => ⟨p.1.value, p.1.expression, set, k, p.2⟩ := by
  induction samplers using List.reverseRecOn with
  | nil => rfl
  | append_singleton samplers s ih =>
    rw [samplerRows_append, SamplerMap.firstOccurrences_append, addSamplerRow, any_samplerRows]
    cases samplers.any (·.value == s.value) with
    | true => simp [ih]
    | false => simp [ih, List.mapIdx_append]

/-- No two rows have one value. -/
theorem nodup_samplerRows (set : Nat) (samplers : SamplerMap) :
    ((samplerRows set samplers).map SamplerRow.value).Nodup := by
  induction samplers using List.reverseRecOn with
  | nil => exact .nil
  | append_singleton samplers s ih =>
    rw [samplerRows_append, addSamplerRow]
    split
    · exact ih
    · rename_i hnew
      rw [List.map_append, List.nodup_append]
      refine ⟨ih, List.nodup_singleton _, fun value hvalue other hother => ?_⟩
      obtain ⟨row, hrow, rfl⟩ := List.mem_map.mp hvalue
      obtain rfl : other = s.value := by simpa using hother
      simp only [List.any_eq_true, beq_iff_eq, not_exists, not_and] at hnew
      exact hnew row hrow

/-! ## One function -/

/-- The value that a call would make a sampler from: that of its first operand, if it is a literal. -/
def Function.samplerValue? (f : Function) (c : Call) : Option Nat :=
  (c.arguments.head?.bind f.literal?).bind Literal.natural?

/-- What a call of `f` has become in `g`. Its callee has moved. If it made a sampler, its operands
are those of the row that has the value of its own. -/
structure BindsCall (rows : List SamplerRow) (makes : FunctionId → Prop)
    (move : FunctionId → FunctionId) (f g : Function) (c c' : Call) : Prop where
  callee : c'.callee = move c.callee
  result : c'.result = c.result
  result_expr : ∀ r, c'.result = some r → g.expr? r = some (.result c'.callee)
  other : ¬ makes c.callee → c'.arguments = c.arguments
  maker : makes c.callee → ∃ row ∈ rows, f.samplerValue? c = some row.value ∧
    c'.arguments.map g.literal? = row.operands.map some

/-- What the function `f` has become once its samplers are bound: the calls have been replaced in
their places, and the functions that results are of have moved. -/
structure Function.BindsSamplers (rows : List SamplerRow) (makes : FunctionId → Prop)
    (move : FunctionId → FunctionId) (f g : Function) : Prop where
  frame : g = { f with params := g.params, expressions := g.expressions, body := g.body }
  params : g.params.map (fun p => (p.name, p.type)) = f.params.map fun p => (p.name, p.type)
  body : Option.Rel (fun b b' => b.Replaces (BindsCall rows makes move f g) b') f.body g.body
  expr : ∀ id e, f.expr? id = some e → g.expr? id = some (e.mapCallee move)

namespace Function.AddsLiterals

variable {f g : Function}

/-- More literals in the store do not change the value that was there. -/
theorem samplerValue? (h : f.AddsLiterals g) {c : Call} {value : Nat}
    (hvalue : f.samplerValue? c = some value) : g.samplerValue? c = some value := by
  obtain ⟨l, hl, hnatural⟩ := Option.bind_eq_some_iff.mp hvalue
  obtain ⟨op, hop, hliteral⟩ := Option.bind_eq_some_iff.mp hl
  rw [Function.samplerValue?, hop, Option.bind_some, h.literal? hliteral, Option.bind_some, hnatural]

/-- Nor do they bring one in, where the operands were there before. -/
theorem samplerValue?_eq (h : f.AddsLiterals g) {c : Call}
    (hc : ∀ op ∈ c.arguments, (op : Nat) < f.expressions.size) :
    g.samplerValue? c = f.samplerValue? c := by
  unfold Function.samplerValue?
  cases hhead : c.arguments.head? with
  | none => rfl
  | some op =>
    have hold : g.expr? op = f.expr? op := h.old op (hc op (List.mem_of_mem_head? hhead))
    simp only [Option.bind_some, literal?, hold]

end Function.AddsLiterals

namespace SamplerBinding

variable {b : SamplerBinding} {f g : Function}

/-- Where a function has moved whose calls are replaced by those of the accessor. -/
def rename (b : SamplerBinding) (callee : FunctionId) : FunctionId :=
  if callee = b.initializer then b.accessor else callee

theorem value_of_row? {c : Call} {row : SamplerRow} (h : b.row? f c = .ok row) :
    f.samplerValue? c = some row.value := by
  unfold row? at h
  split at h
  · cases h
  · rename_i value hvalue
    split at h
    · cases h
    · rename_i found hfound
      cases h
      rw [Function.samplerValue?, hvalue,
        eq_of_beq (List.find?_some (p := fun row : SamplerRow => row.value == value) hfound)]

/-- A call that makes a sampler becomes one with the operands of the row that has its value. -/
def Selects (b : SamplerBinding) (g : Function) (c c' : Call) : Prop :=
  c.callee = b.initializer → ∃ row ∈ b.rows, g.samplerValue? c = some row.value ∧
    c'.arguments.map g.literal? = row.operands.map some

theorem Selects.mono (hadds : f.AddsLiterals g) {c c' : Call} (h : b.Selects f c c') :
    b.Selects g c c' := by
  intro hcallee
  obtain ⟨row, hrow, hvalue, hoperands⟩ := h hcallee
  exact ⟨row, hrow, hadds.samplerValue? hvalue,
    Function.map_literal?_mono (fun _ _ => hadds.literal?) hoperands⟩

theorem selects_of_rewriteCall {c c' : Call} (hrun : (b.rewriteCall c).run f = .ok (c', g)) :
    b.Selects g c c' := by
  intro hcallee
  change b.rewriteCall c f = _ at hrun
  rw [rewriteCall, if_pos hcallee] at hrun
  split at hrun
  · cases hrun
  · rename_i row hrow
    have hadds := Function.addsLiterals_appendLiterals row.operands f
    obtain ⟨-, hoperands⟩ := Function.appends_appendLiterals 0 row.operands f
    cases hrun
    exact ⟨row, mem_rows_of_row? hrow, hadds.samplerValue? (value_of_row? hrow), hoperands⟩

/-- What stood in a function stands in the rewritten one, where results of calls that make samplers
are results of the accessor. -/
theorem expr?_of_rewritten {size types : Nat} (hf : f.WellFormed size types)
    (hrun : b.rewrite f = .ok g) {id : ExprId} {e : Expr} (he : f.expr? id = some e) :
    g.expr? id = some (e.mapCallee b.rename) := by
  obtain ⟨-, -, f₁, hadds, -, -, -, hexpr⟩ := rewrite_ok hrun
  by_cases hresult : e = .result b.initializer
  · subst hresult
    obtain ⟨c, hc, hcallee, hr⟩ := hf.exists_call_making he
    have hlt := Function.lt_size_of_expr? (hadds.expr? he)
    rw [hexpr, if_pos ⟨mem_resultsOf.mpr ⟨c, hc, hcallee, hr⟩, hlt⟩, Expr.mapCallee, rename,
      if_pos rfl]
  · rw [expr?_rewrite hf.toLinked hadds hexpr hresult (hadds.expr? he)]
    cases e with
    | result callee =>
      have hne : callee ≠ b.initializer := fun heq => hresult (congrArg Expr.result heq)
      rw [Expr.mapCallee, rename, if_neg hne]
    | _ => rfl

end SamplerBinding

namespace Function

variable {b : SamplerBinding} {f g : Function} {size types : Nat} {rows : List SamplerRow}
  {makes : FunctionId → Prop} {move : FunctionId → FunctionId}

namespace BindsSamplers

/-- A function that makes no sampler stays as it is. -/
theorem self (hf : f.Linked size) (hnone : ∀ c ∈ f.calls, ¬ makes c.callee) :
    f.BindsSamplers rows makes id f where
  frame := rfl
  params := rfl
  body := by
    cases hbody : f.body with
    | none => exact .none
    | some body =>
      refine .some (body.replaces_self.imp_of_mem fun c hc c' heq => ?_)
      obtain rfl := heq
      have hmem : c ∈ f.calls := by rwa [calls, hbody]
      exact ⟨rfl, rfl, hf.result c hmem, fun _ => rfl, fun h => absurd h (hnone c hmem)⟩
  expr := fun id e he => by cases e <;> exact he

/-- **Moving references moves them along.** -/
theorem mapCallees (h : f.BindsSamplers rows makes move g) (edit : FunctionId → FunctionId) :
    f.BindsSamplers rows makes (edit ∘ move) (g.mapCallees edit) where
  frame := by
    rw [Function.mapCallees, h.frame]
  params := by
    rw [← h.params]
    simp only [Function.mapCallees, List.map_map]
    rfl
  body := by
    have hbody : (g.mapCallees edit).body
        = g.body.map (·.mapCalls fun c => { c with callee := edit c.callee }) := rfl
    have hold := h.body
    revert hold
    rw [hbody]
    generalize f.body = old
    generalize g.body = new
    rintro (hreplaces | _)
    · refine .some ((hreplaces.mapCalls _).imp fun c c' hc => ?_)
      obtain ⟨via, hvia, rfl⟩ := hc
      refine ⟨congrArg edit hvia.callee, hvia.result, fun r hr => ?_, hvia.other, fun hmakes => ?_⟩
      · rw [expr?_mapCallees, hvia.result_expr r hr]
        rfl
      · obtain ⟨row, hrow, hvalue, hoperands⟩ := hvia.maker hmakes
        exact ⟨row, hrow, hvalue, map_literal?_mono (fun _ _ => literal?_mapCallees) hoperands⟩
    · exact .none
  expr := fun id e he => by
    rw [expr?_mapCallees, h.expr id e he]
    cases e <;> rfl

/-- **Rewriting a function binds the samplers that it makes.** -/
theorem of_rewrite (hf : f.WellFormed size types) (hrun : b.rewrite f = .ok g) :
    f.BindsSamplers b.rows (· = b.initializer) b.rename g where
  frame := by
    obtain ⟨hframe, -⟩ := SamplerBinding.rewrite_ok hrun
    rw [hframe]
  params := by
    obtain ⟨hframe, -⟩ := SamplerBinding.rewrite_ok hrun
    rw [hframe]
  body := by
    rcases SamplerBinding.rewrite_cases hrun with
      ⟨hbody, rfl⟩ | ⟨body, body', f₁, hbody, hmap, hbody', -, -, hexpr⟩
    · rw [hbody]
      exact .none
    rw [hbody, hbody']
    obtain ⟨hadds, hreplaces⟩ := SamplerBinding.mapCallsM_replaces
      (R := fun g c c' => b.Rewrites g c c' ∧ b.Selects g c c')
      (fun hadds hc => ⟨hc.1.mono fun _ _ => hadds.literal?, hc.2.mono hadds⟩)
      (fun hc => ⟨(SamplerBinding.rewriteCall_ok hc).2, SamplerBinding.selects_of_rewriteCall hc⟩)
      hmap
    have hliteral : ∀ id l, f₁.literal? id = some l → g.literal? id = some l := by
      intro id l hl
      rw [literal?_eq_some_iff] at hl ⊢
      exact SamplerBinding.expr?_rewrite hf.toLinked hadds hexpr (by simp) hl
    refine .some (hreplaces.imp_of_mem fun c hc c' h => ?_)
    obtain ⟨hrewrites, hselects⟩ := h
    have hmem : c ∈ f.calls := by rwa [calls, hbody]
    have hresult : ∀ r, c.result = some r → g.expr? r = some (.result (b.rename c.callee)) :=
      fun r hr => SamplerBinding.expr?_of_rewritten hf hrun (hf.result c hmem r hr)
    have hoperands : ∀ op ∈ c.arguments, (op : Nat) < f.expressions.size :=
      fun op hop => hf.operand_lt op (reads_of_mem_arguments hmem hop)
    cases hrewrites with
    | other hne =>
      have hcallee : b.rename c.callee = c.callee := if_neg hne
      exact ⟨hcallee.symm, rfl, fun r hr => hcallee ▸ hresult r hr, fun _ => rfl,
        fun heq => absurd heq hne⟩
    | maker heq _ _ =>
      have hcallee : b.rename c.callee = b.accessor := if_pos heq
      refine ⟨hcallee.symm, rfl, fun r hr => hcallee ▸ hresult r hr, fun hne => absurd heq hne,
        fun _ => ?_⟩
      obtain ⟨row, hrow, hvalue, hliterals⟩ := hselects heq
      rw [hadds.samplerValue?_eq hoperands] at hvalue
      exact ⟨row, hrow, hvalue, map_literal?_mono hliteral hliterals⟩
  expr := fun id e => SamplerBinding.expr?_of_rewritten hf hrun

/-- **Operands stand for what they stood for**, with the results moved. -/
theorem unfolds_iff (h : f.BindsSamplers rows makes move g) (hf : f.WellFormed size types)
    {op : ExprId} (hop : f.Reads op) :
    ∃ t, f.Unfolds op t ∧ ∀ u, g.Unfolds op u ↔ u = t.mapCallees move := by
  obtain ⟨t, ht⟩ := hf.exists_unfolds hop
  exact ⟨t, ht, fun u => (ht.mapCallees h.expr).iff_eq⟩

end BindsSamplers

end Function

/-! ## The module -/

/-- The name of what a function has been replaced by: calls of the one that makes samplers have
become calls of the accessor. -/
def ReservedName.bound (name : String) : String :=
  if name = samplerMaker then samplerAccessor else name

/-- What the module `m` has become once its samplers are bound by the rows: the function that makes
samplers is gone, and `move` tells where the others stand, and the references to them. -/
structure Module.BindsSamplers (m : Module) (rows : List SamplerRow)
    (move : FunctionId → FunctionId) (m' : Module) : Prop where
  removed : ReservedName.samplerMaker ∉ m'.names
  /-- The other functions keep their order. The accessor may have been added behind them. -/
  names : m'.names = m.names.erase ReservedName.samplerMaker ∨
    ReservedName.samplerAccessor ∉ m.names ∧ m'.names
      = m.names.erase ReservedName.samplerMaker ++ [ReservedName.samplerAccessor]
  functions : ∀ id f, m.function? id = some f → f.name ≠ ReservedName.samplerMaker →
    ∃ g, m'.function? (move id) = some g ∧
      f.BindsSamplers rows (m.nameOf · = ReservedName.samplerMaker) move g ∧
      ∀ op, f.Reads op →
        ∃ t, f.Unfolds op t ∧ ∀ u, g.Unfolds op u ↔ u = t.mapCallees move
  /-- References of calls and of results denote the function of the same name, but for those that
  denoted the one that makes samplers. -/
  denotes : ∀ id f callee, m.function? id = some f → f.name ≠ ReservedName.samplerMaker →
    (∃ c ∈ f.calls, c.callee = callee) ∨ (∃ r, f.expr? r = some (.result callee)) →
    m'.nameOf (move callee) = ReservedName.bound (m.nameOf callee)

namespace Module

variable {m m' m₁ : Module} {rows : List SamplerRow} {c : Compilation} {changed : Bool}
  {maker : FunctionId}

/-- The function that makes samplers is the one that is found by its name. -/
theorem NamesDistinct.nameOf_eq_samplerMaker_iff (hm : m.NamesDistinct)
    (hmaker : m.find? ReservedName.samplerMaker = some maker) {id : FunctionId} :
    m.nameOf id = ReservedName.samplerMaker ↔ id = maker := by
  obtain ⟨f, hf, hname⟩ := function?_of_find? hmaker
  constructor
  · intro hid
    obtain ⟨g, hg, hgname⟩ := function?_of_nameOf hid (by decide)
    exact hm.eq_of_name hg hf (hgname.trans hname.symm)
  · rintro rfl
    rw [nameOf_of_function? hf, hname]

/-- In a well-formed module, what results are of is called. -/
theorem WellFormed.mem_callees (hm : m.WellFormed) {id callee : FunctionId} {f : Function}
    (hf : m.function? id = some f)
    (h : (∃ c ∈ f.calls, c.callee = callee) ∨ (∃ r, f.expr? r = some (.result callee))) :
    ∃ c ∈ f.calls, c.callee = callee :=
  h.elim (fun hc => hc) fun ⟨_, hr⟩ => (hm.function hf).exists_call_of_result hr

/-! ### The accessor -/

theorem names_samplerAccessor (m : Module) : m.samplerAccessor.2.names = m.names ∨
    ReservedName.samplerAccessor ∉ m.names ∧
      m.samplerAccessor.2.names = m.names ++ [ReservedName.samplerAccessor] := by
  rcases m.samplerAccessor_eq with ⟨-, -, -, hsame⟩ | ⟨hnone, -, f, hname, -, -, hpush⟩
  · exact .inl (by rw [names, hsame, names])
  · exact .inr ⟨find?_eq_none_iff_not_mem.mp hnone, by simp [names, hpush, hname]⟩

theorem function?_samplerAccessor {id : FunctionId} {f : Function} (hf : m.function? id = some f) :
    m.samplerAccessor.2.function? id = some f := by
  rcases m.samplerAccessor_eq with ⟨-, -, -, hsame⟩ | ⟨-, -, g, -, -, -, hpush⟩
  · rwa [function?, hsame]
  · have hlt := lt_size_of_function? hf
    rw [function?, hpush, Array.getElem?_push_lt hlt, ← Array.getElem?_eq_getElem hlt]
    exact hf

theorem nameOf_samplerAccessor (m : Module) :
    m.samplerAccessor.2.nameOf m.samplerAccessor.1 = ReservedName.samplerAccessor := by
  rcases m.samplerAccessor_eq with ⟨f, hf, hname, -⟩ | ⟨-, hid, f, hname, -, -, hpush⟩
  · rw [nameOf_of_function? (function?_samplerAccessor hf), hname]
  · have hf : m.samplerAccessor.2.function? m.samplerAccessor.1 = some f := by
      rw [function?, hpush, hid]
      exact Array.getElem?_push_size
    rw [nameOf_of_function? hf, hname]

/-! ### The removal -/

/-- Removing the function that makes samplers takes its name out. -/
theorem names_remove_samplerMaker (hm : m.NamesDistinct)
    (hmaker : m.find? ReservedName.samplerMaker = some maker) {declared : List String}
    (hnames : m₁.names = m.names ++ declared) {removed : Function}
    (hremove : m₁.remove maker = .ok (removed, m')) :
    m'.names = m.names.erase ReservedName.samplerMaker ++ declared := by
  obtain ⟨f, hf, hname⟩ := function?_of_find? hmaker
  obtain ⟨-, -, -, hnames', -⟩ := remove_ok hremove
  have hlt : maker < m.names.length := m.length_names ▸ lt_size_of_function? hf
  have hget : m.names[maker] = ReservedName.samplerMaker := by
    refine Option.some.inj ((List.getElem?_eq_getElem hlt).symm.trans ?_)
    rw [getElem?_names, hf, Option.map_some, hname]
  rw [hnames', hnames, List.eraseIdx_append_of_lt_length hlt, ← hget, hm.erase_getElem]

/-- **Binding the samplers takes the name of the function that makes them out**, and declares
nothing but their accessor. -/
theorem names_bindSamplers (hm : m.NamesDistinct) (h : m.bindSamplers rows = .ok (m', changed)) :
    (m' = m ∧ changed = false) ∨ (ReservedName.samplerMaker ∈ m.names ∧ changed = true ∧
      ∃ declared, (∀ name ∈ declared, name = ReservedName.samplerAccessor) ∧
        m'.names = m.names.erase ReservedName.samplerMaker ++ declared) := by
  rcases bindSamplers_cases h with ⟨-, hsame, hchanged⟩ |
    ⟨maker, removed, m₁, hmaker, hrewritten, hremove, hchanged⟩
  · exact .inl ⟨hsame, hchanged⟩
  · obtain ⟨f, hf, hname⟩ := function?_of_find? hmaker
    obtain ⟨declared, hdeclared, hnames, -⟩ := hrewritten.frame
    refine .inr ⟨mem_names.mpr ⟨f, mem_functions_iff.mpr ⟨maker, hf⟩, hname⟩, hchanged,
      declared.map Function.name, fun name hname => ?_,
      names_remove_samplerMaker hm hmaker hnames hremove⟩
    obtain ⟨f, hf, rfl⟩ := List.mem_map.mp hname
    exact (hdeclared f hf).2

/-- Binding the samplers comes down to what becomes of each function before the one that makes
samplers is removed. -/
theorem binds_of_remove (hm : m.WellFormed)
    (hmaker : m.find? ReservedName.samplerMaker = some maker) {removed : Function}
    (hremove : m₁.remove maker = .ok (removed, m')) {move : FunctionId → FunctionId}
    (hnames : m₁.names = m.names ∨ ReservedName.samplerAccessor ∉ m.names ∧
      m₁.names = m.names ++ [ReservedName.samplerAccessor])
    (hfunctions : ∀ id f, m.function? id = some f → ∃ g, m₁.function? id = some g ∧
      f.BindsSamplers rows (· = maker) move g)
    (hmove : ∀ id, id ≠ maker → move id = id)
    (hdenotes : ∀ f ∈ m.functions, ∀ c ∈ f.calls, move c.callee ≠ maker ∧
      m₁.nameOf (move c.callee) = ReservedName.bound (m.nameOf c.callee)) :
    m.BindsSamplers rows (shift maker ∘ move) m' := by
  have hmakes : (m.nameOf · = ReservedName.samplerMaker) = (· = maker) :=
    funext fun _ => propext (hm.names.nameOf_eq_samplerMaker_iff hmaker)
  have hnames' : m'.names = m.names.erase ReservedName.samplerMaker ∨
      ReservedName.samplerAccessor ∉ m.names ∧ m'.names
        = m.names.erase ReservedName.samplerMaker ++ [ReservedName.samplerAccessor] := by
    refine hnames.imp (fun h => ?_) (And.imp_right fun h => ?_)
    · have h' := names_remove_samplerMaker hm.names hmaker (h.trans (List.append_nil _).symm) hremove
      rwa [List.append_nil] at h'
    · exact names_remove_samplerMaker hm.names hmaker h hremove
  refine ⟨?_, hnames', fun id f hf hname => ?_, fun id f callee hf _ hcallee => ?_⟩
  · have hgone : ReservedName.samplerMaker ∉ m.names.erase ReservedName.samplerMaker :=
      List.Nodup.not_mem_erase hm.names
    rcases hnames' with h | ⟨-, h⟩
    · rwa [h]
    · rw [h, List.mem_append, List.mem_singleton]
      exact fun hmem => hmem.elim hgone (by decide)
  · have hne : id ≠ maker := by
      rintro rfl
      obtain ⟨g, hg, hgname⟩ := function?_of_find? hmaker
      cases hf.symm.trans hg
      exact hname hgname
    obtain ⟨g, hg, hbinds⟩ := hfunctions id f hf
    have hmoved := hbinds.mapCallees (shift maker)
    refine ⟨g.mapCallees (shift maker), ?_, hmakes ▸ hmoved, fun op hop =>
      hmoved.unfolds_iff (hm.function hf) hop⟩
    rw [Function.comp_apply, hmove id hne, function?_remove_shift hremove hne, hg, Option.map_some]
  · obtain ⟨c, hc, rfl⟩ := hm.mem_callees hf hcallee
    obtain ⟨hne, hbound⟩ := hdenotes f (mem_functions_iff.mpr ⟨id, hf⟩) c hc
    rw [Function.comp_apply, nameOf_shift hremove hne, hbound]

/-- **Binding the samplers replaces the calls that make them**, and leaves everything else in the
functions as it is. -/
theorem bindSamplers_binds (hm : m.WellFormed) (h : m.bindSamplers rows = .ok (m', changed)) :
    ∃ move, m.BindsSamplers rows move m' := by
  rcases bindSamplers_ok h with ⟨hnone, rfl⟩ | ⟨maker, removed, m₁, hmaker, hrewritten, hremove⟩
  · -- Nothing has the name, so that nothing is replaced.
    have hfree : ReservedName.samplerMaker ∉ m'.names := find?_eq_none_iff_not_mem.mp hnone
    have hother : ∀ id, m'.nameOf id ≠ ReservedName.samplerMaker := by
      intro id hid
      obtain ⟨f, hf, hname⟩ := function?_of_nameOf hid (by decide)
      exact hfree (mem_names.mpr ⟨f, mem_functions_iff.mpr ⟨id, hf⟩, hname⟩)
    refine ⟨id, hfree, .inl (List.erase_of_not_mem hfree).symm, fun i f hf _ => ?_,
      fun i f callee _ _ _ => ?_⟩
    · have hself : f.BindsSamplers rows (m'.nameOf · = ReservedName.samplerMaker) id f :=
        .self (hm.function hf).toLinked fun c _ => hother c.callee
      exact ⟨f, hf, hself, fun op hop => hself.unfolds_iff (hm.function hf) hop⟩
    · exact (if_neg (hother callee)).symm
  rcases hrewritten with ⟨-, rfl⟩ | ⟨-, hrewrites⟩
  · -- Nothing calls it.
    obtain ⟨-, hcalls, -⟩ := remove_ok hremove
    refine ⟨shift maker ∘ id, binds_of_remove hm hmaker hremove (.inl rfl) (fun i f hf => ?_)
      (fun _ _ => rfl) fun f hf c hc => ⟨hcalls f hf c hc, ?_⟩⟩
    · exact ⟨f, hf, .self (hm.function hf).toLinked (hcalls f (mem_functions_iff.mpr ⟨i, hf⟩))⟩
    · refine (if_neg ?_).symm
      rw [hm.names.nameOf_eq_samplerMaker_iff hmaker]
      exact hcalls f hf c hc
  · let b : SamplerBinding := ⟨rows, maker, m.samplerAccessor.1⟩
    have hnames : m.samplerAccessor.2.names = m₁.names :=
      names_eq_of_forall₂ hrewrites fun f g hfg => by rw [(SamplerBinding.rewrite_ok hfg).1]
    refine ⟨shift maker ∘ b.rename, binds_of_remove hm hmaker hremove
      (hnames ▸ m.names_samplerAccessor) (fun id f hf => ?_) (fun _ hne => if_neg hne)
      fun f hf c hc => ?_⟩
    · have hf' : m.samplerAccessor.2.functions.toList[id]? = some f := by
        rw [Array.getElem?_toList]
        exact function?_samplerAccessor hf
      obtain ⟨g, hg, hrun⟩ := exists_getElem?_of_forall₂ hrewrites hf'
      rw [Array.getElem?_toList] at hg
      exact ⟨g, hg, .of_rewrite (hm.function hf) hrun⟩
    · by_cases hcallee : c.callee = maker
      · have hrename : b.rename c.callee = m.samplerAccessor.1 := if_pos hcallee
        have hname := (hm.names.nameOf_eq_samplerMaker_iff hmaker).mpr hcallee
        rw [hrename, hname, nameOf_eq, ← hnames, ← nameOf_eq, nameOf_samplerAccessor]
        exact ⟨samplerAccessor_ne hmaker, rfl⟩
      · have hrename : b.rename c.callee = c.callee := if_neg hcallee
        have hname : m.nameOf c.callee ≠ ReservedName.samplerMaker :=
          (hm.names.nameOf_eq_samplerMaker_iff hmaker).not.mpr hcallee
        obtain ⟨g, hg⟩ := exists_function?_of_lt ((hm.functions f hf).callee_lt c hc)
        rw [hrename, nameOf_eq, ← hnames, ← nameOf_eq,
          nameOf_of_function? (function?_samplerAccessor hg), nameOf_of_function? hg,
          ReservedName.bound, if_neg (nameOf_of_function? hg ▸ hname)]
        exact ⟨hcallee, rfl⟩

/-- **Binding the literal samplers binds each value of the map where it first occurs, and replaces
each call that makes a sampler.** The call of the accessor that takes its place has the binding of
its value as operands. All other statements and operands, and the functions that they refer to, stay
as they are. -/
theorem allocateSamplers_binds (hm : m.WellFormed) (hsamplers : c.samplers ≠ [])
    (h : (m.allocateSamplers c).2.result = .ok (m', changed)) :
    (m.allocateSamplers c).1 = c.samplers.firstOccurrences.mapIdx
      (fun k p => ⟨p.1.value, p.1.expression, c.nextSet, k, p.2⟩) ∧
    ((m.allocateSamplers c).1.map SamplerRow.value).Nodup ∧
    ∃ move, m.BindsSamplers (m.allocateSamplers c).1 move m' := by
  have hrows : (m.allocateSamplers c).1 = samplerRows c.nextSet c.samplers := by
    rw [allocateSamplers, if_neg (by simpa using hsamplers)]
    rfl
  rcases allocateSamplers_ok h with ⟨hempty, -⟩ | ⟨-, hbind⟩
  · exact absurd hempty hsamplers
  · refine ⟨hrows.trans (samplerRows_eq _ _), ?_, bindSamplers_binds hm hbind⟩
    rw [hrows]
    exact nodup_samplerRows _ _

end Module

/-- A kernel that makes a sampler in the depth of its body, between other functions. -/
def blurSource : String :=
  "declare @before(sampler)
declare @__translate_sampler_initializer(i32) -> sampler
declare @blur(sampler)
kernel @main() {
  loop {
    if true {
      %s = call @__translate_sampler_initializer(18)
      call @blur(%s)
    }
    break
  }
}"

theorem allocateSamplers_binds_blur :
    let samplers : SamplerMap := [⟨5, "5"⟩, ⟨5, "again"⟩, ⟨18, "18"⟩]
    let rows : List SamplerRow := [⟨5, "5", 0, 0, 0⟩, ⟨18, "18", 0, 1, 2⟩]
    ∃ m m', Module.read blurSource = .ok m ∧ m.WellFormed ∧ samplers ≠ [] ∧
      (m.allocateSamplers (.start .none samplers)).2.result = .ok (m', true) ∧
      m'.names = ["before", "blur", "main", "kernbind.sampler.literal"] ∧
      (m'.functions.toList.map Function.calls).flatten
        = [⟨3, [3, 4, 5], some 2⟩, ⟨1, [2], none⟩] ∧
      (m.allocateSamplers (.start .none samplers)).1 = rows ∧
      ∃ move, m.BindsSamplers rows move m' := by
  intro samplers rows
  have hcheck : (Module.read blurSource).toOption.any (fun m =>
      (m.allocateSamplers (.start .none samplers)).2.result.toOption.any fun r =>
        r.2 && r.1.names == ["before", "blur", "main", "kernbind.sampler.literal"] &&
        (r.1.functions.toList.map Function.calls).flatten
          == [⟨3, [3, 4, 5], some 2⟩, ⟨1, [2], none⟩] &&
        (m.allocateSamplers (.start .none samplers)).1 == rows) := by
    decide +kernel
  obtain ⟨m, hread, hcheck⟩ := exists_of_any_toOption hcheck
  obtain ⟨⟨m', changed⟩, h, hcheck⟩ := exists_of_any_toOption hcheck
  simp only [Bool.and_eq_true, beq_iff_eq] at hcheck
  obtain ⟨⟨⟨rfl, hnames⟩, hcalls⟩, hrows⟩ := hcheck
  have hm := Module.wellFormed_of_read hread
  have hsamplers : samplers ≠ [] := List.cons_ne_nil _ _
  obtain ⟨-, -, hbinds⟩ := Module.allocateSamplers_binds hm hsamplers h
  exact ⟨m, m', hread, hm, hsamplers, h, hnames, hcalls, hrows, hrows ▸ hbinds⟩

end ResourceBinding
