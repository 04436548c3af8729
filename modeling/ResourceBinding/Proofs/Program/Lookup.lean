import ResourceBinding.Program.Module
import Mathlib.Data.List.Forall2
import Mathlib.Data.List.InsertIdx
import Mathlib.Data.List.Nodup

/-!
# Looking things up in a module

What `indexed`, `kernels`, `callsTo` and `find?` yield, said by `function?`, and how `function?`
reads after an edit. Names lead to one function each in a module whose names are distinct
(`Module.NamesDistinct`).
-/

namespace ResourceBinding

theorem Function.isKernel_iff {f : Function} :
    f.isKernel ↔ f.convention = .kernel ∧ f.body.isSome := by
  simp [isKernel]

/-! ## Lists of pairs -/

section Pairs

variable {κ α : Type} [BEq κ] [LawfulBEq κ] {pairs : List (κ × α)} {k : κ} {a : α}

theorem mem_of_lookup (h : pairs.lookup k = some a) : (k, a) ∈ pairs := by
  obtain ⟨before, after, rfl, -⟩ := List.lookup_eq_some_iff.mp h
  exact List.mem_append_right _ List.mem_cons_self

theorem lookup_eq_none_iff_not_mem : pairs.lookup k = none ↔ k ∉ pairs.map Prod.fst := by
  simp only [List.lookup_eq_none_iff, List.mem_map, not_exists, not_and, bne_iff_ne]
  exact ⟨fun h p hp heq => h p hp heq.symm, fun h p hp heq => h p hp heq.symm⟩

/-- A key that occurs once is looked up with what stands by it. -/
theorem lookup_of_mem (hnodup : (pairs.map Prod.fst).Nodup) (h : (k, a) ∈ pairs) :
    pairs.lookup k = some a := by
  obtain ⟨before, after, rfl⟩ := List.append_of_mem h
  refine List.lookup_eq_some_iff.mpr ⟨before, after, rfl, fun p hp => ?_⟩
  rw [List.map_append, List.nodup_append] at hnodup
  rw [bne_iff_ne]
  exact fun heq => hnodup.2.2 p.1 (List.mem_map_of_mem hp) k (by simp) heq.symm

end Pairs

namespace Module

variable {m : Module} {id : FunctionId} {f : Function}

/-! ## Functions by position -/

theorem lt_size_of_function? (h : m.function? id = some f) : id < m.functions.size :=
  (Array.getElem?_eq_some_iff.mp h).1

theorem exists_function?_of_lt (h : (id : Nat) < m.functions.size) :
    ∃ f, m.function? id = some f :=
  ⟨m.functions[id], Array.getElem?_eq_getElem h⟩

theorem mem_functions_iff : f ∈ m.functions ↔ ∃ id, m.function? id = some f :=
  Array.mem_iff_getElem?

@[simp]
theorem mem_indexed : (id, f) ∈ m.indexed ↔ m.function? id = some f := by
  simp only [indexed, List.mem_map, Prod.exists, Prod.mk.injEq, function?]
  constructor
  · rintro ⟨g, i, hmem, rfl, rfl⟩
    simpa using List.mk_mem_zipIdx_iff_getElem?.mp hmem
  · intro h
    exact ⟨f, id, List.mk_mem_zipIdx_iff_getElem?.mpr (by simpa using h), rfl, rfl⟩

@[simp]
theorem mem_kernels : (id, f) ∈ m.kernels ↔ m.function? id = some f ∧ f.isKernel := by
  simp [kernels]

theorem nodup_indexed (m : Module) : (m.indexed.map Prod.fst).Nodup := by
  have : m.indexed.map Prod.fst = m.functions.toList.zipIdx.map Prod.snd := by
    simp [indexed, Function.comp_def]
  rw [this, List.zipIdx_map_snd]
  exact List.nodup_range'

theorem nodup_kernels (m : Module) : (m.kernels.map Prod.fst).Nodup :=
  (List.filter_sublist.map Prod.fst).nodup m.nodup_indexed

theorem mem_callsTo {callee caller : FunctionId} {c : Call} :
    (caller, c) ∈ m.callsTo callee ↔
      ∃ f, m.function? caller = some f ∧ c ∈ f.calls ∧ c.callee = callee := by
  simp only [callsTo, List.mem_flatMap, List.mem_map, List.mem_filter, Prod.exists, mem_indexed,
    Prod.mk.injEq, beq_iff_eq]
  constructor
  · rintro ⟨id, f, hf, c', ⟨hc, hcallee⟩, rfl, rfl⟩
    exact ⟨f, hf, hc, hcallee⟩
  · rintro ⟨f, hf, hc, hcallee⟩
    exact ⟨caller, f, hf, c, ⟨hc, hcallee⟩, rfl, rfl⟩

theorem getElem?_indexed (m : Module) (id : FunctionId) :
    m.indexed[id]? = (m.function? id).map fun f => (id, f) := by
  simp [indexed, function?, List.getElem?_zipIdx, Function.comp_def]

/-- The functions read alike by position where each of them does. -/
theorem indexed_congr {α : Type} {m' : Module} {look : Function → α}
    (h : ∀ id, (m'.function? id).map look = (m.function? id).map look) :
    (m'.indexed.map fun p => (p.1, look p.2)) = m.indexed.map fun p => (p.1, look p.2) := by
  have hlist : m'.functions.toList.map look = m.functions.toList.map look := by
    refine List.ext_getElem? fun id => ?_
    simpa [function?] using h id
  have hsplit : ∀ p : Module, (p.indexed.map fun p => (p.1, look p.2))
      = (p.functions.toList.map look).zipIdx.map Prod.swap := by
    intro p
    rw [indexed, List.map_map, List.zipIdx_map, List.map_map]
    rfl
  rw [hsplit, hsplit, hlist]

/-- Where the calls of a function are edited in each caller, they are edited. -/
theorem callsTo_map {m' : Module} {callee : FunctionId} (edit : FunctionId → Call → Call)
    (h : ∀ id, (m'.function? id).map (fun f => f.calls.filter (·.callee == callee))
      = (m.function? id).map fun f => (f.calls.filter (·.callee == callee)).map (edit id)) :
    m'.callsTo callee = (m.callsTo callee).map fun site => (site.1, edit site.1 site.2) := by
  have hindexed : (m'.indexed.map fun p => (p.1, p.2.calls.filter (·.callee == callee)))
      = m.indexed.map fun p => (p.1, (p.2.calls.filter (·.callee == callee)).map (edit p.1)) := by
    refine List.ext_getElem? fun id => ?_
    rw [List.getElem?_map, List.getElem?_map, getElem?_indexed, getElem?_indexed, Option.map_map,
      Option.map_map]
    have hpair := congrArg (Option.map (Prod.mk (id : FunctionId))) (h id)
    rwa [Option.map_map, Option.map_map] at hpair
  calc m'.callsTo callee
      = (m'.indexed.map fun p => (p.1, p.2.calls.filter (·.callee == callee))).flatMap
          fun p => p.2.map fun c => (p.1, c) := by rw [callsTo, List.flatMap_map]
    _ = (m.indexed.map fun p =>
          (p.1, (p.2.calls.filter (·.callee == callee)).map (edit p.1))).flatMap
          fun p => p.2.map fun c => (p.1, c) := by rw [hindexed]
    _ = (m.callsTo callee).map fun site => (site.1, edit site.1 site.2) := by
      rw [callsTo, List.map_flatMap, List.flatMap_map]
      simp only [List.map_map, Function.comp_def]

theorem callsTo_congr {m' : Module} {callee : FunctionId}
    (h : ∀ id, (m'.function? id).map (fun f => f.calls.filter (·.callee == callee))
      = (m.function? id).map fun f => f.calls.filter (·.callee == callee)) :
    m'.callsTo callee = m.callsTo callee := by
  refine (callsTo_map (fun _ c => c) fun id => ?_).trans (List.map_id' _)
  simpa using h id

/-! ## Functions by name -/

/-- The names of the functions, in the order of declaration. -/
def names (m : Module) : List String :=
  m.functions.toList.map Function.name

/-- No two functions have one name. -/
def NamesDistinct (m : Module) : Prop :=
  m.names.Nodup

theorem getElem?_names (m : Module) (id : FunctionId) :
    m.names[id]? = (m.function? id).map Function.name := by
  simp [names, function?]

theorem length_names (m : Module) : m.names.length = m.functions.size := by
  simp [names]

theorem NamesDistinct.eq_of_name {i j : FunctionId} {f g : Function} (h : m.NamesDistinct)
    (hf : m.function? i = some f) (hg : m.function? j = some g) (hname : f.name = g.name) :
    i = j := by
  have hi : i < m.names.length := m.length_names ▸ lt_size_of_function? hf
  refine (List.getElem?_inj hi h).mp ?_
  rw [getElem?_names, getElem?_names, hf, hg, Option.map_some, Option.map_some, hname]

theorem nameOf_of_function? (h : m.function? id = some f) : m.nameOf id = f.name := by
  rw [nameOf, h]

theorem nameOf_eq (m : Module) (id : FunctionId) : m.nameOf id = m.names[id]?.getD "?" := by
  rw [getElem?_names, nameOf]
  cases m.function? id <;> rfl

/-- A name other than the question mark is that of a function. -/
theorem function?_of_nameOf {name : String} (h : m.nameOf id = name) (hname : name ≠ "?") :
    ∃ f, m.function? id = some f ∧ f.name = name := by
  rw [nameOf] at h
  split at h
  · rename_i f hf
    exact ⟨f, hf, h⟩
  · exact absurd h.symm hname

theorem find?_eq_none_iff {name : String} :
    m.find? name = none ↔ ∀ f ∈ m.functions, f.name ≠ name := by
  rw [find?, Array.findIdx?_eq_none_iff]
  simp

theorem mem_names {name : String} : name ∈ m.names ↔ ∃ f ∈ m.functions, f.name = name := by
  simp only [names, List.mem_map, Array.mem_toList_iff]

theorem find?_eq_none_iff_not_mem {name : String} : m.find? name = none ↔ name ∉ m.names := by
  rw [find?_eq_none_iff, mem_names]
  push Not
  rfl

theorem function?_of_find? {name : String} (h : m.find? name = some id) :
    ∃ f, m.function? id = some f ∧ f.name = name := by
  obtain ⟨hlt, hname, -⟩ := Array.findIdx?_eq_some_iff_getElem.mp h
  exact ⟨m.functions[id], Array.getElem?_eq_getElem hlt, by simpa using hname⟩

/-! ## Edits -/

/-- A function that is wanted is there already, or is added. -/
theorem ensure_eq (m : Module) (f : Function) :
    (∃ g, m.function? (m.ensure f).1 = some g ∧ g.name = f.name ∧ (m.ensure f).2 = m) ∨
      (m.find? f.name = none ∧ m.ensure f = m.push f) := by
  unfold ensure
  cases h : m.find? f.name with
  | some id =>
    obtain ⟨g, hg, hname⟩ := function?_of_find? h
    exact .inl ⟨g, hg, hname, rfl⟩
  | none => exact .inr ⟨rfl, rfl⟩

theorem function?_modify (m : Module) (id other : FunctionId) (edit : Function → Function) :
    (m.modify id edit).function? other
      = if id = other then (m.function? other).map edit else m.function? other := by
  simp only [modify, function?, Array.getElem?_modify]

/-- An edit that keeps the name of its function keeps all names. -/
theorem names_modify {edit : Function → Function} (hf : m.function? id = some f)
    (hname : (edit f).name = f.name) : (m.modify id edit).names = m.names := by
  refine List.ext_getElem? fun i => ?_
  rw [getElem?_names, getElem?_names, function?_modify]
  split
  · rename_i heq
    subst heq
    rw [hf, Option.map_some, Option.map_some, Option.map_some, hname]
  · rfl

theorem modify_eq_self {edit : Function → Function}
    (h : ∀ f, m.function? id = some f → edit f = f) : m.modify id edit = m := by
  have hfunctions : m.functions.modify id edit = m.functions := by
    refine Array.ext_getElem? fun other => ?_
    rw [Array.getElem?_modify]
    split
    · rename_i heq
      subst heq
      cases hf : m.functions[id]? with
      | none => rfl
      | some f => exact congrArg some (h f hf)
    · rfl
  rw [modify, hfunctions]

/-- What is replaced need not be edited before. -/
theorem modify_replace (edit : Function → Function) (g : Function) :
    (m.modify id edit).modify id (fun _ => g) = m.modify id fun _ => g := by
  refine congrArg (Module.mk _) (Array.ext_getElem? fun other => ?_)
  simp only [modify, Array.getElem?_modify]
  split
  · rw [Option.map_map]
    rfl
  · rfl

/-- Editing different functions in turn edits each of them once. -/
theorem function?_foldl_modify {α : Type} (edit : α → Function → Function) (id : FunctionId) :
    ∀ (edits : List (FunctionId × α)) (m : Module), (edits.map Prod.fst).Nodup →
      (edits.foldl (fun m (id, a) => m.modify id (edit a)) m).function? id
        = (m.function? id).map fun f => ((edits.lookup id).map fun a => edit a f).getD f
  | [], m, _ => by simp
  | (first, a) :: edits, m, h => by
    rw [List.map_cons, List.nodup_cons] at h
    rw [List.foldl_cons, function?_foldl_modify edit id edits _ h.2, function?_modify]
    by_cases heq : first = id
    · subst heq
      -- The edits are of different functions, so no other is of this one.
      have hnone : edits.lookup first = none := by
        rw [List.lookup_eq_none_iff]
        intro p hp
        rw [bne_iff_ne]
        exact fun hfirst => h.1 (List.mem_map.mpr ⟨p, hp, hfirst.symm⟩)
      simp [hnone, Function.comp_def]
    · rw [if_neg heq, List.lookup_cons, beq_false_of_ne (Ne.symm heq)]

/-- A function whose name is free leaves the names distinct. -/
theorem NamesDistinct.push {m' : Module} (hm : m.NamesDistinct) (hfree : m.find? f.name = none)
    (h : m'.functions = m.functions.push f) : m'.NamesDistinct := by
  have hnames : m'.names = m.names ++ [f.name] := by simp [names, h]
  rw [NamesDistinct, hnames, List.nodup_append]
  refine ⟨hm, List.nodup_singleton _, fun name hname other hother heq => ?_⟩
  rw [heq, List.mem_singleton.mp hother] at hname
  exact find?_eq_none_iff_not_mem.mp hfree hname

/-- Editing each function leaves the names as they are, if each edit does. -/
theorem names_eq_of_forall₂ {m' : Module} {R : Function → Function → Prop}
    (h : List.Forall₂ R m.functions.toList m'.functions.toList)
    (hR : ∀ f g, R f g → f.name = g.name) : m.names = m'.names := by
  have hnames := List.forall₂_map_left_iff.mpr (List.forall₂_map_right_iff.mpr (h.imp hR))
  rwa [List.forall₂_eq_eq_eq] at hnames

/-! ## Removing a function -/

/-- What was at the position that `shift` turns into `id`. -/
def unshift (removed id : FunctionId) : FunctionId :=
  if id < removed then id else id + 1

theorem unshift_shift {removed id : FunctionId} (h : id ≠ removed) :
    unshift removed (shift removed id) = id := by
  grind [shift, unshift]

/-- What is left stands where `shift` says. -/
theorem getElem?_eraseIdx_shift {α : Type} (as : List α) {removed id : Nat}
    (h : id ≠ removed) : (as.eraseIdx removed)[shift removed id]? = as[id]? := by
  rw [List.getElem?_eraseIdx, shift]
  by_cases hlt : removed < id
  · rw [if_pos hlt, if_neg (by omega), Nat.sub_add_cancel (by omega)]
  · rw [if_neg hlt, if_pos (by omega)]

/-- **Removing a function moves the others, and every reference to them along.** -/
theorem remove_ok {m' : Module} (h : m.remove id = .ok (f, m')) :
    m.function? id = some f ∧
      (∀ g ∈ m.functions, ∀ c ∈ g.calls, c.callee ≠ id) ∧
      m'.functions.size + 1 = m.functions.size ∧
      m'.names = m.names.eraseIdx id ∧
      ∀ j, m'.function? j
        = (m.function? (unshift id j)).map (·.mapCallees (shift id)) := by
  unfold remove at h
  split at h
  · cases h
  rename_i g hg
  have hlt := lt_size_of_function? hg
  by_cases hsites : (m.callsTo id).length = 0
  · simp only [hsites, if_true] at h
    cases h
    refine ⟨hg, fun g hmem c hc hcallee => ?_, ?_, ?_, fun j => ?_⟩
    · obtain ⟨caller, hcaller⟩ := mem_functions_iff.mp hmem
      have hsite := mem_callsTo.mpr ⟨g, hcaller, hc, hcallee⟩
      rw [List.eq_nil_of_length_eq_zero hsites] at hsite
      cases hsite
    · rw [Array.size_map, Array.eraseIdxIfInBounds_eq, dif_pos hlt, Array.size_eraseIdx]
      exact Nat.succ_pred_eq_of_pos (Nat.zero_lt_of_lt hlt)
    · simp only [names, Array.toList_map, Array.toList_eraseIdxIfInBounds, List.map_map,
        List.eraseIdx_map]
      rfl
    · simp only [function?, Array.getElem?_map, Array.eraseIdxIfInBounds_eq, dif_pos hlt,
        Array.getElem?_eraseIdx, unshift]
      split <;> rfl
  · simp only [hsites, if_false] at h
    cases h

end Module

end ResourceBinding
