import ResourceBinding.FixedResource.Provenance
import ResourceBinding.Proofs.Program.Revision
import Mathlib.Data.Finset.Card

/-!
# Following accesses

A value that is an access at zero indices leads to its base, and so on. `Function.Peels` tells
where that leads, with the number of indices of each access on the way, the outermost first.

* `Function.Peels.append_of_stops`: there is one way only.
* `Function.Peels.length_le_or_revisits`: it is no longer than the store, unless it comes back to an
  expression, and a way that ends does not.
* `Function.stops_or_endless` and `Function.endless_iff_revisits`: one that does not end goes on for
  ever, in a cycle then.
-/

namespace ResourceBinding.Function

variable {f g : Function} {counts others : List Nat} {value base origin other : ExprId}
  {indices : List ExprId} {σ : ExprId → ExprId}

/-- The expression is an access of the base at the indices, all of which are zero. -/
def ZeroAccess (f : Function) (value base : ExprId) (indices : List ExprId) : Prop :=
  f.expr? value = some (.access base indices) ∧ indices.all f.isZeroIndex = true

/-- Accesses at zero indices lead from a value to an origin. The counts are how many indices they
have, the outermost first. -/
inductive Peels (f : Function) : List Nat → ExprId → ExprId → Prop
  | here {value : ExprId} : Peels f [] value value
  | access {counts : List Nat} {value base origin : ExprId} {indices : List ExprId} :
      f.ZeroAccess value base indices → Peels f counts base origin →
      Peels f (indices.length :: counts) value origin

/-- The expression is no access at zero indices, so that following accesses stops there. -/
def Stops (f : Function) (origin : ExprId) : Prop :=
  ∀ base indices, ¬ f.ZeroAccess origin base indices

theorem stops_of_expr? {e : Expr} (he : f.expr? origin = some e)
    (h : ∀ base indices, e ≠ .access base indices) : f.Stops origin :=
  fun base indices haccess => h base indices (Option.some.inj (he.symm.trans haccess.1))

theorem Stops.not_access (h : f.Stops origin) {indices : List ExprId}
    (he : f.expr? origin = some (.access base indices)) : indices.all f.isZeroIndex = false :=
  Bool.eq_false_iff.mpr fun hzero => h base indices ⟨he, hzero⟩

/-! ## One way only -/

theorem Peels.eq_nil_of_stops (hstops : f.Stops value) (h : f.Peels counts value origin) :
    counts = [] ∧ value = origin := by
  cases h with
  | here => exact ⟨rfl, rfl⟩
  | access haccess _ => exact absurd haccess (hstops _ _)

/-- A literal leads to itself alone. -/
theorem Peels.not_literal (h : f.Peels counts value origin) {e : Expr}
    (horigin : f.expr? origin = some e) (he : ∀ l, e ≠ .literal l) (l : Literal) :
    f.literal? value ≠ some l := by
  intro hl
  rw [literal?_eq_some_iff] at hl
  obtain ⟨-, rfl⟩ := h.eq_nil_of_stops (stops_of_expr? hl (by simp))
  exact he l (Option.some.inj (horigin.symm.trans hl))

theorem Peels.trans (h : f.Peels counts value base) (hrest : f.Peels others base origin) :
    f.Peels (counts ++ others) value origin := by
  induction h with
  | here => exact hrest
  | access haccess _ ih => exact .access haccess (ih hrest)

/-- **A way that stops begins with any other one from the same value.** -/
theorem Peels.append_of_stops (h : f.Peels counts value other) :
    ∀ {others : List Nat}, f.Peels others value origin → f.Stops origin →
      ∃ rest, others = counts ++ rest ∧ f.Peels rest other origin := by
  induction h with
  | here => exact fun {others} h _ => ⟨others, rfl, h⟩
  | access haccess _ ih =>
    intro others h hstops
    cases h with
    | here => exact absurd haccess (hstops _ _)
    | access haccess' hbase' =>
      cases haccess.1.symm.trans haccess'.1
      obtain ⟨rest, rfl, hrest⟩ := ih hbase' hstops
      exact ⟨rest, rfl, hrest⟩

theorem Peels.unique (h : f.Peels counts value origin) (hstops : f.Stops origin)
    (h' : f.Peels others value other) (hstops' : f.Stops other) :
    counts = others ∧ origin = other := by
  obtain ⟨rest, hcounts, hrest⟩ := h.append_of_stops h' hstops'
  obtain ⟨rfl, rfl⟩ := hrest.eq_nil_of_stops hstops
  exact ⟨by rw [hcounts, List.append_nil], rfl⟩

/-! ## How long it is -/

/-- Following the value leads to an access, and from there to the same one again. -/
def Revisits (f : Function) (value : ExprId) : Prop :=
  ∃ counts round origin, f.Peels counts value origin ∧ round ≠ [] ∧ f.Peels round origin origin

/-- The accesses that were passed are different ones, unless one of them was passed twice. -/
theorem Peels.nodup_or_revisits (h : f.Peels counts value origin) : f.Revisits value ∨
    ∃ ids : List Nat, ids.Nodup ∧ ids.length = counts.length ∧
      ∀ id ∈ ids, id < f.expressions.size ∧ ∃ passed, f.Peels passed value id := by
  induction h with
  | here => exact .inr ⟨[], .nil, rfl, by simp⟩
  | @access counts value base origin indices haccess _ ih =>
    rcases ih with ⟨before, round, origin, hbefore, hround⟩ | ⟨ids, hnodup, hlength, hids⟩
    · exact .inl ⟨_, round, origin, .access haccess hbefore, hround⟩
    · by_cases hmem : value ∈ ids
      · obtain ⟨-, passed, hpassed⟩ := hids value hmem
        exact .inl ⟨[], _, value, .here, List.cons_ne_nil _ _, .access haccess hpassed⟩
      · refine .inr ⟨value :: ids, List.nodup_cons.mpr ⟨hmem, hnodup⟩, by simp [hlength],
          List.forall_mem_cons.mpr ⟨⟨lt_size_of_expr? haccess.1, [], .here⟩, fun id hid => ?_⟩⟩
        obtain ⟨hlt, passed, hpassed⟩ := hids id hid
        exact ⟨hlt, _, .access haccess hpassed⟩

/-- **No more accesses are passed than there are expressions**, unless one was passed twice. -/
theorem Peels.length_le_or_revisits (h : f.Peels counts value origin) :
    counts.length ≤ f.expressions.size ∨ f.Revisits value := by
  refine h.nodup_or_revisits.symm.imp_left ?_
  rintro ⟨ids, hnodup, hlength, hids⟩
  have hsubset : ids.toFinset ⊆ Finset.range f.expressions.size := fun id hid =>
    Finset.mem_range.mpr (hids id (List.mem_toFinset.mp hid)).1
  have hcard := Finset.card_le_card hsubset
  rwa [List.toFinset_card_of_nodup hnodup, Finset.card_range, hlength] at hcard

/-- A way that stops comes back to no access: what is left of it would be as long after the round as
before. -/
theorem Peels.not_revisits (h : f.Peels counts value origin) (hstops : f.Stops origin) :
    ¬ f.Revisits value := by
  rintro ⟨before, round, back, hbefore, hround, hback⟩
  obtain ⟨rest, -, hrest⟩ := hbefore.append_of_stops h hstops
  obtain ⟨shorter, rfl, hshorter⟩ := hback.append_of_stops hrest hstops
  have hlength := congrArg List.length (hrest.unique hstops hshorter hstops).1
  rw [List.length_append] at hlength
  have hpos := List.length_pos_iff.mpr hround
  omega

/-- **A way that stops is no longer than the store.** -/
theorem Peels.length_le_size (h : f.Peels counts value origin) (hstops : f.Stops origin) :
    counts.length ≤ f.expressions.size :=
  h.length_le_or_revisits.resolve_right (h.not_revisits hstops)

/-- There are ways of every length from the value. -/
def Endless (f : Function) (value : ExprId) : Prop :=
  ∀ n, ∃ counts origin, counts.length = n ∧ f.Peels counts value origin

/-- **Following accesses stops, or goes on for ever.** -/
theorem stops_or_endless (f : Function) (value : ExprId) :
    (∃ counts origin, f.Peels counts value origin ∧ f.Stops origin) ∨ f.Endless value := by
  by_cases h : ∃ counts origin, f.Peels counts value origin ∧ f.Stops origin
  · exact .inl h
  · refine .inr fun n => ?_
    induction n with
    | zero => exact ⟨[], value, rfl, .here⟩
    | succ n ih =>
      obtain ⟨counts, origin, rfl, hpeels⟩ := ih
      have hgoes : ¬ f.Stops origin := fun hstops => h ⟨counts, origin, hpeels, hstops⟩
      unfold Stops at hgoes
      push Not at hgoes
      obtain ⟨base, indices, haccess⟩ := hgoes
      exact ⟨_, base, by simp, hpeels.trans (.access haccess .here)⟩

theorem Endless.not_stops (h : f.Endless value) (hpeels : f.Peels counts value origin) :
    ¬ f.Stops origin := by
  intro hstops
  obtain ⟨longer, other, hlength, hlonger⟩ := h (f.expressions.size + 1)
  obtain ⟨rest, hcounts, -⟩ := hlonger.append_of_stops hpeels hstops
  have hle := hpeels.length_le_size hstops
  rw [hcounts, List.length_append] at hle
  omega

/-- **Following goes on for ever exactly if it comes back.** -/
theorem endless_iff_revisits : f.Endless value ↔ f.Revisits value := by
  constructor
  · intro h
    obtain ⟨counts, origin, hlength, hpeels⟩ := h (f.expressions.size + 1)
    exact hpeels.length_le_or_revisits.resolve_left (by omega)
  · intro h
    refine (f.stops_or_endless value).resolve_left ?_
    rintro ⟨counts, origin, hpeels, hstops⟩
    exact hpeels.not_revisits hstops h

/-! ## Edits -/

/-- Where all expressions are kept, so are the ways. -/
theorem Peels.mono (hfg : ∀ id e, f.expr? id = some e → g.expr? id = some e)
    (h : f.Peels counts value origin) : g.Peels counts value origin := by
  have hzero : ∀ indices : List ExprId, indices.all f.isZeroIndex = true →
      indices.all g.isZeroIndex = true := by
    intro indices hindices
    refine List.all_eq_true.mpr fun i hi => ?_
    obtain ⟨l, hl, hz⟩ := (Option.any_eq_true _ _).mp (List.all_eq_true.mp hindices i hi)
    refine (Option.any_eq_true _ _).mpr ⟨l, ?_, hz⟩
    exact literal?_eq_some_iff.mpr (hfg _ _ (literal?_eq_some_iff.mp hl))
  induction h with
  | here => exact .here
  | access haccess _ ih => exact .access ⟨hfg _ _ haccess.1, hzero _ haccess.2⟩ ih

/-- **Redirecting parameters redirects the ways.** Indices that are literals are not moved. -/
theorem Redirects.peels (hfg : Redirects σ f g) (h : f.Peels counts value origin) :
    g.Peels counts (σ value) (σ origin) := by
  induction h with
  | here => exact .here
  | @access counts value base origin indices haccess _ ih =>
    have hindex : ∀ i ∈ indices, ∃ l, f.literal? i = some l ∧ l.isZero := fun i hi =>
      (Option.any_eq_true _ _).mp (List.all_eq_true.mp haccess.2 i hi)
    have hindices : indices.map σ = indices := by
      refine (List.map_congr_left fun i hi => ?_).trans indices.map_id
      obtain ⟨l, hl, -⟩ := hindex i hi
      exact hfg.stays_of_expr? (literal?_eq_some_iff.mp hl) (by simp)
    rw [hfg.stays_of_expr? haccess.1 (by simp)]
    refine .access ⟨?_, ?_⟩ ih
    · rw [hfg.expr value _ haccess.1, Expr.mapOperands, hindices]
    · refine List.all_eq_true.mpr fun i hi => ?_
      obtain ⟨l, hl, hz⟩ := hindex i hi
      exact (Option.any_eq_true _ _).mpr ⟨l, hfg.literal? hl, hz⟩

end ResourceBinding.Function
