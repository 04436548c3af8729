import ResourceBinding.Proofs.Reading.Tokens
import ResourceBinding.Reading.Cursor

/-!
# What readers take from a text

`Reader.Ensures` is a contract: what is read fulfils `P`, provided that the names among the tokens
are names, and the tokens that are left are among those that there were. There is one lemma for each
reader, and `Ensures.bind` composes them.
-/

namespace ResourceBinding

/-- The names among the tokens still to be read are names. -/
def Cursor.Named (cursor : Cursor) : Prop :=
  ∀ t ∈ cursor.rest, t.token.Named

theorem Cursor.named_start {source : String} {tokens : List Located}
    (h : readTokens source = .ok tokens) : (Cursor.start tokens).Named :=
  named_of_readTokens h

theorem Cursor.Named.of_subset {cursor cursor' : Cursor} (h : cursor.Named)
    (hsubset : cursor'.rest ⊆ cursor.rest) : cursor'.Named :=
  fun t ht => h t (hsubset ht)

namespace Reader

variable {α β : Type} {x : Reader α} {f : α → Reader β} {P : α → Prop} {Q : β → Prop}

/-- What is read fulfils `P`. -/
def Ensures (x : Reader α) (P : α → Prop) : Prop :=
  ∀ cursor a cursor', cursor.Named → x.run cursor = .ok (a, cursor') →
    cursor'.rest ⊆ cursor.rest ∧ P a

theorem Ensures.imp {P' : α → Prop} (h : x.Ensures P) (hP : ∀ a, P a → P' a) : x.Ensures P' :=
  fun cursor a cursor' hcursor hrun =>
    have := h cursor a cursor' hcursor hrun
    ⟨this.1, hP a this.2⟩

theorem ensures_pure {a : α} (h : P a) : (pure a : Reader α).Ensures P := by
  intro cursor b cursor' hcursor hrun
  cases hrun
  exact ⟨List.Subset.refl _, h⟩

theorem Ensures.bind (hx : x.Ensures P) (hf : ∀ a, P a → (f a).Ensures Q) :
    (x >>= f).Ensures Q := by
  intro cursor b cursor' hcursor hrun
  obtain ⟨a, cursor₁, hfirst, hrest⟩ := exists_of_run_bind hrun
  obtain ⟨hfirst, ha⟩ := hx cursor a cursor₁ hcursor hfirst
  obtain ⟨hrest, hb⟩ := hf a ha cursor₁ b cursor' (hcursor.of_subset hfirst) hrest
  exact ⟨List.Subset.trans hrest hfirst, hb⟩

theorem Ensures.map {g : α → β} (hx : x.Ensures P) (hg : ∀ a, P a → Q (g a)) :
    (g <$> x).Ensures Q := by
  rw [map_eq_pure_bind]
  exact hx.bind fun a ha => ensures_pure (hg a ha)

/-- Either way of going on fulfils the contract. -/
theorem ensures_ite {c : Prop} [Decidable c] {y : Reader α} (hx : c → x.Ensures P)
    (hy : ¬ c → y.Ensures P) : (if c then x else y).Ensures P := by
  split
  · exact hx ‹_›
  · exact hy ‹_›

/-- What always fails fulfils everything. -/
theorem ensures_of_fails (h : ∀ cursor, ∃ e, x.run cursor = .error e) : x.Ensures P := by
  intro cursor a cursor' _ hrun
  obtain ⟨e, he⟩ := h cursor
  cases he.symm.trans hrun

theorem ensures_refuse (line : Nat) (cause : ParseCause) : (refuse line cause : Reader α).Ensures P :=
  ensures_of_fails fun _ => ⟨_, rfl⟩

theorem ensures_expected (wanted : Wanted) : (expected wanted : Reader α).Ensures P :=
  ensures_of_fails fun _ => ⟨_, rfl⟩

/-! ## Tokens -/

theorem ensures_get : (get : Reader Cursor).Ensures Cursor.Named := by
  intro cursor a cursor' hcursor hrun
  cases hrun
  exact ⟨List.Subset.refl _, hcursor⟩

theorem ensures_peek : peek.Ensures fun next => ∀ t, next = some t → t.Named := by
  refine ensures_get.bind fun cursor hcursor => ensures_pure fun t ht => ?_
  obtain ⟨first, hfirst, rfl⟩ := Option.map_eq_some_iff.mp ht
  exact hcursor first (List.mem_of_head? hfirst)

theorem ensures_line : line.Ensures fun _ => True :=
  ensures_get.bind fun _ _ => ensures_pure trivial

theorem ensures_bound : bound.Ensures fun _ => True :=
  ensures_get.bind fun _ _ => ensures_pure trivial

theorem ensures_advance : advance.Ensures fun _ => True := by
  intro cursor a cursor' hcursor hrun
  cases hrun
  exact ⟨fun t ht => List.mem_of_mem_tail ht, trivial⟩

theorem ensures_take {wanted : Wanted} {meaning : Token → Option α}
    (h : ∀ t a, t.Named → meaning t = some a → P a) : (take wanted meaning).Ensures P := by
  refine ensures_peek.bind fun next hnext => ?_
  split
  · rename_i a ha
    obtain ⟨t, ht, hmeaning⟩ := Option.bind_eq_some_iff.mp ha
    exact ensures_advance.bind fun _ _ => ensures_pure (h t a (hnext t ht) hmeaning)
  · exact ensures_expected wanted

/-- What is taken is the meaning of the next token, and the cursor stands behind that. -/
theorem exists_cursor_of_run_take {wanted : Wanted} {meaning : Token → Option α}
    {cursor cursor' : Cursor} {a : α} (h : (take wanted meaning).run cursor = .ok (a, cursor')) :
    ∃ t, cursor = ⟨t :: cursor'.rest, cursor'.lastLine⟩ ∧ meaning t.token = some a := by
  obtain ⟨next, cursor₁, hpeek, h⟩ := exists_of_run_bind h
  cases hpeek
  split at h
  · rename_i found hfound
    cases h
    obtain ⟨token, hnext, hmeaning⟩ := Option.bind_eq_some_iff.mp hfound
    obtain ⟨t, ht, rfl⟩ := Option.map_eq_some_iff.mp hnext
    refine ⟨t, ?_, hmeaning⟩
    rw [List.cons_head?_tail ht]
  · cases h

/-- The tokens behind the one that is taken are left. -/
theorem exists_of_run_take {wanted : Wanted} {meaning : Token → Option α} {cursor cursor' : Cursor}
    {a : α} (h : (take wanted meaning).run cursor = .ok (a, cursor')) :
    ∃ t, cursor.rest = t :: cursor'.rest ∧ meaning t.token = some a := by
  obtain ⟨t, ht, hmeaning⟩ := exists_cursor_of_run_take h
  exact ⟨t, congrArg Cursor.rest ht, hmeaning⟩

theorem ensures_takeWord {wanted : Wanted} {meaning : String → Option α}
    (h : ∀ w a, meaning w = some a → P a) : (takeWord wanted meaning).Ensures P := by
  refine ensures_take fun t a _ ha => ?_
  cases t with
  | word w => exact h w a ha
  | _ => cases ha

theorem ensures_sign (char : Char) : (sign char).Ensures fun _ => True :=
  ensures_take fun _ _ _ _ => trivial

theorem ensures_valueName : valueName.Ensures IsName := by
  refine ensures_take fun t name ht hname => ?_
  cases t with
  | valueName _ =>
    cases hname
    exact ht
  | _ => cases hname

theorem ensures_functionName : functionName.Ensures IsName := by
  refine ensures_take fun t name ht hname => ?_
  cases t with
  | functionName _ =>
    cases hname
    exact ht
  | _ => cases hname

theorem ensures_eat (token : Token) : (eat token).Ensures fun _ => True := by
  refine ensures_peek.bind fun next _ => ensures_ite (fun _ => ?_) fun _ => ensures_pure trivial
  exact ensures_advance.bind fun _ _ => ensures_pure trivial

/-- What may be there or not, and what is read behind it. -/
theorem ensures_optional {present : Bool} {k : Option α → Reader β} (hx : x.Ensures P)
    (hk : ∀ found, (∀ a, found = some a → P a) → (k found).Ensures Q) :
    (if present then (some <$> x) >>= k else pure none >>= k).Ensures Q := by
  refine ensures_ite (fun _ => ?_) fun _ => ?_
  · refine (hx.map (Q := fun found => ∀ a, found = some a → P a) fun a ha b hb => ?_).bind hk
    exact Option.some.inj hb ▸ ha
  · rw [pure_bind]
    exact hk none fun _ h => by cases h

theorem ensures_natural : natural.Ensures (· < 0x100000000) := by
  refine ensures_line.bind fun line _ =>
    (ensures_take (P := fun _ => True) fun _ _ _ _ => trivial).bind fun read _ => ?_
  refine ensures_ite (fun h => ensures_pure ?_) fun _ => ensures_refuse _ _
  have hnonneg := h.1
  have hlt := h.2
  omega

/-! ## Lists -/

theorem ensures_itemsWithin (close : Char) (hx : x.Ensures P) :
    ∀ n, (itemsWithin close x n).Ensures fun items => ∀ a ∈ items, P a
  | 0 => ensures_expected _
  | n + 1 => by
    refine hx.bind fun first hfirst => (ensures_eat _).bind fun closed _ => ensures_ite (fun _ => ?_)
      fun _ => (ensures_sign ',').bind fun _ _ =>
        (ensures_itemsWithin close hx n).bind fun rest hrest => ensures_pure fun a ha => ?_
    · refine ensures_pure fun a ha => ?_
      rw [List.mem_singleton.mp ha]
      exact hfirst
    · rcases List.mem_cons.mp ha with rfl | ha
      · exact hfirst
      · exact hrest a ha

theorem ensures_itemsUntil (close : Char) (hx : x.Ensures P) :
    (itemsUntil close x).Ensures fun items => ∀ a ∈ items, P a := by
  refine (ensures_eat _).bind fun closed _ => ensures_ite (fun _ => ?_) fun _ =>
    ensures_bound.bind fun n _ => ensures_itemsWithin close hx n
  exact ensures_pure fun _ ha => absurd ha List.not_mem_nil

end Reader

end ResourceBinding
