import ResourceBinding.Proofs.Binding.Faults

/-!
# Which fault ends a plan

Discriminants are numbered in the order in which they first occur (`Numbering.ofKeys`), whatever is
planned around them. So what is wrong with an argument depends on the arguments before it alone
(`Planner.FailsBy`), and a plan fails at the first argument that is wrong
(`Planner.failsBy_kernels`).
-/

namespace ResourceBinding

/-! ## Numberings of keys -/

namespace Numbering

/-- The numbering of keys, in the order in which they first occur. -/
def ofKeys (keys : List Discriminant) : Numbering :=
  keys.foldl (fun n key => (n.insert key).2) .empty

theorem ofKeys_append_singleton (keys : List Discriminant) (key : Discriminant) :
    ofKeys (keys ++ [key]) = ((ofKeys keys).insert key).2 :=
  List.foldl_append

theorem index?_eq_none_iff {n : Numbering} {key : Discriminant} :
    n.index? key = none ↔ key ∉ n.keys := by
  rw [index?, List.idxOf?_eq_none_iff]

theorem keys_insert (n : Numbering) (key : Discriminant) :
    (n.insert key).2.keys = if key ∈ n.keys then n.keys else n.keys ++ [key] := by
  unfold insert
  cases hindex : n.index? key with
  | some i =>
    rw [if_pos]
    by_contra hnot
    rw [index?_eq_none_iff.mpr hnot] at hindex
    cases hindex
  | none => rw [if_neg (index?_eq_none_iff.mp hindex)]

/-- **The numbering has each key once, where it first occurs.** -/
theorem keys_ofKeys (keys : List Discriminant) : (ofKeys keys).keys = keys.eraseDups := by
  induction keys using List.reverseRecOn with
  | nil => rfl
  | append_singleton keys key ih =>
    rw [ofKeys_append_singleton, keys_insert, ih, List.eraseDups_append]
    by_cases hkey : key ∈ keys
    · rw [if_pos (List.mem_eraseDups.mpr hkey)]
      simp [List.removeAll, hkey]
    · rw [if_neg (mt List.mem_eraseDups.mp hkey)]
      simp [List.removeAll, hkey, List.eraseDups_cons]

/-- The keys that are numbered are the given ones, each once. -/
theorem nodup_ofKeys_and_mem_iff (keys : List Discriminant) :
    (ofKeys keys).keys.Nodup ∧ ∀ key, key ∈ (ofKeys keys).keys ↔ key ∈ keys := by
  induction keys using List.reverseRecOn with
  | nil => exact ⟨.nil, fun _ => .rfl⟩
  | append_singleton keys key ih =>
    obtain ⟨hnodup, hmem⟩ := ih
    rw [ofKeys_append_singleton, Numbering.insert]
    cases hindex : (ofKeys keys).index? key with
    | some i =>
      have hold : key ∈ keys := by
        by_contra hnot
        rw [index?_eq_none_iff.mpr (mt (hmem key).mp hnot)] at hindex
        cases hindex
      refine ⟨hnodup, fun other => ?_⟩
      rw [hmem, List.mem_append, List.mem_singleton]
      refine ⟨.inl, fun hother => hother.elim id ?_⟩
      rintro rfl
      exact hold
    | none =>
      have hnew := index?_eq_none_iff.mp hindex
      refine ⟨List.nodup_append.mpr ⟨hnodup, List.nodup_singleton key, fun a ha b hb heq => ?_⟩,
        fun other => ?_⟩
      · rw [List.mem_singleton] at hb
        exact hnew (hb ▸ heq ▸ ha)
      · simp only [List.mem_append, hmem]

/-- There are as many numbers as there are distinct keys. -/
theorem length_ofKeys (keys : List Discriminant) :
    (ofKeys keys).keys.length = keys.dedup.length := by
  obtain ⟨hnodup, hmem⟩ := nodup_ofKeys_and_mem_iff keys
  refine ((List.perm_ext_iff_of_nodup hnodup (List.nodup_dedup keys)).mpr fun key => ?_).length_eq
  exact (hmem key).trans List.mem_dedup.symm

end Numbering

/-! ## Plans -/

theorem Module.argumentsFault?_append (m : Module) (args others : List KernelArgument) :
    ∀ before, m.argumentsFault? before (args ++ others)
      = (m.argumentsFault? before args).or (m.argumentsFault? (before ++ args) others) := by
  induction args with
  | nil =>
    intro before
    rw [List.append_nil]
    rfl
  | cons a args ih =>
    intro before
    rw [List.cons_append, argumentsFault?, argumentsFault?, ih, Option.or_assoc, List.append_assoc]
    rfl

namespace Planner

variable {α β : Type} {m : Module} {wanted : Bool} {s t : PlanState} {f : Function}
  {before : List KernelArgument}

theorem errorOf_bind {x : Planner α} {f : α → Planner β} {rest : Option Fault}
    (h : ∀ a t, x.run s = (.ok a, t) → errorOf ((f a).run t).1 = rest) :
    errorOf ((x >>= f).run s).1 = (errorOf (x.run s).1).or rest := by
  obtain ⟨⟨fault | a, t⟩, ht⟩ : ∃ r, x.run s = r := ⟨_, rfl⟩
  · rw [run_bind_of_error ht, ht]
    rfl
  · rw [run_bind_of_ok ht, ht]
    exact h a t ht

/-- Numbering a discriminant fails if it is new and the name of its accessor is taken. -/
theorem errorOf_number (key : Discriminant) : errorOf ((number m wanted key).run s).1
    = if key ∈ s.discriminants.keys then none
      else if (m.find? (ReservedName.accessor s.discriminants.keys.length)).isSome
        then some (.edit (.nameTaken (ReservedName.accessor s.discriminants.keys.length)))
        else none := by
  unfold number
  rw [run_bind_of_ok (run_get s)]
  cases hindex : s.discriminants.index? key with
  | some i =>
    rw [if_pos]
    · rfl
    · by_contra hnot
      rw [Numbering.index?_eq_none_iff.mpr hnot] at hindex
      cases hindex
  | none =>
    rw [if_neg (Numbering.index?_eq_none_iff.mp hindex)]
    simp only [Numbering.insert, hindex]
    split <;> rfl

theorem discriminants_number {key : Discriminant} {i : Nat}
    (h : (number m wanted key).run s = (.ok i, t)) :
    t.discriminants = (s.discriminants.insert key).2 := by
  unfold number at h
  rw [run_bind_of_ok (run_get s)] at h
  cases hindex : s.discriminants.index? key with
  | some j =>
    simp only [hindex] at h
    cases h
    rw [Numbering.insert, hindex]
  | none =>
    simp only [Numbering.insert, hindex] at h ⊢
    split at h
    · cases h
    · cases h
      rfl

theorem run_modify (change : PlanState → PlanState) :
    (modify change : Planner PUnit).run s = (.ok ⟨⟩, change s) := rfl

theorem state_of_liftM {x : Except Fault α} {a : α}
    (h : (liftM x : Planner α).run s = (.ok a, t)) : s = t := by
  cases x with
  | error fault => cases h
  | ok a =>
    cases h
    rfl

/-- An argument whose type has a kind fails as it is wrong behind those before it. -/
theorem errorOf_argument {set i : Nat} {p : Param} {kind : ArgumentKind}
    (hkind : m.types.argumentKind p.type = .ok kind)
    (hn : s.discriminants = .ofKeys (before.map KernelArgument.key)) :
    errorOf ((argument m wanted f set i p).run s).1
      = m.argumentFault? before (f.argumentAt (p, i)) := by
  have hfault : m.argumentFault? before (f.argumentAt (p, i))
      = (errorOf (Planner.kind m f i p)).or
        (errorOf ((number m wanted ⟨p.type, i⟩).run { s with nextSet := set + 1 }).1) := by
    rw [errorOf_number]
    simp only [hn, Numbering.length_ofKeys, (Numbering.nodup_ofKeys_and_mem_iff _).2]
    unfold Module.argumentFault? Planner.kind
    rw [show (f.argumentAt (p, i)).type = p.type from rfl, hkind]
    cases kind <;> rfl
  have hlift : ∀ {k : Except Fault ArgumentKind},
      errorOf ((liftM k : Planner ArgumentKind).run s).1 = errorOf k := by
    intro k
    cases k <;> rfl
  rw [hfault, ← hlift]
  refine errorOf_bind fun kind t ht => ?_
  obtain rfl := state_of_liftM ht
  rw [run_bind_of_ok (run_modify _)]
  have hrow : ∀ index u, (number m wanted ⟨p.type, i⟩).run { s with nextSet := set + 1 }
      = (.ok index, u) → errorOf ((emit (.trace wanted
        s!"kernel {f.name} arg {i} ({kind.word}) -> set {set} binding {i}") >>= fun _ =>
          pure (⟨f.name, i, p.name, kind, set, i, index⟩ : ArgumentRow)).run u).1 = none :=
    fun _ _ _ => rfl
  exact (errorOf_bind hrow).trans Option.or_none

/-- An argument that is bound has its discriminant numbered. -/
theorem discriminants_argument {set i : Nat} {p : Param} {row : ArgumentRow}
    (h : (argument m wanted f set i p).run s = (.ok row, t))
    (hn : s.discriminants = .ofKeys (before.map KernelArgument.key)) :
    t.discriminants = .ofKeys ((before ++ [f.argumentAt (p, i)]).map KernelArgument.key) := by
  unfold argument at h
  obtain ⟨kind, u, hkind, h⟩ := bind_ok h
  obtain rfl := state_of_liftM hkind
  obtain ⟨_, _, h0, h⟩ := bind_ok h
  cases h0
  obtain ⟨index, v, hnumber, h⟩ := bind_ok h
  obtain ⟨_, _, h0, h⟩ := bind_ok h
  cases h0
  cases h
  have hnumbered := discriminants_number hnumber
  rw [List.map_append, List.map_singleton, Numbering.ofKeys_append_singleton, ← hn]
  exact hnumbered

/-- What holds of a run that binds arguments behind others: it fails as they are wrong, and else it
has their discriminants numbered. -/
structure FailsBy (m : Module) (before args : List KernelArgument)
    (r : Except Fault α × PlanState) : Prop where
  fault : errorOf r.1 = m.argumentsFault? before args
  numbered : ∀ a, r.1 = .ok a →
    r.2.discriminants = .ofKeys ((before ++ args).map KernelArgument.key)

theorem failsBy_pure (a : α) (hn : s.discriminants = .ofKeys (before.map KernelArgument.key)) :
    FailsBy m before [] ((pure a : Planner α).run s) where
  fault := rfl
  numbered _ _ := by
    rw [List.append_nil]
    exact hn

/-- Arguments that are bound in two runs are wrong in the first or in the second. -/
theorem FailsBy.bind {x : Planner α} {f : α → Planner β} {args others : List KernelArgument}
    (hx : FailsBy m before args (x.run s))
    (hf : ∀ a t, t.discriminants = .ofKeys ((before ++ args).map KernelArgument.key) →
      FailsBy m (before ++ args) others ((f a).run t)) :
    FailsBy m before (args ++ others) ((x >>= f).run s) := by
  obtain ⟨⟨fault | a, t⟩, ht⟩ : ∃ r, x.run s = r := ⟨_, rfl⟩
  · rw [ht] at hx
    rw [run_bind_of_error ht]
    refine ⟨?_, fun _ h => nomatch h⟩
    rw [Module.argumentsFault?_append, ← hx.fault]
    rfl
  · rw [ht] at hx
    rw [run_bind_of_ok ht]
    obtain ⟨hfault, hnumbered⟩ := hf a t (hx.numbered a rfl)
    refine ⟨?_, ?_⟩
    · rw [Module.argumentsFault?_append, ← hx.fault, hfault]
      rfl
    · rw [← List.append_assoc]
      exact hnumbered

theorem failsBy_argument {set i : Nat} {p : Param} {kind : ArgumentKind}
    (hkind : m.types.argumentKind p.type = .ok kind)
    (hn : s.discriminants = .ofKeys (before.map KernelArgument.key)) :
    FailsBy m before [f.argumentAt (p, i)] ((argument m wanted f set i p).run s) where
  fault := by
    rw [errorOf_argument hkind hn, Module.argumentsFault?, Module.argumentsFault?, Option.or_none]
  numbered row hrow := discriminants_argument (t := ((argument m wanted f set i p).run s).2)
    (Prod.ext hrow rfl) hn

theorem failsBy_arguments {set : Nat} {ps : List Param} :
    ∀ {i : Nat} {s : PlanState} {before : List KernelArgument},
      (∀ p ∈ ps, ∃ kind, m.types.argumentKind p.type = .ok kind) →
      s.discriminants = .ofKeys (before.map KernelArgument.key) →
      FailsBy m before ((ps.zipIdx i).map f.argumentAt) ((arguments m wanted f set i ps).run s) := by
  induction ps with
  | nil => exact fun _ hn => failsBy_pure [] hn
  | cons p ps ih =>
    intro i s before hkinds hn
    obtain ⟨kind, hkind⟩ := hkinds p List.mem_cons_self
    have hrest : ∀ row t,
        t.discriminants = .ofKeys ((before ++ [f.argumentAt (p, i)]).map KernelArgument.key) →
        FailsBy m (before ++ [f.argumentAt (p, i)]) (((ps.zipIdx (i + 1)).map f.argumentAt) ++ [])
          ((arguments m wanted f set (i + 1) ps >>= fun rows =>
            (pure (row :: rows) : Planner (List ArgumentRow))).run t) := fun row t ht =>
      (ih (fun p hp => hkinds p (List.mem_cons_of_mem _ hp)) ht).bind fun rows _ hu =>
        failsBy_pure (row :: rows) hu
    have hfirst : FailsBy m before [f.argumentAt (p, i)] ((argument m wanted f set i p).run s) :=
      failsBy_argument hkind hn
    have h := hfirst.bind hrest
    rw [List.append_nil] at h
    exact h

theorem failsBy_kernels {ks : List (FunctionId × Function)} :
    ∀ {s : PlanState} (before : List KernelArgument),
      (∀ k ∈ ks, ∀ p ∈ k.2.params, ∃ kind, m.types.argumentKind p.type = .ok kind) →
      s.discriminants = .ofKeys (before.map KernelArgument.key) →
      FailsBy m before ((ks.map Prod.snd).flatMap fun f => f.params.zipIdx.map f.argumentAt)
        ((kernels m wanted ks).run s) := by
  induction ks with
  | nil => exact fun _ _ hn => failsBy_pure [] hn
  | cons k ks ih =>
    intro s before hkinds hn
    rw [kernels, run_bind_of_ok (run_get s)]
    have hrest : ∀ rows t, t.discriminants = .ofKeys
        ((before ++ k.2.params.zipIdx.map k.2.argumentAt).map KernelArgument.key) →
        FailsBy m (before ++ k.2.params.zipIdx.map k.2.argumentAt)
          (((ks.map Prod.snd).flatMap fun f => f.params.zipIdx.map f.argumentAt) ++ [])
          ((kernels m wanted ks >>= fun others =>
            (pure ((k.1, rows) :: others) : Planner (List (FunctionId × List ArgumentRow)))).run t) :=
      fun rows t ht =>
        (ih _ (fun k hk => hkinds k (List.mem_cons_of_mem _ hk)) ht).bind fun others _ hu =>
          failsBy_pure ((k.1, rows) :: others) hu
    have hfirst : FailsBy m before (k.2.params.zipIdx.map k.2.argumentAt)
        ((arguments m wanted k.2 s.nextSet 0 k.2.params).run s) :=
      failsBy_arguments (hkinds k List.mem_cons_self) hn
    have h := hfirst.bind hrest
    rw [List.append_nil] at h
    exact h

end Planner

end ResourceBinding
