import ResourceBinding.Program.Listing
import ResourceBinding.Proofs.Program.ValueTree

/-!
# Statements in program order

`Block.steps` lists what the statements of a block use and make, at every depth, in program order.
`InOrder` says that a use leads only to results that have been made before.
-/

namespace ResourceBinding

/-- What a statement uses, and what it makes. -/
structure Step where
  uses : List ExprId
  makes : List ExprId
deriving DecidableEq, Repr

/-- What steps make, in order. -/
def made (steps : List Step) : List ExprId :=
  steps.flatMap Step.makes

@[simp]
theorem made_nil : made [] = [] := rfl

@[simp]
theorem made_cons (s : Step) (steps : List Step) : made (s :: steps) = s.makes ++ made steps :=
  List.flatMap_cons

@[simp]
theorem made_append (steps others : List Step) :
    made (steps ++ others) = made steps ++ made others :=
  List.flatMap_append

/-- A call as a step. -/
def Call.step (c : Call) : Step :=
  ⟨c.arguments, c.result.toList⟩

theorem made_map_step (calls : List Call) :
    made (calls.map Call.step) = calls.filterMap Call.result := by
  induction calls with
  | nil => rfl
  | cons c calls ih => cases hr : c.result <;> simp [Call.step, hr, ih]

@[simp]
theorem Stmt.defines_mapOperands (σ : ExprId → ExprId) (s : Stmt) :
    (s.mapOperands σ).defines = s.defines := by
  cases s <;> rfl

theorem made_eq_of_forall₂ {R : Step → Step → Prop} (hR : ∀ s t, R s t → t.makes = s.makes)
    {steps others : List Step} (h : List.Forall₂ R steps others) : made others = made steps := by
  induction h with
  | nil => rfl
  | cons hst _ ih => rw [made_cons, made_cons, hR _ _ hst, ih]

namespace Block

/-- The statements of a block as steps. A loop uses and makes nothing itself. -/
def steps : Block → List Step
  | nil => []
  | cons head rest => ⟨head.operands, head.defines⟩ :: rest.steps
  | branch condition accept reject rest =>
    ⟨[condition], []⟩ :: (accept.steps ++ reject.steps ++ rest.steps)
  | loop body rest => body.steps ++ rest.steps

theorem flatMap_uses_steps (b : Block) : b.steps.flatMap Step.uses = b.operands := by
  induction b with
  | nil => rfl
  | cons head rest ih => simp [steps, operands, ih]
  | branch condition accept reject rest iha ihr ih => simp [steps, operands, iha, ihr, ih]
  | loop body rest ihb ih => simp [steps, operands, ihb, ih]

theorem made_steps (b : Block) : made b.steps = b.calls.filterMap Call.result := by
  induction b with
  | nil => rfl
  | cons head rest ih =>
    cases head with
    | call c => cases hr : c.result <;> simp [steps, calls, Stmt.defines, hr, ih]
    | _ => simp [steps, calls, Stmt.defines, ih]
  | branch condition accept reject rest iha ihr ih => simp [steps, calls, iha, ihr, ih]
  | loop body rest ihb ih => simp [steps, calls, ihb, ih]

/-- Replacing operands replaces what the steps use. -/
theorem steps_mapOperands (σ : ExprId → ExprId) (b : Block) :
    (b.mapOperands σ).steps = b.steps.map fun s => { s with uses := s.uses.map σ } := by
  induction b with
  | nil => rfl
  | cons head rest ih => simp [mapOperands, steps, ih]
  | branch condition accept reject rest iha ihr ih => simp [mapOperands, steps, iha, ihr, ih]
  | loop body rest ihb ih => simp [mapOperands, steps, ihb, ih]

theorem steps_mapCalls {f : Call → Call}
    (hf : ∀ c, (f c).arguments = c.arguments ∧ (f c).result = c.result) (b : Block) :
    (b.mapCalls f).steps = b.steps := by
  induction b with
  | nil => rfl
  | cons head rest ih =>
    cases head <;> simp [mapCalls, steps, Stmt.operands, Stmt.defines, hf, ih]
  | branch condition accept reject rest iha ihr ih => simp [mapCalls, steps, iha, ihr, ih]
  | loop body rest ihb ih => simp [mapCalls, steps, ihb, ih]

theorem steps_prepend (cs : List Call) (b : Block) :
    (b.prepend cs).steps = cs.map Call.step ++ b.steps := by
  induction cs with
  | nil => rfl
  | cons c cs ih => simpa [prepend, steps, Stmt.operands, Stmt.defines, Call.step] using ih

end Block

namespace Block

/-! ## Replacing calls -/

/-- The second block is the first, where each call has been replaced by a related one. -/
inductive Replaces (R : Call → Call → Prop) : Block → Block → Prop
  | nil : Replaces R nil nil
  | call {c c' : Call} {rest rest' : Block} :
      R c c' → Replaces R rest rest' → Replaces R (cons (.call c) rest) (cons (.call c') rest')
  | other {s : Stmt} {rest rest' : Block} :
      (∀ c, s ≠ .call c) → Replaces R rest rest' → Replaces R (cons s rest) (cons s rest')
  | branch {condition : ExprId} {accept accept' reject reject' rest rest' : Block} :
      Replaces R accept accept' → Replaces R reject reject' → Replaces R rest rest' →
      Replaces R (branch condition accept reject rest) (branch condition accept' reject' rest')
  | loop {body body' rest rest' : Block} :
      Replaces R body body' → Replaces R rest rest' → Replaces R (loop body rest) (loop body' rest')

variable {R R' : Call → Call → Prop} {b b' : Block}

theorem Replaces.imp_of_mem (h : Replaces R b b') (hR : ∀ c ∈ b.calls, ∀ c', R c c' → R' c c') :
    Replaces R' b b' := by
  induction h with
  | nil => exact .nil
  | call hc _ ih =>
    exact .call (hR _ List.mem_cons_self _ hc) (ih fun c h => hR c (List.mem_cons_of_mem _ h))
  | @other s _ _ hs _ ih =>
    cases s with
    | call c => exact absurd rfl (hs c)
    | _ => exact .other hs (ih hR)
  | branch _ _ _ iha ihr ih =>
    simp only [calls, List.mem_append] at hR
    exact .branch (iha fun c h => hR c (.inl (.inl h))) (ihr fun c h => hR c (.inl (.inr h)))
      (ih fun c h => hR c (.inr h))
  | loop _ _ ihb ih =>
    simp only [calls, List.mem_append] at hR
    exact .loop (ihb fun c h => hR c (.inl h)) (ih fun c h => hR c (.inr h))

theorem Replaces.imp (h : Replaces R b b') (hR : ∀ c c', R c c' → R' c c') :
    Replaces R' b b' :=
  h.imp_of_mem fun c _ => hR c

theorem replaces_self (b : Block) : Replaces Eq b b := by
  induction b with
  | nil => exact .nil
  | cons head rest ih =>
    cases head with
    | call c => exact .call rfl ih
    | _ => exact .other (by simp) ih
  | branch condition accept reject rest iha ihr ih => exact .branch iha ihr ih
  | loop body rest ihb ih => exact .loop ihb ih

/-- Editing the calls that have been put in edits what each call has been replaced by. -/
theorem Replaces.mapCalls (h : Replaces R b b') (edit : Call → Call) :
    Replaces (fun c c' => ∃ via, R c via ∧ c' = edit via) b (b'.mapCalls edit) := by
  induction h with
  | nil => exact .nil
  | call hc _ ih => exact .call ⟨_, hc, rfl⟩ ih
  | @other s _ _ hs _ ih =>
    cases s with
    | call c => exact absurd rfl (hs c)
    | _ => exact .other hs ih
  | branch _ _ _ iha ihr ih => exact .branch iha ihr ih
  | loop _ _ ihb ih => exact .loop ihb ih

theorem Replaces.calls (h : Replaces R b b') : List.Forall₂ R b.calls b'.calls := by
  induction h with
  | nil => exact .nil
  | call hc _ ih => exact .cons hc ih
  | @other s _ _ hs _ ih =>
    cases s with
    | call c => exact absurd rfl (hs c)
    | _ => exact ih
  | branch _ _ _ iha ihr ih => exact List.rel_append (List.rel_append iha ihr) ih
  | loop _ _ ihb ih => exact List.rel_append ihb ih

theorem Replaces.steps {S : Step → Step → Prop} (h : Replaces R b b') (hsame : ∀ s, S s s)
    (hR : ∀ c c', R c c' → S c.step c'.step) : List.Forall₂ S b.steps b'.steps := by
  induction h with
  | nil => exact .nil
  | call hc _ ih => exact .cons (hR _ _ hc) ih
  | other _ _ ih => exact .cons (hsame _) ih
  | branch _ _ _ iha ihr ih =>
    exact .cons (hsame _) (List.rel_append (List.rel_append iha ihr) ih)
  | loop _ _ ihb ih => exact List.rel_append ihb ih

end Block

/-! ## Order -/

/-- Each step fulfils `P`, together with what is in `done` or has been made before it. -/
def Along (P : List ExprId → Step → Prop) : List ExprId → List Step → Prop
  | _, [] => True
  | done, s :: steps => P done s ∧ Along P (done ++ s.makes) steps

/-- A use leads, by `leads`, only to what is in `done` or has been made by a step before. -/
def InOrder (leads : ExprId → ExprId → Prop) : List ExprId → List Step → Prop :=
  Along fun done s => ∀ op ∈ s.uses, ∀ r, leads op r → r ∈ done

section Along

variable {P P' : List ExprId → Step → Prop} {done : List ExprId} {steps others : List Step}

theorem along_append : Along P done (steps ++ others) ↔
    Along P done steps ∧ Along P (done ++ made steps) others := by
  induction steps generalizing done with
  | nil => simp [Along]
  | cons s steps ih => simp [Along, ih, and_assoc]

theorem Along.imp (h : Along P done steps) (hP : ∀ done s, P done s → P' done s) :
    Along P' done steps := by
  induction steps generalizing done with
  | nil => trivial
  | cons s steps ih => exact ⟨hP _ _ h.1, ih h.2⟩

/-- **Each step fulfils `P`, wherever the steps are cut before it.** -/
theorem along_iff : Along P done steps ↔
    ∀ before s after, steps = before ++ s :: after → P (done ++ made before) s := by
  constructor
  · rintro h before s after rfl
    exact (along_append.mp h).2.1
  · intro h
    induction steps generalizing done with
    | nil => trivial
    | cons s steps ih =>
      refine ⟨by simpa using h [] s steps rfl, ih fun before t after heq => ?_⟩
      simpa using h (s :: before) t after (by rw [heq, List.cons_append])

end Along

section InOrder

variable {leads leads' : ExprId → ExprId → Prop} {done done' : List ExprId}
  {steps others : List Step}

theorem inOrder_append : InOrder leads done (steps ++ others) ↔
    InOrder leads done steps ∧ InOrder leads (done ++ made steps) others :=
  along_append

/-- What is in order stays so where the uses of each step lead to less, or to what was there. -/
theorem InOrder.imp {R : Step → Step → Prop} (h : InOrder leads done steps)
    (hsteps : List.Forall₂ R steps others)
    (hmakes : ∀ s t, R s t → t.makes = s.makes) (hdone : ∀ r ∈ done, r ∈ done')
    (huses : ∀ s t, R s t → ∀ op ∈ t.uses, ∀ r, leads' op r →
      r ∈ done' ∨ ∃ old ∈ s.uses, leads old r) :
    InOrder leads' done' others := by
  induction hsteps generalizing done done' with
  | nil => trivial
  | cons hst _ ih =>
    obtain ⟨hs, h⟩ := h
    refine ⟨fun op hop r hr => ?_, ih h (fun r hr => ?_) fun s t hR op hop r hr => ?_⟩
    · rcases huses _ _ hst op hop r hr with hr | ⟨old, hold, hr⟩
      · exact hr
      · exact hdone r (hs old hold r hr)
    · rw [hmakes _ _ hst]
      exact (List.mem_append.mp hr).elim (fun hr => List.mem_append_left _ (hdone r hr))
        (List.mem_append_right _)
    · exact (huses s t hR op hop r hr).imp_left (List.mem_append_left _)

/-- **Steps are in order if a use in any of them leads only to what the steps before it made.** -/
theorem inOrder_iff : InOrder leads done steps ↔
    ∀ before s after, steps = before ++ s :: after →
      ∀ op ∈ s.uses, ∀ r, leads op r → r ∈ done ++ made before :=
  along_iff

end InOrder

namespace Function

/-- The statements of the body as steps. -/
def steps (f : Function) : List Step :=
  match f.body with
  | some body => body.steps
  | none => []

theorem made_steps (f : Function) : made f.steps = f.calls.filterMap Call.result := by
  unfold steps calls
  cases f.body with
  | none => rfl
  | some body => exact body.made_steps

/-- What the expression `id` is built on, and the expression itself. -/
def Reaches (f : Function) : ExprId → ExprId → Prop :=
  Relation.ReflTransGen f.Uses

/-- An expression leads to the results of calls that it is built on. -/
def LeadsTo (f : Function) (id r : ExprId) : Prop :=
  f.Reaches id r ∧ ∃ callee, f.expr? r = some (.result callee)

end Function

end ResourceBinding
