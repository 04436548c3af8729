import ResourceBinding.Proofs.Listing.Shown

/-!
# What a written block consists of

A block is written as definitions and statements. The statements are those of the block, whatever
has been shown before (`Function.statements_writeBlock`). The definitions are the ones that a use of
all operands of the block would be written with (`Function.exists_shows_writeBlock`). So what an
operand is built on has its line (`Function.Shows.exists_definedBy`), and there are no other lines
(`Function.Shows.defines`).
-/

namespace ResourceBinding

namespace WrittenBlock

/-- The definitions in a block, at every depth, from top to bottom. -/
def definitions : WrittenBlock → List WrittenDefinition
  | nil => []
  | define first rest => first :: rest.definitions
  | cons _ rest => rest.definitions
  | branch _ accept reject rest => accept.definitions ++ reject.definitions ++ rest.definitions
  | loop body rest => body.definitions ++ rest.definitions

/-- The block without its definitions. -/
def statements : WrittenBlock → WrittenBlock
  | nil => nil
  | define _ rest => rest.statements
  | cons head rest => cons head rest.statements
  | branch condition accept reject rest =>
    branch condition accept.statements reject.statements rest.statements
  | loop body rest => loop body.statements rest.statements

/-- The calls in a block, at every depth, from top to bottom: the name that is given to the result,
and the function. -/
def calls : WrittenBlock → List (Option String × String)
  | nil => []
  | define _ rest => rest.calls
  | cons (.call result callee _) rest => (result, callee) :: rest.calls
  | cons _ rest => rest.calls
  | branch _ accept reject rest => accept.calls ++ reject.calls ++ rest.calls
  | loop body rest => body.calls ++ rest.calls

variable (ws : List WrittenDefinition) (w : WrittenBlock)

theorem definitions_defining : (defining ws w).definitions = ws ++ w.definitions := by
  induction ws with
  | nil => rfl
  | cons d ws ih => exact congrArg (d :: ·) ih

theorem statements_defining : (defining ws w).statements = w.statements := by
  induction ws with
  | nil => rfl
  | cons d ws ih => exact ih

end WrittenBlock

namespace Function

/-! ## Statements -/

/-- A block without definitions. -/
def writeStatements (f : Function) (m : Module) : Block → WrittenBlock
  | .nil => .nil
  | .cons head rest => .cons (f.writeStmt m head) (f.writeStatements m rest)
  | .branch condition accept reject rest =>
    .branch (f.operandToken condition) (f.writeStatements m accept) (f.writeStatements m reject)
      (f.writeStatements m rest)
  | .loop body rest => .loop (f.writeStatements m body) (f.writeStatements m rest)

/-- A call as it is written, but for its arguments. -/
def writtenCall (f : Function) (m : Module) (c : Call) : Option String × String :=
  (c.result.map f.shownName, m.nameOf c.callee)

variable {f : Function} {m : Module} {id : ExprId} {ids before shown shown' : List ExprId}
  {ws ws' : List WrittenDefinition}

/-- **The statements of a block are written alike, whatever has been shown.** -/
theorem statements_writeBlock (f : Function) (m : Module) (b : Block) (shown : List ExprId) :
    (f.writeBlock m b shown).1.statements = f.writeStatements m b := by
  induction b generalizing shown with
  | nil => rfl
  | cons head rest ih =>
    simp only [writeBlock, WrittenBlock.statements_defining, WrittenBlock.statements, ih,
      writeStatements]
  | branch condition accept reject rest iha ihr ih =>
    simp only [writeBlock, WrittenBlock.statements_defining, WrittenBlock.statements, iha, ihr, ih,
      writeStatements]
  | loop body rest ihb ih =>
    simp only [writeBlock, WrittenBlock.statements, ihb, ih, writeStatements]

theorem calls_writeStatements (f : Function) (m : Module) (b : Block) :
    (f.writeStatements m b).calls = b.calls.map (f.writtenCall m) := by
  induction b with
  | nil => rfl
  | cons head rest ih =>
    cases head with
    | call c => exact congrArg (f.writtenCall m c :: ·) ih
    | _ => exact ih
  | branch condition accept reject rest iha ihr ih =>
    simp only [writeStatements, WrittenBlock.calls, Block.calls, List.map_append, iha, ihr, ih]
  | loop body rest ihb ih =>
    simp only [writeStatements, WrittenBlock.calls, Block.calls, List.map_append, ihb, ih]

/-! ## Definitions -/

/-- The expression needs a definition. -/
def IsOperation (f : Function) (id : ExprId) : Prop :=
  ((f.expr? id).bind Expr.operation?).isSome

theorem isOperation_of_expr? {e : Expr} {operation : String} (he : f.expr? id = some e)
    (hop : e.operation? = some operation) : f.IsOperation id := by
  rw [IsOperation, he, Option.bind_some, hop]
  rfl

theorem IsOperation.exists_expr? (h : f.IsOperation id) :
    ∃ e operation, f.expr? id = some e ∧ e.operation? = some operation := by
  obtain ⟨operation, h⟩ := Option.isSome_iff_exists.mp h
  obtain ⟨e, he, hop⟩ := Option.bind_eq_some_iff.mp h
  exact ⟨e, operation, he, hop⟩

/-- What uses something is an operation. -/
theorem Uses.isOperation {op : ExprId} (h : f.Uses id op) : f.IsOperation id := by
  obtain ⟨e, he, hop⟩ := h
  rw [IsOperation, he]
  cases e with
  | literal l | parameter p | result callee => cases hop
  | _ => rfl

/-- The line defines the expression. -/
structure DefinedBy (f : Function) (id : ExprId) (w : WrittenDefinition) : Prop where
  name : f.shownName id = w.name
  expr : ∃ e, f.expr? id = some e ∧ e.operation? = some w.operation ∧
    e.operands.map f.operandToken = w.operands

/-- Each line that is written defines something. -/
theorem Shows.defines (h : f.Shows ids shown ws shown') : ∀ w ∈ ws, ∃ id, f.DefinedBy id w := by
  induction h with
  | nil => exact fun _ hw => absurd hw List.not_mem_nil
  | skip _ _ ih => exact ih
  | @define id e _ _ _ _ _ _ _ _ he hop _ _ ihbefore ih =>
    exact List.forall_mem_append.mpr
      ⟨ihbefore, List.forall_mem_cons.mpr ⟨⟨id, rfl, e, he, hop, rfl⟩, ih⟩⟩

/-- Each operation that has been shown has its line, and what it uses has been shown as well. -/
def Covers (f : Function) (ws : List WrittenDefinition) (shown : List ExprId) : Prop :=
  ∀ id ∈ shown, f.IsOperation id →
    (∃ w ∈ ws, f.DefinedBy id w) ∧ ∀ op, f.Uses id op → f.IsOperation op → op ∈ shown

/-- What has been shown stays covered when more is defined. -/
theorem Covers.shows (hcovers : f.Covers ws' shown) (h : f.Shows ids shown ws shown') :
    f.Covers (ws' ++ ws) shown' := by
  induction h generalizing ws' with
  | nil => rwa [List.append_nil]
  | skip _ _ ih => exact ih hcovers
  | @define id e operation _ _ shown₁ _ before after hid he hop hbefore _ ihbefore ih =>
    have hline : f.DefinedBy id ⟨f.shownName id, operation, e.operands.map f.operandToken⟩ :=
      ⟨rfl, e, he, hop, rfl⟩
    have hfirst := ihbefore hcovers
    rw [List.append_cons, ← List.append_assoc, ← List.append_assoc]
    refine ih fun v hv hoperation => ?_
    rcases List.mem_cons.mp hv with rfl | hv
    · refine ⟨⟨_, List.mem_append_right _ List.mem_cons_self, hline⟩, fun op huses hoperation => ?_⟩
      obtain ⟨e', operation', he', hop'⟩ := hoperation.exists_expr?
      obtain ⟨e₁, he₁, hmem⟩ := huses
      cases he.symm.trans he₁
      exact List.mem_cons_of_mem _ (hbefore.mem hmem he' hop')
    · obtain ⟨⟨w, hw, hdefined⟩, huses⟩ := hfirst v hv hoperation
      exact ⟨⟨w, List.mem_append_left _ hw, hdefined⟩, fun op huse hoperation =>
        List.mem_cons_of_mem _ (huses op huse hoperation)⟩

/-- **What something used is built on has its line.** -/
theorem Shows.exists_definedBy (h : f.Shows ids [] ws shown) (hid : id ∈ ids) {v : ExprId}
    (hreaches : f.Reaches id v) (hv : f.IsOperation v) : ∃ w ∈ ws, f.DefinedBy v w := by
  have hnone : f.Covers [] [] := fun _ hmem => absurd hmem List.not_mem_nil
  have hcovers : f.Covers ws shown := hnone.shows h
  have hshown : v ∈ shown := by
    induction hreaches with
    | refl =>
      obtain ⟨e, operation, he, hop⟩ := hv.exists_expr?
      exact h.mem hid he hop
    | tail _ huses ih =>
      have hoperation := huses.isOperation
      exact (hcovers _ (ih hoperation) hoperation).2 _ huses hv
  exact (hcovers v hshown hv).1

/-! ## The definitions of a block -/

/-- The same operations have been shown. -/
def SameOperations (f : Function) (shown shown' : List ExprId) : Prop :=
  ∀ id, f.IsOperation id → (id ∈ shown ↔ id ∈ shown')

theorem SameOperations.cons (h : f.SameOperations shown shown') (id : ExprId) :
    f.SameOperations (id :: shown) (id :: shown') := fun v hv => by
  rw [List.mem_cons, List.mem_cons, h v hv]

/-- What is written depends on the operations that have been shown alone. -/
theorem Shows.exists_of_sameOperations (h : f.Shows ids shown ws shown')
    (hsame : f.SameOperations shown before) :
    ∃ after, f.Shows ids before ws after ∧ f.SameOperations shown' after := by
  induction h generalizing before with
  | nil => exact ⟨before, .nil, hsame⟩
  | @skip id ids _ _ _ hskip _ ih =>
    obtain ⟨after, hshows, hafter⟩ := ih hsame
    refine ⟨after, .skip ?_ hshows, hafter⟩
    cases hop : (f.expr? id).bind Expr.operation? with
    | none => exact .inr rfl
    | some operation =>
      have hoperation : f.IsOperation id := by
        rw [IsOperation, hop]
        rfl
      exact .inl ((hsame id hoperation).mp (hskip.resolve_right (by simp [hop])))
  | define hid he hop _ _ ihbefore ih =>
    obtain ⟨after₁, hfirst, hsame₁⟩ := ihbefore hsame
    obtain ⟨after₂, hrest, hsame₂⟩ := ih (hsame₁.cons _)
    have hid' := fun hmem => hid ((hsame _ (isOperation_of_expr? he hop)).mpr hmem)
    exact ⟨after₂, .define hid' he hop hfirst hrest, hsame₂⟩

/-- **The definitions in a block are what a use of all its operands would be written with.** -/
theorem exists_shows_writeBlock (hf : f.Acyclic) {b : Block}
    (hcalls : ∀ c ∈ b.calls, ∀ r, c.result = some r → ¬ f.IsOperation r)
    (hsame : f.SameOperations shown before) :
    ∃ after, f.Shows b.operands before (f.writeBlock m b shown).1.definitions after ∧
      f.SameOperations (f.writeBlock m b shown).2 after := by
  induction b generalizing shown before with
  | nil => exact ⟨before, .nil, hsame⟩
  | cons head rest ih =>
    obtain ⟨after₁, hfirst, hsame₁⟩ :=
      (shows_writeDefinitions hf head.operands shown).exists_of_sameOperations hsame
    have hdefines : f.SameOperations (head.defines ++ (f.writeDefinitions head.operands shown).2)
        after₁ := by
      intro v hv
      rw [List.mem_append, ← hsame₁ v hv, or_iff_right]
      intro hmem
      cases head with
      | call c => exact hcalls c List.mem_cons_self v (Option.mem_toList.mp hmem) hv
      | _ => cases hmem
    obtain ⟨after₂, hrest, hsame₂⟩ := ih (fun c hc =>
      hcalls c (by cases head <;> simp [Block.calls, hc])) hdefines
    refine ⟨after₂, ?_, hsame₂⟩
    simp only [writeBlock, WrittenBlock.definitions_defining, WrittenBlock.definitions]
    exact hfirst.append hrest
  | branch condition accept reject rest iha ihr ih =>
    obtain ⟨after₁, hfirst, hsame₁⟩ :=
      (shows_writeDefinitions hf [condition] shown).exists_of_sameOperations hsame
    obtain ⟨after₂, haccept, hsame₂⟩ := iha (fun c hc => hcalls c (by simp [Block.calls, hc])) hsame₁
    obtain ⟨after₃, hreject, hsame₃⟩ := ihr (fun c hc => hcalls c (by simp [Block.calls, hc])) hsame₂
    obtain ⟨after₄, hrest, hsame₄⟩ := ih (fun c hc => hcalls c (by simp [Block.calls, hc])) hsame₃
    refine ⟨after₄, ?_, hsame₄⟩
    simp only [writeBlock, WrittenBlock.definitions_defining, WrittenBlock.definitions]
    exact hfirst.append ((haccept.append hreject).append hrest)
  | loop body rest ihb ih =>
    obtain ⟨after₁, hbody, hsame₁⟩ := ihb (fun c hc => hcalls c (by simp [Block.calls, hc])) hsame
    obtain ⟨after₂, hrest, hsame₂⟩ := ih (fun c hc => hcalls c (by simp [Block.calls, hc])) hsame₁
    exact ⟨after₂, hbody.append hrest, hsame₂⟩

end Function

end ResourceBinding
