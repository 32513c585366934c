import ThreeAddress.Proofs.CodeRuns
import ThreeAddress.Proofs.SourceRuns

/-!
Expressions and code, operation by operation. An evaluation lists the arithmetic
operations that an expression performs, in their order, and how it ends. It is made
on cells that may hold anything, and where these stand for an environment its value
is the one of the expression there. `Yields` says that a run of code performs the
same operations and ends in the same way.
-/

namespace ThreeAddress

/-- An arithmetic operation on two numbers. -/
structure Operation where
  op : ArithOp
  left : Int
  right : Int

def Operation.result? (arithmetic : Arithmetic) (operation : Operation) : Option Int :=
  arithmetic operation.op operation.left operation.right

/-- How an evaluation ends: with a value, at an operation that has no result, or at an
expression that means nothing where it stands. -/
inductive Ending (α : Type) where
  | value (result : α)
  | undefined (operation : Operation)
  | meaningless

def Ending.value? {α : Type} : Ending α → Option α
  | .value result => some result
  | .undefined _ | .meaningless => none

/-- The operations that were performed, in their order, and how this ended. -/
structure Evaluation (α : Type) where
  performed : List Operation
  ending : Ending α

namespace Evaluation

variable {α β : Type}

def done (result : α) : Evaluation α := ⟨[], .value result⟩

def meaningless : Evaluation α := ⟨[], .meaningless⟩

/-- Goes on with the value, if there is one. -/
def andThen (first : Evaluation α) (next : α → Evaluation β) : Evaluation β :=
  match first.ending with
  | .value result => ⟨first.performed ++ (next result).performed, (next result).ending⟩
  | .undefined operation => ⟨first.performed, .undefined operation⟩
  | .meaningless => ⟨first.performed, .meaningless⟩

instance : Monad Evaluation where
  pure := done
  bind := andThen

def perform (arithmetic : Arithmetic) (operation : Operation) : Evaluation Int :=
  match operation.result? arithmetic with
  | some result => ⟨[operation], .value result⟩
  | none => ⟨[], .undefined operation⟩

theorem value?_bind (first : Evaluation α) (next : α → Evaluation β) :
    (first >>= next).ending.value? =
      first.ending.value?.bind fun result => (next result).ending.value? := by
  show (first.andThen next).ending.value? = _
  unfold andThen
  cases first.ending <;> rfl

theorem value?_perform (arithmetic : Arithmetic) (operation : Operation) :
    (perform arithmetic operation).ending.value? = operation.result? arithmetic := by
  unfold perform
  cases operation.result? arithmetic <;> rfl

end Evaluation

namespace Expr

variable (arithmetic : Arithmetic) (symbols : Symbols) (cells : String → Int)

/-- Evaluates a numeric expression on cells, its parts from left to right. A Boolean
variable counts as what its cell holds. -/
def traceValue : Expr → Evaluation Int
  | .int value => .done value.toInt
  | .bool value => .done (if value then 1 else 0)
  | .ident name =>
      match symbols.lookup name with
      | some .number | some .boolean | some .enumVar => .done (cells name)
      | some .enumVariant => ((symbols.ordinal? name).map Int64.toInt).elim .meaningless .done
      | some .enumType | none => .meaningless
  | .neg operand => do
      let value ← operand.traceValue
      .perform arithmetic ⟨.sub, 0, value⟩
  | .arith op left right => do
      let x ← left.traceValue
      let y ← right.traceValue
      .perform arithmetic ⟨op, x, y⟩
  | .compare .. | .and .. | .or .. | .not _ => .meaningless

/-- Evaluates a condition on cells. A Boolean variable is true if its cell is one, and
the right operand of a connective is evaluated only if the left one does not decide. -/
def traceCondition : Expr → Evaluation Bool
  | .bool value => .done value
  | .ident name =>
      match symbols.lookup name with
      | some .boolean => .done (cells name == 1)
      | _ => .meaningless
  | .compare op left right => do
      let x ← left.traceValue arithmetic symbols cells
      let y ← right.traceValue arithmetic symbols cells
      return op.holds x y
  | .and left right => do
      if ← left.traceCondition then right.traceCondition else return false
  | .or left right => do
      if ← left.traceCondition then return true else right.traceCondition
  | .not operand => do
      return !(← operand.traceCondition)
  | .int _ | .neg _ | .arith .. => .meaningless

variable {arithmetic symbols cells} {env : Environment}

/-- On cells that stand for an environment this is the value of the expression. -/
theorem value?_traceValue (hmatch : env.Matches symbols cells) (expr : Expr) :
    (expr.traceValue arithmetic symbols cells).ending.value? =
      expr.evalValue arithmetic symbols env := by
  induction expr with
  | int | bool | compare | and | or | not => rfl
  | ident name =>
    cases hlookup : symbols.lookup name with
    | none =>
      simp only [traceValue, evalValue, hlookup]
      rfl
    | some kind =>
      cases kind with
      | number | enumVar =>
        have hcell : cells name = env.numbers name :=
          hmatch name _ (by simp [Environment.cell?, hlookup])
        simp only [traceValue, evalValue, hlookup, hcell]
        rfl
      | boolean =>
        have hcell : cells name = if env.booleans name then 1 else 0 :=
          hmatch name _ (by simp [Environment.cell?, hlookup])
        simp only [traceValue, evalValue, hlookup, hcell]
        rfl
      | enumVariant =>
        simp only [traceValue, evalValue, hlookup]
        cases symbols.ordinal? name <;> rfl
      | enumType =>
        simp only [traceValue, evalValue, hlookup]
        rfl
  | neg operand ih =>
    simp only [traceValue, Evaluation.value?_bind, Evaluation.value?_perform, ih]
    rfl
  | arith op left right ihl ihr =>
    simp only [traceValue, Evaluation.value?_bind, Evaluation.value?_perform, ihl, ihr]
    rfl

theorem value?_traceCondition (hmatch : env.Matches symbols cells) (expr : Expr) :
    (expr.traceCondition arithmetic symbols cells).ending.value? =
      expr.evalCondition arithmetic symbols env := by
  induction expr with
  | int | bool | neg | arith => rfl
  | ident name =>
    cases hlookup : symbols.lookup name with
    | none =>
      simp only [traceCondition, evalCondition, hlookup]
      rfl
    | some kind =>
      cases kind with
      | boolean =>
        have hcell : cells name = if env.booleans name then 1 else 0 :=
          hmatch name _ (by simp [Environment.cell?, hlookup])
        simp only [traceCondition, evalCondition, hlookup, hcell]
        cases env.booleans name <;> rfl
      | number | enumVar | enumVariant | enumType =>
        simp only [traceCondition, evalCondition, hlookup]
        rfl
  | compare op left right =>
    simp only [traceCondition, Evaluation.value?_bind, value?_traceValue hmatch]
    rfl
  | and left right ihl ihr =>
    simp only [traceCondition, evalCondition, Evaluation.value?_bind, ihl]
    congr 1
    funext truth
    cases truth
    · rfl
    · exact ihr
  | or left right ihl ihr =>
    simp only [traceCondition, evalCondition, Evaluation.value?_bind, ihl]
    congr 1
    funext truth
    cases truth
    · exact ihr
    · rfl
  | not operand ih =>
    simp only [traceCondition, Evaluation.value?_bind, ih]
    rfl

end Expr

namespace Code

variable {arithmetic : Arithmetic} {code : Code}

/-- The operation that the instruction here performs, with its operands evaluated. -/
def operation? (code : Code) (config : Config) : Option Operation :=
  match code[config.position]? with
  | some (.binary _ left op right) =>
      some ⟨op, left.eval config.store, right.eval config.store⟩
  | _ => none

/-- Any number of steps, with the operations that they perform. -/
inductive Performs (arithmetic : Arithmetic) (code : Code) :
    Config → List Operation → Config → Prop
  | refl (config : Config) : Performs arithmetic code config [] config
  | step {first next last : Config} {operations : List Operation}
      (once : code.step? arithmetic first = some next)
      (others : Performs arithmetic code next operations last) :
      Performs arithmetic code first ((code.operation? first).toList ++ operations) last

/-- The run cannot go on from here because this operation has no result. -/
def FailsAt (arithmetic : Arithmetic) (code : Code) (config : Config) (operation : Operation) :
    Prop :=
  code.operation? config = some operation ∧ operation.result? arithmetic = none

/-- The instruction here is about to jump to the label. -/
def JumpsAt (code : Code) (config : Config) (label : Label) : Prop :=
  match code[config.position]? with
  | some (.jump target) => target = label
  | some (.branch left op right target sense) =>
      target = label ∧ op.holds (left.eval config.store) (right.eval config.store) = sense
  | _ => False

/-- The run from here performs the operations of an evaluation. It then stands where
the value says, or at the operation that has no result. -/
def Yields {α : Type} (arithmetic : Arithmetic) (code : Code) (start : Config)
    (evaluation : Evaluation α) (holds : α → Config → Prop) : Prop :=
  ∃ last, Performs arithmetic code start evaluation.performed last ∧
    match evaluation.ending with
    | .value result => holds result last
    | .undefined operation => FailsAt arithmetic code last operation
    | .meaningless => False

theorem operation?_eq_some {config : Config} {operation : Operation}
    (h : code.operation? config = some operation) :
    ∃ dst left right, code[config.position]? = some (.binary dst left operation.op right) ∧
      operation.left = left.eval config.store ∧ operation.right = right.eval config.store := by
  unfold operation? at h
  split at h
  next dst left op right hinstr =>
    cases h
    exact ⟨dst, left, right, hinstr, rfl, rfl⟩
  next => cases h

namespace FailsAt

variable {config : Config} {operation : Operation}

theorem position_lt (h : FailsAt arithmetic code config operation) :
    config.position < code.length := by
  obtain ⟨_, _, _, hinstr, _⟩ := operation?_eq_some h.1
  exact (List.getElem?_eq_some_iff.mp hinstr).1

theorem step? (h : FailsAt arithmetic code config operation) :
    code.step? arithmetic config = none := by
  obtain ⟨hoperation, hresult⟩ := h
  obtain ⟨dst, left, right, hinstr, hleft, hright⟩ := operation?_eq_some hoperation
  have hstep : code.step? arithmetic config =
      (arithmetic operation.op (left.eval config.store) (right.eval config.store)).map
        fun result => ⟨config.position + 1, config.store.set dst result⟩ := step?_binary hinstr
  unfold Operation.result? at hresult
  rw [← hleft, ← hright, hresult] at hstep
  exact hstep

end FailsAt

namespace JumpsAt

variable {position place : Nat} {store : Store} {config : Config} {label : Label}

theorem of_jump (h : code[position]? = some (.jump label)) :
    code.JumpsAt ⟨position, store⟩ label := by
  simp [JumpsAt, h]

theorem of_branch {left right : Value} {op : RelOp} {sense : Bool}
    (h : code[position]? = some (.branch left op right label sense))
    (htaken : op.holds (left.eval store) (right.eval store) = sense) :
    code.JumpsAt ⟨position, store⟩ label := by
  simp [JumpsAt, h, htaken]

/-- An instruction that is about to jump is one that can. -/
theorem exists_instr (h : code.JumpsAt config label) :
    ∃ instr, code[config.position]? = some instr ∧ instr.target? = some label := by
  unfold JumpsAt at h
  split at h
  next target hinstr =>
    cases h
    exact ⟨_, hinstr, rfl⟩
  next left op right target sense hinstr =>
    obtain ⟨rfl, _⟩ := h
    exact ⟨_, hinstr, rfl⟩
  next => exact h.elim

theorem operation? (h : code.JumpsAt config label) : code.operation? config = none := by
  obtain ⟨instr, hinstr, htarget⟩ := h.exists_instr
  cases instr with
  | binary => cases htarget
  | assign | branch | jump | label => simp [Code.operation?, hinstr]

/-- The jump goes to where its label is marked. -/
theorem step? (h : code.JumpsAt config label) :
    code.step? arithmetic config = (code.position? label).map (⟨·, config.store⟩) := by
  unfold JumpsAt at h
  split at h
  next target hinstr =>
    cases h
    simp [Code.step?, hinstr]
  next left op right target sense hinstr =>
    obtain ⟨rfl, htaken⟩ := h
    simp [Code.step?, hinstr, htaken]
  next => exact h.elim

end JumpsAt

namespace Performs

variable {first middle last : Config} {operations more : List Operation}

theorem reaches (h : Performs arithmetic code first operations last) :
    Reaches arithmetic code first last := by
  induction h with
  | refl config => exact .refl config
  | step once _ ih => exact .step once ih

theorem trans (hfirst : Performs arithmetic code first operations middle)
    (hsecond : Performs arithmetic code middle more last) :
    Performs arithmetic code first (operations ++ more) last := by
  induction hfirst with
  | refl => exact hsecond
  | step once _ ih =>
    rw [List.append_assoc]
    exact .step once (ih hsecond)

theorem single (once : code.step? arithmetic first = some last) :
    Performs arithmetic code first (code.operation? first).toList last := by
  simpa using Performs.step once (.refl last)

/-- A step that is no operation. -/
theorem silent (once : code.step? arithmetic first = some last)
    (hnone : code.operation? first = none) : Performs arithmetic code first [] last := by
  simpa [hnone] using single once

/-- Marking a label does nothing. -/
theorem label {position : Nat} {store : Store} {place : Label}
    (h : code[position]? = some (.label place)) :
    Performs arithmetic code ⟨position, store⟩ [] ⟨position + 1, store⟩ :=
  silent (step?_label h) (by simp [operation?, h])

/-- Nor does a branch that is not taken. -/
theorem branch_passed {position : Nat} {store : Store} {left right : Value} {op : RelOp}
    {target : Label} {sense : Bool}
    (h : code[position]? = some (.branch left op right target sense))
    (hpassed : op.holds (left.eval store) (right.eval store) ≠ sense) :
    Performs arithmetic code ⟨position, store⟩ [] ⟨position + 1, store⟩ :=
  silent (step?_branch_passed h hpassed) (by simp [operation?, h])

theorem jump {config : Config} {label : Label} {place : Nat} (h : code.JumpsAt config label)
    (hplace : code.position? label = some place) :
    Performs arithmetic code config [] ⟨place, config.store⟩ :=
  silent (by rw [h.step?, hplace]; rfl) h.operation?

end Performs

namespace Yields

variable {α β : Type} {start : Config} {evaluation : Evaluation α} {holds : α → Config → Prop}

theorem done {result : α} (h : holds result start) :
    Yields arithmetic code start (.done result) holds :=
  ⟨start, .refl start, h⟩

/-- Evaluations are carried out one after the other as they are bound. -/
theorem bind {next : α → Evaluation β} {goal : β → Config → Prop}
    (h : Yields arithmetic code start evaluation holds)
    (hnext : ∀ result config, holds result config →
      Yields arithmetic code config (next result) goal) :
    Yields arithmetic code start (evaluation >>= next) goal := by
  obtain ⟨last, hperforms, hlast⟩ := h
  show Yields arithmetic code start (evaluation.andThen next) goal
  unfold Evaluation.andThen
  cases hending : evaluation.ending with
  | value result =>
    rw [hending] at hlast
    obtain ⟨final, hfinal, hgoal⟩ := hnext result last hlast
    exact ⟨final, hperforms.trans hfinal, hgoal⟩
  | undefined operation =>
    rw [hending] at hlast
    exact ⟨last, hperforms, hlast⟩
  | meaningless =>
    rw [hending] at hlast
    exact hlast.elim

/-- Where a value leads, the run may go on without an operation. -/
theorem further {goal : α → Config → Prop} (h : Yields arithmetic code start evaluation holds)
    (hgoal : ∀ result config, holds result config →
      ∃ last, Performs arithmetic code config [] last ∧ goal result last) :
    Yields arithmetic code start evaluation goal := by
  obtain ⟨last, hperforms, hlast⟩ := h
  unfold Yields
  cases hending : evaluation.ending with
  | value result =>
    rw [hending] at hlast
    obtain ⟨final, hfinal, hgoal⟩ := hgoal result last hlast
    exact ⟨final, by simpa using hperforms.trans hfinal, hgoal⟩
  | undefined operation =>
    rw [hending] at hlast
    exact ⟨last, hperforms, hlast⟩
  | meaningless =>
    rw [hending] at hlast
    exact hlast.elim

theorem mono {goal : α → Config → Prop} (h : Yields arithmetic code start evaluation holds)
    (hgoal : ∀ result config, holds result config → goal result config) :
    Yields arithmetic code start evaluation goal :=
  h.further fun result config hholds => ⟨config, .refl config, hgoal result config hholds⟩

/-- An operation is performed by the instruction for it. -/
theorem binary {position : Nat} {store : Store} {dst : Var} {left right : Value} {op : ArithOp}
    {holds : Int → Config → Prop} (h : code[position]? = some (.binary dst left op right))
    (hholds : ∀ result, holds result ⟨position + 1, store.set dst result⟩) :
    Yields arithmetic code ⟨position, store⟩
      (.perform arithmetic ⟨op, left.eval store, right.eval store⟩) holds := by
  have hoperation : code.operation? ⟨position, store⟩ =
      some ⟨op, left.eval store, right.eval store⟩ := by
    simp [operation?, h]
  unfold Evaluation.perform
  cases hresult : Operation.result? arithmetic ⟨op, left.eval store, right.eval store⟩ with
  | none => exact ⟨_, .refl _, hoperation, hresult⟩
  | some result =>
    have hstep : code.step? arithmetic ⟨position, store⟩ =
        some ⟨position + 1, store.set dst result⟩ := by
      rw [step?_binary h]
      unfold Operation.result? at hresult
      rw [hresult]
      rfl
    refine ⟨_, ?_, hholds result⟩
    simpa [hoperation] using Performs.single hstep

/-- What is evaluated operation by operation is computed. -/
theorem computes (h : Yields arithmetic code start evaluation holds) :
    Computes arithmetic code start evaluation.ending.value? holds := by
  obtain ⟨last, hperforms, hlast⟩ := h
  cases hending : evaluation.ending with
  | value result =>
    rw [hending] at hlast
    exact ⟨last, hperforms.reaches, hlast⟩
  | undefined operation =>
    rw [hending] at hlast
    exact ⟨last, hperforms.reaches, hlast.step?, Nat.ne_of_lt hlast.position_lt⟩
  | meaningless =>
    rw [hending] at hlast
    exact hlast.elim

end Yields

end Code

end ThreeAddress
