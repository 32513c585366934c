import ThreeAddress.Source.Symbols

/-!
What programs do. Expressions are evaluated to integers or truth values, and
statements are related to the environments before and after them. A program that
runs forever, or that meets an operation without a result, is related to no
environment after it.
-/

namespace ThreeAddress

/-- A meaning for the arithmetic operators. It may have no result for some
operands, as division by zero has none. -/
abbrev Arithmetic := ArithOp → Int → Int → Option Int

def RelOp.holds : RelOp → Int → Int → Bool
  | .eq, x, y => x == y
  | .ne, x, y => x != y
  | .lt, x, y => x < y
  | .gt, x, y => x > y
  | .le, x, y => x ≤ y
  | .ge, x, y => x ≥ y

/-- The values of all variables. The kind of a name decides which of its two
values a program uses. -/
structure Environment where
  numbers : String → Int
  booleans : String → Bool

namespace Environment

def setNumber (env : Environment) (name : String) (value : Int) : Environment :=
  { env with numbers := fun other => if other = name then value else env.numbers other }

def setBoolean (env : Environment) (name : String) (value : Bool) : Environment :=
  { env with booleans := fun other => if other = name then value else env.booleans other }

end Environment

namespace Expr

/-- The value of a numeric expression. A Boolean variable counts as one or zero,
and an enumeration variant as its ordinal. -/
def evalValue (arithmetic : Arithmetic) (symbols : Symbols) (env : Environment) :
    Expr → Option Int
  | .int value => some value.toInt
  | .bool value => some (if value then 1 else 0)
  | .ident name =>
      match symbols.lookup name with
      | some .number | some .enumVar => some (env.numbers name)
      | some .boolean => some (if env.booleans name then 1 else 0)
      | some .enumVariant => (symbols.ordinal? name).map Int64.toInt
      | some .enumType | none => none
  | .neg operand => do
      arithmetic .sub 0 (← operand.evalValue arithmetic symbols env)
  | .arith op left right => do
      let x ← left.evalValue arithmetic symbols env
      let y ← right.evalValue arithmetic symbols env
      arithmetic op x y
  | .compare .. | .and .. | .or .. | .not _ => none

/-- The truth value of a condition. The right operand of a connective is
evaluated only if the left one does not decide. -/
def evalCondition (arithmetic : Arithmetic) (symbols : Symbols) (env : Environment) :
    Expr → Option Bool
  | .bool value => some value
  | .ident name =>
      match symbols.lookup name with
      | some .boolean => some (env.booleans name)
      | _ => none
  | .compare op left right => do
      let x ← left.evalValue arithmetic symbols env
      let y ← right.evalValue arithmetic symbols env
      return op.holds x y
  | .and left right => do
      if ← left.evalCondition arithmetic symbols env then
        right.evalCondition arithmetic symbols env
      else
        return false
  | .or left right => do
      if ← left.evalCondition arithmetic symbols env then
        return true
      else
        right.evalCondition arithmetic symbols env
  | .not operand => do
      return !(← operand.evalCondition arithmetic symbols env)
  | .int _ | .neg _ | .arith .. => none

end Expr

/-- The cases a `switch` runs through: from the first one whose value is the
selector's on. The values behind that one are not evaluated. -/
def enteredCases (arithmetic : Arithmetic) (symbols : Symbols) (env : Environment)
    (selector : Int) : List Case → Option (List Case)
  | [] => some []
  | branch :: rest => do
      let value ← branch.value.evalValue arithmetic symbols env
      if selector = value then
        return branch :: rest
      else
        enteredCases arithmetic symbols env selector rest

/-- How a statement ends: normally, or at a break that has not yet left its
`switch`. -/
inductive Exit where
  | normal
  | broken
  deriving DecidableEq, Repr

/-- A run of a statement from one environment to another. A break skips what is
behind it, up to the end of the innermost `switch`; a `forLoop` is its first
statement followed by a `whileLoop` that ends every round with the update. -/
inductive Stmt.Runs (arithmetic : Arithmetic) (symbols : Symbols) :
    Stmt → Environment → Environment → Exit → Prop
  | declare (name : String) (type : DeclType) (env : Environment) :
      Runs arithmetic symbols (.declare name type) env env .normal
  | declareEnum (name : String) (variants : List String) (env : Environment) :
      Runs arithmetic symbols (.declareEnum name variants) env env .normal
  | blockNil (env : Environment) :
      Runs arithmetic symbols (.block []) env env .normal
  | blockCons {stmt : Stmt} {rest : List Stmt} {before between after : Environment} {exit : Exit}
      (first : Runs arithmetic symbols stmt before between .normal)
      (others : Runs arithmetic symbols (.block rest) between after exit) :
      Runs arithmetic symbols (.block (stmt :: rest)) before after exit
  | blockBroken {stmt : Stmt} {rest : List Stmt} {before after : Environment}
      (first : Runs arithmetic symbols stmt before after .broken) :
      Runs arithmetic symbols (.block (stmt :: rest)) before after .broken
  | assignNumber {target : String} {value : Expr} {env : Environment} {result : Int}
      (kind : symbols.lookup target = some .number ∨ symbols.lookup target = some .enumVar)
      (eval : value.evalValue arithmetic symbols env = some result) :
      Runs arithmetic symbols (.assign target value) env (env.setNumber target result) .normal
  | assignBoolean {target : String} {value : Expr} {env : Environment} {result : Bool}
      (kind : symbols.lookup target = some .boolean)
      (eval : value.evalCondition arithmetic symbols env = some result) :
      Runs arithmetic symbols (.assign target value) env (env.setBoolean target result) .normal
  | ite {condition : Expr} {thenBranch elseBranch : Option Stmt} {branch : Stmt}
      {before after : Environment} {exit : Exit} {truth : Bool}
      (eval : condition.evalCondition arithmetic symbols before = some truth)
      (chosen : (if truth then thenBranch else elseBranch) = some branch)
      (run : Runs arithmetic symbols branch before after exit) :
      Runs arithmetic symbols (.ite condition thenBranch elseBranch) before after exit
  | iteSkip {condition : Expr} {thenBranch elseBranch : Option Stmt} {env : Environment}
      {truth : Bool}
      (eval : condition.evalCondition arithmetic symbols env = some truth)
      (chosen : (if truth then thenBranch else elseBranch) = none) :
      Runs arithmetic symbols (.ite condition thenBranch elseBranch) env env .normal
  | whileDone {condition : Expr} {body : Stmt} {env : Environment}
      (eval : condition.evalCondition arithmetic symbols env = some false) :
      Runs arithmetic symbols (.whileLoop condition body) env env .normal
  | whileNext {condition : Expr} {body : Stmt} {before between after : Environment} {exit : Exit}
      (eval : condition.evalCondition arithmetic symbols before = some true)
      (once : Runs arithmetic symbols body before between .normal)
      (again : Runs arithmetic symbols (.whileLoop condition body) between after exit) :
      Runs arithmetic symbols (.whileLoop condition body) before after exit
  | whileBroken {condition : Expr} {body : Stmt} {before after : Environment}
      (eval : condition.evalCondition arithmetic symbols before = some true)
      (once : Runs arithmetic symbols body before after .broken) :
      Runs arithmetic symbols (.whileLoop condition body) before after .broken
  | forLoop {init : Stmt} {condition : Expr} {update body : Stmt} {before after : Environment}
      {exit : Exit}
      (run : Runs arithmetic symbols
        (.block [init, .whileLoop condition (.block [body, update])]) before after exit) :
      Runs arithmetic symbols (.forLoop init condition update body) before after exit
  | switch {selector : Expr} {cases entered : List Case} {before after : Environment} {value : Int}
      {exit : Exit}
      (eval : selector.evalValue arithmetic symbols before = some value)
      (enter : enteredCases arithmetic symbols before value cases = some entered)
      (run : Runs arithmetic symbols (.block (entered.flatMap Case.body)) before after exit) :
      Runs arithmetic symbols (.switch selector cases) before after .normal
  | breakSwitch (env : Environment) :
      Runs arithmetic symbols .breakSwitch env env .broken

/-- A program finishes when its last statement is done. -/
def Program.Runs (arithmetic : Arithmetic) (symbols : Symbols) (program : Program)
    (before after : Environment) : Prop :=
  Stmt.Runs arithmetic symbols (.block program.body) before after .normal

end ThreeAddress
