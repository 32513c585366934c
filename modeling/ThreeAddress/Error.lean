import ThreeAddress.Code.Basic

/-!
Why a program cannot be compiled. Each cause carries what its message names,
and the wording of all messages is in `Error.message`.
-/

namespace ThreeAddress

/-- What needed a branch when both of its targets were the next instruction. -/
inductive BranchSource where
  | comparison
  | identifier
  deriving DecidableEq, Repr

/-- Where a name of the wrong kind was used. -/
inductive SymbolUse where
  | condition
  | value
  | assignmentTarget
  deriving DecidableEq, Repr

inductive OperandRole where
  | destination
  | left
  | right
  deriving DecidableEq, Repr

inductive Error where
  | noBranchTarget (source : BranchSource)
  | undeclared (name : String)
  | misused (name : String) (kind : SymbolKind) (use : SymbolUse)
  | numberAsCondition
  | conditionAsNumber
  | strayBreak
  | danglingElse
  | emptySwitch
  | unplacedCases
  | noRegisters
  | missingOperand (step : Nat) (role : OperandRole)
  | notStraightLine (index : Nat) (instr : Instr)
  deriving DecidableEq, Repr

def SymbolKind.text : SymbolKind → String
  | .number => "Number"
  | .boolean => "Boolean"
  | .enumType => "EnumType"
  | .enumVariant => "EnumVariant"
  | .enumVar => "EnumVar"

def BranchSource.text : BranchSource → String
  | .comparison => "comparison"
  | .identifier => "identifier"

def SymbolUse.text : SymbolUse → String
  | .condition => "condition"
  | .value => "value"
  | .assignmentTarget => "assignment target"

def OperandRole.text : OperandRole → String
  | .destination => "destination"
  | .left => "left"
  | .right => "right"

namespace Error

def message : Error → String
  | .noBranchTarget source =>
      "boolean " ++ source.text ++ " reached with both branch targets falling through"
  | .undeclared name => "unknown symbol '" ++ name ++ "'"
  | .misused name kind use =>
      "'" ++ name ++ "' (" ++ kind.text ++ ") cannot be used as " ++ use.text
  | .numberAsCondition => "numeric expression used as a condition"
  | .conditionAsNumber => "boolean expression used as a value"
  | .strayBreak => "break outside of a switch"
  | .danglingElse => "if statement has an else branch but no then branch"
  | .emptySwitch => "switch without cases"
  | .unplacedCases => "switch case labels left unplaced"
  | .noRegisters => "register file must have at least one register"
  | .missingOperand step role => "step " ++ step.repr ++ ": missing " ++ role.text ++ " operand"
  | .notStraightLine index instr =>
      "instruction " ++ index.repr ++ " ('" ++ instr.text ++ "') is not straight-line code"

/-- The message as a compilation reports it. -/
def report (error : Error) : String :=
  "Internal error: " ++ error.message

end Error

end ThreeAddress
