import Std.Data.ExtTreeSet
import ThreeAddress.Error

/-!
Straight-line programs for a machine with four arithmetic operations. A line
computes one variable from two operands and records which names it reads and
writes; the analyses go by these sets alone. A program is a list of lines
together with the names whose values are wanted after the last line.
-/

namespace ThreeAddress

/-- Finite sets of names. They are listed in the order of the names' code
points. -/
abbrev NameSet := Std.ExtTreeSet String

def NameSet.ofList (names : List String) : NameSet :=
  Std.ExtTreeSet.ofList names

namespace Machine

inductive Op where
  | add
  | min
  | mul
  | div
  deriving DecidableEq, Repr

/-- The machine's name for subtraction is `MIN`. -/
def Op.ofArith : ArithOp → Op
  | .add => .add
  | .sub => .min
  | .mul => .mul
  | .div => .div

def Op.text : Op → String
  | .add => "ADD"
  | .min => "MIN"
  | .mul => "MUL"
  | .div => "DIV"

inductive Operand where
  | imm (value : Int64)
  | var (name : String)
  deriving DecidableEq, Repr

namespace Operand

def ofValue : Value → Operand
  | .imm value => .imm value
  | .var v => .var v.text

def var? : Operand → Option String
  | .imm _ => none
  | .var name => some name

def text : Operand → String
  | .imm value => "#" ++ value.toInt.repr
  | .var name => name

/-- A variable without a name stands for an operand that was left out. -/
def isMissing (operand : Operand) : Bool :=
  operand == .var ""

end Operand

/-- The line `dst = left op right`. Its `refs` are the names it reads and its
`defs` the names it writes. -/
structure Line where
  op : Op
  dst : String
  left : Operand
  right : Operand
  refs : NameSet
  defs : NameSet
  deriving DecidableEq

namespace Line

/-- A line with the names that its operands and its destination give it. -/
def new (op : Op) (dst : String) (left right : Operand) : Line :=
  { op, dst, left, right
    refs := .ofList ([left, right].filterMap Operand.var?)
    defs := .ofList [dst] }

/-- The line `dst = source`, as an addition to zero. -/
def copy (dst : String) (source : Operand) : Line :=
  new .add dst (.imm 0) source

/-- The line `dst = - source`, as a subtraction from zero. -/
def negate (dst : String) (source : Operand) : Line :=
  new .min dst (.imm 0) source

def text (line : Line) : String :=
  line.dst ++ " = " ++ line.left.text ++ " " ++ line.op.text ++ " " ++ line.right.text

/-- The first operand that was left out. -/
def missing? (line : Line) : Option OperandRole :=
  if line.dst.isEmpty then some .destination
  else if line.left.isMissing then some .left
  else if line.right.isMissing then some .right
  else none

/-- The line of an instruction that is not a jump and not a label. -/
def ofInstr? : Instr → Option Line
  | .assign dst source => some (copy dst.text (.ofValue source))
  | .binary dst left op right =>
      some (new (.ofArith op) dst.text (.ofValue left) (.ofValue right))
  | .branch .. | .jump _ | .label _ => none

end Line

structure Program where
  lines : List Line
  outputs : NameSet
  deriving DecidableEq

namespace Program

/-- A program none of whose lines lacks an operand. The first such line is
reported. -/
def ofLines (lines : List Line) (outputs : NameSet) : Except Error Program :=
  match lines.zipIdx.findSome? fun (line, step) =>
      line.missing?.map (Error.missingOperand step) with
  | some error => .error error
  | none => .ok { lines, outputs }

/-- The machine program of straight-line code. A jump or a label is reported
before any missing operand is. -/
def ofCode (code : Code) (outputs : NameSet) : Except Error Program :=
  match code.zipIdx.find? (·.1.isControlFlow) with
  | some (instr, index) => .error (.notStraightLine index instr)
  | none => ofLines (code.filterMap Line.ofInstr?) outputs

end Program

end Machine

end ThreeAddress
