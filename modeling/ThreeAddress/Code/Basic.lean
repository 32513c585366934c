import ThreeAddress.Source.Basic

/-!
Three-address code: a flat list of instructions over named variables and
temporaries, with labels as jump targets. Every instruction has one line of
text, and a whole piece of code is its lines, each ended by a newline.
-/

namespace ThreeAddress

structure Label where
  number : Nat
  deriving DecidableEq, Repr

structure Temp where
  number : Nat
  deriving DecidableEq, Repr

inductive Var where
  | named (name : String)
  | temp (t : Temp)
  deriving DecidableEq, Repr

inductive Value where
  | imm (value : Int64)
  | var (v : Var)
  deriving DecidableEq, Repr

/-- One instruction. A `branch` jumps when its comparison has the truth value
`sense`; a `label` does nothing but mark its place. -/
inductive Instr where
  | assign (dst : Var) (src : Value)
  | binary (dst : Var) (left : Value) (op : ArithOp) (right : Value)
  | branch (left : Value) (op : RelOp) (right : Value) (target : Label) (sense : Bool)
  | jump (target : Label)
  | label (place : Label)
  deriving DecidableEq, Repr

abbrev Code := List Instr

def ArithOp.text : ArithOp → String
  | .add => "+"
  | .sub => "-"
  | .mul => "*"
  | .div => "/"

def RelOp.text : RelOp → String
  | .eq => "=="
  | .ne => "!="
  | .lt => "<"
  | .gt => ">"
  | .le => "<="
  | .ge => ">="

def Label.text (label : Label) : String :=
  "_L" ++ label.number.repr

def Temp.text (temp : Temp) : String :=
  "_t" ++ temp.number.repr

/-- The name under which a variable is written. A temporary is written like a
variable of that name, so a program may use the same name for one of its own. -/
def Var.text : Var → String
  | .named name => name
  | .temp t => t.text

def Value.text : Value → String
  | .imm value => value.toInt.repr
  | .var v => v.text

namespace Instr

def text : Instr → String
  | .assign dst src => dst.text ++ " = " ++ src.text
  | .binary dst left op right =>
      dst.text ++ " = " ++ left.text ++ " " ++ op.text ++ " " ++ right.text
  | .branch left op right target sense =>
      (if sense then "if " else "ifFalse ") ++ left.text ++ " " ++ op.text ++ " " ++ right.text ++
        " goto " ++ target.text
  | .jump target => "goto " ++ target.text
  | .label place => place.text

/-- The label an instruction may jump to. -/
def target? : Instr → Option Label
  | .branch _ _ _ target _ | .jump target => some target
  | .assign .. | .binary .. | .label _ => none

def isControlFlow : Instr → Bool
  | .branch .. | .jump _ | .label _ => true
  | .assign .. | .binary .. => false

end Instr

namespace Code

/-- Code without jumps and labels runs every instruction once, in order. -/
def isStraightLine (code : Code) : Bool :=
  !code.any Instr.isControlFlow

def lines (code : Code) : List String :=
  code.map Instr.text

def text (code : Code) : String :=
  String.join (code.lines.map (· ++ "\n"))

end Code

end ThreeAddress
