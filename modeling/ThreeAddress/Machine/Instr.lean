import ThreeAddress.Machine.Line

/-!
The machine's instructions: loads, stores, and operations on registers. Memory
has one cell for each name.
-/

namespace ThreeAddress.Machine

structure Register where
  index : Nat
  deriving DecidableEq, Repr

inductive Source where
  | reg (register : Register)
  | imm (value : Int64)
  deriving DecidableEq, Repr

inductive Instr where
  | load (register : Register) (name : String)
  | store (name : String) (register : Register)
  | op (op : Op) (dst : Register) (left right : Source)
  deriving DecidableEq, Repr

def Register.text (register : Register) : String :=
  "R" ++ register.index.repr

def Source.text : Source → String
  | .reg register => register.text
  | .imm value => "#" ++ value.toInt.repr

namespace Instr

def text : Instr → String
  | .load register name => "LD " ++ register.text ++ ", " ++ name
  | .store name register => "ST " ++ name ++ ", " ++ register.text
  | .op operation dst left right =>
      operation.text ++ " " ++ dst.text ++ ", " ++ left.text ++ ", " ++ right.text

def isLoad : Instr → Bool
  | .load .. => true
  | _ => false

def isStore : Instr → Bool
  | .store .. => true
  | _ => false

end Instr

end ThreeAddress.Machine
