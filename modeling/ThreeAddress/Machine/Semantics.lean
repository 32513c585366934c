import ThreeAddress.Machine.Instr

/-!
What lines and instructions do. Lines work on memory alone. Instructions work on
registers, and only loads and stores touch memory.
-/

namespace ThreeAddress.Machine

/-- A meaning for the machine's operations, which may have no result for some
operands. -/
abbrev Arithmetic := Op → Int → Int → Option Int

/-- Partial computations that stop together and whose results are related can be
followed by others of that kind. -/
theorem rel_bind {α β γ δ : Type} {related : α → β → Prop} {result : γ → δ → Prop}
    {first : Option α} {second : Option β} {next : α → Option γ} {further : β → Option δ}
    (h : Option.Rel related first second)
    (hnext : ∀ one other, related one other → Option.Rel result (next one) (further other)) :
    Option.Rel result (first.bind next) (second.bind further) := by
  cases h with
  | none => exact .none
  | some hrelated => exact hnext _ _ hrelated

abbrev Memory := String → Int

def Memory.set (memory : Memory) (name : String) (value : Int) : Memory :=
  fun other => if other = name then value else memory other

def Operand.eval (memory : Memory) : Operand → Int
  | .imm value => value.toInt
  | .var name => memory name

/-- The memory after a line, if its operation has a result. -/
def Line.run (arithmetic : Arithmetic) (memory : Memory) (line : Line) : Option Memory := do
  let result ← arithmetic line.op (line.left.eval memory) (line.right.eval memory)
  return memory.set line.dst result

def runLines (arithmetic : Arithmetic) (memory : Memory) (lines : List Line) : Option Memory :=
  lines.foldlM (Line.run arithmetic) memory

structure State where
  registers : Register → Int
  memory : Memory

namespace State

def setRegister (state : State) (register : Register) (value : Int) : State :=
  { state with
    registers := fun other => if other = register then value else state.registers other }

end State

def Source.eval (registers : Register → Int) : Source → Int
  | .reg register => registers register
  | .imm value => value.toInt

def Instr.run (arithmetic : Arithmetic) (state : State) : Instr → Option State
  | .load register name => some (state.setRegister register (state.memory name))
  | .store name register =>
      some { state with memory := state.memory.set name (state.registers register) }
  | .op operation dst left right => do
      let result ← arithmetic operation (left.eval state.registers) (right.eval state.registers)
      return state.setRegister dst result

def runInstrs (arithmetic : Arithmetic) (state : State) (instrs : List Instr) : Option State :=
  instrs.foldlM (Instr.run arithmetic) state

end ThreeAddress.Machine
