import ThreeAddress.Machine.Liveness
import ThreeAddress.Machine.RegisterFile

/-!
Assembly of a straight-line program: the instructions of every line, in a
listing that shows the analyses beside them, and the stores that end the
program.
-/

namespace ThreeAddress.Machine

/-- The instructions of the line at an index, and what is live and used next
around it. -/
structure Step where
  index : Nat
  line : Line
  instrs : List Instr
  live : LiveSpan
  next : NextSpan

structure Assembly where
  steps : List Step
  epilogue : List Instr

/-- The instructions of one line. Its operands are loaded by what is needed
before the line, and its destination is placed by what is needed after it. Adding
zero to a register that is also the destination takes no instruction. -/
def Line.assemble (line : Line) (live : LiveSpan) (next : NextSpan) (file : RegisterFile) :
    Except Error (List Instr × RegisterFile) := do
  let (left, loadLeft, file) ← file.allocateOperand line.left live.before next.before true
  let (right, loadRight, file) ← file.allocateOperand line.right live.before next.before true
  let (dst, spill, file) ← file.allocate line.dst live.after next.after false
  let compute :=
    if line.op = .add ∧ left = .imm 0 ∧ right = .reg dst then []
    else [.op line.op dst left right]
  return (loadLeft ++ loadRight ++ spill ++ compute, file.markDirty line.dst)

/-- Assembles lines one after the other, the first having the given index. -/
def assembleFrom (index : Nat) (file : RegisterFile) :
    List (Line × LiveSpan × NextSpan) → Except Error (List Step × RegisterFile)
  | [] => .ok ([], file)
  | (line, live, next) :: rest => do
      let (instrs, file) ← line.assemble live next file
      let (steps, file) ← assembleFrom (index + 1) file rest
      return (⟨index, line, instrs, live, next⟩ :: steps, file)

namespace Program

/-- The lines of a program with the analyses around them. -/
def annotated (program : Program) : List (Line × LiveSpan × NextSpan) :=
  program.lines.zip ((liveness program.outputs program.lines).zip (nextUses program.lines))

def assemble (program : Program) (registers : Nat) : Except Error Assembly := do
  let file ← RegisterFile.new registers
  let (steps, file) ← assembleFrom 0 file program.annotated
  return ⟨steps, file.flush program.outputs⟩

end Program

/-- The names of a set between brackets, in their order. -/
def nameList (names : NameSet) : String :=
  "[" ++ ", ".intercalate names.toList ++ "]"

def Step.listing (step : Step) : List String :=
  ("// Step " ++ step.index.repr) :: step.instrs.map Instr.text ++
    ["// Life_IN  : " ++ nameList step.live.before,
     "// Life_OUT : " ++ nameList step.live.after,
     "// Next_IN  : " ++ step.next.before.text,
     "// Next_OUT : " ++ step.next.after.text,
     ""]

namespace Assembly

/-- All instructions in the order in which they run. -/
def instrs (assembly : Assembly) : List Instr :=
  assembly.steps.flatMap Step.instrs ++ assembly.epilogue

def loadCount (assembly : Assembly) : Nat :=
  assembly.instrs.countP Instr.isLoad

def storeCount (assembly : Assembly) : Nat :=
  assembly.instrs.countP Instr.isStore

def listing (assembly : Assembly) : List String :=
  assembly.steps.flatMap Step.listing ++ assembly.epilogue.map Instr.text

/-- The listing as text. It ends with a newline even when it is empty. -/
def text (assembly : Assembly) : String :=
  "\n".intercalate assembly.listing ++ "\n"

end Assembly

end ThreeAddress.Machine
