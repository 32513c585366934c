import ThreeAddress.Lowering.Stmt
import ThreeAddress.Machine.Assembly

/-!
Compilation as a whole: a program becomes three-address code, and code without
jumps also becomes assembly.
-/

namespace ThreeAddress

/-- How assembly is made: the number of registers, and the names whose values
are wanted in memory at the end. -/
structure Options where
  registers : Nat
  outputs : NameSet
  deriving DecidableEq

def Options.default : Options := ⟨256, ∅⟩

/-- The assembly of straight-line code. -/
def Code.assemble (code : Code) (options : Options) : Except Error Machine.Assembly := do
  let program ← Machine.Program.ofCode code options.outputs
  program.assemble options.registers

/-- The code of a program and, where it has no jumps, its assembly. -/
structure Compiled where
  code : Code
  assembly : Option Machine.Assembly

def Program.compile (program : Program) (symbols : Symbols) (options : Options) :
    Except Error Compiled := do
  let code ← program.toCode symbols
  if code.isStraightLine then
    return ⟨code, some (← code.assemble options)⟩
  else
    return ⟨code, none⟩

end ThreeAddress
