import ThreeAddress.Command.Arguments
import ThreeAddress.Command.Input
import ThreeAddress.Compile

/-!
What the command does. The plan of a run says what it writes, in order, and
whether it fails in the end; carrying it out needs only a few actions of the
system that the command runs on.
-/

namespace ThreeAddress.Command

/-- A text to write, to a file or to the standard output. -/
structure Emission where
  path : Option String
  text : String
  deriving DecidableEq, Repr

/-- What is written before the run ends, and the error it ends with, if any. -/
structure Plan where
  emissions : List Emission
  failure : Option Error
  deriving DecidableEq, Repr

/-- The command line adds outputs to those of the input, and its register count
comes first. -/
def Settings.options (settings : Settings) (input : Input) : Options where
  registers := (settings.registers.or input.registers).getD Options.default.registers
  outputs := .ofList (input.outputs ++ settings.outputs)

def Settings.plan (settings : Settings) (input : Input) : Plan :=
  match input.program.toCode (.ofProgram input.program) with
  | .error e => ⟨[], some e⟩
  | .ok code =>
      let written : List Emission :=
        if settings.wantsCode then [⟨settings.irOut, code.text⟩] else []
      if settings.wantsAssembly then
        match code.assemble (settings.options input) with
        | .ok assembly => ⟨written ++ [⟨settings.asmOut, assembly.text⟩], none⟩
        | .error e => ⟨written, some e⟩
      else ⟨written, none⟩

inductive Outcome where
  | done
  | badUsage
  | unreadable (path : String)
  | undecodable (path : String)
  | unwritable (path : String)
  | failed (error : Error)
  deriving DecidableEq, Repr

namespace Outcome

def exitCode : Outcome → UInt32
  | .done => 0
  | .badUsage => 2
  | _ => 1

/-- An error of the compiler is shown with its cause, which says the same. -/
def message : Outcome → String
  | .done => ""
  | .badUsage =>
      "usage: FILE [--ir] [--asm] [--both] [--registers N] [--output NAME]... " ++
        "[--ir-out PATH] [--asm-out PATH]"
  | .unreadable path => "reading '" ++ path ++ "'"
  | .undecodable path => "decoding program in '" ++ path ++ "'"
  | .unwritable path => "writing '" ++ path ++ "'"
  | .failed error => error.report ++ ": " ++ error.message

end Outcome

/-- The system a run acts on. `read` has no answer for a file that does not
exist or is not text, and `write` says whether it could. -/
structure System (m : Type → Type) where
  read : String → m (Option String)
  write : String → String → m Bool
  print : String → m Unit

variable {m : Type → Type} [Monad m]

/-- Writes one text after the other and stops where that is not possible. The
failure of the plan comes after everything it writes. -/
def Plan.carryOut (system : System m) (failure : Option Error) : List Emission → m Outcome
  | [] => return failure.elim .done .failed
  | ⟨none, text⟩ :: rest => do
      system.print text
      carryOut system failure rest
  | ⟨some path, text⟩ :: rest => do
      if ← system.write path text then
        carryOut system failure rest
      else
        return .unwritable path

def run (system : System m) (words : List String) : m Outcome := do
  let some arguments := Arguments.parse? words | return .badUsage
  let some text ← system.read arguments.input | return .unreadable arguments.input
  let some input := Input.parse? text | return .undecodable arguments.input
  let plan := arguments.settings.plan input
  Plan.carryOut system plan.failure plan.emissions

end ThreeAddress.Command
