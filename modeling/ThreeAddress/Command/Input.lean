import ThreeAddress.Json.Reader
import ThreeAddress.Source.Encoding

/-!
The input of the command: a program, and settings for assembly that travel with
it. Arrays and objects may be nested up to a fixed depth.
-/

namespace ThreeAddress.Command

structure Input where
  program : Program
  outputs : List String
  registers : Option Nat

namespace Input

def depthLimit : Nat := 127

/-- Reads an input. Without outputs there are none, and a register count may be
left out or written `null`. -/
def ofJson? : Nat → Json → Option Input
  | depth + 1, json =>
      match json.record? ["program", "outputs", "registers"] 1 with
      | some [some program, outputs, registers] => do
          return {
            program := ← Program.ofJsonWithin? depth program
            outputs := ← (outputs.mapM (Json.strings? depth)).map (·.getD [])
            registers := ← (Json.present? registers).mapM (Json.nat? UInt64.size) }
      | _ => none
  | 0, _ => none

def parse? (text : String) : Option Input :=
  (Json.parse? text).bind (ofJson? depthLimit)

end Input

end ThreeAddress.Command
