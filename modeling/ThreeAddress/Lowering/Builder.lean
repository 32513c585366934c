import Std.Data.ExtTreeSet
import ThreeAddress.Error

/-!
The state of lowering and the steps that write code. Lowering writes one growing
piece of code and hands out labels and temporaries by counting. A failure stops
the step that met it and keeps what was written until then, so a builder can be
used again afterwards.
-/

namespace ThreeAddress

/-- Where control goes once something is done: on to the next instruction, or
to a label. -/
inductive Continuation where
  | fall
  | label (target : Label)
  deriving DecidableEq, Repr

structure Targets where
  onTrue : Continuation
  onFalse : Continuation
  deriving DecidableEq, Repr

namespace Targets

def falseTo (target : Label) : Targets := ⟨.fall, .label target⟩

def trueTo (target : Label) : Targets := ⟨.label target, .fall⟩

def swap (targets : Targets) : Targets := ⟨targets.onFalse, targets.onTrue⟩

end Targets

/-- The labels of one `switch`: where it ends, and the labels of the cases whose
bodies are not placed yet, first case first. -/
structure SwitchLabels where
  exit : Label
  pending : List Label
  deriving DecidableEq, Repr

namespace SwitchLabels

def new (exit : Label) : SwitchLabels := ⟨exit, []⟩

def push (labels : SwitchLabels) (label : Label) : SwitchLabels :=
  { labels with pending := labels.pending ++ [label] }

/-- Takes the label that has waited longest. -/
def next? (labels : SwitchLabels) : Option (Label × SwitchLabels) :=
  match labels.pending with
  | [] => none
  | label :: rest => some (label, { labels with pending := rest })

def isResolved (labels : SwitchLabels) : Bool :=
  labels.pending.isEmpty

end SwitchLabels

/-- The code written so far, how many labels and temporaries are handed out, the
numbers of all labels some instruction jumps to, and the open switches, the
innermost first. -/
structure Builder where
  code : Array Instr
  labels : Nat
  temps : Nat
  referenced : Std.ExtTreeSet Nat
  switches : List SwitchLabels

namespace Builder

def empty : Builder := ⟨#[], 0, 0, ∅, []⟩

def emit (builder : Builder) (instr : Instr) : Builder :=
  { builder with
    code := builder.code.push instr
    referenced :=
      match instr.target? with
      | some target => builder.referenced.insert target.number
      | none => builder.referenced }

/-- Places a label that only earlier instructions can jump to. It is left out
when none of them does. -/
def mark (builder : Builder) (label : Label) : Builder :=
  if label.number ∈ builder.referenced then builder.emit (.label label) else builder

end Builder

/-- Lowering steps. Both outcomes carry the builder as it then is. -/
abbrev Build := EStateM Error Builder

namespace Build

def freshLabel : Build Label :=
  modifyGet fun builder => (⟨builder.labels⟩, { builder with labels := builder.labels + 1 })

def freshTemp : Build Temp :=
  modifyGet fun builder => (⟨builder.temps⟩, { builder with temps := builder.temps + 1 })

def emit (instr : Instr) : Build Unit :=
  modify (·.emit instr)

def mark (label : Label) : Build Unit :=
  modify (·.mark label)

/-- Places a label that later instructions jump back to. -/
def markHead (label : Label) : Build Unit :=
  emit (.label label)

def jump : Continuation → Build Unit
  | .fall => pure ()
  | .label target => emit (.jump target)

/-- Runs a step that needs a label to jump to. If control was to fall through,
the label is a fresh one, placed behind the step when the step succeeds. -/
def withExit {α : Type} (continuation : Continuation) (step : Label → Build α) : Build α :=
  match continuation with
  | .label exit => step exit
  | .fall => do
      let exit ← freshLabel
      let result ← step exit
      mark exit
      return result

/-- Where a `breakSwitch` goes. -/
def breakTarget : Build Label := do
  match (← get).switches with
  | labels :: _ => return labels.exit
  | [] => throw .strayBreak

/-- Takes the next case label of the innermost switch. -/
def nextCaseLabel : Build Label := do
  match (← get).switches with
  | labels :: outer =>
      match labels.next? with
      | some (label, labels) =>
          modify fun builder => { builder with switches := labels :: outer }
          return label
      | none => throw .unplacedCases
  | [] => throw .unplacedCases

/-- Runs a step inside a `switch` with the given labels. The switch is closed
again however the step ends, and a step that succeeds must have taken every
case label. -/
def inSwitch (labels : SwitchLabels) (step : Build Unit) : Build Unit := fun builder =>
  match step { builder with switches := labels :: builder.switches } with
  | .error e after => .error e { after with switches := after.switches.tail }
  | .ok _ after =>
      if after.switches.head?.any SwitchLabels.isResolved then
        .ok () { after with switches := after.switches.tail }
      else
        .error .unplacedCases { after with switches := after.switches.tail }

end Build

end ThreeAddress
