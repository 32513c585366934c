import ThreeAddress.Code.Basic
import ThreeAddress.Source.Semantics

/-!
What three-address code does. A run goes from instruction to instruction; a jump
goes to the first mark of its label, and a run is finished when it is behind the
last instruction.
-/

namespace ThreeAddress

/-- The values of named variables and temporaries. -/
abbrev Store := Var → Int

def Store.set (store : Store) (var : Var) (value : Int) : Store :=
  fun other => if other = var then value else store other

def Value.eval (store : Store) : Value → Int
  | .imm value => value.toInt
  | .var v => store v

namespace Code

/-- The next instruction to run, and the store it runs in. -/
structure Config where
  position : Nat
  store : Store

/-- Where a label is marked. -/
def position? (code : Code) (label : Label) : Option Nat :=
  code.findIdx? (· = .label label)

/-- One step of a run. There is none behind the last instruction, from an
operation without a result, and to a label that is not marked. -/
def step? (arithmetic : Arithmetic) (code : Code) (config : Config) : Option Config :=
  let ⟨position, store⟩ := config
  match code[position]? with
  | none => none
  | some (.assign dst source) => some ⟨position + 1, store.set dst (source.eval store)⟩
  | some (.binary dst left op right) => do
      let result ← arithmetic op (left.eval store) (right.eval store)
      return ⟨position + 1, store.set dst result⟩
  | some (.branch left op right target sense) =>
      if op.holds (left.eval store) (right.eval store) = sense then
        (code.position? target).map (⟨·, store⟩)
      else
        some ⟨position + 1, store⟩
  | some (.jump target) => (code.position? target).map (⟨·, store⟩)
  | some (.label _) => some ⟨position + 1, store⟩

/-- Any number of steps. -/
inductive Reaches (arithmetic : Arithmetic) (code : Code) : Config → Config → Prop
  | refl (config : Config) : Reaches arithmetic code config config
  | step {first next last : Config} (once : code.step? arithmetic first = some next)
      (others : Reaches arithmetic code next last) : Reaches arithmetic code first last

/-- The code runs from its first instruction to its end. -/
def Runs (arithmetic : Arithmetic) (code : Code) (before after : Store) : Prop :=
  Reaches arithmetic code ⟨0, before⟩ ⟨code.length, after⟩

end Code

end ThreeAddress
