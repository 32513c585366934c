import ThreeAddress.Lowering.Builder
import ThreeAddress.Source.Symbols

/-!
Lowering of expressions. A value becomes an operand, with one temporary for each
arithmetic operation in it. A condition becomes jumps: it has a target for each
outcome, at least one of them usually a label, and its parts are tried from left
to right only as far as the outcome needs.
-/

namespace ThreeAddress

open Build

namespace Expr

/-- Writes what computes a value and returns the operand that holds it. -/
def lowerValue (symbols : Symbols) : Expr → Build Value
  | .int value => return .imm value
  | .bool value => return .imm (if value then 1 else 0)
  | .ident name => do
      match ← ofExcept (symbols.resolve name) with
      | .number | .boolean | .enumVar => return .var (.named name)
      | .enumVariant => return .imm (← ofExcept (symbols.resolveOrdinal name))
      | .enumType => throw (.misused name .enumType .value)
  | .neg operand => do
      let value ← operand.lowerValue symbols
      let temp ← freshTemp
      emit (.binary (.temp temp) (.imm 0) .sub value)
      return .var (.temp temp)
  | .arith op left right => do
      let leftValue ← left.lowerValue symbols
      let rightValue ← right.lowerValue symbols
      let temp ← freshTemp
      emit (.binary (.temp temp) leftValue op rightValue)
      return .var (.temp temp)
  | .compare .. | .and .. | .or .. | .not _ => throw .conditionAsNumber

/-- Branches on a comparison. A side that falls through costs no instruction, so
the two sides may not both fall through. -/
def lowerBranch (left : Value) (op : RelOp) (right : Value) (targets : Targets)
    (source : BranchSource) : Build Unit :=
  match targets with
  | ⟨.label onTrue, .label onFalse⟩ => do
      emit (.branch left op right onTrue true)
      emit (.jump onFalse)
  | ⟨.label onTrue, .fall⟩ => emit (.branch left op right onTrue true)
  | ⟨.fall, .label onFalse⟩ => emit (.branch left op right onFalse false)
  | ⟨.fall, .fall⟩ => throw (.noBranchTarget source)

/-- Writes the jumps that decide a condition. When the outcome that the left
operand can settle alone is the one that falls through, it jumps to a fresh label
behind the right operand. -/
def lowerCondition (symbols : Symbols) : Expr → Targets → Build Unit
  | .and left right, targets =>
      withExit targets.onFalse fun onFalse => do
        left.lowerCondition symbols (.falseTo onFalse)
        right.lowerCondition symbols targets
  | .or left right, targets =>
      withExit targets.onTrue fun onTrue => do
        left.lowerCondition symbols (.trueTo onTrue)
        right.lowerCondition symbols targets
  | .not operand, targets => operand.lowerCondition symbols targets.swap
  | .compare op left right, targets => do
      let leftValue ← left.lowerValue symbols
      let rightValue ← right.lowerValue symbols
      lowerBranch leftValue op rightValue targets .comparison
  | .ident name, targets => do
      match ← ofExcept (symbols.resolve name) with
      | .boolean => lowerBranch (.var (.named name)) .eq (.imm 1) targets .identifier
      | kind => throw (.misused name kind .condition)
  | .bool value, targets => jump (if value then targets.onTrue else targets.onFalse)
  | .int _, _ | .neg _, _ | .arith .., _ => throw .numberAsCondition

end Expr

end ThreeAddress
