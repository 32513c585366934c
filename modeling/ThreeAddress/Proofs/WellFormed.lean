import ThreeAddress.Proofs.CodeNames

/-!
Which programs make sense. An expression may be used as a value or as a
condition, and every statement says which of the two it needs of its expressions.
A program is well-formed if all its statements are, also those that can never
run. The check goes by the symbol table and the tree alone and can be computed.
-/

namespace ThreeAddress

/-- Names of enumeration variants whose ordinal is known. -/
def Symbols.IsVariant (symbols : Symbols) (name : String) : Prop :=
  symbols.lookup name = some .enumVariant ∧ (symbols.ordinal? name).isSome

namespace Expr

/-- Expressions with a number as their value. Booleans count as one and zero, but
only as literals and variables. -/
def IsValue (symbols : Symbols) : Expr → Prop
  | .int _ | .bool _ => True
  | .ident name => symbols.IsVariable name ∨ symbols.IsVariant name
  | .neg operand => operand.IsValue symbols
  | .arith _ left right => left.IsValue symbols ∧ right.IsValue symbols
  | .compare .. | .and .. | .or .. | .not _ => False

/-- Expressions that are true or false. -/
def IsCondition (symbols : Symbols) : Expr → Prop
  | .bool _ => True
  | .ident name => symbols.lookup name = some .boolean
  | .compare _ left right => left.IsValue symbols ∧ right.IsValue symbols
  | .and left right | .or left right => left.IsCondition symbols ∧ right.IsCondition symbols
  | .not operand => operand.IsCondition symbols
  | .int _ | .neg _ | .arith .. => False

end Expr

/-- The target of an assignment takes what stands on the right of it. -/
def Symbols.Assignable (symbols : Symbols) (target : String) (value : Expr) : Prop :=
  ((symbols.lookup target = some .number ∨ symbols.lookup target = some .enumVar) ∧
      value.IsValue symbols) ∨
    (symbols.lookup target = some .boolean ∧ value.IsCondition symbols)

mutual

/-- A statement makes sense, as do all statements in it. Whether it stands in a
case of a `switch`, at any depth, is given by `inCase`: only there may it break. -/
def Stmt.WellFormed (symbols : Symbols) (inCase : Bool) : Stmt → Prop
  | .declare .. | .declareEnum .. => True
  | .block body => WellFormedBlock symbols inCase body
  | .assign target value => symbols.Assignable target value
  | .ite condition thenBranch elseBranch =>
      condition.IsCondition symbols ∧ (elseBranch.isSome → thenBranch.isSome) ∧
        WellFormedBranch symbols inCase thenBranch ∧ WellFormedBranch symbols inCase elseBranch
  | .whileLoop condition body => condition.IsCondition symbols ∧ body.WellFormed symbols inCase
  | .forLoop init condition update body =>
      init.WellFormed symbols inCase ∧ condition.IsCondition symbols ∧
        update.WellFormed symbols inCase ∧ body.WellFormed symbols inCase
  | .switch selector cases =>
      cases ≠ [] ∧ selector.IsValue symbols ∧ WellFormedCases symbols cases
  | .breakSwitch => inCase

def WellFormedBranch (symbols : Symbols) (inCase : Bool) : Option Stmt → Prop
  | none => True
  | some branch => branch.WellFormed symbols inCase

def WellFormedBlock (symbols : Symbols) (inCase : Bool) : List Stmt → Prop
  | [] => True
  | stmt :: rest => stmt.WellFormed symbols inCase ∧ WellFormedBlock symbols inCase rest

def WellFormedCases (symbols : Symbols) : List Case → Prop
  | [] => True
  | ⟨value, body⟩ :: rest =>
      value.IsValue symbols ∧ WellFormedBlock symbols true body ∧ WellFormedCases symbols rest

end

/-- All statements of a program make sense. None of them stands in a case from
the outside. -/
def Program.WellFormed (program : Program) (symbols : Symbols) : Prop :=
  WellFormedBlock symbols false program.body

section Decidable

variable (symbols : Symbols)

instance (name : String) : Decidable (symbols.IsVariable name) :=
  inferInstanceAs (Decidable (_ ∨ _ ∨ _))

instance (name : String) : Decidable (symbols.IsVariant name) :=
  inferInstanceAs (Decidable (_ ∧ _))

instance Expr.decidableIsValue : (expr : Expr) → Decidable (expr.IsValue symbols)
  | .int _ | .bool _ => inferInstanceAs (Decidable True)
  | .ident name => inferInstanceAs (Decidable (symbols.IsVariable name ∨ symbols.IsVariant name))
  | .neg operand => operand.decidableIsValue
  | .arith _ left right =>
      @instDecidableAnd _ _ left.decidableIsValue right.decidableIsValue
  | .compare .. | .and .. | .or .. | .not _ => inferInstanceAs (Decidable False)

instance Expr.decidableIsCondition : (expr : Expr) → Decidable (expr.IsCondition symbols)
  | .bool _ => inferInstanceAs (Decidable True)
  | .ident name => inferInstanceAs (Decidable (symbols.lookup name = some .boolean))
  | .compare _ left right =>
      inferInstanceAs (Decidable (left.IsValue symbols ∧ right.IsValue symbols))
  | .and left right | .or left right =>
      @instDecidableAnd _ _ left.decidableIsCondition right.decidableIsCondition
  | .not operand => operand.decidableIsCondition
  | .int _ | .neg _ | .arith .. => inferInstanceAs (Decidable False)

instance (target : String) (value : Expr) : Decidable (symbols.Assignable target value) :=
  inferInstanceAs (Decidable (_ ∧ _ ∨ _ ∧ _))

mutual

instance Stmt.decidableWellFormed (inCase : Bool) :
    (stmt : Stmt) → Decidable (stmt.WellFormed symbols inCase)
  | .declare .. | .declareEnum .. => inferInstanceAs (Decidable True)
  | .block body => decidableWellFormedBlock inCase body
  | .assign target value => inferInstanceAs (Decidable (symbols.Assignable target value))
  | .ite _ thenBranch elseBranch =>
      have := decidableWellFormedBranch inCase thenBranch
      have := decidableWellFormedBranch inCase elseBranch
      inferInstanceAs (Decidable (_ ∧ (_ → _) ∧ _ ∧ _))
  | .whileLoop _ body =>
      have := body.decidableWellFormed inCase
      inferInstanceAs (Decidable (_ ∧ _))
  | .forLoop init _ update body =>
      have := init.decidableWellFormed inCase
      have := update.decidableWellFormed inCase
      have := body.decidableWellFormed inCase
      inferInstanceAs (Decidable (_ ∧ _ ∧ _ ∧ _))
  | .switch _ [] => isFalse fun h => h.1 rfl
  | .switch selector (branch :: rest) =>
      have := decidableWellFormedCases (branch :: rest)
      decidable_of_iff (selector.IsValue symbols ∧ WellFormedCases symbols (branch :: rest))
        ⟨fun h => ⟨List.cons_ne_nil _ _, h⟩, fun h => h.2⟩
  | .breakSwitch => inferInstanceAs (Decidable (inCase = true))

instance decidableWellFormedBranch (inCase : Bool) :
    (branch : Option Stmt) → Decidable (WellFormedBranch symbols inCase branch)
  | none => inferInstanceAs (Decidable True)
  | some branch => branch.decidableWellFormed inCase

instance decidableWellFormedBlock (inCase : Bool) :
    (body : List Stmt) → Decidable (WellFormedBlock symbols inCase body)
  | [] => inferInstanceAs (Decidable True)
  | stmt :: rest =>
      @instDecidableAnd _ _ (stmt.decidableWellFormed inCase) (decidableWellFormedBlock inCase rest)

instance decidableWellFormedCases :
    (cases : List Case) → Decidable (WellFormedCases symbols cases)
  | [] => inferInstanceAs (Decidable True)
  | ⟨_, body⟩ :: rest =>
      have := decidableWellFormedBlock true body
      have := decidableWellFormedCases rest
      inferInstanceAs (Decidable (_ ∧ _ ∧ _))

end

instance (program : Program) : Decidable (program.WellFormed symbols) :=
  decidableWellFormedBlock symbols false program.body

end Decidable

end ThreeAddress
