/-!
The source language: a small imperative language with numbers, Booleans and
enumerations, structured control flow, and a `switch` whose cases fall through
into each other. Programs arrive here as finished trees; nothing in this module
checks that a tree makes sense, since lowering does that.
-/

namespace ThreeAddress

inductive ArithOp where
  | add
  | sub
  | mul
  | div
  deriving DecidableEq, Repr

inductive RelOp where
  | eq
  | ne
  | lt
  | gt
  | le
  | ge
  deriving DecidableEq, Repr

/-- The type a declaration gives its variable. An enumeration is referred to
by name, whether or not that name is declared anywhere. -/
inductive DeclType where
  | number
  | boolean
  | enumeration (name : String)
  deriving DecidableEq, Repr

/-- What a declared name stands for. `enumVar` is a variable whose type is an
enumeration; the enumeration itself and its variants are kinds of their own. -/
inductive SymbolKind where
  | number
  | boolean
  | enumType
  | enumVariant
  | enumVar
  deriving DecidableEq, Repr

/-- The kind of a variable declared with this type. -/
def DeclType.kind : DeclType → SymbolKind
  | .number => .number
  | .boolean => .boolean
  | .enumeration _ => .enumVar

/-- Expressions. Numbers and conditions share one type; which of the two an
expression may be used as is decided where it is lowered. -/
inductive Expr where
  | int (value : Int64)
  | bool (value : Bool)
  | ident (name : String)
  | neg (operand : Expr)
  | arith (op : ArithOp) (left right : Expr)
  | compare (op : RelOp) (left right : Expr)
  | and (left right : Expr)
  | or (left right : Expr)
  | not (operand : Expr)
  deriving DecidableEq, Repr

mutual

/-- Statements. Either branch of `ite` may be missing, and `breakSwitch` leaves
the innermost enclosing `switch`. -/
inductive Stmt where
  | declare (name : String) (type : DeclType)
  | declareEnum (name : String) (variants : List String)
  | block (body : List Stmt)
  | assign (target : String) (value : Expr)
  | ite (condition : Expr) (thenBranch elseBranch : Option Stmt)
  | whileLoop (condition : Expr) (body : Stmt)
  | forLoop (init : Stmt) (condition : Expr) (update body : Stmt)
  | switch (selector : Expr) (cases : List Case)
  | breakSwitch

/-- One case of a `switch`: the value it is entered for and the statements it
runs. Without a `breakSwitch` the run goes on into the next case. -/
structure Case where
  value : Expr
  body : List Stmt

end

structure Program where
  body : List Stmt

namespace Stmt

def isBreak : Stmt → Bool
  | .breakSwitch => true
  | _ => false

end Stmt

namespace Case

/-- Whether the last statement of the body is a `breakSwitch`. Only this
outermost statement counts; a break nested in it does not. -/
def endsWithBreak (branch : Case) : Bool :=
  branch.body.getLast?.any Stmt.isBreak

end Case

end ThreeAddress
