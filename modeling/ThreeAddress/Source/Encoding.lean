import ThreeAddress.Json.Basic
import ThreeAddress.Source.Basic

/-!
Programs as JSON values. Every construct has one written form, and reading takes
some others as well: a record may be an array of its fields in order, a name that
stands alone may be an object with the value `null`, and a missing branch may be
left out. Reading counts how deep it goes into arrays and objects and stops at a
given depth. Parts of a value that mean nothing here do not count.
-/

namespace ThreeAddress

namespace ArithOp

def tag : ArithOp → String
  | .add => "Add"
  | .sub => "Sub"
  | .mul => "Mul"
  | .div => "Div"

def ofTag? : String → Option ArithOp
  | "Add" => some .add
  | "Sub" => some .sub
  | "Mul" => some .mul
  | "Div" => some .div
  | _ => none

end ArithOp

namespace RelOp

def tag : RelOp → String
  | .eq => "Eq"
  | .ne => "Neq"
  | .lt => "Lt"
  | .gt => "Gt"
  | .le => "Le"
  | .ge => "Ge"

def ofTag? : String → Option RelOp
  | "Eq" => some .eq
  | "Neq" => some .ne
  | "Lt" => some .lt
  | "Gt" => some .gt
  | "Le" => some .le
  | "Ge" => some .ge
  | _ => none

end RelOp

namespace Json

/-- A name that stands alone, as a string or as an object with the value
`null`. -/
def bareTag? : Nat → Json → Option String
  | _, .str tag => some tag
  | _ + 1, .obj [(tag, .null)] => some tag
  | _, _ => none

/-- A list of strings. -/
def strings? : Nat → Json → Option (List String)
  | _ + 1, .arr items => items.mapM str?
  | _, _ => none

end Json

def ArithOp.ofJson? (depth : Nat) (json : Json) : Option ArithOp :=
  (json.bareTag? depth).bind ofTag?

def RelOp.ofJson? (depth : Nat) (json : Json) : Option RelOp :=
  (json.bareTag? depth).bind ofTag?

namespace DeclType

def toJson : DeclType → Json
  | .number => .str "num"
  | .boolean => .str "bool"
  | .enumeration name => .obj [("enum", .str name)]

def ofJson? : Nat → Json → Option DeclType
  | _ + 1, .obj [("enum", name)] => name.str?.map .enumeration
  | depth, json =>
      match json.bareTag? depth with
      | some "num" => some .number
      | some "bool" => some .boolean
      | _ => none

end DeclType

namespace Expr

def toJson : Expr → Json
  | .int value => .obj [("Int", .int value.toInt)]
  | .bool value => .obj [("Bool", .bool value)]
  | .ident name => .obj [("Ident", .str name)]
  | .neg operand => .obj [("Neg", operand.toJson)]
  | .arith op left right =>
      .obj [("Arith", .obj [("op", .str op.tag), ("left", left.toJson), ("right", right.toJson)])]
  | .compare op left right =>
      .obj [("Compare", .obj [("op", .str op.tag), ("left", left.toJson), ("right", right.toJson)])]
  | .and left right => .obj [("And", .arr [left.toJson, right.toJson])]
  | .or left right => .obj [("Or", .arr [left.toJson, right.toJson])]
  | .not operand => .obj [("Not", operand.toJson)]

/-- Reads an expression that goes at most this deep. -/
def ofJson? : Nat → Json → Option Expr
  | depth + 1, .obj [(tag, payload)] =>
      match tag, depth with
      | "Int", _ => payload.int64?.map .int
      | "Bool", _ => payload.bool?.map .bool
      | "Ident", _ => payload.str?.map .ident
      | "Neg", inner => (ofJson? inner payload).map .neg
      | "Not", inner => (ofJson? inner payload).map .not
      | "Arith", inner + 1 =>
          match payload.record? ["op", "left", "right"] 3 with
          | some [some op, some left, some right] => do
              return .arith (← ArithOp.ofJson? inner op)
                (← ofJson? inner left) (← ofJson? inner right)
          | _ => none
      | "Compare", inner + 1 =>
          match payload.record? ["op", "left", "right"] 3 with
          | some [some op, some left, some right] => do
              return .compare (← RelOp.ofJson? inner op)
                (← ofJson? inner left) (← ofJson? inner right)
          | _ => none
      | "And", inner + 1 =>
          match payload with
          | .arr [left, right] => do
              return .and (← ofJson? inner left) (← ofJson? inner right)
          | _ => none
      | "Or", inner + 1 =>
          match payload with
          | .arr [left, right] => do
              return .or (← ofJson? inner left) (← ofJson? inner right)
          | _ => none
      | _, _ => none
  | _, _ => none

end Expr

mutual

def Stmt.toJson : Stmt → Json
  | .declare name type =>
      .obj [("Declaration", .obj [("name", .str name), ("ty", type.toJson)])]
  | .declareEnum name variants =>
      .obj [("EnumDecl", .obj [("name", .str name), ("variants", .arr (variants.map .str))])]
  | .block body => .obj [("Block", .arr (blockToJson body))]
  | .assign target value =>
      .obj [("Assign", .obj [("target", .str target), ("value", value.toJson)])]
  | .ite condition thenBranch elseBranch =>
      .obj [("If", .obj
        [("condition", condition.toJson),
         ("then_branch", branchToJson thenBranch),
         ("else_branch", branchToJson elseBranch)])]
  | .whileLoop condition body =>
      .obj [("While", .obj [("condition", condition.toJson), ("body", body.toJson)])]
  | .forLoop init condition update body =>
      .obj [("For", .obj
        [("init", init.toJson), ("condition", condition.toJson),
         ("update", update.toJson), ("body", body.toJson)])]
  | .switch selector cases =>
      .obj [("Switch", .obj [("selector", selector.toJson), ("cases", .arr (casesToJson cases))])]
  | .breakSwitch => .str "Break"

def branchToJson : Option Stmt → Json
  | none => .null
  | some branch => branch.toJson

def blockToJson : List Stmt → List Json
  | [] => []
  | stmt :: rest => stmt.toJson :: blockToJson rest

def casesToJson : List Case → List Json
  | [] => []
  | ⟨value, body⟩ :: rest =>
      .obj [("value", value.toJson), ("body", .arr (blockToJson body))] :: casesToJson rest

end

def Case.toJson (branch : Case) : Json :=
  .obj [("value", branch.value.toJson), ("body", .arr (blockToJson branch.body))]

mutual

/-- Reads a statement that goes at most this deep. -/
def Stmt.ofJson? : Nat → Json → Option Stmt
  | _, .str tag => if tag = "Break" then some .breakSwitch else none
  | depth + 1, .obj [(tag, payload)] =>
      match tag, depth with
      | "Break", _ =>
          match payload with
          | .null => some .breakSwitch
          | _ => none
      | "Block", inner => (blockOfJson? inner payload).map .block
      | "Declaration", inner + 1 =>
          match payload.record? ["name", "ty"] 2 with
          | some [some name, some type] => do
              return .declare (← name.str?) (← DeclType.ofJson? inner type)
          | _ => none
      | "EnumDecl", inner + 1 =>
          match payload.record? ["name", "variants"] 2 with
          | some [some name, some variants] => do
              return .declareEnum (← name.str?) (← variants.strings? inner)
          | _ => none
      | "Assign", inner + 1 =>
          match payload.record? ["target", "value"] 2 with
          | some [some target, some value] => do
              return .assign (← target.str?) (← Expr.ofJson? inner value)
          | _ => none
      | "If", inner + 1 =>
          match payload.record? ["condition", "then_branch", "else_branch"] 3 with
          | some [some condition, thenBranch, elseBranch] => do
              return .ite (← Expr.ofJson? inner condition)
                (← (Json.present? thenBranch).mapM (Stmt.ofJson? inner))
                (← (Json.present? elseBranch).mapM (Stmt.ofJson? inner))
          | _ => none
      | "While", inner + 1 =>
          match payload.record? ["condition", "body"] 2 with
          | some [some condition, some body] => do
              return .whileLoop (← Expr.ofJson? inner condition) (← Stmt.ofJson? inner body)
          | _ => none
      | "For", inner + 1 =>
          match payload.record? ["init", "condition", "update", "body"] 4 with
          | some [some init, some condition, some update, some body] => do
              return .forLoop (← Stmt.ofJson? inner init) (← Expr.ofJson? inner condition)
                (← Stmt.ofJson? inner update) (← Stmt.ofJson? inner body)
          | _ => none
      | "Switch", inner + 1 =>
          match payload.record? ["selector", "cases"] 2 with
          | some [some selector, some cases] => do
              return .switch (← Expr.ofJson? inner selector) (← casesOfJson? inner cases)
          | _ => none
      | _, _ => none
  | _, _ => none

def blockOfJson? : Nat → Json → Option (List Stmt)
  | depth + 1, .arr items => items.mapM (Stmt.ofJson? depth)
  | _, _ => none

def Case.ofJson? : Nat → Json → Option Case
  | depth + 1, json =>
      match json.record? ["value", "body"] 2 with
      | some [some value, some body] => do
          return ⟨← Expr.ofJson? depth value, ← blockOfJson? depth body⟩
      | _ => none
  | 0, _ => none

def casesOfJson? : Nat → Json → Option (List Case)
  | depth + 1, .arr items => items.mapM (Case.ofJson? depth)
  | _, _ => none

end

namespace Program

def toJson (program : Program) : Json :=
  .obj [("body", .arr (blockToJson program.body))]

/-- Reads a program that goes at most this deep. -/
def ofJsonWithin? : Nat → Json → Option Program
  | depth + 1, json =>
      match json.record? ["body"] 1 with
      | some [some body] => (blockOfJson? depth body).map Program.mk
      | _ => none
  | 0, _ => none

/-- Reads a program of any depth. -/
def ofJson? (json : Json) : Option Program :=
  ofJsonWithin? json.depth json

end Program

end ThreeAddress
