import ThreeAddress.Proofs.BuilderGrowth
import ThreeAddress.Proofs.LoweringAdequacy

/-!
Nothing is lost or doubled by lowering. Every operation, test and assignment of the
code is there for one place of the program, and every such place is in the code. The
places are counted in the tree alone: all statements at any depth, the expressions
that stand in them, and the parts of these expressions.
-/

namespace ThreeAddress

mutual

/-- A statement and all statements inside of it. -/
def Stmt.parts : Stmt → List Stmt
  | .declare name type => [.declare name type]
  | .declareEnum name variants => [.declareEnum name variants]
  | .block body => .block body :: blockParts body
  | .assign target value => [.assign target value]
  | .ite condition thenBranch elseBranch =>
      .ite condition thenBranch elseBranch :: (branchParts thenBranch ++ branchParts elseBranch)
  | .whileLoop condition body => .whileLoop condition body :: body.parts
  | .forLoop init condition update body =>
      .forLoop init condition update body :: (init.parts ++ update.parts ++ body.parts)
  | .switch selector cases => .switch selector cases :: caseParts cases
  | .breakSwitch => [.breakSwitch]

def branchParts : Option Stmt → List Stmt
  | none => []
  | some branch => branch.parts

def blockParts : List Stmt → List Stmt
  | [] => []
  | stmt :: rest => stmt.parts ++ blockParts rest

def caseParts : List Case → List Stmt
  | [] => []
  | ⟨_, body⟩ :: rest => blockParts body ++ caseParts rest

end

theorem caseParts_cons (branch : Case) (rest : List Case) :
    caseParts (branch :: rest) = blockParts branch.body ++ caseParts rest := by
  cases branch
  rw [caseParts]

def Piece.parts : Piece → List Stmt
  | .stmt single _ => single.parts
  | .block body _ => blockParts body
  | .cases branches _ => caseParts branches

/-- All statements of a program, at any depth. -/
def Program.statements (program : Program) : List Stmt :=
  blockParts program.body

namespace Expr

/-- An expression and all expressions inside of it. -/
def nodes : Expr → List Expr
  | .int value => [.int value]
  | .bool value => [.bool value]
  | .ident name => [.ident name]
  | .neg operand => .neg operand :: operand.nodes
  | .arith op left right => .arith op left right :: (left.nodes ++ right.nodes)
  | .compare op left right => .compare op left right :: (left.nodes ++ right.nodes)
  | .and left right => .and left right :: (left.nodes ++ right.nodes)
  | .or left right => .or left right :: (left.nodes ++ right.nodes)
  | .not operand => .not operand :: operand.nodes

def isOperation : Expr → Bool
  | .neg _ | .arith .. => true
  | _ => false

def isComparison : Expr → Bool
  | .compare .. => true
  | _ => false

/-- The names that a condition tests: those that stand in it as conditions. -/
def testedNames : Expr → List String
  | .ident name => [name]
  | .and left right | .or left right => left.testedNames ++ right.testedNames
  | .not operand => operand.testedNames
  | .int _ | .bool _ | .neg _ | .arith .. | .compare .. => []

end Expr

namespace Stmt

/-- The expressions that stand in a statement itself. -/
def exprs : Stmt → List Expr
  | .assign _ value => [value]
  | .ite condition _ _ | .whileLoop condition _ | .forLoop _ condition _ _ => [condition]
  | .switch selector cases => selector :: cases.map Case.value
  | .declare .. | .declareEnum .. | .block _ | .breakSwitch => []

/-- Those of them that are used as conditions. -/
def conditions (symbols : Symbols) : Stmt → List Expr
  | .assign target value => if symbols.lookup target = some .boolean then [value] else []
  | .ite condition _ _ | .whileLoop condition _ | .forLoop _ condition _ _ => [condition]
  | .declare .. | .declareEnum .. | .block _ | .switch .. | .breakSwitch => []

/-- The cases of a `switch`. -/
def branches : Stmt → List Case
  | .switch _ cases => cases
  | _ => []

/-- The statement assigns to a name of one of these kinds. -/
def assignsTo (symbols : Symbols) (kinds : List SymbolKind) : Stmt → Bool
  | .assign target _ => (symbols.lookup target).any (· ∈ kinds)
  | _ => false

end Stmt

namespace Program

/-- All expressions of a program and their parts. -/
def nodes (program : Program) : List Expr :=
  (program.statements.flatMap Stmt.exprs).flatMap Expr.nodes

/-- The names that a program uses as conditions. -/
def testedNames (program : Program) (symbols : Symbols) : List String :=
  (program.statements.flatMap (Stmt.conditions symbols)).flatMap Expr.testedNames

end Program

/-- What an instruction is there for, jumps and labels apart. -/
inductive Purpose where
  | operation
  | test
  | assignment
  deriving DecidableEq

def Instr.purpose? : Instr → Option Purpose
  | .assign .. => some .assignment
  | .binary .. => some .operation
  | .branch .. => some .test
  | .jump _ | .label _ => none

namespace Code

/-- How many instructions are there for a purpose. -/
def count (code : Code) (purpose : Purpose) : Nat :=
  code.countP (·.purpose? = some purpose)

end Code

namespace Builder

def count (builder : Builder) (purpose : Purpose) : Nat :=
  Code.count builder.code.toList purpose

variable (builder : Builder) (purpose : Purpose)

@[simp] theorem count_emit (instr : Instr) :
    (builder.emit instr).count purpose =
      builder.count purpose + if instr.purpose? = some purpose then 1 else 0 := by
  simp [count, Code.count, List.countP_append, List.countP_singleton]

@[simp] theorem count_mark (label : Label) :
    (builder.mark label).count purpose = builder.count purpose := by
  by_cases h : label.number ∈ builder.referenced
  · simp [mark_of_referenced h, Instr.purpose?]
  · rw [mark_of_not_referenced h]

@[simp] theorem count_afterLabel : builder.afterLabel.count purpose = builder.count purpose := rfl

@[simp] theorem count_afterTemp : builder.afterTemp.count purpose = builder.count purpose := rfl

@[simp] theorem count_withSwitches (switches : List SwitchLabels) :
    { builder with switches }.count purpose = builder.count purpose := rfl

@[simp] theorem count_pushSwitch (labels : SwitchLabels) :
    (builder.pushSwitch labels).count purpose = builder.count purpose := rfl

@[simp] theorem count_popSwitch : builder.popSwitch.count purpose = builder.count purpose := rfl

@[simp] theorem count_openExit (continuation : Continuation) :
    (builder.openExit continuation).count purpose = builder.count purpose := by
  cases continuation <;> rfl

@[simp] theorem count_closeExit (continuation : Continuation) (exit : Label) :
    (builder.closeExit continuation exit).count purpose = builder.count purpose := by
  cases continuation <;> simp [closeExit]

end Builder

namespace Expr

/-- The instructions for a value. -/
def valueCount (expr : Expr) : Purpose → Nat
  | .operation => expr.nodes.countP isOperation
  | .test => expr.nodes.countP isComparison
  | .assignment => 0

/-- The instructions for a condition: those for its parts, and a test for each name. -/
def conditionCount (expr : Expr) : Purpose → Nat
  | .test => expr.nodes.countP isComparison + expr.testedNames.length
  | purpose => expr.valueCount purpose

end Expr

/-- The instructions for the values of cases. -/
def caseValuesCount (purpose : Purpose) : List Case → Nat
  | [] => 0
  | branch :: rest => branch.value.valueCount purpose + caseValuesCount purpose rest

/-- The instructions for a statement itself, those for the statements in it apart. -/
def Stmt.count (symbols : Symbols) (purpose : Purpose) : Stmt → Nat
  | .assign target value =>
      match symbols.lookup target with
      | some .boolean => value.conditionCount purpose + if .assignment = purpose then 2 else 0
      | some .number | some .enumVar =>
          value.valueCount purpose + if .assignment = purpose then 1 else 0
      | _ => value.valueCount purpose
  | .ite condition _ _ | .whileLoop condition _ | .forLoop _ condition _ _ =>
      condition.conditionCount purpose
  | .switch selector cases =>
      selector.valueCount purpose +
        (caseValuesCount purpose cases + if .test = purpose then cases.length else 0)
  | .declare .. | .declareEnum .. | .block _ | .breakSwitch => 0

variable {symbols : Symbols} {before after : Builder}

namespace Expr

theorem valueCount_neg (operand : Expr) (purpose : Purpose) :
    (Expr.neg operand).valueCount purpose =
      operand.valueCount purpose + if .operation = purpose then 1 else 0 := by
  cases purpose <;> simp [valueCount, nodes, List.countP_cons, isOperation, isComparison]

theorem valueCount_arith (op : ArithOp) (left right : Expr) (purpose : Purpose) :
    (Expr.arith op left right).valueCount purpose = left.valueCount purpose +
      right.valueCount purpose + if .operation = purpose then 1 else 0 := by
  cases purpose <;> simp [valueCount, nodes, List.countP_cons, isOperation, isComparison]

theorem LowersValue.count_eq {expr : Expr} {value : Value}
    (h : expr.LowersValue symbols value before after) (purpose : Purpose) :
    after.count purpose = before.count purpose + expr.valueCount purpose := by
  induction h with
  | int | bool | «variable» | variant => cases purpose <;> rfl
  | neg _ ih =>
    simp only [Builder.count_emit, Builder.count_afterTemp, ih, valueCount_neg, Instr.purpose?,
      Option.some.injEq]
    omega
  | arith _ _ ihl ihr =>
    simp only [Builder.count_emit, Builder.count_afterTemp, ihl, ihr, valueCount_arith,
      Instr.purpose?, Option.some.injEq]
    omega

theorem conditionCount_and (left right : Expr) (purpose : Purpose) :
    (Expr.and left right).conditionCount purpose =
      left.conditionCount purpose + right.conditionCount purpose := by
  cases purpose with
  | operation | assignment => simp [conditionCount, valueCount, nodes, isOperation]
  | test =>
    simp only [conditionCount, nodes, testedNames, isComparison, Bool.false_eq_true,
      not_false_eq_true, List.countP_cons_of_neg, List.countP_append, List.length_append]
    omega

theorem conditionCount_or (left right : Expr) (purpose : Purpose) :
    (Expr.or left right).conditionCount purpose =
      left.conditionCount purpose + right.conditionCount purpose :=
  conditionCount_and left right purpose

theorem conditionCount_not (operand : Expr) (purpose : Purpose) :
    (Expr.not operand).conditionCount purpose = operand.conditionCount purpose := by
  cases purpose <;>
    simp [conditionCount, valueCount, nodes, testedNames, isOperation, isComparison]

theorem conditionCount_compare (op : RelOp) (left right : Expr) (purpose : Purpose) :
    (Expr.compare op left right).conditionCount purpose = left.valueCount purpose +
      right.valueCount purpose + if .test = purpose then 1 else 0 := by
  cases purpose <;>
    simp [conditionCount, valueCount, nodes, testedNames, List.countP_cons, isOperation,
      isComparison]

end Expr

theorem LowersBranch.count_eq {left right : Value} {op : RelOp} {targets : Targets}
    (h : LowersBranch left op right targets before after) (purpose : Purpose) :
    after.count purpose = before.count purpose + if .test = purpose then 1 else 0 := by
  cases h <;> simp [Instr.purpose?]

theorem Expr.LowersCondition.count_eq {expr : Expr} {targets : Targets}
    (h : expr.LowersCondition symbols targets before after) (purpose : Purpose) :
    after.count purpose = before.count purpose + expr.conditionCount purpose := by
  induction h with
  | and _ _ ihl ihr =>
    rw [Builder.count_closeExit, ihr, ihl, Builder.count_openExit, conditionCount_and, Nat.add_assoc]
  | or _ _ ihl ihr =>
    rw [Builder.count_closeExit, ihr, ihl, Builder.count_openExit, conditionCount_or, Nat.add_assoc]
  | not _ ih => rw [ih, conditionCount_not]
  | compare hleft hright hbranch =>
    rw [hbranch.count_eq, hright.count_eq, hleft.count_eq, conditionCount_compare]
    omega
  | ident _ hbranch =>
    rw [hbranch.count_eq]
    cases purpose <;> rfl
  | boolJump =>
    rw [Builder.count_emit]
    cases purpose <;> rfl
  | boolFall => cases purpose <;> rfl

theorem LowersTests.count_eq {selector : Value} {cases : List Case} {labels : List Label}
    (h : LowersTests symbols selector cases labels before after) (purpose : Purpose) :
    after.count purpose = before.count purpose +
      (caseValuesCount purpose cases + if .test = purpose then cases.length else 0) := by
  induction h with
  | nil => simp [caseValuesCount]
  | cons hvalue _ ih =>
    simp only [ih, Builder.count_emit, Builder.count_afterLabel, hvalue.count_eq, Instr.purpose?,
      Option.some.injEq, caseValuesCount, List.length_cons]
    split <;> omega

/-- The instructions for some statements. -/
def countAll (symbols : Symbols) (purpose : Purpose) : List Stmt → Nat
  | [] => 0
  | stmt :: rest => stmt.count symbols purpose + countAll symbols purpose rest

section CountAll

variable {purpose : Purpose}

@[simp] theorem countAll_nil : countAll symbols purpose [] = 0 := rfl

@[simp] theorem countAll_cons (stmt : Stmt) (rest : List Stmt) :
    countAll symbols purpose (stmt :: rest) =
      stmt.count symbols purpose + countAll symbols purpose rest := rfl

@[simp] theorem countAll_append (first second : List Stmt) :
    countAll symbols purpose (first ++ second) =
      countAll symbols purpose first + countAll symbols purpose second := by
  induction first with
  | nil => simp
  | cons stmt rest ih => simp [ih, Nat.add_assoc]

end CountAll

/-- Lowering a piece adds exactly the instructions for its statements. -/
theorem Lowers.count_eq {piece : Piece} (h : Lowers symbols piece before after)
    (purpose : Purpose) :
    after.count purpose = before.count purpose + countAll symbols purpose piece.parts := by
  induction h with
  | declare | declareEnum | blockNil | casesNil => rfl
  | block _ ih => simpa [Piece.parts, Stmt.parts, Stmt.count] using ih
  | blockLast _ ih => simpa [Piece.parts, blockParts] using ih
  | assignNumber hkind hvalue =>
    obtain hkind | hkind := hkind <;>
      simp [Piece.parts, Stmt.parts, Stmt.count, hkind, hvalue.count_eq, Instr.purpose?,
        Nat.add_assoc]
  | assignBoolean hkind hvalue hplaced =>
    subst hplaced
    simp only [Builder.count_closeExit, Builder.count_emit, Builder.count_mark, hvalue.count_eq,
      Builder.count_afterLabel, Builder.count_openExit, Instr.purpose?, Option.some.injEq,
      reduceCtorEq, if_false, Piece.parts, Stmt.parts, countAll_cons, countAll_nil, Stmt.count, hkind]
    split <;> omega
  | iteNone hcondition =>
    simp [Piece.parts, Stmt.parts, branchParts, Stmt.count, hcondition.count_eq]
  | iteThen hcondition _ ih =>
    simp only [Piece.parts] at ih
    simp [Piece.parts, Stmt.parts, branchParts, Stmt.count, ih, hcondition.count_eq, Nat.add_assoc]
  | iteElse hcondition _ hplaced _ ihthen ihelse =>
    subst hplaced
    simp only [Piece.parts] at ihthen ihelse
    simp [Piece.parts, Stmt.parts, branchParts, Stmt.count, ihthen, ihelse, hcondition.count_eq,
      Instr.purpose?, Nat.add_assoc]
  | whileLoop hhead hcondition _ ih =>
    subst hhead
    simp only [Piece.parts] at ih
    simp [Piece.parts, Stmt.parts, Stmt.count, ih, hcondition.count_eq, Instr.purpose?,
      Nat.add_assoc]
  | forLoop _ hhead hcondition _ _ ihinit ihbody ihupdate =>
    subst hhead
    simp only [Piece.parts] at ihinit ihbody ihupdate
    simp only [Builder.count_closeExit, Builder.count_emit, ihupdate, Builder.count_mark, ihbody,
      hcondition.count_eq, Builder.count_openExit, ihinit, Builder.count_afterLabel, Instr.purpose?,
      reduceCtorEq, if_false, Piece.parts, Stmt.parts, countAll_cons, countAll_append, Stmt.count]
    omega
  | switch _ hselector htests hinside _ _ ih =>
    subst hinside
    simp only [Piece.parts] at ih
    simp [Piece.parts, Stmt.parts, Stmt.count, ih, htests.count_eq, hselector.count_eq,
      Instr.purpose?, Nat.add_assoc]
  | breakSwitch => simp [Piece.parts, Stmt.parts, Stmt.count, Instr.purpose?]
  | blockCons _ _ ihstmt ihrest =>
    simp only [Piece.parts] at ihstmt ihrest
    rw [Piece.parts, blockParts, countAll_append, ihrest, Builder.count_mark, ihstmt,
      Builder.count_afterLabel, Nat.add_assoc]
  | casesCons _ hplaced _ _ ihbody ihrest =>
    subst hplaced
    simp only [Piece.parts] at ihbody ihrest
    rw [Piece.parts, caseParts_cons, countAll_append, ihrest, ihbody, Builder.count_mark,
      Builder.count_withSwitches, Nat.add_assoc]

theorem caseValuesCount_operation (cases : List Case) :
    caseValuesCount .operation cases =
      ((cases.map Case.value).flatMap Expr.nodes).countP Expr.isOperation := by
  induction cases with
  | nil => rfl
  | cons branch rest ih => simp [caseValuesCount, Expr.valueCount, ih]

theorem caseValuesCount_test (cases : List Case) :
    caseValuesCount .test cases =
      ((cases.map Case.value).flatMap Expr.nodes).countP Expr.isComparison := by
  induction cases with
  | nil => rfl
  | cons branch rest ih => simp [caseValuesCount, Expr.valueCount, ih]

theorem caseValuesCount_assignment (cases : List Case) : caseValuesCount .assignment cases = 0 := by
  induction cases with
  | nil => rfl
  | cons branch rest ih => simp [caseValuesCount, Expr.valueCount, ih]

namespace Stmt

theorem count_operation (stmt : Stmt) :
    stmt.count symbols .operation = (stmt.exprs.flatMap Expr.nodes).countP Expr.isOperation := by
  cases stmt with
  | assign target value =>
    simp only [count, exprs]
    split <;> simp [Expr.conditionCount, Expr.valueCount]
  | switch selector cases =>
    simp [count, exprs, Expr.valueCount, caseValuesCount_operation]
  | ite | whileLoop | forLoop => simp [count, exprs, Expr.conditionCount, Expr.valueCount]
  | declare | declareEnum | block | breakSwitch => rfl

theorem count_test (stmt : Stmt) :
    stmt.count symbols .test = (stmt.exprs.flatMap Expr.nodes).countP Expr.isComparison +
      ((stmt.conditions symbols).flatMap Expr.testedNames).length + stmt.branches.length := by
  cases stmt with
  | assign target value =>
    simp only [count, exprs, conditions, branches]
    cases symbols.lookup target with
    | none => simp [Expr.valueCount]
    | some kind => cases kind <;> simp [Expr.conditionCount, Expr.valueCount]
  | switch selector cases =>
    simp only [count, exprs, conditions, branches, Expr.valueCount, caseValuesCount_test, if_true,
      List.flatMap_cons, List.countP_append, List.flatMap_nil, List.length_nil]
    omega
  | ite | whileLoop | forLoop => simp [count, exprs, conditions, branches, Expr.conditionCount]
  | declare | declareEnum | block | breakSwitch => rfl

theorem count_assignment (stmt : Stmt) :
    stmt.count symbols .assignment =
      (if stmt.assignsTo symbols [.number, .enumVar] then 1 else 0) +
        2 * if stmt.assignsTo symbols [.boolean] then 1 else 0 := by
  cases stmt with
  | assign target value =>
    cases hkind : symbols.lookup target with
    | none => simp [count, assignsTo, hkind, Expr.valueCount]
    | some kind =>
      cases kind <;> simp [count, assignsTo, hkind, Expr.conditionCount, Expr.valueCount]
  | switch selector cases => simp [count, assignsTo, Expr.valueCount, caseValuesCount_assignment]
  | ite | whileLoop | forLoop => simp [count, assignsTo, Expr.conditionCount, Expr.valueCount]
  | declare | declareEnum | block | breakSwitch => rfl

end Stmt

namespace Program

/-- The code of a program has one operation for each operation in its expressions, one
test for each comparison, for each name that is used as a condition and for each case,
and one assignment for each assignment to a number or a variable of an enumeration. An
assignment to a Boolean is two. -/
theorem toCode_counts {program : Program} {code : Code} (h : program.toCode symbols = .ok code) :
    code.count .operation = program.nodes.countP Expr.isOperation ∧
    code.count .test =
      program.nodes.countP Expr.isComparison + (program.testedNames symbols).length +
        (program.statements.flatMap Stmt.branches).length ∧
    code.count .assignment =
      program.statements.countP (Stmt.assignsTo symbols [.number, .enumVar]) +
        2 * program.statements.countP (Stmt.assignsTo symbols [.boolean]) := by
  obtain ⟨after, hbody, rfl⟩ := toCode_eq_ok.mp h
  have hcount (purpose : Purpose) :
      Code.count (after.mark Builder.empty.freshLabel).code.toList purpose =
        countAll symbols purpose program.statements := by
    have hlowered := hbody.count_eq purpose
    have hempty : Builder.empty.count purpose = 0 := rfl
    rw [Builder.count_afterLabel, hempty, Nat.zero_add] at hlowered
    exact (after.count_mark purpose _).trans hlowered
  refine ⟨?_, ?_, ?_⟩
  · rw [hcount, nodes]
    induction program.statements with
    | nil => rfl
    | cons stmt rest ih => simp [Stmt.count_operation, ih]
  · rw [hcount, nodes, testedNames]
    induction program.statements with
    | nil => rfl
    | cons stmt rest ih =>
      simp only [countAll_cons, Stmt.count_test, ih, List.flatMap_cons, List.flatMap_append,
        List.countP_append, List.length_append]
      omega
  · rw [hcount]
    induction program.statements with
    | nil => rfl
    | cons stmt rest ih =>
      simp only [countAll_cons, Stmt.count_assignment, ih, List.countP_cons]
      omega

/-- A loop whose body is a `switch` that assigns to a Boolean. -/
def searching : Program :=
  ⟨[.declare "i" .number, .declare "found" .boolean,
    .forLoop (.assign "i" (.neg (.int 1))) (.not (.or (.ident "found") (.compare .gt (.ident "i")
        (.int 9))))
      (.assign "i" (.arith .add (.ident "i") (.int 1)))
      (.switch (.arith .mul (.ident "i") (.ident "i"))
        [⟨.int 4, [.assign "found" (.and (.bool true) (.compare .ne (.ident "i") (.int 2))),
            .breakSwitch]⟩,
          ⟨.neg (.int 4), []⟩])]⟩

theorem toCode_counts_searching : ∃ code,
    searching.toCode (.ofProgram searching) = .ok code ∧ code.count .operation = 4 ∧
      code.count .test = 5 ∧ code.count .assignment = 4 := by
  have hcode : (searching.toCode (.ofProgram searching)).isOk := by decide +kernel
  cases h : searching.toCode (.ofProgram searching) with
  | error e => simp [h, Except.isOk, Except.toBool] at hcode
  | ok code =>
    obtain ⟨hoperations, htests, hassignments⟩ := toCode_counts h
    refine ⟨code, rfl, hoperations.trans ?_, htests.trans ?_, hassignments.trans ?_⟩
    all_goals decide +kernel

end Program

end ThreeAddress
