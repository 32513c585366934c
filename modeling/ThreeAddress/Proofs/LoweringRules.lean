import ThreeAddress.Lowering.Stmt
import ThreeAddress.Proofs.BuildSteps

/-!
What a successful lowering did, as rules. Each rule names the builders between
the parts of a construct, so a property of all lowered code is proved by one
induction over the rules and never opens the lowering functions.
-/

namespace ThreeAddress

/-- Lowering a value wrote code and returned the operand. -/
inductive Expr.LowersValue (symbols : Symbols) : Expr → Value → Builder → Builder → Prop
  | int (value : Int64) (builder : Builder) :
      LowersValue symbols (.int value) (.imm value) builder builder
  | bool (value : Bool) (builder : Builder) :
      LowersValue symbols (.bool value) (.imm (if value then 1 else 0)) builder builder
  | variable {name : String} {kind : SymbolKind} (builder : Builder)
      (hlookup : symbols.lookup name = some kind)
      (hkind : kind = .number ∨ kind = .boolean ∨ kind = .enumVar) :
      LowersValue symbols (.ident name) (.var (.named name)) builder builder
  | variant {name : String} {ordinal : Int64} (builder : Builder)
      (hlookup : symbols.lookup name = some .enumVariant)
      (hordinal : symbols.ordinal? name = some ordinal) :
      LowersValue symbols (.ident name) (.imm ordinal) builder builder
  | neg {operand : Expr} {value : Value} {before after : Builder}
      (hoperand : LowersValue symbols operand value before after) :
      LowersValue symbols (.neg operand) (.var (.temp after.freshTemp)) before
        (after.afterTemp.emit (.binary (.temp after.freshTemp) (.imm 0) .sub value))
  | arith {op : ArithOp} {left right : Expr} {leftValue rightValue : Value}
      {before between after : Builder}
      (hleft : LowersValue symbols left leftValue before between)
      (hright : LowersValue symbols right rightValue between after) :
      LowersValue symbols (.arith op left right) (.var (.temp after.freshTemp)) before
        (after.afterTemp.emit (.binary (.temp after.freshTemp) leftValue op rightValue))

/-- A comparison branched to those of its targets that are labels. -/
inductive LowersBranch (left : Value) (op : RelOp) (right : Value) :
    Targets → Builder → Builder → Prop
  | both (onTrue onFalse : Label) (builder : Builder) :
      LowersBranch left op right ⟨.label onTrue, .label onFalse⟩ builder
        ((builder.emit (.branch left op right onTrue true)).emit (.jump onFalse))
  | onTrue (target : Label) (builder : Builder) :
      LowersBranch left op right ⟨.label target, .fall⟩ builder
        (builder.emit (.branch left op right target true))
  | onFalse (target : Label) (builder : Builder) :
      LowersBranch left op right ⟨.fall, .label target⟩ builder
        (builder.emit (.branch left op right target false))

/-- Lowering a condition wrote the jumps to its targets. -/
inductive Expr.LowersCondition (symbols : Symbols) : Expr → Targets → Builder → Builder → Prop
  | and {left right : Expr} {targets : Targets} {before between after : Builder}
      (hleft : LowersCondition symbols left (.falseTo (before.exitLabel targets.onFalse))
        (before.openExit targets.onFalse) between)
      (hright : LowersCondition symbols right targets between after) :
      LowersCondition symbols (.and left right) targets before
        (after.closeExit targets.onFalse (before.exitLabel targets.onFalse))
  | or {left right : Expr} {targets : Targets} {before between after : Builder}
      (hleft : LowersCondition symbols left (.trueTo (before.exitLabel targets.onTrue))
        (before.openExit targets.onTrue) between)
      (hright : LowersCondition symbols right targets between after) :
      LowersCondition symbols (.or left right) targets before
        (after.closeExit targets.onTrue (before.exitLabel targets.onTrue))
  | not {operand : Expr} {targets : Targets} {before after : Builder}
      (hoperand : LowersCondition symbols operand targets.swap before after) :
      LowersCondition symbols (.not operand) targets before after
  | compare {op : RelOp} {left right : Expr} {leftValue rightValue : Value} {targets : Targets}
      {before between evaluated after : Builder}
      (hleft : left.LowersValue symbols leftValue before between)
      (hright : right.LowersValue symbols rightValue between evaluated)
      (hbranch : LowersBranch leftValue op rightValue targets evaluated after) :
      LowersCondition symbols (.compare op left right) targets before after
  | ident {name : String} {targets : Targets} {before after : Builder}
      (hlookup : symbols.lookup name = some .boolean)
      (hbranch : LowersBranch (.var (.named name)) .eq (.imm 1) targets before after) :
      LowersCondition symbols (.ident name) targets before after
  | boolJump {value : Bool} {targets : Targets} {target : Label} (builder : Builder)
      (htarget : (if value then targets.onTrue else targets.onFalse) = .label target) :
      LowersCondition symbols (.bool value) targets builder (builder.emit (.jump target))
  | boolFall {value : Bool} {targets : Targets} (builder : Builder)
      (htarget : (if value then targets.onTrue else targets.onFalse) = .fall) :
      LowersCondition symbols (.bool value) targets builder builder

/-- The tests of a `switch` were written, each with a fresh label. -/
inductive LowersTests (symbols : Symbols) (selector : Value) :
    List Case → List Label → Builder → Builder → Prop
  | nil (builder : Builder) : LowersTests symbols selector [] [] builder builder
  | cons {value : Expr} {body : List Stmt} {rest : List Case} {constant : Value}
      {labels : List Label} {before between after : Builder}
      (hvalue : value.LowersValue symbols constant before between)
      (hrest : LowersTests symbols selector rest labels
        (between.afterLabel.emit (.branch selector .eq constant between.freshLabel true)) after) :
      LowersTests symbols selector (⟨value, body⟩ :: rest) (between.freshLabel :: labels)
        before after

/-- What the statement rules speak about: a statement or a block with where it
continues, or the bodies of a `switch` with its exit. -/
inductive Piece where
  | stmt (single : Stmt) (continuation : Continuation)
  | block (body : List Stmt) (continuation : Continuation)
  | cases (branches : List Case) (exit : Label)

/-- Where the body of a case continues. -/
def caseContinuation (branch : Case) (rest : List Case) (exit : Label) : Continuation :=
  if rest.isEmpty || branch.endsWithBreak then .label exit else .fall

/-- Lowering a piece turned one builder into another. -/
inductive Lowers (symbols : Symbols) : Piece → Builder → Builder → Prop
  | declare (name : String) (type : DeclType) (continuation : Continuation) (builder : Builder) :
      Lowers symbols (.stmt (.declare name type) continuation) builder builder
  | declareEnum (name : String) (variants : List String) (continuation : Continuation)
      (builder : Builder) :
      Lowers symbols (.stmt (.declareEnum name variants) continuation) builder builder
  | block {body : List Stmt} {continuation : Continuation} {before after : Builder}
      (hbody : Lowers symbols (.block body continuation) before after) :
      Lowers symbols (.stmt (.block body) continuation) before after
  | assignNumber {target : String} {value : Expr} {source : Value} {continuation : Continuation}
      {before after : Builder}
      (hkind : symbols.lookup target = some .number ∨ symbols.lookup target = some .enumVar)
      (hvalue : value.LowersValue symbols source before after) :
      Lowers symbols (.stmt (.assign target value) continuation) before
        (after.emit (.assign (.named target) source))
  | assignBoolean {target : String} {value : Expr} {continuation : Continuation}
      {before tested placed : Builder}
      (hkind : symbols.lookup target = some .boolean)
      (hvalue : value.LowersCondition symbols (.falseTo (before.openExit continuation).freshLabel)
        (before.openExit continuation).afterLabel tested)
      (hplaced : placed = ((tested.emit (.assign (.named target) (.imm 1))).emit
        (.jump (before.exitLabel continuation))).mark (before.openExit continuation).freshLabel) :
      Lowers symbols (.stmt (.assign target value) continuation) before
        ((placed.emit (.assign (.named target) (.imm 0))).closeExit continuation
          (before.exitLabel continuation))
  | iteNone {condition : Expr} {continuation : Continuation} {before after : Builder}
      (hcondition : condition.LowersCondition symbols (.falseTo (before.exitLabel continuation))
        (before.openExit continuation) after) :
      Lowers symbols (.stmt (.ite condition none none) continuation) before
        (after.closeExit continuation (before.exitLabel continuation))
  | iteThen {condition : Expr} {thenBranch : Stmt} {continuation : Continuation}
      {before between after : Builder}
      (hcondition : condition.LowersCondition symbols (.falseTo (before.exitLabel continuation))
        (before.openExit continuation) between)
      (hthen : Lowers symbols (.stmt thenBranch continuation) between after) :
      Lowers symbols (.stmt (.ite condition (some thenBranch) none) continuation) before
        (after.closeExit continuation (before.exitLabel continuation))
  | iteElse {condition : Expr} {thenBranch elseBranch : Stmt} {continuation : Continuation}
      {before tested between placed after : Builder}
      (hcondition : condition.LowersCondition symbols
        (.falseTo (before.openExit continuation).freshLabel)
        (before.openExit continuation).afterLabel tested)
      (hthen : Lowers symbols (.stmt thenBranch (.label (before.exitLabel continuation)))
        tested between)
      (hplaced : placed = (between.emit (.jump (before.exitLabel continuation))).mark
        (before.openExit continuation).freshLabel)
      (helse : Lowers symbols (.stmt elseBranch continuation) placed after) :
      Lowers symbols (.stmt (.ite condition (some thenBranch) (some elseBranch)) continuation) before
        (after.closeExit continuation (before.exitLabel continuation))
  | whileLoop {condition : Expr} {body : Stmt} {continuation : Continuation}
      {before head tested after : Builder}
      (hhead : head = before.afterLabel.emit (.label before.freshLabel))
      (hcondition : condition.LowersCondition symbols (.falseTo (head.exitLabel continuation))
        (head.openExit continuation) tested)
      (hbody : Lowers symbols (.stmt body (.label before.freshLabel)) tested after) :
      Lowers symbols (.stmt (.whileLoop condition body) continuation) before
        ((after.emit (.jump before.freshLabel)).closeExit continuation
          (head.exitLabel continuation))
  | forLoop {init : Stmt} {condition : Expr} {update body : Stmt} {continuation : Continuation}
      {before started head tested between after : Builder}
      (hinit : Lowers symbols (.stmt init (.label before.freshLabel))
        before.afterLabel.afterLabel started)
      (hhead : head = started.emit (.label before.freshLabel))
      (hcondition : condition.LowersCondition symbols (.falseTo (head.exitLabel continuation))
        (head.openExit continuation) tested)
      (hbody : Lowers symbols (.stmt body (.label before.afterLabel.freshLabel)) tested between)
      (hupdate : Lowers symbols (.stmt update (.label before.freshLabel))
        (between.mark before.afterLabel.freshLabel) after) :
      Lowers symbols (.stmt (.forLoop init condition update body) continuation) before
        ((after.emit (.jump before.freshLabel)).closeExit continuation
          (head.exitLabel continuation))
  | switch {selector : Expr} {cases : List Case} {continuation : Continuation} {value : Value}
      {labels : List Label} {before selected tested inside after : Builder}
      (hcases : cases ≠ [])
      (hselector : selector.LowersValue symbols value (before.openExit continuation) selected)
      (htests : LowersTests symbols value cases labels selected tested)
      (hinside : inside = (tested.emit (.jump (before.exitLabel continuation))).pushSwitch
        ⟨before.exitLabel continuation, labels⟩)
      (hbodies : Lowers symbols (.cases cases (before.exitLabel continuation)) inside after)
      (hresolved : after.switches.head?.any SwitchLabels.isResolved) :
      Lowers symbols (.stmt (.switch selector cases) continuation) before
        (after.popSwitch.closeExit continuation (before.exitLabel continuation))
  | breakSwitch {labels : SwitchLabels} {outer : List SwitchLabels} {continuation : Continuation}
      {builder : Builder} (hswitch : builder.switches = labels :: outer) :
      Lowers symbols (.stmt .breakSwitch continuation) builder (builder.emit (.jump labels.exit))
  | blockNil (continuation : Continuation) (builder : Builder) :
      Lowers symbols (.block [] continuation) builder builder
  | blockLast {last : Stmt} {continuation : Continuation} {before after : Builder}
      (hlast : Lowers symbols (.stmt last continuation) before after) :
      Lowers symbols (.block [last] continuation) before after
  | blockCons {stmt next : Stmt} {rest : List Stmt} {continuation : Continuation}
      {before between after : Builder}
      (hstmt : Lowers symbols (.stmt stmt (.label before.freshLabel)) before.afterLabel between)
      (hrest : Lowers symbols (.block (next :: rest) continuation)
        (between.mark before.freshLabel) after) :
      Lowers symbols (.block (stmt :: next :: rest) continuation) before after
  | casesNil (exit : Label) (builder : Builder) :
      Lowers symbols (.cases [] exit) builder builder
  | casesCons {branch : Case} {rest : List Case} {exit switchExit label : Label}
      {pending : List Label} {outer : List SwitchLabels} {before placed between after : Builder}
      (hswitch : before.switches = ⟨switchExit, label :: pending⟩ :: outer)
      (hplaced : placed = { before with switches := ⟨switchExit, pending⟩ :: outer }.mark label)
      (hbody : Lowers symbols (.block branch.body (caseContinuation branch rest exit))
        placed between)
      (hrest : Lowers symbols (.cases rest exit) between after) :
      Lowers symbols (.cases (branch :: rest) exit) before after

end ThreeAddress
