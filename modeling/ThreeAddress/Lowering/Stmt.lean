import ThreeAddress.Lowering.Expr

/-!
Lowering of statements and programs. A statement is given where control goes
after it and may jump there directly; if its last instruction runs on, the code
that follows must be that place. So every statement of a block but the last gets
a fresh label behind it, which is written only if something jumps to it.
-/

namespace ThreeAddress

open Build

/-- Assignment. A Boolean has no operand form, so its condition selects one of
two constant assignments. -/
def lowerAssign (symbols : Symbols) (target : String) (value : Expr)
    (continuation : Continuation) : Build Unit := do
  match ← ofExcept (symbols.resolve target) with
  | .number | .enumVar =>
      let source ← value.lowerValue symbols
      emit (.assign (.named target) source)
  | .boolean =>
      withExit continuation fun after => do
        let onFalse ← freshLabel
        value.lowerCondition symbols (.falseTo onFalse)
        emit (.assign (.named target) (.imm 1))
        emit (.jump after)
        mark onFalse
        emit (.assign (.named target) (.imm 0))
  | kind => throw (.misused target kind .assignmentTarget)

/-- The tests of a `switch`, one for each case in order, all against the same
operand. Each jumps to a label of its own, which joins the waiting ones. -/
def lowerCaseTests (symbols : Symbols) (selector : Value) (labels : SwitchLabels) :
    List Case → Build SwitchLabels
  | [] => return labels
  | ⟨value, _⟩ :: rest => do
      let constant ← value.lowerValue symbols
      let target ← freshLabel
      emit (.branch selector .eq constant target true)
      lowerCaseTests symbols selector (labels.push target) rest

mutual

def Stmt.lower (symbols : Symbols) : Stmt → Continuation → Build Unit
  | .declare .., _ | .declareEnum .., _ => return
  | .block body, continuation => lowerBlock symbols body continuation
  | .assign target value, continuation => lowerAssign symbols target value continuation
  | .ite condition none none, continuation =>
      withExit continuation fun exit =>
        condition.lowerCondition symbols (.falseTo exit)
  | .ite _ none (some _), _ => throw .danglingElse
  | .ite condition (some thenBranch) none, continuation =>
      withExit continuation fun exit => do
        condition.lowerCondition symbols (.falseTo exit)
        thenBranch.lower symbols continuation
  | .ite condition (some thenBranch) (some elseBranch), continuation =>
      withExit continuation fun exit => do
        let onFalse ← freshLabel
        condition.lowerCondition symbols (.falseTo onFalse)
        thenBranch.lower symbols (.label exit)
        emit (.jump exit)
        mark onFalse
        elseBranch.lower symbols continuation
  | .whileLoop condition body, continuation => do
      let start ← freshLabel
      markHead start
      withExit continuation fun exit => do
        condition.lowerCondition symbols (.falseTo exit)
        body.lower symbols (.label start)
        emit (.jump start)
  | .forLoop init condition update body, continuation => do
      let start ← freshLabel
      let advance ← freshLabel
      init.lower symbols (.label start)
      markHead start
      withExit continuation fun exit => do
        condition.lowerCondition symbols (.falseTo exit)
        body.lower symbols (.label advance)
        mark advance
        update.lower symbols (.label start)
        emit (.jump start)
  | .switch selector cases, continuation => do
      if cases.isEmpty then
        throw .emptySwitch
      withExit continuation fun exit => do
        let value ← selector.lowerValue symbols
        let labels ← lowerCaseTests symbols value (.new exit) cases
        emit (.jump exit)
        inSwitch labels (lowerCases symbols cases exit)
  | .breakSwitch, _ => do
      emit (.jump (← breakTarget))

/-- Lowers a block. The last statement continues where the block does. -/
def lowerBlock (symbols : Symbols) : List Stmt → Continuation → Build Unit
  | [], _ => return
  | [last], continuation => last.lower symbols continuation
  | stmt :: next :: rest, continuation => do
      let after ← freshLabel
      stmt.lower symbols (.label after)
      mark after
      lowerBlock symbols (next :: rest) continuation

/-- Places the bodies of a `switch` one behind the other. A body that does not
end in a break runs on into the next one. -/
def lowerCases (symbols : Symbols) : List Case → Label → Build Unit
  | [], _ => return
  | ⟨value, body⟩ :: rest, exit => do
      mark (← nextCaseLabel)
      lowerBlock symbols body
        (if rest.isEmpty || (Case.mk value body).endsWithBreak then .label exit else .fall)
      lowerCases symbols rest exit

end

namespace Program

def lower (symbols : Symbols) (program : Program) : Build Unit := do
  let exit ← freshLabel
  lowerBlock symbols program.body (.label exit)
  mark exit

/-- The code of a whole program. -/
def toCode (program : Program) (symbols : Symbols) : Except Error Code :=
  match program.lower symbols .empty with
  | .ok _ builder => .ok builder.code.toList
  | .error e _ => .error e

end Program

end ThreeAddress
