import ThreeAddress.Proofs.StepTraces

/-!
Builders in use. A caller may ask one builder for anything, in any order, and may
go on after a failure. Nothing that was asked for before is lost by that, and no
failure leaves a `switch` open behind it.
-/

namespace ThreeAddress

open Build

/-- What an action returns when it succeeds. -/
inductive Answer where
  | nothing
  | label (label : Label)
  | temp (temp : Temp)
  | value (value : Value)

mutual

/-- What may be asked of a builder. Labels, continuations and targets are the
caller's, and need not be the builder's own. -/
inductive Action where
  | freshLabel
  | freshTemp
  | emit (instr : Instr)
  | jump (continuation : Continuation)
  | mark (label : Label)
  | markHead (label : Label)
  | lowerValue (expr : Expr)
  | lowerCondition (expr : Expr) (targets : Targets)
  | lowerStmt (stmt : Stmt) (continuation : Continuation)
  | lowerBlock (body : List Stmt) (continuation : Continuation)
  | lowerProgram (program : Program)
  | withExit (continuation : Continuation) (routine : Label → Routine)

/-- What a caller does with the label that `withExit` provides. The next action may
depend on what the last one returned, or on its failure, which need not be the
failure of the routine. -/
inductive Routine where
  | done
  | fail (error : Error)
  | perform (action : Action) (next : Except Error Answer → Routine)

end

mutual

def Action.run (symbols : Symbols) : Action → Build Answer
  | .freshLabel => return .label (← Build.freshLabel)
  | .freshTemp => return .temp (← Build.freshTemp)
  | .emit instr => do
      Build.emit instr
      return .nothing
  | .jump continuation => do
      Build.jump continuation
      return .nothing
  | .mark label => do
      Build.mark label
      return .nothing
  | .markHead label => do
      Build.markHead label
      return .nothing
  | .lowerValue expr => return .value (← expr.lowerValue symbols)
  | .lowerCondition expr targets => do
      expr.lowerCondition symbols targets
      return .nothing
  | .lowerStmt stmt continuation => do
      stmt.lower symbols continuation
      return .nothing
  | .lowerBlock body continuation => do
      ThreeAddress.lowerBlock symbols body continuation
      return .nothing
  | .lowerProgram program => do
      program.lower symbols
      return .nothing
  | .withExit continuation routine => do
      Build.withExit continuation fun exit => (routine exit).run symbols
      return .nothing

def Routine.run (symbols : Symbols) : Routine → Build Unit
  | .done => return
  | .fail error => throw error
  | .perform action next => do
      let outcome ← attempt (action.run symbols)
      (next outcome).run symbols

end

/-- Actions on one builder, one after the other. When one of them fails, the next
one has its turn all the same. -/
def session (symbols : Symbols) : List Action → Build Unit
  | [] => return
  | action :: rest => do
      let _ ← attempt (action.run symbols)
      session symbols rest

variable (symbols : Symbols)

mutual

theorem Action.composed_run (action : Action) : Composed false (action.run symbols) := by
  cases action with
  | freshLabel => exact Composed.freshLabel.bind fun _ => .pure _
  | freshTemp => exact Composed.freshTemp.bind fun _ => .pure _
  | emit instr | markHead label => exact (Composed.emit _).bind fun _ => .pure _
  | jump continuation =>
    have hjudged : Judged symbols True false 0 True (Build.jump continuation) :=
      .jump continuation
    exact hjudged.composed_of_zero.bind fun _ => .pure _
  | mark label => exact (Composed.mark label).bind fun _ => .pure _
  | lowerValue expr =>
    have hjudged : Judged symbols True false 0 _ (expr.lowerValue symbols) :=
      expr.judged_lowerValue
    exact hjudged.composed_of_zero.bind fun _ => .pure _
  | lowerCondition expr targets =>
    -- The caller's targets may both fall through, and then failures are not judged.
    have hjudged : Judged symbols targets.IsConcrete false 0 _
        (expr.lowerCondition symbols targets) := expr.judged_lowerCondition id
    exact hjudged.composed_of_zero.bind fun _ => .pure _
  | lowerStmt stmt continuation =>
    have hjudged := (judged_lower symbols).1 stmt continuation false
    exact hjudged.composed_of_zero.bind fun _ => .pure _
  | lowerBlock body continuation =>
    have hjudged := (judged_lower symbols).2.2 body continuation false
    exact hjudged.composed_of_zero.bind fun _ => .pure _
  | lowerProgram program =>
    exact (program.judged_lower symbols).composed_of_zero.bind fun _ => .pure _
  | withExit continuation routine =>
    exact (Composed.withExit continuation fun exit => (routine exit).composed_run).bind
      fun _ => .pure _

theorem Routine.composed_run (routine : Routine) : Composed false (routine.run symbols) := by
  cases routine with
  | done => exact .pure ()
  | fail error => exact .throw error
  | perform action next =>
    exact (action.composed_run).attempt.bind fun outcome => (next outcome).composed_run

end

theorem composed_session (actions : List Action) : Composed false (session symbols actions) := by
  induction actions with
  | nil => exact .pure ()
  | cons action rest ih => exact (action.composed_run symbols).attempt.bind fun _ => ih

/-- A session never fails itself. -/
theorem exists_session (actions : List Action) (before : Builder) :
    ∃ after, session symbols actions before = .ok () after := by
  induction actions generalizing before with
  | nil => exact ⟨before, rfl⟩
  | cons action rest ih =>
    have hattempt : ∃ outcome between,
        attempt (action.run symbols) before = .ok outcome between := by
      unfold attempt
      cases action.run symbols before <;> exact ⟨_, _, rfl⟩
    obtain ⟨outcome, between, hrun⟩ := hattempt
    rw [session, bind_of_ok hrun]
    exact ih between

theorem session_append {earlier : List Action} {before between : Builder}
    (h : session symbols earlier before = .ok () between) (later : List Action) :
    session symbols (earlier ++ later) before = session symbols later between := by
  induction earlier generalizing before with
  | nil =>
    obtain rfl : before = between := (pure_eq_ok.mp h).2
    rfl
  | cons action rest ih =>
    obtain ⟨outcome, reached, hrun, hrest⟩ := bind_eq_ok.mp h
    rw [List.cons_append, session, bind_of_ok hrun]
    exact ih hrest

/-- A builder that records what its code jumps to still does so after a session, and
is in the same open switches as before. -/
theorem session_advances {actions : List Action} {before after : Builder}
    (h : session symbols actions before = .ok () after) :
    ∃ labels temps, Traced false (session symbols actions) before labels temps (.ok () after) ∧
      before.Advances false labels temps after := by
  obtain ⟨labels, temps, htraced⟩ := composed_session symbols actions before
  rw [h] at htraced
  exact ⟨labels, temps, htraced, htraced.advances⟩

theorem breakSwitch_lower_eq_error {before : Builder} (h : before.switches = [])
    (continuation : Continuation) :
    Stmt.lower symbols .breakSwitch continuation before = .error .strayBreak before := by
  rw [Stmt.lower]
  exact bind_of_error (breakTarget_eq_error h)

/-- A builder survives failures. Every action, on any builder and however it ends,
leaves the open switches with all their waiting labels as they were. On a new
builder, whatever is done later keeps the code that was written earlier, the labels
on record are those that the code jumps to, no label and no temporary is ever handed
out twice, and a break outside of every `switch` is refused. -/
theorem session_survives_failures :
    (∀ action before,
      (builderOf (Action.run symbols action before)).switches = before.switches) ∧
    ∀ earlier later, ∃ between after,
      session symbols earlier .empty = .ok () between ∧
      session symbols later between = .ok () after ∧
      session symbols (earlier ++ later) .empty = .ok () after ∧
      between.code.toList <+: after.code.toList ∧
      (∀ label : Label, label.number ∈ after.referenced ↔
        ∃ instr ∈ after.code.toList, instr.target? = some label) ∧
      after.switches = between.switches ∧
      (∃ labels temps,
        Traced false (session symbols (earlier ++ later)) .empty labels temps (.ok () after)) ∧
      (∀ labels temps,
        Traced false (session symbols (earlier ++ later)) .empty labels temps (.ok () after) →
        labels.Nodup ∧ labels.length = after.labels ∧
        temps.Nodup ∧ temps.length = after.temps) ∧
      ∀ continuation,
        Stmt.lower symbols .breakSwitch continuation after = .error .strayBreak after := by
  constructor
  · intro action before
    obtain ⟨labels, temps, htraced⟩ := action.composed_run symbols before
    exact htraced.advances.switches rfl
  · intro earlier later
    obtain ⟨between, hearlier⟩ := exists_session symbols earlier .empty
    obtain ⟨after, hlater⟩ := exists_session symbols later between
    have hboth := (session_append symbols hearlier later).trans hlater
    obtain ⟨_, _, _, hfirst⟩ := session_advances symbols hearlier
    obtain ⟨_, _, _, hsecond⟩ := session_advances symbols hlater
    obtain ⟨labels, temps, htraced, hall⟩ := session_advances symbols hboth
    have hrecords : after.RecordsTargets := hall.records (by
      intro label
      simp [Builder.empty, Builder.targets, Code.targets])
    have hclosed : after.switches = [] := hall.switches rfl
    refine ⟨between, after, hearlier, hlater, hboth, hsecond.code, ?_, hsecond.switches rfl,
      ⟨labels, temps, htraced⟩, ?_, breakSwitch_lower_eq_error symbols hclosed⟩
    · intro label
      rw [hrecords label]
      exact Code.mem_targets
    · intro labels temps htraced
      have hadvances : Builder.empty.Advances false labels temps after := htraced.advances
      have hlabels : after.labels = 0 + labels.length := hadvances.labels_count
      have htemps : after.temps = 0 + temps.length := hadvances.temps_count
      exact ⟨hadvances.labels_nodup, by omega, hadvances.temps_nodup, by omega⟩

-- The inner switch fails in its second case. The nine instructions written until
-- then stay, and the jump that follows comes behind them.
example : (builderOf (session ∅
    [.lowerStmt (.switch (.int 1) [⟨.int 1, [.switch (.int 2) [⟨.int 2, [.breakSwitch]⟩,
      ⟨.int 3, [.assign "x" (.int 1)]⟩]]⟩]) .fall, .jump (.label ⟨7⟩)]
    .empty)).code.toList.drop 8 = [.label ⟨3⟩, .jump ⟨7⟩] := by decide +kernel

end ThreeAddress
