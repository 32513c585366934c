import ThreeAddress.Proofs.StepJudgements

/-!
Lowering accepts exactly the well-formed programs. A judged step keeps what its judgement
says on every builder that it is meant for, so lowering succeeds if the program makes
sense, and otherwise fails with an error that names a fault of the program. The errors
that stand for a mistake of lowering itself never arise: a condition always has a label
to go to, and every case of a `switch` finds its own.
-/

namespace ThreeAddress

open Build

/-- The errors by which lowering refuses a program. All others come from the
machine, or would be mistakes of lowering. -/
def Error.IsSourceFault : Error → Prop
  | .undeclared _ | .misused .. | .numberAsCondition | .conditionAsNumber | .strayBreak
  | .danglingElse | .emptySwitch => True
  | .noBranchTarget _ | .unplacedCases | .noRegisters | .missingOperand .. | .notStraightLine .. =>
      False

theorem Symbols.Faults.isSourceFault {symbols : Symbols} {error : Error}
    (h : symbols.Faults error) : error.IsSourceFault := by
  cases error with
  | undeclared | misused | numberAsCondition | conditionAsNumber | strayBreak | danglingElse
  | emptySwitch => trivial
  | noBranchTarget | unplacedCases | noRegisters | missingOperand | notStraightLine => exact h

/-- Whether code is written for a case of some `switch`. -/
def Builder.inCase (builder : Builder) : Bool :=
  !builder.switches.isEmpty

/-- How many case labels of the innermost `switch` are not taken yet. -/
def waitingCases : List SwitchLabels → Nat
  | [] => 0
  | labels :: _ => labels.pending.length

/-- The open switches after labels of the innermost one are taken. -/
def takeCases (count : Nat) : List SwitchLabels → List SwitchLabels
  | [] => []
  | labels :: outer => { labels with pending := labels.pending.drop count } :: outer

@[simp] theorem takeCases_zero (switches : List SwitchLabels) :
    takeCases 0 switches = switches := by
  cases switches <;> rfl

theorem takeCases_add (count more : Nat) (switches : List SwitchLabels) :
    takeCases (count + more) switches = takeCases more (takeCases count switches) := by
  cases switches <;> simp [takeCases]

theorem waitingCases_takeCases (count : Nat) (switches : List SwitchLabels) :
    waitingCases (takeCases count switches) = waitingCases switches - count := by
  cases switches <;> simp [takeCases, waitingCases]

theorem isEmpty_takeCases (count : Nat) (switches : List SwitchLabels) :
    (takeCases count switches).isEmpty = switches.isEmpty := by
  cases switches <;> rfl

/-- A run ended as judged: it succeeded if its part of the program is accepted, and left
the switches given, or it found a fault. -/
inductive Verdict (symbols : Symbols) (accepted : Prop) (switches : List SwitchLabels)
    {α : Type} : EStateM.Result Error Builder α → Prop
  | accept {value : α} {after : Builder} (h : accepted) (hswitches : after.switches = switches) :
      Verdict symbols accepted switches (.ok value after)
  | reject {error : Error} {after : Builder} (h : ¬ accepted) (hfault : symbols.Faults error) :
      Verdict symbols accepted switches (.error error after)

namespace Verdict

variable {symbols : Symbols} {α β : Type} {first second accepted : Prop}
  {switches : List SwitchLabels} {before : Builder}

theorem congr {result : EStateM.Result Error Builder α}
    (h : Verdict symbols first switches result) (hiff : first ↔ second) :
    Verdict symbols second switches result := by
  cases h with
  | accept h hswitches => exact .accept (hiff.mp h) hswitches
  | reject h hfault => exact .reject (fun hsecond => h (hiff.mpr hsecond)) hfault

/-- The second of two steps is run only where the first one led. -/
theorem bind {between : List SwitchLabels} {step : Build α} {next : α → Build β}
    (hstep : Verdict symbols first between (step before))
    (hnext : ∀ value reached, step before = .ok value reached → reached.switches = between →
      Verdict symbols second switches (next value reached)) :
    Verdict symbols (first ∧ second) switches ((step >>= next) before) := by
  cases hrun : step before with
  | ok value reached =>
    rw [hrun] at hstep
    cases hstep with
    | accept hfirst hswitches =>
      rw [bind_of_ok hrun]
      exact (hnext value reached hrun hswitches).congr (by simp [hfirst])
  | error e after =>
    rw [hrun] at hstep
    cases hstep with
    | reject hfirst hfault =>
      rw [bind_of_error hrun]
      exact .reject (fun h => hfirst h.1) hfault

/-- A `switch` is closed in order if all of its case labels were taken. -/
theorem inSwitch {labels : SwitchLabels} {step : Build Unit}
    (h : Verdict symbols accepted
      (takeCases labels.pending.length (before.pushSwitch labels).switches)
      (step (before.pushSwitch labels))) :
    Verdict symbols accepted before.switches (inSwitch labels step before) := by
  cases hrun : step (before.pushSwitch labels) with
  | error e after =>
    rw [hrun] at h
    cases h with
    | reject h hfault =>
      rw [inSwitch_of_error hrun]
      exact .reject h hfault
  | ok value after =>
    rw [hrun] at h
    cases h with
    | accept h hswitches =>
      have hlast : after.switches = ⟨labels.exit, []⟩ :: before.switches := by
        simpa [takeCases, Builder.pushSwitch] using hswitches
      have hclosed : Build.inSwitch labels step before = .ok () after.popSwitch :=
        inSwitch_eq_ok.mpr ⟨after, hrun, by simp [hlast, SwitchLabels.isResolved], rfl⟩
      rw [hclosed]
      exact .accept h (by simp [Builder.popSwitch, hlast])

end Verdict

/-- A step that needs no case labels beyond those that wait is judged rightly. -/
theorem Build.Judged.verdict {symbols : Symbols} {inCase : Bool} {takes : Nat} {accepted : Prop}
    {α : Type} {step : Build α} (h : Judged symbols True inCase takes accepted step)
    (before : Builder) (hin : before.inCase = inCase)
    (htakes : takes ≤ waitingCases before.switches) :
    Verdict symbols accepted (takeCases takes before.switches) (step before) := by
  induction h generalizing before with
  | pure | freshLabel | freshTemp | emit => exact .accept trivial (takeCases_zero _).symm
  | mark label => exact .accept trivial (by simp)
  | throw h => exact .reject (h trivial).2 (h trivial).1
  | breakTarget =>
    cases hswitches : before.switches with
    | nil =>
      rw [breakTarget_eq_error hswitches]
      exact .reject (by simp [← hin, Builder.inCase, hswitches]) trivial
    | cons labels outer =>
      rw [breakTarget_eq_ok.mpr ⟨labels, outer, hswitches, rfl, rfl⟩]
      exact .accept (by simp [← hin, Builder.inCase, hswitches]) (by simp [hswitches])
  | nextCaseLabel =>
    cases hswitches : before.switches with
    | nil => simp [waitingCases, hswitches] at htakes
    | cons labels outer =>
      obtain ⟨exit, pending⟩ := labels
      have hlength : pending ≠ [] := by
        rintro rfl
        simp [waitingCases, hswitches] at htakes
      obtain ⟨label, pending, rfl⟩ := List.exists_cons_of_ne_nil hlength
      rw [nextCaseLabel_eq_ok.mpr ⟨exit, pending, outer, hswitches, rfl⟩]
      exact .accept trivial rfl
  | bind hstep hnext ihstep ihnext =>
    refine (ihstep before hin (by omega)).bind ?_
    intro value reached hrun hswitches
    -- What the first step took is gone when the second one starts.
    rw [takeCases_add, ← hswitches]
    apply ihnext value before reached hrun
    · rw [← hin, Builder.inCase, Builder.inCase, hswitches, isEmpty_takeCases]
    · rw [hswitches, waitingCases_takeCases]
      omega
  | inSwitch hstep ih =>
    rw [takeCases_zero]
    exact .inSwitch (ih _ rfl (Nat.le_refl _))
  | congr _ hiff ih => exact (ih before hin htakes).congr hiff

theorem Program.verdict_lower (program : Program) (symbols : Symbols) :
    Verdict symbols (program.WellFormed symbols) [] (program.lower symbols .empty) :=
  (program.judged_lower symbols).verdict .empty rfl (Nat.le_refl 0)

/-- Whatever lowering holds against a program is a fault by its table. -/
theorem Program.faults_of_toCode {program : Program} {symbols : Symbols} {error : Error}
    (h : program.toCode symbols = .error error) : symbols.Faults error := by
  have hverdict := program.verdict_lower symbols
  unfold toCode at h
  cases hrun : program.lower symbols .empty with
  | ok value after => simp [hrun] at h
  | error e after =>
    obtain rfl : e = error := by simpa [hrun] using h
    rw [hrun] at hverdict
    cases hverdict with
    | reject _ hfault => exact hfault

/-- Lowering succeeds exactly for well-formed programs. It refuses all others for
a fault of their own, and never because a condition has no label to go to or a
case label is left over. -/
theorem Program.toCode_succeeds_iff (program : Program) (symbols : Symbols) :
    ((∃ code, program.toCode symbols = .ok code) ↔ program.WellFormed symbols) ∧
      ∀ error, program.toCode symbols = .error error → error.IsSourceFault := by
  refine ⟨?_, fun error h => (faults_of_toCode h).isSourceFault⟩
  have hverdict := program.verdict_lower symbols
  unfold toCode
  cases hrun : program.lower symbols .empty with
  | ok value after =>
    rw [hrun] at hverdict
    cases hverdict with
    | accept h => simp [h]
  | error e after =>
    rw [hrun] at hverdict
    cases hverdict with
    | reject h => simp [h]

-- A loop in a case may break, a branch that never runs is checked all the same.
example : Program.WellFormed
    ⟨[.switch (.int 1) [⟨.bool true,
      [.whileLoop (.compare .lt (.int 1) (.neg (.int 2))) .breakSwitch]⟩]]⟩ ∅ := by decide

example : ¬ Program.WellFormed
    ⟨[.ite (.bool false) (some (.assign "x" (.int 1))) none]⟩ ∅ := by decide

end ThreeAddress
