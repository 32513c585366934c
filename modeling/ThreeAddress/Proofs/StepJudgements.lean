import ThreeAddress.Proofs.WellFormed

/-!
Steps of lowering, judged without running them. A judgement says what must make sense
for a step to succeed, and how many labels the step takes from the innermost open
`switch`. There is one rule for each way of making a step, and lowering is judged by
these rules once. What holds of all its runs, successful or not, then follows by
induction over the rules.
-/

namespace ThreeAddress

/-- What lowering may hold against a program. Whatever such an error says of a name is
true of the table. All other errors come from the machine, or would be mistakes of
lowering itself. -/
def Symbols.Faults (symbols : Symbols) : Error → Prop
  | .undeclared name =>
      symbols.lookup name = none ∨
        (symbols.lookup name = some .enumVariant ∧ symbols.ordinal? name = none)
  | .misused name kind _ => symbols.lookup name = some kind
  | .numberAsCondition | .conditionAsNumber | .strayBreak | .danglingElse | .emptySwitch => True
  | .noBranchTarget _ | .unplacedCases | .noRegisters | .missingOperand .. | .notStraightLine .. =>
      False

/-- A condition with these targets has a label to go to. -/
def Targets.IsConcrete (targets : Targets) : Prop :=
  targets.onTrue ≠ .fall ∨ targets.onFalse ≠ .fall

theorem Targets.isConcrete_falseTo (target : Label) : (falseTo target).IsConcrete :=
  .inr (by simp [falseTo])

theorem Targets.isConcrete_trueTo (target : Label) : (trueTo target).IsConcrete :=
  .inl (by simp [trueTo])

theorem Targets.IsConcrete.swap {targets : Targets} (h : targets.IsConcrete) :
    targets.swap.IsConcrete :=
  Or.symm h

namespace Build

/-- A step succeeds exactly if `accepted`, and otherwise fails with a fault of the
program. It is meant for a place in a case of a `switch` or not, as `inCase` says, and
takes `takes` labels from the innermost open one. When a step fails is judged only
under the condition `sure`: without it, any error may be thrown. -/
inductive Judged (symbols : Symbols) (sure : Prop) :
    Bool → Nat → Prop → {α : Type} → Build α → Prop
  | pure {inCase : Bool} {α : Type} (value : α) :
      Judged symbols sure inCase 0 True (pure value)
  | throw {inCase : Bool} {accepted : Prop} {α : Type} {error : Error}
      (h : sure → symbols.Faults error ∧ ¬ accepted) :
      Judged symbols sure inCase 0 accepted (throw error : Build α)
  | freshLabel {inCase : Bool} : Judged symbols sure inCase 0 True freshLabel
  | freshTemp {inCase : Bool} : Judged symbols sure inCase 0 True freshTemp
  | emit {inCase : Bool} (instr : Instr) : Judged symbols sure inCase 0 True (emit instr)
  | mark {inCase : Bool} (label : Label) : Judged symbols sure inCase 0 True (mark label)
  | breakTarget {inCase : Bool} : Judged symbols sure inCase 0 (inCase = true) breakTarget
  | nextCaseLabel : Judged symbols sure true 1 True nextCaseLabel
  | bind {inCase : Bool} {takes more : Nat} {first second : Prop} {α β : Type} {step : Build α}
      {next : α → Build β} (hstep : Judged symbols sure inCase takes first step)
      (hnext : ∀ value before after, step before = .ok value after →
        Judged symbols sure inCase more second (next value)) :
      Judged symbols sure inCase (takes + more) (first ∧ second) (step >>= next)
  | inSwitch {inCase : Bool} {accepted : Prop} {labels : SwitchLabels} {step : Build Unit}
      (hstep : Judged symbols sure true labels.pending.length accepted step) :
      Judged symbols sure inCase 0 accepted (inSwitch labels step)
  | congr {inCase : Bool} {takes : Nat} {first second : Prop} {α : Type} {step : Build α}
      (h : Judged symbols sure inCase takes first step) (hiff : first ↔ second) :
      Judged symbols sure inCase takes second step

namespace Judged

variable {symbols : Symbols} {sure accepted first second : Prop} {inCase : Bool} {takes : Nat}
  {α β : Type} {step : Build α} {next : α → Build β}

theorem refuse (error : Error) (hfault : symbols.Faults error) (h : ¬ accepted) :
    Judged symbols sure inCase 0 accepted (MonadExcept.throw error : Build α) :=
  .throw fun _ => ⟨hfault, h⟩

/-- Two steps in a row accept what both accept. -/
theorem both (hstep : Judged symbols sure inCase 0 first step)
    (hnext : ∀ value, Judged symbols sure inCase takes second (next value)) :
    Judged symbols sure inCase takes (first ∧ second) (step >>= next) := by
  have hboth : Judged symbols sure inCase (0 + takes) (first ∧ second) (step >>= next) :=
    hstep.bind fun value _ _ _ => hnext value
  rwa [Nat.zero_add] at hboth

/-- A step that cannot fail leaves the judgement to the next one. -/
theorem andThen (hstep : Judged symbols sure inCase 0 True step)
    (hnext : ∀ value, Judged symbols sure inCase takes accepted (next value)) :
    Judged symbols sure inCase takes accepted (step >>= next) :=
  (hstep.both hnext).congr (iff_of_eq (true_and accepted))

/-- What cannot fail any more keeps the judgement. -/
theorem followed (hstep : Judged symbols sure inCase 0 accepted step)
    (hnext : ∀ value, Judged symbols sure inCase 0 True (next value)) :
    Judged symbols sure inCase 0 accepted (step >>= next) :=
  (hstep.both hnext).congr (iff_of_eq (and_true accepted))

theorem jump (continuation : Continuation) :
    Judged symbols sure inCase 0 True (jump continuation) := by
  cases continuation with
  | fall => exact .pure ()
  | label target => exact .emit _

theorem withExit (continuation : Continuation) {step : Label → Build α}
    (hstep : ∀ exit, Judged symbols sure inCase 0 accepted (step exit)) :
    Judged symbols sure inCase 0 accepted (withExit continuation step) := by
  cases continuation with
  | label exit => exact hstep exit
  | fall =>
    refine Judged.freshLabel.andThen fun exit => (hstep exit).followed fun _ => ?_
    exact (Judged.mark exit).andThen fun _ => .pure _

/-- A name must be declared, and its kind decides the rest. -/
theorem resolve {name : String} {next : SymbolKind → Build α}
    (hnone : symbols.lookup name = none → ¬ accepted)
    (hsome : ∀ kind, symbols.lookup name = some kind →
      Judged symbols sure inCase 0 accepted (next kind)) :
    Judged symbols sure inCase 0 accepted (ofExcept (symbols.resolve name) >>= next) := by
  unfold Symbols.resolve
  cases hlookup : symbols.lookup name with
  | none => exact .refuse (.undeclared name) (.inl hlookup) (hnone hlookup)
  | some kind => exact hsome kind hlookup

end Judged

end Build

open Build

variable {symbols : Symbols} {sure : Prop} {inCase : Bool}

theorem Expr.judged_lowerValue (expr : Expr) :
    Judged symbols sure inCase 0 (expr.IsValue symbols) (expr.lowerValue symbols) := by
  induction expr with
  | int | bool => exact .pure _
  | ident name =>
    refine .resolve ?_ ?_
    · intro hnone
      simp [IsValue, Symbols.IsVariable, Symbols.IsVariant, hnone]
    · intro kind hkind
      cases kind with
      | number | boolean | enumVar =>
        exact (Judged.pure _).congr (by simp [IsValue, Symbols.IsVariable, hkind])
      | enumType =>
        exact .refuse _ hkind (by simp [IsValue, Symbols.IsVariable, Symbols.IsVariant, hkind])
      | enumVariant =>
        simp only [Symbols.resolveOrdinal]
        cases hordinal : symbols.ordinal? name with
        | some ordinal =>
          exact (Judged.pure _).congr (by simp [IsValue, Symbols.IsVariant, hkind, hordinal])
        | none =>
          refine .refuse (.undeclared name) (.inr ⟨hkind, hordinal⟩) ?_
          simp [IsValue, Symbols.IsVariable, Symbols.IsVariant, hkind, hordinal]
  | neg operand ih =>
    exact ih.followed fun _ => Judged.freshTemp.andThen fun _ =>
      (Judged.emit _).andThen fun _ => .pure _
  | arith op left right ihl ihr =>
    exact ihl.both fun _ => ihr.followed fun _ => Judged.freshTemp.andThen fun _ =>
      (Judged.emit _).andThen fun _ => .pure _
  | compare | and | or | not => exact .refuse _ trivial id

theorem Expr.judged_lowerBranch {targets : Targets} (htargets : sure → targets.IsConcrete)
    (left : Value) (op : RelOp) (right : Value) (source : BranchSource) :
    Judged symbols sure inCase 0 True (lowerBranch left op right targets source) := by
  obtain ⟨onTrue | onTrue, onFalse | onFalse⟩ := targets
  · refine .throw fun hsure => absurd (htargets hsure) ?_
    simp [Targets.IsConcrete]
  · exact .emit _
  · exact .emit _
  · exact (Judged.emit _).andThen fun _ => .emit _

/-- As long as one target is a label, so is one of each part's targets. -/
theorem Expr.judged_lowerCondition (expr : Expr) {targets : Targets}
    (htargets : sure → targets.IsConcrete) :
    Judged symbols sure inCase 0 (expr.IsCondition symbols)
      (expr.lowerCondition symbols targets) := by
  induction expr generalizing targets with
  | and left right ihl ihr =>
    exact .withExit _ fun exit => (ihl fun _ => Targets.isConcrete_falseTo exit).both fun _ =>
      ihr htargets
  | or left right ihl ihr =>
    exact .withExit _ fun exit => (ihl fun _ => Targets.isConcrete_trueTo exit).both fun _ =>
      ihr htargets
  | not operand ih => exact ih fun hsure => (htargets hsure).swap
  | compare op left right =>
    exact left.judged_lowerValue.both fun _ => right.judged_lowerValue.followed fun _ =>
      judged_lowerBranch htargets _ op _ _
  | ident name =>
    refine .resolve ?_ ?_
    · intro hnone
      simp [IsCondition, hnone]
    · intro kind hkind
      cases kind with
      | boolean =>
        exact (judged_lowerBranch htargets _ _ _ _).congr (by simp [IsCondition, hkind])
      | number | enumType | enumVariant | enumVar =>
        exact .refuse _ hkind (by simp [IsCondition, hkind])
  | bool value => exact .jump _
  | int | neg | arith => exact .refuse _ trivial id

theorem judged_lowerAssign (target : String) (value : Expr) (continuation : Continuation) :
    Judged symbols sure inCase 0 (symbols.Assignable target value)
      (lowerAssign symbols target value continuation) := by
  refine .resolve ?_ ?_
  · intro hnone
    simp [Symbols.Assignable, hnone]
  · intro kind hkind
    cases kind with
    | number | enumVar =>
      refine Judged.congr ?_ (by simp [Symbols.Assignable, hkind] : value.IsValue symbols ↔ _)
      exact value.judged_lowerValue.followed fun _ => .emit _
    | boolean =>
      refine Judged.congr ?_ (by simp [Symbols.Assignable, hkind] : value.IsCondition symbols ↔ _)
      refine .withExit _ fun after => Judged.freshLabel.andThen fun onFalse => ?_
      refine (value.judged_lowerCondition fun _ => Targets.isConcrete_falseTo onFalse).followed
        fun _ => (Judged.emit _).andThen fun _ => ?_
      exact (Judged.emit _).andThen fun _ => (Judged.mark onFalse).andThen fun _ => .emit _
    | enumType | enumVariant => exact .refuse _ hkind (by simp [Symbols.Assignable, hkind])

theorem judged_lowerCaseTests (selector : Value) (labels : SwitchLabels) (cases : List Case) :
    Judged symbols sure inCase 0 (∀ branch ∈ cases, branch.value.IsValue symbols)
      (lowerCaseTests symbols selector labels cases) := by
  induction cases generalizing labels with
  | nil => exact (Judged.pure labels).congr (by simp)
  | cons branch rest ih =>
    obtain ⟨value, body⟩ := branch
    rw [List.forall_mem_cons]
    exact value.judged_lowerValue.both fun _ => Judged.freshLabel.andThen fun _ =>
      (Judged.emit _).andThen fun _ => ih _

theorem wellFormedCases_iff {cases : List Case} :
    WellFormedCases symbols cases ↔ (∀ branch ∈ cases, branch.value.IsValue symbols) ∧
      ∀ branch ∈ cases, WellFormedBlock symbols true branch.body := by
  induction cases with
  | nil => simp [WellFormedCases]
  | cons branch rest ih =>
    obtain ⟨value, body⟩ := branch
    rw [WellFormedCases, ih, List.forall_mem_cons, List.forall_mem_cons, ← and_assoc,
      and_and_and_comm]

/-- The judgement on statements, cases and blocks. The values of cases were judged with
their tests, and a `switch` has a label for every one of its cases. -/
theorem judged_lower (symbols : Symbols) :
    (∀ stmt continuation, ∀ inCase, Judged symbols True inCase 0 (stmt.WellFormed symbols inCase)
      (Stmt.lower symbols stmt continuation)) ∧
    (∀ cases exit, Judged symbols True true cases.length
      (∀ branch ∈ cases, WellFormedBlock symbols true branch.body)
      (lowerCases symbols cases exit)) ∧
    (∀ body continuation, ∀ inCase, Judged symbols True inCase 0
      (WellFormedBlock symbols inCase body) (lowerBlock symbols body continuation)) := by
  have hfalseTo (exit : Label) (_ : True) := Targets.isConcrete_falseTo exit
  refine Stmt.lower.mutual_induct symbols _ _ _ ?declare ?declareEnum ?block ?assign ?iteNone
    ?danglingElse ?iteThen ?iteElse ?whileLoop ?forLoop ?emptySwitch ?switch ?breakSwitch
    ?blockNil ?blockLast ?blockCons ?casesNil ?casesCons
  case declare =>
    intro name type continuation inCase
    exact .pure ()
  case declareEnum =>
    intro name variants continuation inCase
    exact .pure ()
  case block =>
    intro body continuation ih inCase
    exact ih inCase
  case assign =>
    intro target value continuation inCase
    exact judged_lowerAssign target value continuation
  case iteNone =>
    intro condition continuation inCase
    refine Judged.congr ?_ (by simp [Stmt.WellFormed, WellFormedBranch] :
      condition.IsCondition symbols ↔ _)
    exact .withExit _ fun exit => condition.judged_lowerCondition (hfalseTo exit)
  case danglingElse =>
    intro condition elseBranch continuation inCase
    exact .refuse _ trivial (by simp [Stmt.WellFormed])
  case iteThen =>
    intro condition thenBranch continuation ih inCase
    refine Judged.congr ?_ (by simp [Stmt.WellFormed, WellFormedBranch] :
      condition.IsCondition symbols ∧ thenBranch.WellFormed symbols inCase ↔ _)
    exact .withExit _ fun exit =>
      (condition.judged_lowerCondition (hfalseTo exit)).both fun _ => ih inCase
  case iteElse =>
    intro condition thenBranch elseBranch continuation ihthen ihelse inCase
    refine Judged.congr ?_ (by simp [Stmt.WellFormed, WellFormedBranch] :
      condition.IsCondition symbols ∧ thenBranch.WellFormed symbols inCase ∧
        elseBranch.WellFormed symbols inCase ↔ _)
    refine .withExit _ fun exit => Judged.freshLabel.andThen fun onFalse => ?_
    refine (condition.judged_lowerCondition (hfalseTo onFalse)).both fun _ => ?_
    refine (ihthen exit inCase).both fun _ => (Judged.emit _).andThen fun _ => ?_
    exact (Judged.mark onFalse).andThen fun _ => ihelse inCase
  case whileLoop =>
    intro condition body continuation ih inCase
    refine Judged.freshLabel.andThen fun start => (Judged.emit _).andThen fun _ => ?_
    refine .withExit _ fun exit => ?_
    refine (condition.judged_lowerCondition (hfalseTo exit)).both fun _ => ?_
    exact (ih start inCase).followed fun _ => .emit _
  case forLoop =>
    intro init condition update body continuation ihinit ihbody ihupdate inCase
    refine Judged.freshLabel.andThen fun start => Judged.freshLabel.andThen fun advance => ?_
    refine (ihinit start inCase).both fun _ => (Judged.emit _).andThen fun _ => ?_
    refine .withExit _ fun exit => ?_
    refine (condition.judged_lowerCondition (hfalseTo exit)).both fun _ => ?_
    refine Judged.congr ?_ and_comm
    refine (ihbody advance inCase).both fun _ => (Judged.mark advance).andThen fun _ => ?_
    exact (ihupdate start inCase).followed fun _ => .emit _
  case emptySwitch =>
    intro selector cases continuation hempty _ inCase
    rw [Stmt.lower, if_pos hempty]
    exact .refuse .emptySwitch trivial (by simp [Stmt.WellFormed, List.isEmpty_iff.mp hempty])
  case switch =>
    intro selector cases continuation hcases ih inCase
    rw [Stmt.lower, if_neg hcases]
    have hne : cases ≠ [] := by simpa using hcases
    refine Judged.congr ?_ (by simp [Stmt.WellFormed, hne, wellFormedCases_iff] :
      selector.IsValue symbols ∧ (∀ branch ∈ cases, branch.value.IsValue symbols) ∧
        (∀ branch ∈ cases, WellFormedBlock symbols true branch.body) ↔ _)
    refine .withExit _ fun exit => selector.judged_lowerValue.both fun value => ?_
    have hcases (labels : SwitchLabels) (before after : Builder)
        (htests : lowerCaseTests symbols value (.new exit) cases before = .ok labels after) :
        Judged symbols True inCase 0 (∀ branch ∈ cases, WellFormedBlock symbols true branch.body)
          (do emit (.jump exit); inSwitch labels (lowerCases symbols cases exit)) := by
      obtain ⟨targets, rfl, hlowers⟩ := lowersTests_of_lowerCaseTests htests
      have hlength : (SwitchLabels.mk exit ([] ++ targets)).pending.length = cases.length :=
        hlowers.length_eq
      exact (Judged.emit _).andThen fun _ => .inSwitch (hlength ▸ ih exit)
    exact (judged_lowerCaseTests value _ cases).bind hcases
  case breakSwitch =>
    intro continuation inCase
    exact Judged.breakTarget.followed fun exit => .emit _
  case blockNil =>
    intro continuation inCase
    exact .pure ()
  case blockLast =>
    intro last continuation ih inCase
    exact (ih inCase).congr (by simp [WellFormedBlock])
  case blockCons =>
    intro stmt next rest continuation ihstmt ihrest inCase
    refine Judged.freshLabel.andThen fun after => (ihstmt after inCase).both fun _ => ?_
    exact (Judged.mark after).andThen fun _ => ihrest inCase
  case casesNil =>
    intro exit
    exact (Judged.pure ()).congr (by simp)
  case casesCons =>
    intro value body rest exit ihbody ihrest
    have hbodies := Judged.nextCaseLabel.bind fun label _ _ _ =>
      (Judged.mark label).andThen fun _ => (ihbody true).both fun _ => ihrest
    rw [List.length_cons, Nat.add_comm]
    exact hbodies.congr (by simp)

theorem Program.judged_lower (program : Program) (symbols : Symbols) :
    Judged symbols True false 0 (program.WellFormed symbols) (program.lower symbols) := by
  obtain ⟨_, _, hblock⟩ := ThreeAddress.judged_lower symbols
  exact Judged.freshLabel.andThen fun exit => (hblock _ _ false).followed fun _ => .mark exit

end ThreeAddress
