import Mathlib.Logic.ExistsUnique
import ThreeAddress.Proofs.LabelAccounts
import ThreeAddress.Proofs.LoweringAdequacy

/-!
Labels of lowered code. Every piece keeps the label accounts: it places all
labels of its own and jumps only to labels that are placed or owed. At the end of
a program nothing is owed, so every jump has exactly one destination.
-/

namespace ThreeAddress

variable {symbols : Symbols} {before after : Builder} {owed heads : List Label}

theorem Expr.LowersValue.balanced {expr : Expr} {value : Value}
    (h : expr.LowersValue symbols value before after) (hbefore : before.Balanced owed heads) :
    after.Balanced owed heads := by
  induction h with
  | int | bool | «variable» | variant => exact hbefore
  | neg _ ih => exact (ih hbefore).afterTemp.emitPlain rfl rfl
  | arith _ _ ihl ihr => exact (ihr (ihl hbefore)).afterTemp.emitPlain rfl rfl

theorem LowersBranch.balanced {left right : Value} {op : RelOp} {targets : Targets}
    (h : LowersBranch left op right targets before after) (hbefore : before.Balanced owed heads)
    (htrue : before.Admits owed targets.onTrue) (hfalse : before.Admits owed targets.onFalse) :
    after.Balanced owed heads := by
  cases h with
  | both onTrue onFalse =>
    have hextends := (Builder.Extends.refl before).emit (.branch left op right onTrue true)
    exact (hbefore.emitBranch (htrue onTrue rfl) left right op true).emitJump
      ((hfalse onFalse rfl).extends hextends)
  | onTrue target => exact hbefore.emitBranch (htrue target rfl) left right op true
  | onFalse target => exact hbefore.emitBranch (hfalse target rfl) left right op false

theorem Expr.LowersCondition.balanced {expr : Expr} {targets : Targets}
    (h : expr.LowersCondition symbols targets before after)
    (hbefore : before.Balanced owed heads)
    (htrue : before.Admits owed targets.onTrue) (hfalse : before.Admits owed targets.onFalse) :
    after.Balanced owed heads := by
  induction h generalizing owed with
  | and hleft _ ihl ihr =>
    have hextends := hleft.extends.of_openExit
    have hbetween := ihl (hbefore.openExit _) Builder.admits_fall hfalse.knows_exit.admits
    exact (ihr hbetween ((htrue.extends hextends).owing _ _)
      ((hfalse.extends hextends).owing _ _)).closeExit
  | or hleft _ ihl ihr =>
    have hextends := hleft.extends.of_openExit
    have hbetween := ihl (hbefore.openExit _) htrue.knows_exit.admits Builder.admits_fall
    exact (ihr hbetween ((htrue.extends hextends).owing _ _)
      ((hfalse.extends hextends).owing _ _)).closeExit
  | not _ ih => exact ih hbefore hfalse htrue
  | compare hleft hright hbranch =>
    have hextends := hleft.extends.trans hright.extends
    exact hbranch.balanced (hright.balanced (hleft.balanced hbefore)) (htrue.extends hextends)
      (hfalse.extends hextends)
  | ident _ hbranch => exact hbranch.balanced hbefore htrue hfalse
  | @boolJump value targets target builder htarget =>
    apply hbefore.emitJump
    cases value with
    | true => exact htrue target htarget
    | false => exact hfalse target htarget
  | boolFall => exact hbefore

/-- A condition that goes to the exit of its construct when it is false. -/
theorem Expr.LowersCondition.balanced_exit {condition : Expr} {continuation : Continuation}
    (h : condition.LowersCondition symbols (.falseTo (before.exitLabel continuation))
      (before.openExit continuation) after)
    (hbefore : before.Balanced owed heads) (hadmits : before.Admits owed continuation) :
    after.Balanced (Builder.owing continuation (before.exitLabel continuation) owed) heads :=
  h.balanced (hbefore.openExit continuation) Builder.admits_fall hadmits.knows_exit.admits

/-- A condition that goes to a fresh label when it is false, which is then owed. -/
theorem Expr.LowersCondition.balanced_fresh {condition : Expr}
    (h : condition.LowersCondition symbols (.falseTo before.freshLabel) before.afterLabel after)
    (hbefore : before.Balanced owed heads) : after.Balanced (before.freshLabel :: owed) heads :=
  h.balanced hbefore.afterLabel Builder.admits_fall
    (Builder.Knows.admits (.inl List.mem_cons_self))

/-- Every test owes the label of its case. -/
theorem LowersTests.balanced {selector : Value} {cases : List Case} {labels : List Label}
    (h : LowersTests symbols selector cases labels before after)
    (hbefore : before.Balanced owed heads) : after.Balanced (labels ++ owed) heads := by
  induction h generalizing owed with
  | nil => exact hbefore
  | cons hvalue _ ih =>
    have hfresh := (hvalue.balanced hbefore).afterLabel
    have hrest := ih (hfresh.emitBranch (.inl List.mem_cons_self) _ _ _ _)
    refine hrest.reassign (List.Perm.append_left _ ?_)
    simpa using List.perm_middle.symm

/-- Conditions and pieces leave the open switches and their exits as they are. -/
theorem Expr.LowersCondition.admitsBreaks {condition : Expr} {targets : Targets}
    (h : condition.LowersCondition symbols targets before after)
    (hbreaks : before.AdmitsBreaks owed) : after.AdmitsBreaks owed :=
  hbreaks.extends h.extends (congrArg (List.map SwitchLabels.exit) h.switches_eq)

theorem Lowers.admitsBreaks {piece : Piece} (h : Lowers symbols piece before after)
    (hbreaks : before.AdmitsBreaks owed) : after.AdmitsBreaks owed :=
  hbreaks.extends h.extends h.exits_eq

/-- Where control goes after a piece. -/
def Piece.continuation : Piece → Continuation
  | .stmt _ continuation | .block _ continuation => continuation
  | .cases _ exit => .label exit

/-- Lowering a piece keeps the accounts: it places all labels of its own, and
jumps only to them, to its continuation, to loop heads around it and to the exits
of the switches around it. -/
theorem Lowers.balanced {piece : Piece} (h : Lowers symbols piece before after)
    (hbefore : before.Balanced owed heads)
    (hadmits : before.Admits owed piece.continuation)
    (hbreaks : before.AdmitsBreaks owed) :
    after.Balanced owed heads := by
  induction h generalizing owed heads with
  | declare | declareEnum | blockNil | casesNil => exact hbefore
  | block _ ih | blockLast _ ih => exact ih hbefore hadmits hbreaks
  | assignNumber _ hvalue => exact (hvalue.balanced hbefore).emitPlain rfl rfl
  | @assignBoolean target _ continuation before tested _ _ hvalue hplaced =>
    have hexit := (hadmits.knows_exit.extends hvalue.extends.of_afterLabel).cons
      (before.openExit continuation).freshLabel
    have hvalue := hvalue.balanced_fresh (hbefore.openExit continuation)
    have htrue : (tested.emit (.assign (.named target) (.imm 1))).Balanced _ heads :=
      hvalue.emitPlain rfl rfl
    have hjump := htrue.emitJump (hexit.extends ((Builder.Extends.refl tested).emit _))
    subst hplaced
    exact (hjump.mark.emitPlain rfl rfl).closeExit
  | iteNone hcondition => exact (hcondition.balanced_exit hbefore hadmits).closeExit
  | @iteThen _ _ continuation _ _ _ hcondition _ ih =>
    have htested := hcondition.extends.of_openExit
    have htestedBreaks := hcondition.admitsBreaks (hbreaks.openExit continuation)
    have hcondition := hcondition.balanced_exit hbefore hadmits
    exact (ih hcondition ((hadmits.extends htested).owing _ _)
      (htestedBreaks.owing _ _)).closeExit
  | @iteElse _ _ _ continuation before tested between placed after hcondition hthen hplaced _
      ihthen ihelse =>
    have htested := hcondition.extends.of_afterLabel
    have hskipped : before.Extends placed := by
      subst hplaced
      exact ((htested.of_openExit.trans hthen.extends).emit _).mark _
    have htestedBreaks := hcondition.admitsBreaks (hbreaks.openExit continuation).afterLabel
    have hplacedBreaks : placed.AdmitsBreaks owed := by
      subst hplaced
      exact ((hthen.admitsBreaks htestedBreaks).emit _).mark _
    have hexit := (hadmits.knows_exit.extends htested).cons (before.openExit continuation).freshLabel
    have hcondition := hcondition.balanced_fresh (hbefore.openExit continuation)
    have hbetween := ihthen hcondition hexit.admits ((htestedBreaks.owing _ _).cons _)
    have hjump := hbetween.emitJump (hexit.extends hthen.extends)
    have helse : placed.Balanced _ heads := hplaced ▸ hjump.mark
    exact (ihelse helse ((hadmits.extends hskipped).owing _ _)
      (hplacedBreaks.owing _ _)).closeExit
  | @whileLoop _ _ continuation before head tested after hhead hcondition hbody ih =>
    have hstart : before.Extends head := by
      subst hhead
      exact (Builder.Extends.refl _).afterLabel.emit _
    have hmarked : before.freshLabel ∈ head.marks := by
      subst hhead
      simp [Builder.marks_emit, Instr.mark?]
    have hheadBreaks : head.AdmitsBreaks owed := hhead ▸ hbreaks.afterLabel.emit _
    have htestedBreaks := hcondition.admitsBreaks (hheadBreaks.openExit continuation)
    have hback := hcondition.extends.of_openExit.marks_subset hmarked
    have hbalanced : head.Balanced owed (before.freshLabel :: heads) := by
      subst hhead
      exact hbefore.afterLabel.emitLabel
    have hcondition := hcondition.balanced_exit hbalanced (hadmits.extends hstart)
    have hround := ih hcondition (Builder.Knows.admits (.inr hback)) (htestedBreaks.owing _ _)
    exact (hround.emitBack (hbody.extends.marks_subset hback)).closeExit
  | @forLoop _ _ _ _ continuation before started head tested between after hinit hhead hcondition
      hbody hupdate ihinit ihbody ihupdate =>
    have hstart : before.Extends head := by
      subst hhead
      exact hinit.extends.of_afterLabel.of_afterLabel.emit _
    have hmarked : before.freshLabel ∈ head.marks := by
      subst hhead
      simp [Builder.marks_emit, Instr.mark?]
    have htested := hcondition.extends.of_openExit
    have hback := (htested.trans (hbody.extends.mark before.afterLabel.freshLabel)).marks_subset
      hmarked
    have hheadBreaks : head.AdmitsBreaks owed :=
      hhead ▸ (hinit.admitsBreaks hbreaks.afterLabel.afterLabel).emit _
    have htestedBreaks := hcondition.admitsBreaks (hheadBreaks.openExit continuation)
    have hbetweenBreaks := (hbody.admitsBreaks htestedBreaks).mark before.afterLabel.freshLabel
    have hstarted := ihinit hbefore.afterLabel.afterLabel
      (Builder.Knows.admits (.inl (List.mem_cons_of_mem _ List.mem_cons_self)))
      ((hbreaks.afterLabel.afterLabel.cons _).cons _)
    have hbalanced : head.Balanced (before.afterLabel.freshLabel :: owed)
        (before.freshLabel :: heads) := by
      subst hhead
      exact (hstarted.reassign (List.Perm.append_left _ (List.Perm.swap _ _ _))).emitLabel
    have hadvance : head.Knows (before.afterLabel.freshLabel :: owed)
        before.afterLabel.freshLabel := .inl List.mem_cons_self
    have htest := hcondition.balanced_exit hbalanced ((hadmits.extends hstart).cons _)
    have hround := ihbody htest ((hadvance.extends htested).owing _ _).admits
      ((htestedBreaks.cons _).owing _ _)
    have hupdated := (hround.reassign
      ((Builder.owing_cons continuation _ _ owed).append_left _)).mark
    have hlast := ihupdate hupdated (Builder.Knows.admits (.inr hback)) (hbetweenBreaks.owing _ _)
    exact (hlast.emitBack (hupdate.extends.marks_subset hback)).closeExit
  | @switch _ _ continuation _ labels before selected tested inside after _ hselector htests hinside
      _ hresolved ih =>
    have htested := hselector.extends.trans htests.extends
    have hpushed : (before.openExit continuation).Extends inside := by
      subst hinside
      exact (htested.emit _).withSwitches _
    have hexit := hadmits.knows_exit.extends hpushed
    have hswitches : tested.switches = before.switches := by
      simp [htests.switches_eq, hselector.switches_eq]
    have htests := htests.balanced (hselector.balanced (hbefore.openExit continuation))
    have hjump := htests.emitJump
      ((hadmits.knows_exit.extends htested).imp_left (List.mem_append_right labels))
    have hbalanced : inside.Balanced
        (Builder.owing continuation (before.exitLabel continuation) owed) heads := by
      subst hinside
      apply hjump.reassign
      simpa [Builder.waiting] using List.perm_append_comm_assoc labels tested.waiting
        (Builder.owing continuation (before.exitLabel continuation) owed)
    have hinsideBreaks : inside.AdmitsBreaks
        (Builder.owing continuation (before.exitLabel continuation) owed) := by
      intro exit hmem
      simp only [Builder.exits, hinside, Builder.pushSwitch, Builder.emit_switches, hswitches,
        List.map_cons, List.mem_cons] at hmem
      obtain rfl | hmem := hmem
      · exact hexit
      · exact ((hbreaks exit hmem).owing _ _).extends hpushed.of_openExit
    have hafter := ih hbalanced hexit.admits hinsideBreaks
    refine (hafter.reassign (List.Perm.append_right _ ?_)).closeExit
    cases hopen : after.switches with
    | nil => simp [Builder.waiting, hopen]
    | cons inner outer =>
      rw [hopen] at hresolved
      have hnone : inner.pending = [] := by
        simpa [SwitchLabels.isResolved] using hresolved
      simp [Builder.waiting, hopen, hnone]
  | breakSwitch hswitch =>
    apply hbefore.emitJump
    apply hbreaks
    simp [Builder.exits, hswitch]
  | @blockCons _ _ _ _ before _ _ hstmt _ ihstmt ihrest =>
    have hextends := hstmt.extends.of_afterLabel.mark before.freshLabel
    have hbetweenBreaks := (hstmt.admitsBreaks hbreaks.afterLabel).mark before.freshLabel
    have hbetween := ihstmt hbefore.afterLabel (Builder.Knows.admits (.inl List.mem_cons_self))
      (hbreaks.afterLabel.cons _)
    exact ihrest hbetween.mark (hadmits.extends hextends) hbetweenBreaks
  | @casesCons branch rest exit switchExit label pending outer before placed between after hswitch
      hplaced hbody _ ihbody ihrest =>
    have hextends : before.Extends placed := by
      subst hplaced
      exact ((Builder.Extends.refl before).withSwitches _).mark label
    have hplacedBreaks : placed.AdmitsBreaks owed :=
      hbreaks.extends hextends (by simp [Builder.exits, hplaced, hswitch])
    have hmark : placed.Balanced owed heads := by
      have hperm : (pending ++ outer.flatMap SwitchLabels.pending ++ label :: owed).Perm
          (label :: (pending ++ outer.flatMap SwitchLabels.pending ++ owed)) := List.perm_middle
      subst hplaced
      refine (hbefore.reassign ?_).mark
      simpa [Builder.waiting, hswitch] using hperm
    have hcontinue : before.Admits owed (caseContinuation branch rest exit) := by
      unfold caseContinuation
      split
      · exact hadmits
      · exact Builder.admits_fall
    have hbetween := ihbody hmark (hcontinue.extends hextends) hplacedBreaks
    exact ihrest hbetween (hadmits.extends (hextends.trans hbody.extends))
      (hbody.admitsBreaks hplacedBreaks)

/-- The code of every program is well labelled: nothing is owed at its end. -/
theorem Program.toCode_wellLabelled {program : Program} {code : Code}
    (h : program.toCode symbols = .ok code) : code.WellLabelled := by
  obtain ⟨after, hbody, rfl⟩ := Program.toCode_eq_ok.mp h
  have hstart : Builder.empty.afterLabel.Balanced [Builder.empty.freshLabel] [] :=
    Builder.Balanced.empty.afterLabel
  have hlowered := hbody.balanced hstart (Builder.Knows.admits (.inl List.mem_cons_self))
    (by rintro exit ⟨⟩)
  have hswitches : after.switches = [] := by
    simpa [Builder.exits, Builder.empty] using hbody.exits_eq
  have hend := hlowered.mark
  refine ⟨hend.nodup.sublist (List.sublist_append_right _ _), ?_⟩
  intro label
  constructor
  · intro hmark
    exact (hend.used label hmark).resolve_right (by simp)
  · intro htarget
    change label ∈ (after.mark Builder.empty.freshLabel).marks
    simpa [Builder.waiting, hswitches] using hend.placed label htarget

/-- Every label is marked at most once, the marked labels are exactly those that
something jumps to, and so every jump has exactly one destination. -/
theorem Program.toCode_jump_unique {program : Program} {code : Code}
    (h : program.toCode symbols = .ok code) :
    (∀ label (first second : Nat), code[first]? = some (.label label) →
      code[second]? = some (.label label) → first = second) ∧
    (∀ label, Instr.label label ∈ code ↔ ∃ instr ∈ code, instr.target? = some label) ∧
    ∀ instr ∈ code, ∀ label, instr.target? = some label →
      ∃! position : Nat, code[position]? = some (.label label) := by
  have hlabels := Program.toCode_wellLabelled h
  have hunique (label : Label) (first second : Nat) (hfirst : code[first]? = some (.label label))
      (hsecond : code[second]? = some (.label label)) : first = second := by
    have hposition := Code.position?_eq_some hlabels.nodup hfirst
    rw [Code.position?_eq_some hlabels.nodup hsecond] at hposition
    exact (Option.some.inj hposition).symm
  refine ⟨hunique, ?_, ?_⟩
  · intro label
    rw [← Code.mem_marks, ← Code.mem_targets]
    exact hlabels.marked_iff label
  · intro instr hmem label htarget
    have hmarked := (hlabels.marked_iff label).mpr (Code.mem_targets.mpr ⟨instr, hmem, htarget⟩)
    obtain ⟨position, hposition⟩ := List.mem_iff_getElem?.mp (Code.mem_marks.mp hmarked)
    exact ⟨position, hposition, fun other hother => hunique label other position hother hposition⟩

/-- A loop that is left by a break of the `switch` around it. -/
def Program.brokenLoop : Program :=
  ⟨[.switch (.int 1) [⟨.int 1, [.whileLoop (.compare .lt (.int 1) (.int 2)) .breakSwitch]⟩,
    ⟨.int 2, []⟩]]⟩

def Program.brokenLoopCode : Code :=
  [.branch (.imm 1) .eq (.imm 1) ⟨1⟩ true, .branch (.imm 1) .eq (.imm 2) ⟨2⟩ true, .jump ⟨0⟩,
    .label ⟨1⟩, .label ⟨3⟩, .branch (.imm 1) .lt (.imm 2) ⟨4⟩ false, .jump ⟨0⟩, .jump ⟨3⟩,
    .label ⟨4⟩, .label ⟨2⟩, .label ⟨0⟩]

theorem Program.toCode_jump_unique_brokenLoop :
    brokenLoop.toCode ∅ = .ok brokenLoopCode ∧
    (∀ label (first second : Nat), brokenLoopCode[first]? = some (.label label) →
      brokenLoopCode[second]? = some (.label label) → first = second) ∧
    (∀ label, Instr.label label ∈ brokenLoopCode ↔
      ∃ instr ∈ brokenLoopCode, instr.target? = some label) ∧
    ∀ instr ∈ brokenLoopCode, ∀ label, instr.target? = some label →
      ∃! position : Nat, brokenLoopCode[position]? = some (.label label) := by
  have h : brokenLoop.toCode ∅ = .ok brokenLoopCode := rfl
  exact ⟨h, toCode_jump_unique h⟩

end ThreeAddress
