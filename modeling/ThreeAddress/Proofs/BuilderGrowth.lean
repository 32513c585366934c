import ThreeAddress.Proofs.LoweringRules

/-!
What lowering never takes back. A later builder has the code of an earlier one
as its beginning, at least as many labels and temporaries, and every label that
was jumped to before. The exits of the open switches are the same before and
after each piece.
-/

namespace ThreeAddress

namespace Builder

variable (builder : Builder)

@[simp] theorem emit_code (instr : Instr) :
    (builder.emit instr).code = builder.code.push instr := rfl

@[simp] theorem emit_labels (instr : Instr) :
    (builder.emit instr).labels = builder.labels := rfl

@[simp] theorem emit_switches (instr : Instr) :
    (builder.emit instr).switches = builder.switches := rfl

@[simp] theorem afterLabel_code : builder.afterLabel.code = builder.code := rfl

@[simp] theorem afterLabel_switches : builder.afterLabel.switches = builder.switches := rfl

@[simp] theorem afterTemp_code : builder.afterTemp.code = builder.code := rfl

@[simp] theorem afterTemp_switches : builder.afterTemp.switches = builder.switches := rfl

theorem mark_of_referenced {builder : Builder} {label : Label}
    (h : label.number ∈ builder.referenced) :
    builder.mark label = builder.emit (.label label) := by
  simp [mark, h]

theorem mark_of_not_referenced {builder : Builder} {label : Label}
    (h : label.number ∉ builder.referenced) : builder.mark label = builder := by
  simp [mark, h]

@[simp] theorem mark_switches (label : Label) :
    (builder.mark label).switches = builder.switches := by
  by_cases h : label.number ∈ builder.referenced
  · rw [mark_of_referenced h, emit_switches]
  · rw [mark_of_not_referenced h]

@[simp] theorem openExit_switches (continuation : Continuation) :
    (builder.openExit continuation).switches = builder.switches := by
  cases continuation <;> rfl

@[simp] theorem closeExit_switches (continuation : Continuation) (exit : Label) :
    (builder.closeExit continuation exit).switches = builder.switches := by
  cases continuation <;> simp [closeExit]

/-- A label is jumped to by new code exactly if it was before or the new
instruction does. -/
theorem mem_emit_referenced {instr : Instr} {label : Label} :
    label.number ∈ (builder.emit instr).referenced ↔
      label.number ∈ builder.referenced ∨ instr.target? = some label := by
  cases htarget : instr.target? with
  | none => simp [emit, htarget]
  | some target =>
    obtain ⟨number⟩ := target
    obtain ⟨other⟩ := label
    simp [emit, htarget, Std.ExtTreeSet.mem_insert, or_comm]

/-- One builder comes before another in the same lowering. -/
structure Extends (before after : Builder) : Prop where
  code : before.code.toList <+: after.code.toList
  labels : before.labels ≤ after.labels
  temps : before.temps ≤ after.temps
  referenced : ∀ label : Label, label.number ∈ before.referenced → label.number ∈ after.referenced

namespace Extends

variable {before between after : Builder}

theorem refl (builder : Builder) : builder.Extends builder :=
  ⟨List.prefix_rfl, Nat.le_refl _, Nat.le_refl _, fun _ h => h⟩

theorem trans (hfirst : before.Extends between) (hsecond : between.Extends after) :
    before.Extends after where
  code := hfirst.code.trans hsecond.code
  labels := Nat.le_trans hfirst.labels hsecond.labels
  temps := Nat.le_trans hfirst.temps hsecond.temps
  referenced label h := hsecond.referenced label (hfirst.referenced label h)

theorem emit (h : before.Extends after) (instr : Instr) : before.Extends (after.emit instr) := by
  refine h.trans ⟨?_, Nat.le_refl _, Nat.le_refl _, ?_⟩
  · simp
  · intro label hmem
    exact (mem_emit_referenced after).mpr (.inl hmem)

theorem mark (h : before.Extends after) (label : Label) : before.Extends (after.mark label) := by
  by_cases hmem : label.number ∈ after.referenced
  · rw [mark_of_referenced hmem]
    exact h.emit _
  · rwa [mark_of_not_referenced hmem]

theorem afterLabel (h : before.Extends after) : before.Extends after.afterLabel :=
  h.trans ⟨List.prefix_rfl, Nat.le_succ _, Nat.le_refl _, fun _ hmem => hmem⟩

theorem afterTemp (h : before.Extends after) : before.Extends after.afterTemp :=
  h.trans ⟨List.prefix_rfl, Nat.le_refl _, Nat.le_succ _, fun _ hmem => hmem⟩

theorem openExit (h : before.Extends after) (continuation : Continuation) :
    before.Extends (after.openExit continuation) := by
  cases continuation with
  | label exit => exact h
  | fall => exact h.afterLabel

theorem closeExit (h : before.Extends after) (continuation : Continuation) (exit : Label) :
    before.Extends (after.closeExit continuation exit) := by
  cases continuation with
  | label _ => exact h
  | fall => exact h.mark exit

/-- The open switches play no part in what extends what. -/
theorem withSwitches (h : before.Extends after) (switches : List SwitchLabels) :
    before.Extends { after with switches } :=
  h.trans ⟨List.prefix_rfl, Nat.le_refl _, Nat.le_refl _, fun _ hmem => hmem⟩

theorem of_emit {instr : Instr} (h : (before.emit instr).Extends after) : before.Extends after :=
  ((refl before).emit instr).trans h

theorem of_mark {label : Label} (h : (before.mark label).Extends after) : before.Extends after :=
  ((refl before).mark label).trans h

theorem of_afterLabel (h : before.afterLabel.Extends after) : before.Extends after :=
  (refl before).afterLabel.trans h

theorem of_openExit {continuation : Continuation}
    (h : (before.openExit continuation).Extends after) : before.Extends after :=
  ((refl before).openExit continuation).trans h

end Extends

section Begins

variable {builder : Builder} {code : Code}

/-- Finished code that begins with a builder's code begins with what was there
before its last step. -/
theorem begins_of_emit {instr : Instr} (h : (builder.emit instr).code.toList <+: code) :
    builder.code.toList <+: code :=
  ((Extends.refl builder).emit instr).code.trans h

theorem begins_of_mark {label : Label} (h : (builder.mark label).code.toList <+: code) :
    builder.code.toList <+: code :=
  ((Extends.refl builder).mark label).code.trans h

theorem begins_of_closeExit {continuation : Continuation} {exit : Label}
    (h : (builder.closeExit continuation exit).code.toList <+: code) :
    builder.code.toList <+: code :=
  ((Extends.refl builder).closeExit continuation exit).code.trans h

end Begins

/-- Where a break goes in each open switch, the innermost first. -/
def exits (builder : Builder) : List Label :=
  builder.switches.map SwitchLabels.exit

end Builder

variable {symbols : Symbols} {before after : Builder}

theorem Expr.LowersValue.extends {expr : Expr} {value : Value}
    (h : expr.LowersValue symbols value before after) : before.Extends after := by
  induction h with
  | int | bool | «variable» | variant => exact .refl _
  | neg _ ih => exact ih.afterTemp.emit _
  | arith _ _ ihl ihr => exact (ihl.trans ihr).afterTemp.emit _

theorem LowersBranch.extends {left right : Value} {op : RelOp} {targets : Targets}
    (h : LowersBranch left op right targets before after) : before.Extends after := by
  cases h with
  | both => exact ((Builder.Extends.refl _).emit _).emit _
  | onTrue | onFalse => exact (Builder.Extends.refl _).emit _

theorem Expr.LowersCondition.extends {expr : Expr} {targets : Targets}
    (h : expr.LowersCondition symbols targets before after) : before.Extends after := by
  induction h with
  | and _ _ ihl ihr | or _ _ ihl ihr =>
    exact (ihl.trans ihr).of_openExit.closeExit _ _
  | not _ ih => exact ih
  | compare hleft hright hbranch => exact (hleft.extends.trans hright.extends).trans hbranch.extends
  | ident _ hbranch => exact hbranch.extends
  | boolJump builder _ => exact (Builder.Extends.refl builder).emit _
  | boolFall builder _ => exact .refl builder

theorem LowersTests.extends {selector : Value} {cases : List Case} {labels : List Label}
    (h : LowersTests symbols selector cases labels before after) : before.Extends after := by
  induction h with
  | nil builder => exact .refl builder
  | cons hvalue _ ih => exact (hvalue.extends.afterLabel.emit _).trans ih

theorem Lowers.extends {piece : Piece} (h : Lowers symbols piece before after) :
    before.Extends after := by
  induction h with
  | declare | declareEnum | blockNil | casesNil => exact .refl _
  | block _ ih | blockLast _ ih => exact ih
  | assignNumber _ hvalue => exact hvalue.extends.emit _
  | assignBoolean _ hvalue hplaced =>
    subst hplaced
    have hstart := hvalue.extends.of_afterLabel.of_openExit
    exact ((((hstart.emit _).emit _).mark _).emit _).closeExit _ _
  | iteNone hcondition =>
    exact hcondition.extends.of_openExit.closeExit _ _
  | iteThen hcondition _ ih =>
    exact (hcondition.extends.of_openExit.trans ih).closeExit _ _
  | iteElse hcondition _ hplaced _ ihthen ihelse =>
    subst hplaced
    have hstart := hcondition.extends.of_afterLabel.of_openExit
    exact ((((hstart.trans ihthen).emit _).mark _).trans ihelse).closeExit _ _
  | whileLoop hhead hcondition _ ih =>
    subst hhead
    have hstart := hcondition.extends.of_openExit.of_emit.of_afterLabel
    exact ((hstart.trans ih).emit _).closeExit _ _
  | forLoop _ hhead hcondition _ _ ihinit ihbody ihupdate =>
    subst hhead
    have hstart := ihinit.of_afterLabel.of_afterLabel
    have htest := hstart.trans hcondition.extends.of_openExit.of_emit
    exact ((((htest.trans ihbody).mark _).trans ihupdate).emit _).closeExit _ _
  | switch _ hselector htests hinside _ _ ih =>
    subst hinside
    have htest := (hselector.extends.trans htests.extends).of_openExit
    exact ((((htest.emit _).withSwitches _).trans ih).withSwitches _).closeExit _ _
  | breakSwitch _ => exact (Builder.Extends.refl _).emit _
  | blockCons _ _ ihstmt ihrest =>
    exact ihstmt.of_afterLabel.trans ihrest.of_mark
  | casesCons _ hplaced _ _ ihbody ihrest =>
    subst hplaced
    exact ((((Builder.Extends.refl _).withSwitches _).mark _).trans ihbody).trans ihrest

theorem Expr.LowersValue.switches_eq {expr : Expr} {value : Value}
    (h : expr.LowersValue symbols value before after) : after.switches = before.switches := by
  induction h with
  | int | bool | «variable» | variant => rfl
  | neg _ ih => simpa using ih
  | arith _ _ ihl ihr => simpa using ihr.trans ihl

theorem LowersBranch.switches_eq {left right : Value} {op : RelOp} {targets : Targets}
    (h : LowersBranch left op right targets before after) :
    after.switches = before.switches := by
  cases h <;> rfl

theorem Expr.LowersCondition.switches_eq {expr : Expr} {targets : Targets}
    (h : expr.LowersCondition symbols targets before after) :
    after.switches = before.switches := by
  induction h with
  | and _ _ ihl ihr | or _ _ ihl ihr => simp [ihr, ihl]
  | not _ ih => exact ih
  | compare hleft hright hbranch =>
    rw [hbranch.switches_eq, hright.switches_eq, hleft.switches_eq]
  | ident _ hbranch => exact hbranch.switches_eq
  | boolJump | boolFall => rfl

theorem LowersTests.switches_eq {selector : Value} {cases : List Case} {labels : List Label}
    (h : LowersTests symbols selector cases labels before after) :
    after.switches = before.switches := by
  induction h with
  | nil builder => rfl
  | cons hvalue _ ih => simp [ih, hvalue.switches_eq]

/-- Every case has a label of its own. -/
theorem LowersTests.length_eq {selector : Value} {cases : List Case} {labels : List Label}
    (h : LowersTests symbols selector cases labels before after) :
    labels.length = cases.length := by
  induction h with
  | nil => rfl
  | cons _ _ ih => simp [ih]

/-- The open switches after a piece. Laying out cases takes one label each from
the innermost switch, and nothing else is left changed. -/
def Piece.remaining (piece : Piece) (switches : List SwitchLabels) : List SwitchLabels :=
  match piece with
  | .stmt _ _ | .block _ _ => switches
  | .cases branches _ => switches.modifyHead fun labels =>
      { labels with pending := labels.pending.drop branches.length }

theorem Lowers.switches_eq {piece : Piece} (h : Lowers symbols piece before after) :
    after.switches = piece.remaining before.switches := by
  induction h with
  | declare | declareEnum | blockNil | breakSwitch => rfl
  | casesNil exit builder => cases hswitch : builder.switches <;> simp [Piece.remaining]
  | block _ ih | blockLast _ ih => exact ih
  | assignNumber _ hvalue => simp [Piece.remaining, hvalue.switches_eq]
  | assignBoolean _ hvalue hplaced => simp [Piece.remaining, hplaced, hvalue.switches_eq]
  | iteNone hcondition => simp [Piece.remaining, hcondition.switches_eq]
  | iteThen hcondition _ ih => simp [Piece.remaining, ih, hcondition.switches_eq]
  | iteElse hcondition _ hplaced _ ihthen ihelse =>
    simp [Piece.remaining, ihelse, hplaced, ihthen, hcondition.switches_eq]
  | whileLoop hhead hcondition _ ih => simp [Piece.remaining, ih, hcondition.switches_eq, hhead]
  | forLoop _ hhead hcondition _ _ ihinit ihbody ihupdate =>
    simp [Piece.remaining, ihupdate, ihbody, hcondition.switches_eq, hhead, ihinit]
  | switch _ hselector htests hinside _ _ ih =>
    simp [Piece.remaining, Builder.popSwitch, ih, hinside, Builder.pushSwitch, htests.switches_eq,
      hselector.switches_eq]
  | blockCons _ _ ihstmt ihrest => simp [Piece.remaining, ihrest, ihstmt]
  | casesCons hswitch hplaced _ _ ihbody ihrest =>
    simp [Piece.remaining, ihrest, ihbody, hplaced, hswitch]

theorem Lowers.exits_eq {piece : Piece} (h : Lowers symbols piece before after) :
    after.exits = before.exits := by
  unfold Builder.exits
  rw [h.switches_eq]
  cases piece with
  | stmt | block => rfl
  | cases branches exit => cases hswitch : before.switches <;> simp [Piece.remaining]

end ThreeAddress
