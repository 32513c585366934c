import ThreeAddress.Proofs.ExprRuns
import ThreeAddress.Proofs.Labels
import ThreeAddress.Proofs.Simulation

/-!
The code of an expression computes the expression. Values end up in the operand
that lowering returned, conditions go to the target of their outcome, and the
tests of a `switch` go to the first case that is entered. Where the expression
has no value the code gets stuck, and only there.
-/

namespace ThreeAddress

variable {arithmetic : Arithmetic} {symbols : Symbols} {code : Code} {before after : Builder}

/-- The code of a value computes it into the operand. -/
theorem Expr.LowersValue.computes {expr : Expr} {value : Value}
    (h : expr.LowersValue symbols value before after) (hcode : after.code.toList <+: code)
    {env : Environment} {store : Store} (hmatch : env.Matches symbols store.named) :
    Code.Computes arithmetic code ⟨before.code.size, store⟩
      (expr.evalValue arithmetic symbols env)
      fun result last => last.position = after.code.size ∧
        store.AgreesBelow before.temps last.store ∧ value.eval last.store = result := by
  rw [← Expr.value?_traceValue hmatch]
  exact (h.yields hcode store).computes

namespace Builder

/-- The code up to here jumps to the label, which is at this position. -/
def JumpsTo (builder : Builder) (code : Code) (label : Label) (position : Nat) : Prop :=
  label.number ∈ builder.referenced ∧ code.position? label = some position

/-- The position is where the continuation says: at the label, or right behind
the code up to here. -/
def Goes (builder : Builder) (code : Code) (continuation : Continuation) (position : Nat) : Prop :=
  match continuation with
  | .fall => position = builder.code.size
  | .label target => builder.JumpsTo code target position

variable {builder : Builder} {label : Label} {continuation other : Continuation} {position : Nat}

theorem JumpsTo.extends (h : before.JumpsTo code label position) (hextends : before.Extends after) :
    after.JumpsTo code label position :=
  ⟨hextends.referenced label h.1, h.2⟩

theorem jumpsTo_of_emit {instr : Instr} (htarget : instr.target? = some label)
    (hposition : code.position? label = some position) :
    (builder.emit instr).JumpsTo code label position :=
  ⟨(mem_emit_referenced builder).mpr (.inr htarget), hposition⟩

/-- Behind the code so far and at the label control passes to where the label is
placed, if it is placed at all. -/
theorem slides_mark (hlabels : code.WellLabelled) (hcode : (builder.mark label).code.toList <+: code)
    (h : position = builder.code.size ∨ builder.JumpsTo code label position) :
    Slides arithmetic code position (builder.mark label).code.size := by
  by_cases hmem : label.number ∈ builder.referenced
  · rw [mark_of_referenced hmem] at hcode ⊢
    have hinstr := getElem?_of_emit hcode
    have hposition : position = builder.code.size := by
      obtain rfl | ⟨_, hplace⟩ := h
      · rfl
      · rw [Code.position?_eq_some hlabels.nodup hinstr] at hplace
        exact (Option.some.inj hplace).symm
    subst hposition
    simpa using Slides.label hinstr
  · rw [mark_of_not_referenced hmem]
    obtain rfl | hjumps := h
    · exact .refl _
    · exact absurd hjumps.1 hmem

end Builder

/-- A label that the finished code jumps to is placed in it. -/
theorem Code.WellLabelled.position_of_target (hlabels : code.WellLabelled) {position : Nat}
    {instr : Instr} {label : Label} (h : code[position]? = some instr)
    (htarget : instr.target? = some label) : ∃ place, code.position? label = some place := by
  have hmem : label ∈ code.targets :=
    Code.mem_targets.mpr ⟨instr, List.mem_of_getElem? h, htarget⟩
  have hmark := Code.mem_marks.mp ((hlabels.marked_iff label).mpr hmem)
  obtain ⟨place, hplace⟩ := List.mem_iff_getElem?.mp hmark
  exact ⟨place, Code.position?_eq_some hlabels.nodup hplace⟩

/-- In finished code a run that heads for a continuation gets there. -/
theorem Builder.Heads.exists_goes {builder : Builder} {continuation : Continuation}
    {config : Code.Config} (h : builder.Heads code continuation config)
    (hlabels : code.WellLabelled) :
    ∃ place, Code.Performs arithmetic code config [] ⟨place, config.store⟩ ∧
      builder.Goes code continuation place := by
  cases continuation with
  | fall => exact ⟨config.position, .refl config, h⟩
  | label target =>
    obtain ⟨hreferenced, hjumps⟩ := h
    obtain ⟨instr, hinstr, htarget⟩ := hjumps.exists_instr
    obtain ⟨place, hplace⟩ := hlabels.position_of_target hinstr htarget
    exact ⟨place, .jump hjumps hplace, hreferenced, hplace⟩

/-- The code of a condition evaluates it and goes to the target of the outcome,
for every pair of targets. -/
theorem Expr.LowersCondition.decides {expr : Expr} {targets : Targets}
    (h : expr.LowersCondition symbols targets before after) (arithmetic : Arithmetic)
    (hlabels : code.WellLabelled) (hcode : after.code.toList <+: code) :
    Decides arithmetic symbols code before.code.size expr
      fun truth => after.Goes code (targets.on truth) := by
  intro env store hmatch
  rw [← Expr.value?_traceCondition hmatch]
  apply Code.Yields.computes
  apply (h.yields hlabels.nodup hcode store).further
  rintro truth config ⟨hagrees, hheads⟩
  obtain ⟨place, hperforms, hgoes⟩ := hheads.exists_goes hlabels
  exact ⟨_, hperforms, by rwa [hagrees.named_eq], hgoes⟩

/-- Where the tests of a `switch` lead: behind the last test if no case is entered,
and else to the label of the first that is. -/
def Builder.Selects (builder : Builder) (code : Code) (cases : List Case) (labels : List Label)
    (entered : List Case) (position : Nat) : Prop :=
  (entered = [] ∧ position = builder.code.size) ∨
    ∃ index label, labels[index]? = some label ∧ entered = cases.drop index ∧
      builder.JumpsTo code label position

/-- The tests of a `switch` find the cases to enter. -/
theorem LowersTests.computes {selector : Value} {cases : List Case} {labels : List Label}
    (h : LowersTests symbols selector cases labels before after) (hlabels : code.WellLabelled)
    (hcode : after.code.toList <+: code) (hselector : selector.Below before.temps)
    {env : Environment} {store : Store} (hmatch : env.Matches symbols store.named) :
    Code.Computes arithmetic code ⟨before.code.size, store⟩
      (enteredCases arithmetic symbols env (selector.eval store) cases)
      fun entered last => env.Matches symbols last.store.named ∧
        after.Selects code cases labels entered last.position := by
  induction h generalizing store with
  | nil builder => exact .done ⟨hmatch, .inl ⟨rfl, rfl⟩⟩
  | @cons value body rest constant labels before between after hvalue hrest ih =>
    have hbranch := hrest.extends.code.trans hcode
    have hbetween : between.code.toList <+: code := Builder.begins_of_emit hbranch
    apply (hvalue.computes hbetween hmatch).bind
    rintro _ ⟨_, last⟩ ⟨rfl, hlast, rfl⟩
    rw [← hlast.named_eq] at hmatch
    rw [← hlast.eval_eq hselector]
    have hinstr := Builder.getElem?_of_emit hbranch
    by_cases hentered : selector.eval last = constant.eval last
    · obtain ⟨place, hplace⟩ := hlabels.position_of_target hinstr rfl
      rw [if_pos hentered]
      refine ⟨_, .single (Code.step?_branch_taken hinstr hplace (by simp [RelOp.holds, hentered])),
        hmatch, .inr ⟨0, between.freshLabel, rfl, rfl, ?_⟩⟩
      exact (Builder.jumpsTo_of_emit rfl hplace).extends hrest.extends
    · rw [if_neg hentered]
      have hpassed : code.step? arithmetic ⟨between.code.size, last⟩ =
          some ⟨between.code.size + 1, last⟩ :=
        Code.step?_branch_passed hinstr (by simp [RelOp.holds, hentered])
      have hothers := ih hcode (hselector.mono hvalue.extends.temps) hmatch
      simp only [Builder.emit_code, Array.size_push, Builder.afterLabel_code] at hothers
      refine .after (.single hpassed) (hothers.mono ?_)
      rintro entered final ⟨hfinal, hnone | ⟨index, label, hlabel, rfl, hjumps⟩⟩
      · exact ⟨hfinal, .inl hnone⟩
      · exact ⟨hfinal, .inr ⟨index + 1, label, hlabel, rfl, hjumps⟩⟩

end ThreeAddress
