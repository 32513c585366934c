import ThreeAddress.Proofs.Evaluations
import ThreeAddress.Proofs.LabelAccounts

/-!
Runs of the code of an expression. Entered with any store at all, the code performs
the operations of the expression in their order. The value is then in the operand
that lowering returned, and a condition falls through behind its code or is about to
jump, as the target of its outcome says. Nothing is asked of where the targets are.
-/

namespace ThreeAddress

/-- A variable that was there before a temporary number was handed out. -/
def Var.Below (bound : Nat) : Var → Prop
  | .named _ => True
  | .temp t => t.number < bound

def Value.Below (bound : Nat) : Value → Prop
  | .imm _ => True
  | .var v => v.Below bound

theorem Var.Below.mono {lower upper : Nat} {var : Var} (h : var.Below lower)
    (hle : lower ≤ upper) : var.Below upper := by
  cases var with
  | named name => trivial
  | temp t => exact Nat.lt_of_lt_of_le h hle

theorem Value.Below.mono {lower upper : Nat} {value : Value} (h : value.Below lower)
    (hle : lower ≤ upper) : value.Below upper := by
  cases value with
  | imm value => trivial
  | var v => exact Var.Below.mono h hle

/-- Nothing has changed but temporaries handed out later. -/
def Store.AgreesBelow (bound : Nat) (one other : Store) : Prop :=
  ∀ var : Var, var.Below bound → other var = one var

namespace Store.AgreesBelow

variable {bound : Nat} {one other third : Store}

theorem refl (bound : Nat) (store : Store) : store.AgreesBelow bound store :=
  fun _ _ => rfl

theorem named_eq (h : one.AgreesBelow bound other) : other.named = one.named :=
  funext fun _ => h (.named _) trivial

theorem eval_eq (h : one.AgreesBelow bound other) {value : Value} (hvalue : value.Below bound) :
    value.eval other = value.eval one := by
  cases value with
  | imm value => rfl
  | var v => exact h v hvalue

theorem trans {lower : Nat} (hle : lower ≤ bound) (hfirst : one.AgreesBelow lower other)
    (hsecond : other.AgreesBelow bound third) : one.AgreesBelow lower third := by
  intro var hvar
  rw [hsecond var (hvar.mono hle), hfirst var hvar]

theorem set_temp (h : one.AgreesBelow bound other) {temp : Temp} (htemp : bound ≤ temp.number)
    (value : Int) : one.AgreesBelow bound (other.set (.temp temp) value) := by
  intro var hvar
  have hne : var ≠ .temp temp := by
    rintro rfl
    exact absurd hvar (Nat.not_lt.mpr htemp)
  simp only [Store.set, hne, if_false]
  exact h var hvar

end Store.AgreesBelow

variable {arithmetic : Arithmetic} {symbols : Symbols} {code : Code} {before after : Builder}

/-- What the builder wrote last is found in the finished code. -/
theorem Builder.getElem?_of_emit {builder : Builder} {instr : Instr}
    (h : (builder.emit instr).code.toList <+: code) :
    code[builder.code.size]? = some instr := by
  obtain ⟨rest, rfl⟩ := h
  simp

theorem Expr.LowersValue.value_below {expr : Expr} {value : Value}
    (h : expr.LowersValue symbols value before after) : value.Below after.temps := by
  cases h with
  | int | bool | «variable» | variant => trivial
  | neg | arith => exact Nat.lt_succ_self _

/-- The code of a value evaluates it into the operand. -/
theorem Expr.LowersValue.yields {expr : Expr} {value : Value}
    (h : expr.LowersValue symbols value before after) (hcode : after.code.toList <+: code)
    (store : Store) :
    Code.Yields arithmetic code ⟨before.code.size, store⟩
      (expr.traceValue arithmetic symbols store.named)
      fun result last => last.position = after.code.size ∧
        store.AgreesBelow before.temps last.store ∧ value.eval last.store = result := by
  induction h generalizing store with
  | int value builder => exact .done ⟨rfl, .refl _ _, rfl⟩
  | bool value builder =>
    refine .done ⟨rfl, .refl _ _, ?_⟩
    cases value <;> rfl
  | @«variable» name kind builder hlookup hkind =>
    have htrace : Expr.traceValue arithmetic symbols store.named (.ident name) =
        .done (store (.named name)) := by
      obtain rfl | rfl | rfl := hkind <;> simp [Expr.traceValue, hlookup, Store.named]
    rw [htrace]
    exact .done ⟨rfl, .refl _ _, rfl⟩
  | @variant name ordinal builder hlookup hordinal =>
    have htrace : Expr.traceValue arithmetic symbols store.named (.ident name) =
        .done ordinal.toInt := by
      simp [Expr.traceValue, hlookup, hordinal]
    rw [htrace]
    exact .done ⟨rfl, .refl _ _, rfl⟩
  | @neg operand value before after hoperand ih =>
    have hprefix : after.code.toList <+: code := Builder.begins_of_emit hcode
    apply (ih hprefix store).bind
    rintro result ⟨position, last⟩ ⟨rfl, hagrees, rfl⟩
    refine .binary (Builder.getElem?_of_emit hcode) ?_
    intro result
    refine ⟨by simp, hagrees.set_temp hoperand.extends.temps result, by simp [Value.eval, Store.set]⟩
  | @arith op left right leftValue rightValue before between after hleft hright ihl ihr =>
    have hprefix : after.code.toList <+: code := Builder.begins_of_emit hcode
    apply (ihl (hright.extends.code.trans hprefix) store).bind
    rintro result ⟨position, middle⟩ ⟨rfl, hmiddle, rfl⟩
    rw [← hmiddle.named_eq]
    apply (ihr hprefix middle).bind
    rintro result ⟨position, last⟩ ⟨rfl, hlast, rfl⟩
    rw [← hlast.eval_eq hleft.value_below]
    refine .binary (Builder.getElem?_of_emit hcode) ?_
    intro result
    have hagrees := hmiddle.trans hleft.extends.temps hlast
    refine ⟨by simp, hagrees.set_temp (hleft.extends.trans hright.extends).temps result, ?_⟩
    simp [Value.eval, Store.set]

def Targets.on (targets : Targets) (truth : Bool) : Continuation :=
  if truth then targets.onTrue else targets.onFalse

namespace Builder

@[simp] theorem openExit_code (builder : Builder) (continuation : Continuation) :
    (builder.openExit continuation).code = builder.code := by
  cases continuation <;> rfl

@[simp] theorem openExit_temps (builder : Builder) (continuation : Continuation) :
    (builder.openExit continuation).temps = builder.temps := by
  cases continuation <;> rfl

/-- The run is where the continuation says: right behind the code up to here, or
about to jump to the label. -/
def Heads (builder : Builder) (code : Code) (continuation : Continuation) (config : Code.Config) :
    Prop :=
  match continuation with
  | .fall => config.position = builder.code.size
  | .label target => target.number ∈ builder.referenced ∧ code.JumpsAt config target

variable {builder : Builder} {label : Label} {config : Code.Config} {continuation : Continuation}

theorem heads_of_emit {instr : Instr} (htarget : instr.target? = some label)
    (h : code.JumpsAt config label) : (builder.emit instr).Heads code (.label label) config :=
  ⟨(mem_emit_referenced builder).mpr (.inr htarget), h⟩

theorem Heads.extends (h : before.Heads code (.label label) config)
    (hextends : before.Extends after) : after.Heads code (.label label) config :=
  ⟨hextends.referenced label h.1, h.2⟩

/-- Behind the code so far and at a jump to the label the run goes on behind the place
of the label, whether or not it is marked there. -/
theorem performs_mark (hnodup : code.marks.Nodup)
    (hcode : (builder.mark label).code.toList <+: code)
    (h : builder.Heads code .fall config ∨ builder.Heads code (.label label) config) :
    Code.Performs arithmetic code config [] ⟨(builder.mark label).code.size, config.store⟩ := by
  obtain ⟨position, store⟩ := config
  by_cases hmem : label.number ∈ builder.referenced
  · rw [mark_of_referenced hmem] at hcode ⊢
    have hinstr := getElem?_of_emit hcode
    have hlabel : Code.Performs arithmetic code ⟨builder.code.size, store⟩ []
        ⟨(builder.emit (.label label)).code.size, store⟩ := by
      simpa using Code.Performs.label hinstr
    rcases h with hfall | ⟨_, hjumps⟩
    · obtain rfl : position = builder.code.size := hfall
      exact hlabel
    · exact (Code.Performs.jump hjumps (Code.position?_eq_some hnodup hinstr)).trans hlabel
  · rw [mark_of_not_referenced hmem]
    rcases h with hfall | hjumps
    · obtain rfl : position = builder.code.size := hfall
      exact .refl _
    · exact absurd hjumps.1 hmem

/-- Closing a connective: the run goes where the outcome says, also from its exit on
the side that the left operand settles alone. -/
theorem Heads.closeExit {origin : Builder} {targets : Targets} {truth settled : Bool}
    (hnodup : code.marks.Nodup)
    (hcode : (builder.closeExit (targets.on settled)
      (origin.exitLabel (targets.on settled))).code.toList <+: code)
    (h : builder.Heads code (targets.on truth) config ∨ (truth = settled ∧
      builder.Heads code (.label (origin.exitLabel (targets.on settled))) config)) :
    ∃ last, Code.Performs arithmetic code config [] last ∧ last.store = config.store ∧
      (builder.closeExit (targets.on settled) (origin.exitLabel (targets.on settled))).Heads code
        (targets.on truth) last := by
  cases hexit : targets.on settled with
  | label exit =>
    refine ⟨config, .refl config, rfl, ?_⟩
    rcases h with hheads | ⟨rfl, hheads⟩
    · exact hheads
    · rw [hexit] at hheads ⊢
      exact hheads
  | fall =>
    rw [hexit] at hcode h
    have hextends : builder.Extends (builder.closeExit .fall (origin.exitLabel .fall)) :=
      (Extends.refl builder).closeExit .fall _
    rcases h with hheads | ⟨rfl, hheads⟩
    · cases htarget : targets.on truth with
      | label target =>
        rw [htarget] at hheads
        exact ⟨config, .refl config, rfl, hheads.extends hextends⟩
      | fall =>
        rw [htarget] at hheads
        exact ⟨_, performs_mark hnodup hcode (.inl hheads), rfl, rfl⟩
    · rw [hexit]
      exact ⟨_, performs_mark hnodup hcode (.inr hheads), rfl, rfl⟩

end Builder

/-- A branch heads for the target of its outcome. -/
theorem LowersBranch.performs {left right : Value} {op : RelOp} {targets : Targets}
    (h : LowersBranch left op right targets before after) (hcode : after.code.toList <+: code)
    (store : Store) :
    ∃ last, Code.Performs arithmetic code ⟨before.code.size, store⟩ [] last ∧
      last.store = store ∧
      after.Heads code (targets.on (op.holds (left.eval store) (right.eval store))) last := by
  cases h with
  | both onTrue onFalse =>
    have hbranch := Builder.getElem?_of_emit (Builder.begins_of_emit hcode)
    have hjump := Builder.getElem?_of_emit hcode
    cases hholds : op.holds (left.eval store) (right.eval store) with
    | true =>
      refine ⟨_, .refl _, rfl, ?_⟩
      exact (Builder.heads_of_emit rfl (.of_branch hbranch hholds)).extends
        ((Builder.Extends.refl _).emit _)
    | false =>
      refine ⟨_, .branch_passed hbranch (by simp [hholds]), rfl, ?_⟩
      exact Builder.heads_of_emit rfl (.of_jump (by simpa using hjump))
  | onTrue target =>
    have hbranch := Builder.getElem?_of_emit hcode
    cases hholds : op.holds (left.eval store) (right.eval store) with
    | true => exact ⟨_, .refl _, rfl, Builder.heads_of_emit rfl (.of_branch hbranch hholds)⟩
    | false =>
      refine ⟨_, .branch_passed hbranch (by simp [hholds]), rfl, ?_⟩
      simp [Targets.on, Builder.Heads]
  | onFalse target =>
    have hbranch := Builder.getElem?_of_emit hcode
    cases hholds : op.holds (left.eval store) (right.eval store) with
    | true =>
      refine ⟨_, .branch_passed hbranch (by simp [hholds]), rfl, ?_⟩
      simp [Targets.on, Builder.Heads]
    | false => exact ⟨_, .refl _, rfl, Builder.heads_of_emit rfl (.of_branch hbranch hholds)⟩

/-- Where a connective heads before it is closed: for the target of its outcome, or
on the side that the left operand settles alone for the exit. -/
theorem Code.Yields.closeExit {evaluation : Evaluation Bool} {start : Code.Config} {store : Store}
    {bound : Nat} {builder origin : Builder} {targets : Targets} (settled : Bool)
    (hnodup : code.marks.Nodup)
    (hcode : (builder.closeExit (targets.on settled)
      (origin.exitLabel (targets.on settled))).code.toList <+: code)
    (h : Code.Yields arithmetic code start evaluation fun truth last =>
      store.AgreesBelow bound last.store ∧ (builder.Heads code (targets.on truth) last ∨
        (truth = settled ∧
          builder.Heads code (.label (origin.exitLabel (targets.on settled))) last))) :
    Code.Yields arithmetic code start evaluation fun truth last =>
      store.AgreesBelow bound last.store ∧
        (builder.closeExit (targets.on settled) (origin.exitLabel (targets.on settled))).Heads code
          (targets.on truth) last := by
  apply h.further
  rintro truth config ⟨hagrees, hheads⟩
  obtain ⟨last, hperforms, hstore, hgoes⟩ := Builder.Heads.closeExit hnodup hcode hheads
  exact ⟨last, hperforms, hstore ▸ hagrees, hgoes⟩

/-- The code of a condition evaluates it and heads for the target of the outcome, for
every pair of targets. -/
theorem Expr.LowersCondition.yields {expr : Expr} {targets : Targets}
    (h : expr.LowersCondition symbols targets before after) (hnodup : code.marks.Nodup)
    (hcode : after.code.toList <+: code) (store : Store) :
    Code.Yields arithmetic code ⟨before.code.size, store⟩
      (expr.traceCondition arithmetic symbols store.named)
      fun truth last => store.AgreesBelow before.temps last.store ∧
        after.Heads code (targets.on truth) last := by
  induction h generalizing store with
  | @and left right targets before between after hleft hright ihl ihr =>
    have hafter := Builder.begins_of_closeExit hcode
    have hfirst := ihl (hright.extends.code.trans hafter) store
    rw [Builder.openExit_code, Builder.openExit_temps] at hfirst
    refine Code.Yields.closeExit false hnodup hcode (hfirst.bind ?_)
    rintro truth ⟨position, middle⟩ ⟨hmiddle, hheads⟩
    cases truth with
    | true =>
      obtain rfl : position = between.code.size := hheads
      have hsecond := ihr hafter middle
      rw [hmiddle.named_eq] at hsecond
      apply hsecond.mono
      rintro truth last ⟨hlast, hgoes⟩
      exact ⟨hmiddle.trans hleft.extends.of_openExit.temps hlast, .inl hgoes⟩
    | false => exact .done ⟨hmiddle, .inr ⟨rfl, Builder.Heads.extends hheads hright.extends⟩⟩
  | @or left right targets before between after hleft hright ihl ihr =>
    have hafter := Builder.begins_of_closeExit hcode
    have hfirst := ihl (hright.extends.code.trans hafter) store
    rw [Builder.openExit_code, Builder.openExit_temps] at hfirst
    refine Code.Yields.closeExit true hnodup hcode (hfirst.bind ?_)
    rintro truth ⟨position, middle⟩ ⟨hmiddle, hheads⟩
    cases truth with
    | true => exact .done ⟨hmiddle, .inr ⟨rfl, Builder.Heads.extends hheads hright.extends⟩⟩
    | false =>
      obtain rfl : position = between.code.size := hheads
      have hsecond := ihr hafter middle
      rw [hmiddle.named_eq] at hsecond
      apply hsecond.mono
      rintro truth last ⟨hlast, hgoes⟩
      exact ⟨hmiddle.trans hleft.extends.of_openExit.temps hlast, .inl hgoes⟩
  | @not operand targets before after _ ih =>
    apply (ih hcode store).bind
    rintro truth last ⟨hagrees, hheads⟩
    refine .done ⟨hagrees, ?_⟩
    cases truth <;> exact hheads
  | @compare op left right leftValue rightValue targets before between evaluated after hleft hright
      hbranch =>
    have hevaluated := hbranch.extends.code.trans hcode
    apply (hleft.yields (hright.extends.code.trans hevaluated) store).bind
    rintro _ ⟨_, middle⟩ ⟨rfl, hmiddle, rfl⟩
    rw [← hmiddle.named_eq]
    apply (hright.yields hevaluated middle).bind
    rintro _ ⟨_, last⟩ ⟨rfl, hlast, rfl⟩
    rw [← hlast.eval_eq hleft.value_below]
    obtain ⟨final, hperforms, hstore, hheads⟩ := hbranch.performs hcode last
    refine ⟨final, hperforms, ?_, hheads⟩
    rw [hstore]
    exact hmiddle.trans hleft.extends.temps hlast
  | @ident name targets before after hlookup hbranch =>
    obtain ⟨last, hperforms, hstore, hheads⟩ := hbranch.performs hcode store
    have htrace : Expr.traceCondition arithmetic symbols store.named (.ident name) =
        .done (store (.named name) == 1) := by
      simp [Expr.traceCondition, hlookup, Store.named]
    rw [htrace]
    refine ⟨last, hperforms, ?_, hheads⟩
    rw [hstore]
    exact .refl _ _
  | @boolJump value targets target builder htarget =>
    refine .done ⟨.refl _ _, ?_⟩
    simp only [Targets.on, htarget]
    exact Builder.heads_of_emit rfl (.of_jump (Builder.getElem?_of_emit hcode))
  | @boolFall value targets builder htarget =>
    refine .done ⟨.refl _ _, ?_⟩
    simp only [Targets.on, htarget, Builder.Heads]

end ThreeAddress
