import ThreeAddress.Proofs.LoweringRules

/-!
The rules describe exactly the runs of lowering that succeed. This is the one
place where the lowering functions are taken apart.
-/

namespace ThreeAddress

open Build

theorem Symbols.resolve_eq_ok {symbols : Symbols} {name : String} {kind : SymbolKind} :
    symbols.resolve name = .ok kind ↔ symbols.lookup name = some kind := by
  unfold Symbols.resolve
  cases symbols.lookup name <;> simp

theorem Symbols.resolveOrdinal_eq_ok {symbols : Symbols} {name : String} {ordinal : Int64} :
    symbols.resolveOrdinal name = .ok ordinal ↔ symbols.ordinal? name = some ordinal := by
  unfold Symbols.resolveOrdinal
  cases symbols.ordinal? name <;> simp

variable {symbols : Symbols}

theorem Expr.lowersValue_of_lowerValue {expr : Expr} {value : Value} {before after : Builder}
    (h : expr.lowerValue symbols before = .ok value after) :
    expr.LowersValue symbols value before after := by
  induction expr generalizing value before after with
  | int v =>
    simp only [lowerValue, pure_eq_ok] at h
    obtain ⟨rfl, rfl⟩ := h
    exact .int v before
  | bool v =>
    simp only [lowerValue, pure_eq_ok] at h
    obtain ⟨rfl, rfl⟩ := h
    exact .bool v before
  | ident name =>
    simp only [lowerValue, bind_eq_ok, ofExcept_eq_ok, Symbols.resolve_eq_ok] at h
    obtain ⟨kind, _, ⟨hlookup, rfl⟩, h⟩ := h
    cases kind with
    | enumType => simp only [throw_eq_ok] at h
    | enumVariant =>
      simp only [bind_eq_ok, ofExcept_eq_ok, Symbols.resolveOrdinal_eq_ok, pure_eq_ok] at h
      obtain ⟨ordinal, _, ⟨hordinal, rfl⟩, rfl, rfl⟩ := h
      exact .variant before hlookup hordinal
    | number | boolean | enumVar =>
      simp only [pure_eq_ok] at h
      obtain ⟨rfl, rfl⟩ := h
      exact .variable before hlookup (by simp)
  | neg operand ih =>
    simp only [lowerValue, bind_eq_ok, freshTemp_eq_ok, emit_eq_ok, pure_eq_ok] at h
    obtain ⟨_, _, hoperand, _, _, ⟨rfl, rfl⟩, _, _, rfl, rfl, rfl⟩ := h
    exact .neg (ih hoperand)
  | arith op left right ihl ihr =>
    simp only [lowerValue, bind_eq_ok, freshTemp_eq_ok, emit_eq_ok, pure_eq_ok] at h
    obtain ⟨_, _, hleft, _, _, hright, _, _, ⟨rfl, rfl⟩, _, _, rfl, rfl, rfl⟩ := h
    exact .arith (ihl hleft) (ihr hright)
  | compare | and | or | not => simp only [lowerValue, throw_eq_ok] at h

theorem Expr.LowersValue.lowerValue_eq {expr : Expr} {value : Value} {before after : Builder}
    (h : expr.LowersValue symbols value before after) :
    expr.lowerValue symbols before = .ok value after := by
  induction h with
  | int | bool => rfl
  | «variable» builder hlookup hkind =>
    simp only [lowerValue, bind_eq_ok, ofExcept_eq_ok, Symbols.resolve_eq_ok]
    refine ⟨_, _, ⟨hlookup, rfl⟩, ?_⟩
    obtain rfl | rfl | rfl := hkind <;> rfl
  | variant builder hlookup hordinal =>
    simp only [lowerValue, bind_eq_ok, ofExcept_eq_ok, Symbols.resolve_eq_ok]
    refine ⟨_, _, ⟨hlookup, rfl⟩, ?_⟩
    simp only [bind_eq_ok, ofExcept_eq_ok, Symbols.resolveOrdinal_eq_ok, pure_eq_ok]
    exact ⟨_, _, ⟨hordinal, rfl⟩, rfl, rfl⟩
  | neg hoperand ih =>
    simp only [lowerValue, bind_eq_ok]
    exact ⟨_, _, ih, _, _, rfl, _, _, rfl, rfl⟩
  | arith hleft hright ihl ihr =>
    simp only [lowerValue, bind_eq_ok]
    exact ⟨_, _, ihl, _, _, ihr, _, _, rfl, _, _, rfl, rfl⟩

theorem Expr.lowerBranch_eq_ok {left right : Value} {op : RelOp} {targets : Targets}
    {source : BranchSource} {before after : Builder} :
    lowerBranch left op right targets source before = .ok () after ↔
      LowersBranch left op right targets before after := by
  constructor
  · intro h
    obtain ⟨onTrue | onTrue, onFalse | onFalse⟩ := targets
    · simp only [lowerBranch, throw_eq_ok] at h
    · simp only [lowerBranch, emit_eq_ok] at h
      obtain rfl := h
      exact .onFalse onFalse before
    · simp only [lowerBranch, emit_eq_ok] at h
      obtain rfl := h
      exact .onTrue onTrue before
    · simp only [lowerBranch, bind_eq_ok, emit_eq_ok] at h
      obtain ⟨_, _, rfl, rfl⟩ := h
      exact .both onTrue onFalse before
  · intro h
    cases h <;> rfl

theorem Expr.lowersCondition_of_lowerCondition {expr : Expr} {targets : Targets}
    {before after : Builder} (h : expr.lowerCondition symbols targets before = .ok () after) :
    expr.LowersCondition symbols targets before after := by
  induction expr generalizing targets before after with
  | and left right ihl ihr =>
    simp only [lowerCondition, withExit_eq_ok, bind_eq_ok] at h
    obtain ⟨_, ⟨_, _, hleft, hright⟩, rfl⟩ := h
    exact .and (ihl hleft) (ihr hright)
  | or left right ihl ihr =>
    simp only [lowerCondition, withExit_eq_ok, bind_eq_ok] at h
    obtain ⟨_, ⟨_, _, hleft, hright⟩, rfl⟩ := h
    exact .or (ihl hleft) (ihr hright)
  | not operand ih => exact .not (ih h)
  | compare op left right =>
    simp only [lowerCondition, bind_eq_ok] at h
    obtain ⟨_, _, hleft, _, _, hright, hbranch⟩ := h
    exact .compare (lowersValue_of_lowerValue hleft) (lowersValue_of_lowerValue hright)
      (lowerBranch_eq_ok.mp hbranch)
  | ident name =>
    simp only [lowerCondition, bind_eq_ok, ofExcept_eq_ok, Symbols.resolve_eq_ok] at h
    obtain ⟨kind, _, ⟨hlookup, rfl⟩, h⟩ := h
    cases kind with
    | boolean => exact .ident hlookup (lowerBranch_eq_ok.mp h)
    | number | enumType | enumVariant | enumVar => simp only [throw_eq_ok] at h
  | bool value =>
    simp only [lowerCondition] at h
    cases htarget : (if value then targets.onTrue else targets.onFalse) with
    | fall =>
      simp only [htarget, jump, pure_eq_ok] at h
      obtain ⟨_, rfl⟩ := h
      exact .boolFall before htarget
    | label target =>
      simp only [htarget, jump, emit_eq_ok] at h
      obtain rfl := h
      exact .boolJump before htarget
  | int | neg | arith => simp only [lowerCondition, throw_eq_ok] at h

theorem Expr.LowersCondition.lowerCondition_eq {expr : Expr} {targets : Targets}
    {before after : Builder} (h : expr.LowersCondition symbols targets before after) :
    expr.lowerCondition symbols targets before = .ok () after := by
  induction h with
  | and hleft hright ihl ihr | or hleft hright ihl ihr =>
    simp only [lowerCondition, withExit_eq_ok, bind_eq_ok]
    exact ⟨_, ⟨_, _, ihl, ihr⟩, rfl⟩
  | not hoperand ih => exact ih
  | compare hleft hright hbranch =>
    simp only [lowerCondition, bind_eq_ok]
    exact ⟨_, _, hleft.lowerValue_eq, _, _, hright.lowerValue_eq, lowerBranch_eq_ok.mpr hbranch⟩
  | ident hlookup hbranch =>
    simp only [lowerCondition, bind_eq_ok, ofExcept_eq_ok, Symbols.resolve_eq_ok]
    exact ⟨_, _, ⟨hlookup, rfl⟩, lowerBranch_eq_ok.mpr hbranch⟩
  | boolJump builder htarget | boolFall builder htarget =>
    simp only [lowerCondition, htarget]
    rfl

theorem lowersTests_of_lowerCaseTests {selector : Value} {cases : List Case}
    {given labels : SwitchLabels} {before after : Builder}
    (h : lowerCaseTests symbols selector given cases before = .ok labels after) :
    ∃ targets, labels = ⟨given.exit, given.pending ++ targets⟩ ∧
      LowersTests symbols selector cases targets before after := by
  induction cases generalizing given before with
  | nil =>
    simp only [lowerCaseTests, pure_eq_ok] at h
    obtain ⟨rfl, rfl⟩ := h
    exact ⟨[], by simp, .nil before⟩
  | cons branch rest ih =>
    obtain ⟨value, body⟩ := branch
    simp only [lowerCaseTests, bind_eq_ok, freshLabel_eq_ok, emit_eq_ok] at h
    obtain ⟨_, between, hvalue, _, _, ⟨rfl, rfl⟩, _, _, rfl, hrest⟩ := h
    obtain ⟨targets, rfl, htests⟩ := ih hrest
    exact ⟨between.freshLabel :: targets, by simp [SwitchLabels.push],
      .cons (Expr.lowersValue_of_lowerValue hvalue) htests⟩

theorem LowersTests.lowerCaseTests_eq {selector : Value} {cases : List Case}
    {targets : List Label} {before after : Builder}
    (h : LowersTests symbols selector cases targets before after) (given : SwitchLabels) :
    lowerCaseTests symbols selector given cases before =
      .ok ⟨given.exit, given.pending ++ targets⟩ after := by
  induction h generalizing given with
  | nil builder =>
    simp only [lowerCaseTests, pure_eq_ok, List.append_nil, and_self]
  | cons hvalue hrest ih =>
    simp only [lowerCaseTests, bind_eq_ok, freshLabel_eq_ok, emit_eq_ok]
    refine ⟨_, _, hvalue.lowerValue_eq, _, _, ⟨rfl, rfl⟩, (), _, rfl, ?_⟩
    rw [ih]
    simp [SwitchLabels.push]

theorem lowers_of_lowerAssign {target : String} {value : Expr} {continuation : Continuation}
    {before after : Builder}
    (h : lowerAssign symbols target value continuation before = .ok () after) :
    Lowers symbols (.stmt (.assign target value) continuation) before after := by
  simp only [lowerAssign, bind_eq_ok, ofExcept_eq_ok, Symbols.resolve_eq_ok] at h
  obtain ⟨kind, _, ⟨hlookup, rfl⟩, h⟩ := h
  cases kind with
  | number | enumVar =>
    simp only [bind_eq_ok, emit_eq_ok] at h
    obtain ⟨_, _, hvalue, rfl⟩ := h
    exact .assignNumber (by simp [hlookup]) (Expr.lowersValue_of_lowerValue hvalue)
  | boolean =>
    simp only [withExit_eq_ok, bind_eq_ok, freshLabel_eq_ok, emit_eq_ok, mark_eq_ok] at h
    obtain ⟨_, ⟨_, _, ⟨rfl, rfl⟩, _, _, hvalue, _, _, rfl, _, _, rfl, _, _, rfl, rfl⟩, rfl⟩ := h
    exact .assignBoolean hlookup (Expr.lowersCondition_of_lowerCondition hvalue) rfl
  | enumType | enumVariant => simp only [throw_eq_ok] at h

/-- Every successful lowering follows the rules. The cases are those of the
lowering functions themselves. -/
theorem lowers_of_lower (symbols : Symbols) :
    (∀ stmt continuation before after,
      Stmt.lower symbols stmt continuation before = .ok () after →
      Lowers symbols (.stmt stmt continuation) before after) ∧
    (∀ cases exit before after,
      lowerCases symbols cases exit before = .ok () after →
      Lowers symbols (.cases cases exit) before after) ∧
    (∀ body continuation before after,
      lowerBlock symbols body continuation before = .ok () after →
      Lowers symbols (.block body continuation) before after) := by
  refine Stmt.lower.mutual_induct symbols _ _ _ ?declare ?declareEnum ?block ?assign ?iteNone
    ?danglingElse ?iteThen ?iteElse ?whileLoop ?forLoop ?emptySwitch ?switch ?breakSwitch
    ?blockNil ?blockLast ?blockCons ?casesNil ?casesCons
  case declare =>
    intro name type continuation before after h
    simp only [Stmt.lower, pure_eq_ok] at h
    obtain ⟨_, rfl⟩ := h
    exact .declare name type continuation before
  case declareEnum =>
    intro name variants continuation before after h
    simp only [Stmt.lower, pure_eq_ok] at h
    obtain ⟨_, rfl⟩ := h
    exact .declareEnum name variants continuation before
  case block =>
    intro body continuation ih before after h
    exact .block (ih before after h)
  case assign =>
    intro target value continuation before after h
    exact lowers_of_lowerAssign h
  case iteNone =>
    intro condition continuation before after h
    simp only [Stmt.lower, withExit_eq_ok] at h
    obtain ⟨_, hcondition, rfl⟩ := h
    exact .iteNone (Expr.lowersCondition_of_lowerCondition hcondition)
  case danglingElse =>
    intro condition elseBranch continuation before after h
    simp only [Stmt.lower, throw_eq_ok] at h
  case iteThen =>
    intro condition thenBranch continuation ih before after h
    simp only [Stmt.lower, withExit_eq_ok, bind_eq_ok] at h
    obtain ⟨_, ⟨_, _, hcondition, hthen⟩, rfl⟩ := h
    exact .iteThen (Expr.lowersCondition_of_lowerCondition hcondition) (ih _ _ hthen)
  case iteElse =>
    intro condition thenBranch elseBranch continuation ihthen ihelse before after h
    simp only [Stmt.lower, withExit_eq_ok, bind_eq_ok, freshLabel_eq_ok, emit_eq_ok,
      mark_eq_ok] at h
    obtain ⟨_, ⟨_, _, ⟨rfl, rfl⟩, _, _, hcondition, _, _, hthen, _, _, rfl, _, _, rfl, helse⟩,
      rfl⟩ := h
    exact .iteElse (Expr.lowersCondition_of_lowerCondition hcondition) (ihthen _ _ _ hthen) rfl
      (ihelse _ _ helse)
  case whileLoop =>
    intro condition body continuation ih before after h
    simp only [Stmt.lower, markHead, withExit_eq_ok, bind_eq_ok, freshLabel_eq_ok, emit_eq_ok] at h
    obtain ⟨_, _, ⟨rfl, rfl⟩, _, _, rfl, _, ⟨_, _, hcondition, _, _, hbody, rfl⟩, rfl⟩ := h
    exact .whileLoop rfl (Expr.lowersCondition_of_lowerCondition hcondition) (ih _ _ _ hbody)
  case forLoop =>
    intro init condition update body continuation ihinit ihbody ihupdate before after h
    simp only [Stmt.lower, markHead, withExit_eq_ok, bind_eq_ok, freshLabel_eq_ok, emit_eq_ok,
      mark_eq_ok] at h
    obtain ⟨_, _, ⟨rfl, rfl⟩, _, _, ⟨rfl, rfl⟩, _, _, hinit, _, _, rfl, _, ⟨_, _, hcondition, _, _,
      hbody, _, _, rfl, _, _, hupdate, rfl⟩, rfl⟩ := h
    exact .forLoop (ihinit _ _ _ hinit) rfl (Expr.lowersCondition_of_lowerCondition hcondition)
      (ihbody _ _ _ hbody) (ihupdate _ _ _ hupdate)
  case emptySwitch =>
    intro selector cases continuation hempty _ before after h
    simp only [Stmt.lower, hempty, if_true, bind_eq_ok, throw_eq_ok, false_and, exists_false] at h
  case switch =>
    intro selector cases continuation hcases ih before after h
    rw [Stmt.lower, if_neg hcases] at h
    simp only [withExit_eq_ok, bind_eq_ok, emit_eq_ok, inSwitch_eq_ok] at h
    obtain ⟨_, ⟨_, _, hselector, _, _, hrun, _, _, rfl, _, hbodies, hresolved, rfl⟩, rfl⟩ := h
    obtain ⟨targets, rfl, htests⟩ := lowersTests_of_lowerCaseTests hrun
    exact .switch (by simpa using hcases) (Expr.lowersValue_of_lowerValue hselector) htests rfl
      (ih _ _ _ hbodies) hresolved
  case breakSwitch =>
    intro continuation before after h
    simp only [Stmt.lower, bind_eq_ok, breakTarget_eq_ok, emit_eq_ok] at h
    obtain ⟨_, _, ⟨labels, outer, hswitch, rfl, rfl⟩, rfl⟩ := h
    exact .breakSwitch hswitch
  case blockNil =>
    intro continuation before after h
    simp only [lowerBlock, pure_eq_ok] at h
    obtain ⟨_, rfl⟩ := h
    exact .blockNil continuation before
  case blockLast =>
    intro last continuation ih before after h
    exact .blockLast (ih before after h)
  case blockCons =>
    intro stmt next rest continuation ihstmt ihrest before after h
    simp only [lowerBlock, bind_eq_ok, freshLabel_eq_ok, mark_eq_ok] at h
    obtain ⟨_, _, ⟨rfl, rfl⟩, _, _, hstmt, _, _, rfl, hrest⟩ := h
    exact .blockCons (ihstmt _ _ _ hstmt) (ihrest _ _ hrest)
  case casesNil =>
    intro exit before after h
    simp only [lowerCases, pure_eq_ok] at h
    obtain ⟨_, rfl⟩ := h
    exact .casesNil exit before
  case casesCons =>
    intro value body rest exit ihbody ihrest before after h
    simp only [lowerCases, bind_eq_ok, nextCaseLabel_eq_ok, mark_eq_ok] at h
    obtain ⟨_, _, ⟨_, _, _, hswitch, rfl⟩, _, _, rfl, _, _, hbody, hrest⟩ := h
    exact .casesCons hswitch rfl (ihbody _ _ hbody) (ihrest _ _ hrest)

def Piece.lower (symbols : Symbols) : Piece → Build Unit
  | .stmt single continuation => single.lower symbols continuation
  | .block body continuation => lowerBlock symbols body continuation
  | .cases branches exit => lowerCases symbols branches exit

theorem Lowers.lower_eq {piece : Piece} {before after : Builder}
    (h : Lowers symbols piece before after) :
    piece.lower symbols before = .ok () after := by
  induction h with
  | declare | declareEnum | blockNil | casesNil =>
    simp only [Piece.lower, Stmt.lower, lowerBlock, lowerCases, pure_eq_ok, and_self]
  | block hbody ih =>
    simpa only [Piece.lower, Stmt.lower] using ih
  | blockLast hlast ih =>
    simpa only [Piece.lower, lowerBlock] using ih
  | assignNumber hkind hvalue =>
    simp only [Piece.lower, Stmt.lower, lowerAssign, bind_eq_ok, ofExcept_eq_ok,
      Symbols.resolve_eq_ok]
    obtain hkind | hkind := hkind
    all_goals
      refine ⟨_, _, ⟨hkind, rfl⟩, ?_⟩
      simp only [bind_eq_ok]
      exact ⟨_, _, hvalue.lowerValue_eq, rfl⟩
  | assignBoolean hkind hvalue hplaced =>
    subst hplaced
    simp only [Piece.lower, Stmt.lower, lowerAssign, bind_eq_ok, ofExcept_eq_ok,
      Symbols.resolve_eq_ok]
    refine ⟨_, _, ⟨hkind, rfl⟩, ?_⟩
    simp only [withExit_eq_ok, bind_eq_ok]
    exact ⟨_, ⟨_, _, rfl, _, _, hvalue.lowerCondition_eq, _, _, rfl, _, _, rfl, _, _, rfl, rfl⟩, rfl⟩
  | iteNone hcondition =>
    simp only [Piece.lower, Stmt.lower, withExit_eq_ok]
    exact ⟨_, hcondition.lowerCondition_eq, rfl⟩
  | iteThen hcondition hthen ih =>
    simp only [Piece.lower, Stmt.lower, withExit_eq_ok, bind_eq_ok]
    exact ⟨_, ⟨_, _, hcondition.lowerCondition_eq, ih⟩, rfl⟩
  | iteElse hcondition hthen hplaced helse ihthen ihelse =>
    subst hplaced
    simp only [Piece.lower, Stmt.lower, withExit_eq_ok, bind_eq_ok]
    exact ⟨_, ⟨_, _, rfl, _, _, hcondition.lowerCondition_eq, _, _, ihthen, _, _, rfl, _, _, rfl,
      ihelse⟩, rfl⟩
  | whileLoop hhead hcondition hbody ih =>
    subst hhead
    simp only [Piece.lower, Stmt.lower, withExit_eq_ok, bind_eq_ok]
    exact ⟨_, _, rfl, _, _, rfl, _, ⟨_, _, hcondition.lowerCondition_eq, _, _, ih, rfl⟩, rfl⟩
  | forLoop hinit hhead hcondition hbody hupdate ihinit ihbody ihupdate =>
    subst hhead
    simp only [Piece.lower, Stmt.lower, withExit_eq_ok, bind_eq_ok]
    exact ⟨_, _, rfl, _, _, rfl, _, _, ihinit, _, _, rfl, _, ⟨_, _, hcondition.lowerCondition_eq,
      _, _, ihbody, _, _, rfl, _, _, ihupdate, rfl⟩, rfl⟩
  | switch hcases hselector htests hinside hbodies hresolved ih =>
    subst hinside
    rw [Piece.lower, Stmt.lower, if_neg (by simpa using hcases)]
    simp only [withExit_eq_ok, bind_eq_ok, inSwitch_eq_ok]
    exact ⟨_, ⟨_, _, hselector.lowerValue_eq, _, _, htests.lowerCaseTests_eq _, _, _, rfl,
      _, ih, hresolved, rfl⟩, rfl⟩
  | breakSwitch hswitch =>
    simp only [Piece.lower, Stmt.lower, bind_eq_ok, breakTarget_eq_ok]
    exact ⟨_, _, ⟨_, _, hswitch, rfl, rfl⟩, rfl⟩
  | blockCons hstmt hrest ihstmt ihrest =>
    simp only [Piece.lower, lowerBlock, bind_eq_ok]
    exact ⟨_, _, rfl, _, _, ihstmt, _, _, rfl, ihrest⟩
  | @casesCons branch _ _ _ _ _ _ _ _ _ _ hswitch hplaced _ _ ihbody ihrest =>
    subst hplaced
    obtain ⟨value, body⟩ := branch
    simp only [Piece.lower, lowerCases, bind_eq_ok, nextCaseLabel_eq_ok]
    exact ⟨_, _, ⟨_, _, _, hswitch, rfl⟩, _, _, rfl, _, _, ihbody, ihrest⟩

/-- The rules describe exactly the runs of lowering that succeed. -/
theorem Piece.lower_eq_ok {piece : Piece} {before after : Builder} :
    piece.lower symbols before = .ok () after ↔ Lowers symbols piece before after := by
  constructor
  · intro h
    obtain ⟨hstmt, hcases, hblock⟩ := lowers_of_lower symbols
    cases piece with
    | stmt stmt continuation => exact hstmt stmt continuation before after h
    | block body continuation => exact hblock body continuation before after h
    | cases branches exit => exact hcases branches exit before after h
  · exact Lowers.lower_eq

/-- The code of a whole program comes from a run of the rules on its body, and
then the label behind it. -/
theorem Program.toCode_eq_ok {program : Program} {code : Code} :
    program.toCode symbols = .ok code ↔
      ∃ after, Lowers symbols (.block program.body (.label Builder.empty.freshLabel))
          Builder.empty.afterLabel after ∧
        (after.mark Builder.empty.freshLabel).code.toList = code := by
  have hlower (last : Builder) : program.lower symbols Builder.empty = .ok () last ↔
      ∃ after, Lowers symbols (.block program.body (.label Builder.empty.freshLabel))
          Builder.empty.afterLabel after ∧ after.mark Builder.empty.freshLabel = last := by
    simp only [Program.lower, bind_eq_ok, freshLabel_eq_ok, mark_eq_ok, ← Piece.lower_eq_ok,
      Piece.lower]
    constructor
    · rintro ⟨_, _, ⟨rfl, rfl⟩, _, after, hblock, hmark⟩
      exact ⟨after, hblock, hmark⟩
    · rintro ⟨after, hblock, hmark⟩
      exact ⟨_, _, ⟨rfl, rfl⟩, (), after, hblock, hmark⟩
  unfold Program.toCode
  cases hrun : program.lower symbols Builder.empty with
  | ok value last =>
    constructor
    · intro h
      obtain ⟨after, hblock, rfl⟩ := (hlower last).mp hrun
      exact ⟨after, hblock, Except.ok.inj h⟩
    · rintro ⟨after, hblock, rfl⟩
      have hok := (hlower _).mpr ⟨after, hblock, rfl⟩
      rw [hrun] at hok
      cases hok
      rfl
  | error e last =>
    simp only [reduceCtorEq, false_iff]
    rintro ⟨after, hblock, _⟩
    have hok := (hlower _).mpr ⟨after, hblock, rfl⟩
    rw [hrun] at hok
    cases hok

end ThreeAddress
