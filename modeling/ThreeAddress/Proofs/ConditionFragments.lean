import ThreeAddress.Proofs.CodeNames
import ThreeAddress.Proofs.ExprRuns

/-!
The code of a condition as a piece of its own. What lowering appends marks only fresh
labels, each once, and jumps only to these and to the targets it was given. So it can
be run by itself: from any store it evaluates the condition, changes no named
variable, and leaves by its end or by a jump to a target, as the outcome says. Behind
the code it was appended to it runs in the same way.
-/

namespace ThreeAddress

/-- One builder has the code of another and this fragment behind it. The fragment
marks only labels that were handed out in between, and jumps only to labels it marks
and to given ones. -/
structure Builder.Appends (before after : Builder) (fragment : Code) (given : Label → Prop) :
    Prop where
  code_eq : after.code.toList = before.code.toList ++ fragment
  grows : before.Extends after
  fresh : ∀ label ∈ fragment.marks, before.labels ≤ label.number ∧ label.number < after.labels
  once : fragment.marks.Nodup
  recorded : ∀ label ∈ fragment.targets, label.number ∈ after.referenced
  bound : ∀ label ∈ fragment.targets, label ∈ fragment.marks ∨ given label

namespace Code

theorem marks_append (first second : Code) :
    Code.marks (first ++ second) = first.marks ++ second.marks :=
  List.filterMap_append

theorem targets_append (first second : Code) :
    Code.targets (first ++ second) = first.targets ++ second.targets :=
  List.filterMap_append

end Code

namespace Builder.Appends

variable {before between after : Builder} {fragment more : Code} {given allowed : Label → Prop}

theorem nil (given : Label → Prop) (h : before.Extends after) (hcode : after.code = before.code) :
    before.Appends after [] given where
  code_eq := by simp [hcode]
  grows := h
  fresh := by simp [Code.marks]
  once := List.nodup_nil
  recorded := by simp [Code.targets]
  bound := by simp [Code.targets]

theorem mono (h : before.Appends after fragment given)
    (hallowed : ∀ label, given label → allowed label) :
    before.Appends after fragment allowed where
  code_eq := h.code_eq
  grows := h.grows
  fresh := h.fresh
  once := h.once
  recorded := h.recorded
  bound label hlabel := (h.bound label hlabel).imp_right (hallowed label)

theorem trans (hfirst : before.Appends between fragment given)
    (hsecond : between.Appends after more given) :
    before.Appends after (fragment ++ more) given where
  code_eq := by rw [hsecond.code_eq, hfirst.code_eq, List.append_assoc]
  grows := hfirst.grows.trans hsecond.grows
  fresh label hlabel := by
    rw [Code.marks_append] at hlabel
    have hfirstLabels := hfirst.grows.labels
    have hsecondLabels := hsecond.grows.labels
    rcases List.mem_append.mp hlabel with hmem | hmem
    · have hfresh := hfirst.fresh label hmem
      omega
    · have hfresh := hsecond.fresh label hmem
      omega
  once := by
    rw [Code.marks_append]
    refine List.nodup_append.mpr ⟨hfirst.once, hsecond.once, ?_⟩
    rintro label hold _ hnew rfl
    have hfirstFresh := hfirst.fresh label hold
    have hsecondFresh := hsecond.fresh label hnew
    omega
  recorded label hlabel := by
    rw [Code.targets_append] at hlabel
    rcases List.mem_append.mp hlabel with hmem | hmem
    · exact hsecond.grows.referenced label (hfirst.recorded label hmem)
    · exact hsecond.recorded label hmem
  bound label hlabel := by
    rw [Code.targets_append] at hlabel
    rw [Code.marks_append, List.mem_append]
    rcases List.mem_append.mp hlabel with hmem | hmem
    · exact (hfirst.bound label hmem).imp_left .inl
    · exact (hsecond.bound label hmem).imp_left .inr

/-- An instruction that marks no label and jumps to given ones at most. -/
theorem emit (builder : Builder) {instr : Instr} (hmark : instr.mark? = none)
    (htarget : ∀ label, instr.target? = some label → given label) :
    builder.Appends (builder.emit instr) [instr] given where
  code_eq := by simp
  grows := (Extends.refl builder).emit instr
  fresh := by simp [Code.marks, hmark]
  once := by simp [Code.marks, hmark]
  recorded label hlabel := by
    obtain ⟨_, hinstr, hlabel⟩ := Code.mem_targets.mp hlabel
    cases List.mem_singleton.mp hinstr
    exact (mem_emit_referenced builder).mpr (.inr hlabel)
  bound label hlabel := by
    obtain ⟨_, hinstr, hlabel⟩ := Code.mem_targets.mp hlabel
    cases List.mem_singleton.mp hinstr
    exact .inr (htarget label hlabel)

/-- The exit of a construct is a given label, or it is marked behind the construct if
something jumps there. -/
theorem exists_closeExit {continuation : Continuation}
    (h : (before.openExit continuation).Appends after fragment
      fun label => label = before.exitLabel continuation ∨ given label)
    (hgiven : ∀ label, continuation = .label label → given label) :
    ∃ closed, before.Appends (after.closeExit continuation (before.exitLabel continuation)) closed
      given := by
  cases continuation with
  | label exit =>
    refine ⟨fragment, h.mono ?_⟩
    rintro label (rfl | hlabel)
    · exact hgiven _ rfl
    · exact hlabel
  | fall =>
    have hopen : before.Extends after := h.grows.of_openExit
    have hcode : after.code.toList = before.code.toList ++ fragment := h.code_eq
    have hlabels : before.labels + 1 ≤ after.labels := h.grows.labels
    have hfresh : ∀ label ∈ fragment.marks,
        before.labels + 1 ≤ label.number ∧ label.number < after.labels := h.fresh
    by_cases hmem : before.freshLabel.number ∈ after.referenced
    · refine ⟨fragment ++ [.label before.freshLabel], ?_⟩
      show before.Appends (after.mark before.freshLabel) _ given
      rw [mark_of_referenced hmem]
      have hmarks : Code.marks (fragment ++ [.label before.freshLabel]) =
          fragment.marks ++ [before.freshLabel] := Code.marks_append _ _
      have htargets : Code.targets (fragment ++ [.label before.freshLabel]) = fragment.targets := by
        rw [Code.targets_append]
        exact List.append_nil _
      refine ⟨by simp [hcode], hopen.emit _, ?_, ?_, ?_, ?_⟩
      · intro label hlabel
        rw [hmarks] at hlabel
        show before.labels ≤ label.number ∧ label.number < after.labels
        rcases List.mem_append.mp hlabel with hold | hexit
        · have hbounds := hfresh label hold
          omega
        · cases List.mem_singleton.mp hexit
          exact ⟨Nat.le_refl _, hlabels⟩
      · rw [hmarks]
        refine List.nodup_append.mpr ⟨h.once, by simp, ?_⟩
        rintro label hold _ hexit rfl
        cases List.mem_singleton.mp hexit
        exact Nat.not_succ_le_self _ (hfresh _ hold).1
      · intro label hlabel
        rw [htargets] at hlabel
        exact ((Extends.refl after).emit _).referenced label (h.recorded label hlabel)
      · intro label hlabel
        rw [htargets] at hlabel
        rw [hmarks, List.mem_append]
        rcases h.bound label hlabel with hmark | rfl | hgiven
        · exact .inl (.inl hmark)
        · exact .inl (.inr (List.mem_singleton.mpr rfl))
        · exact .inr hgiven
    · refine ⟨fragment, ?_⟩
      show before.Appends (after.mark before.freshLabel) _ given
      rw [mark_of_not_referenced hmem]
      refine ⟨hcode, hopen, ?_, h.once, h.recorded, ?_⟩
      · intro label hlabel
        have hbounds := hfresh label hlabel
        omega
      · intro label hlabel
        rcases h.bound label hlabel with hmark | rfl | hgiven
        · exact .inl hmark
        · exact absurd (h.recorded _ hlabel) hmem
        · exact .inr hgiven

end Builder.Appends

/-- The label is one of the targets. -/
def Targets.Has (targets : Targets) (label : Label) : Prop :=
  targets.onTrue = .label label ∨ targets.onFalse = .label label

variable {symbols : Symbols} {before after : Builder}

theorem Expr.LowersValue.exists_appends {expr : Expr} {value : Value}
    (h : expr.LowersValue symbols value before after) (given : Label → Prop) :
    ∃ fragment, before.Appends after fragment given := by
  induction h with
  | int | bool | «variable» | variant => exact ⟨[], .nil given (.refl _) rfl⟩
  | @neg operand value before after _ ih =>
    obtain ⟨fragment, hoperand⟩ := ih
    have hfresh : after.Appends after.afterTemp [] given :=
      .nil given (Builder.Extends.refl after).afterTemp rfl
    exact ⟨_, (hoperand.trans hfresh).trans (.emit _ rfl (by simp [Instr.target?]))⟩
  | @arith op left right leftValue rightValue before between after _ _ ihl ihr =>
    obtain ⟨first, hfirst⟩ := ihl
    obtain ⟨second, hsecond⟩ := ihr
    have hfresh : after.Appends after.afterTemp [] given :=
      .nil given (Builder.Extends.refl after).afterTemp rfl
    exact ⟨_, ((hfirst.trans hsecond).trans hfresh).trans (.emit _ rfl (by simp [Instr.target?]))⟩

theorem LowersBranch.exists_appends {left right : Value} {op : RelOp} {targets : Targets}
    (h : LowersBranch left op right targets before after) :
    ∃ fragment, before.Appends after fragment targets.Has := by
  cases h with
  | both onTrue onFalse =>
    exact ⟨_, (Builder.Appends.emit before rfl (by simp [Instr.target?, Targets.Has])).trans
      (.emit _ rfl (by simp [Instr.target?, Targets.Has]))⟩
  | onTrue target | onFalse target =>
    exact ⟨_, .emit before rfl (by simp [Instr.target?, Targets.Has])⟩

theorem Expr.LowersCondition.exists_appends {expr : Expr} {targets : Targets}
    (h : expr.LowersCondition symbols targets before after) :
    ∃ fragment, before.Appends after fragment targets.Has := by
  induction h with
  | @and left right targets before between after _ _ ihl ihr =>
    obtain ⟨first, hfirst⟩ := ihl
    obtain ⟨second, hsecond⟩ := ihr
    refine Builder.Appends.exists_closeExit ((hfirst.mono ?_).trans (hsecond.mono ?_)) ?_
    · rintro label (hlabel | hlabel) <;> cases hlabel
      exact .inl rfl
    · exact fun label => .inr
    · exact fun label => .inr
  | @or left right targets before between after _ _ ihl ihr =>
    obtain ⟨first, hfirst⟩ := ihl
    obtain ⟨second, hsecond⟩ := ihr
    refine Builder.Appends.exists_closeExit ((hfirst.mono ?_).trans (hsecond.mono ?_)) ?_
    · rintro label (hlabel | hlabel) <;> cases hlabel
      exact .inl rfl
    · exact fun label => .inr
    · exact fun label => .inl
  | not _ ih =>
    obtain ⟨fragment, h⟩ := ih
    exact ⟨fragment, h.mono fun label => Or.symm⟩
  | @compare op left right leftValue rightValue targets before between evaluated after hleft hright
      hbranch =>
    obtain ⟨first, hfirst⟩ := hleft.exists_appends targets.Has
    obtain ⟨second, hsecond⟩ := hright.exists_appends targets.Has
    obtain ⟨third, hthird⟩ := hbranch.exists_appends
    exact ⟨_, (hfirst.trans hsecond).trans hthird⟩
  | ident _ hbranch => exact hbranch.exists_appends
  | @boolJump value targets target builder htarget =>
    refine ⟨_, .emit builder rfl ?_⟩
    rintro label ⟨⟩
    cases value
    · exact .inr htarget
    · exact .inl htarget
  | boolFall builder => exact ⟨[], .nil _ (.refl builder) rfl⟩

/-- A builder without its first instructions. -/
def Builder.dropCode (builder : Builder) (count : Nat) : Builder :=
  { builder with code := (builder.code.toList.drop count).toArray }

namespace Builder

variable {builder : Builder} {count : Nat}

theorem dropCode_emit (hcount : count ≤ builder.code.size) (instr : Instr) :
    (builder.emit instr).dropCode count = (builder.dropCode count).emit instr := by
  simp only [dropCode, emit]
  congr 1
  simp [List.drop_append_of_le_length, hcount]

theorem dropCode_mark (hcount : count ≤ builder.code.size) (label : Label) :
    (builder.mark label).dropCode count = (builder.dropCode count).mark label := by
  by_cases hmem : label.number ∈ builder.referenced
  · have hdropped : label.number ∈ (builder.dropCode count).referenced := hmem
    rw [mark_of_referenced hmem, mark_of_referenced hdropped, dropCode_emit hcount]
  · have hdropped : label.number ∉ (builder.dropCode count).referenced := hmem
    rw [mark_of_not_referenced hmem, mark_of_not_referenced hdropped]

theorem dropCode_openExit (count : Nat) (continuation : Continuation) :
    (builder.openExit continuation).dropCode count =
      (builder.dropCode count).openExit continuation := by
  cases continuation <;> rfl

theorem dropCode_closeExit (hcount : count ≤ builder.code.size) (continuation : Continuation)
    (exit : Label) :
    (builder.closeExit continuation exit).dropCode count =
      (builder.dropCode count).closeExit continuation exit := by
  cases continuation with
  | label => rfl
  | fall => exact dropCode_mark hcount exit

theorem Extends.le_code_size {before after : Builder} (h : before.Extends after)
    (hcount : count ≤ before.code.size) : count ≤ after.code.size :=
  Nat.le_trans hcount h.code.length_le

end Builder

section DropCode

variable {count : Nat}

/-- Lowering never looks at the code it has written. -/
theorem Expr.LowersValue.dropCode {expr : Expr} {value : Value}
    (h : expr.LowersValue symbols value before after) (hcount : count ≤ before.code.size) :
    expr.LowersValue symbols value (before.dropCode count) (after.dropCode count) := by
  induction h with
  | int value builder => exact .int value _
  | bool value builder => exact .bool value _
  | «variable» builder hlookup hkind => exact .variable _ hlookup hkind
  | variant builder hlookup hordinal => exact .variant _ hlookup hordinal
  | @neg operand value before after hoperand ih =>
    have hafter : count ≤ after.afterTemp.code.size := hoperand.extends.le_code_size hcount
    rw [Builder.dropCode_emit hafter]
    exact .neg (ih hcount)
  | @arith op left right leftValue rightValue before between after hleft hright ihl ihr =>
    have hbetween := hleft.extends.le_code_size hcount
    have hafter : count ≤ after.afterTemp.code.size := hright.extends.le_code_size hbetween
    rw [Builder.dropCode_emit hafter]
    exact .arith (ihl hcount) (ihr hbetween)

theorem LowersBranch.dropCode {left right : Value} {op : RelOp} {targets : Targets}
    (h : LowersBranch left op right targets before after) (hcount : count ≤ before.code.size) :
    LowersBranch left op right targets (before.dropCode count) (after.dropCode count) := by
  cases h with
  | both onTrue onFalse =>
    rw [Builder.dropCode_emit (by simpa using Nat.le_succ_of_le hcount),
      Builder.dropCode_emit hcount]
    exact .both onTrue onFalse _
  | onTrue target =>
    rw [Builder.dropCode_emit hcount]
    exact .onTrue target _
  | onFalse target =>
    rw [Builder.dropCode_emit hcount]
    exact .onFalse target _

theorem Expr.LowersCondition.dropCode {expr : Expr} {targets : Targets}
    (h : expr.LowersCondition symbols targets before after) (hcount : count ≤ before.code.size) :
    expr.LowersCondition symbols targets (before.dropCode count) (after.dropCode count) := by
  induction h with
  | @and left right targets before between after hleft hright ihl ihr =>
    have hbetween := hleft.extends.of_openExit.le_code_size hcount
    have hfirst := ihl (by rwa [Builder.openExit_code])
    rw [Builder.dropCode_openExit] at hfirst
    rw [Builder.dropCode_closeExit (hright.extends.le_code_size hbetween)]
    exact .and hfirst (ihr hbetween)
  | @or left right targets before between after hleft hright ihl ihr =>
    have hbetween := hleft.extends.of_openExit.le_code_size hcount
    have hfirst := ihl (by rwa [Builder.openExit_code])
    rw [Builder.dropCode_openExit] at hfirst
    rw [Builder.dropCode_closeExit (hright.extends.le_code_size hbetween)]
    exact .or hfirst (ihr hbetween)
  | not _ ih => exact .not (ih hcount)
  | compare hleft hright hbranch =>
    have hbetween := hleft.extends.le_code_size hcount
    have hevaluated := hright.extends.le_code_size hbetween
    exact .compare (hleft.dropCode hcount) (hright.dropCode hbetween) (hbranch.dropCode hevaluated)
  | ident hlookup hbranch => exact .ident hlookup (hbranch.dropCode hcount)
  | boolJump builder htarget =>
    rw [Builder.dropCode_emit hcount]
    exact .boolJump _ htarget
  | boolFall builder htarget => exact .boolFall _ htarget

end DropCode

namespace Code

variable {arithmetic : Arithmetic} {code fragment front : Code} {first next last : Config}
  {operations : List Operation}

theorem position?_eq_none {label : Label} (h : label ∉ code.marks) :
    code.position? label = none := by
  apply List.findIdx?_eq_none_iff.mpr
  intro instr hinstr
  apply decide_eq_false
  rintro rfl
  exact h (mem_marks.mpr hinstr)

/-- A step changes nothing but what its instruction writes. -/
theorem exists_of_step? (h : code.step? arithmetic first = some next) :
    ∃ instr, code[first.position]? = some instr ∧
      ∀ var, instr.dst? ≠ some var → next.store var = first.store var := by
  obtain ⟨position, store⟩ := first
  cases hinstr : code[position]? with
  | none => simp [step?, hinstr] at h
  | some instr =>
    refine ⟨instr, rfl, ?_⟩
    intro var hvar
    have hset {dst : Var} (value : Int) (hdst : instr.dst? = some dst) :
        store.set dst value var = store var := by
      have hne : var ≠ dst := by
        rintro rfl
        exact hvar hdst
      simp [Store.set, hne]
    have hjump {label : Label}
        (hmap : (code.position? label).map (⟨·, store⟩) = some next) :
        next.store var = store var := by
      obtain ⟨place, _, rfl⟩ := Option.map_eq_some_iff.mp hmap
      rfl
    cases instr with
    | assign dst source =>
      rw [step?_assign hinstr] at h
      cases h
      exact hset _ rfl
    | binary dst left op right =>
      rw [step?_binary hinstr] at h
      obtain ⟨result, _, rfl⟩ := Option.map_eq_some_iff.mp h
      exact hset _ rfl
    | branch left op right target sense =>
      simp only [step?, hinstr] at h
      split at h
      · exact hjump h
      · cases h
        rfl
    | jump target =>
      simp only [step?, hinstr] at h
      exact hjump h
    | label place =>
      rw [step?_label hinstr] at h
      cases h
      rfl

/-- Code that writes temporaries alone keeps the named variables. -/
theorem Performs.named_eq (h : Performs arithmetic code first operations last)
    (hcode : ∀ instr ∈ code, ∀ name, instr.dst? ≠ some (.named name)) :
    last.store.named = first.store.named := by
  induction h with
  | refl => rfl
  | step once _ ih =>
    obtain ⟨instr, hinstr, hkept⟩ := exists_of_step? once
    rw [ih]
    funext name
    exact hkept (.named name) (hcode instr (List.mem_of_getElem? hinstr) name)

/-- A configuration of a fragment, seen from code in which the fragment stands behind
so many instructions. -/
def Config.shift (config : Config) (offset : Nat) : Config :=
  ⟨offset + config.position, config.store⟩

section Placed

variable (hfront : ∀ label ∈ fragment.marks, label ∉ front.marks) (back : Code)

theorem getElem?_placed (front back : Code) {position : Nat} (hlt : position < fragment.length) :
    (front ++ fragment ++ back)[front.length + position]? = fragment[position]? := by
  simp [List.getElem?_append, hlt]

include hfront in
theorem position?_placed {label : Label} {place : Nat} (h : fragment.position? label = some place) :
    Code.position? (front ++ fragment ++ back) label = some (front.length + place) := by
  have hmark : label ∈ fragment.marks :=
    mem_marks.mpr (List.mem_of_getElem? (getElem?_of_position? h))
  have hnone : front.position? label = none := position?_eq_none (hfront label hmark)
  unfold position? at h hnone ⊢
  rw [List.findIdx?_append, List.findIdx?_append, hnone, h]
  simp [Nat.add_comm]

include hfront in
theorem step?_placed (h : fragment.step? arithmetic first = some next) :
    Code.step? arithmetic (front ++ fragment ++ back) (first.shift front.length) =
      some (next.shift front.length) := by
  obtain ⟨position, store⟩ := first
  cases hfound : fragment[position]? with
  | none => simp [step?, hfound] at h
  | some instr =>
    have hinstr : (front ++ fragment ++ back)[front.length + position]? = some instr := by
      rw [getElem?_placed front back (List.getElem?_eq_some_iff.mp hfound).1, hfound]
    cases instr with
    | assign dst source =>
      rw [step?_assign hfound] at h
      cases h
      exact step?_assign hinstr
    | binary dst left op right =>
      rw [step?_binary hfound] at h
      obtain ⟨result, hresult, rfl⟩ := Option.map_eq_some_iff.mp h
      refine (step?_binary hinstr).trans ?_
      rw [hresult]
      rfl
    | branch left op right target sense =>
      simp only [step?, hfound] at h
      split at h
      next htaken =>
        obtain ⟨place, hplace, rfl⟩ := Option.map_eq_some_iff.mp h
        exact step?_branch_taken hinstr (position?_placed hfront back hplace) htaken
      next hpassed =>
        cases h
        exact step?_branch_passed hinstr hpassed
    | jump target =>
      simp only [step?, hfound] at h
      obtain ⟨place, hplace, rfl⟩ := Option.map_eq_some_iff.mp h
      exact step?_jump hinstr (position?_placed hfront back hplace)
    | label place =>
      rw [step?_label hfound] at h
      cases h
      exact step?_label hinstr

include hfront in
/-- A fragment runs in any code as it runs by itself, if its labels are not marked in
front of it. -/
theorem Performs.placed (h : Performs arithmetic fragment first operations last) :
    Performs arithmetic (front ++ fragment ++ back) (first.shift front.length) operations
      (last.shift front.length) := by
  induction h with
  | refl config => exact .refl _
  | @step first next last operations once _ ih =>
    have hlt : first.position < fragment.length := by
      obtain ⟨instr, hinstr, _⟩ := exists_of_step? once
      exact (List.getElem?_eq_some_iff.mp hinstr).1
    have hoperation : Code.operation? (front ++ fragment ++ back) (first.shift front.length) =
        fragment.operation? first := by
      unfold operation?
      rw [show (first.shift front.length).position = front.length + first.position from rfl,
        getElem?_placed front back hlt]
      rfl
    rw [← hoperation]
    exact .step (step?_placed hfront back once) ih

end Placed

/-- The run leaves a fragment: it is behind the last instruction, or at a jump to a
label that the fragment does not mark. -/
def Leaves (fragment : Code) (continuation : Continuation) (config : Config) : Prop :=
  match continuation with
  | .fall => config.position = fragment.length
  | .label target => fragment.JumpsAt config target ∧ target ∉ fragment.marks

theorem Leaves.step? {continuation : Continuation} {config : Config}
    (h : fragment.Leaves continuation config) : fragment.step? arithmetic config = none := by
  cases continuation with
  | fall =>
    obtain ⟨position, store⟩ := config
    obtain rfl : position = fragment.length := h
    exact step?_end
  | label target =>
    obtain ⟨hjumps, hmark⟩ := h
    rw [hjumps.step?, position?_eq_none hmark]
    rfl

/-- How a fragment decides a condition. It jumps only to its own labels and to the
targets. From any store it performs the operations of the condition and then ends,
leaving by the target of the outcome, or it stops at the operation that has no result.
Named variables are never changed. -/
structure Tests (fragment : Code) (symbols : Symbols) (condition : Expr) (targets : Targets) :
    Prop where
  jumps : ∀ label ∈ fragment.targets, label ∈ fragment.marks ∨ targets.Has label
  evaluates : ∀ arithmetic store, Yields arithmetic fragment ⟨0, store⟩
    (condition.traceCondition arithmetic symbols store.named)
    fun truth last => fragment.step? arithmetic last = none ∧
      fragment.Leaves (targets.on truth) last
  keeps : ∀ arithmetic store operations last,
    Performs arithmetic fragment ⟨0, store⟩ operations last → last.store.named = store.named

end Code

theorem Targets.has_of_on {targets : Targets} {truth : Bool} {label : Label}
    (h : targets.on truth = .label label) : targets.Has label := by
  cases truth with
  | true => exact .inl h
  | false => exact .inr h

theorem Builder.Heads.leaves {builder : Builder} {continuation : Continuation}
    {config : Code.Config} (h : builder.Heads builder.code.toList continuation config)
    (houtside : ∀ label, continuation = .label label → label ∉ builder.marks) :
    Code.Leaves builder.code.toList continuation config := by
  cases continuation with
  | fall => exact h
  | label target => exact ⟨h.2, houtside target rfl⟩

/-- The code of a condition decides it when it is run by itself. -/
theorem Expr.LowersCondition.tests {expr : Expr} {targets : Targets} {fragment : Code}
    (h : expr.LowersCondition symbols targets before after)
    (happends : before.Appends after fragment targets.Has)
    (htargets : ∀ label, targets.Has label → label.number < before.labels) :
    fragment.Tests symbols expr targets := by
  -- nothing depends on what was written before, so it can be taken away
  have hlowers := h.dropCode (Nat.le_refl before.code.size)
  have hstart : (before.dropCode before.code.size).code = #[] := by
    simp [Builder.dropCode]
  obtain rfl : (after.dropCode before.code.size).code.toList = fragment := by
    simp [Builder.dropCode, happends.code_eq]
  refine ⟨happends.bound, ?_, ?_⟩
  · intro arithmetic store
    have hyields : Code.Yields arithmetic _ _ _ _ :=
      hlowers.yields happends.once List.prefix_rfl store
    rw [hstart] at hyields
    apply hyields.mono
    rintro truth last ⟨_, hheads⟩
    have hleaves := hheads.leaves fun label hlabel hmark =>
      Nat.not_lt.mpr (happends.fresh label hmark).1 (htargets label (Targets.has_of_on hlabel))
    exact ⟨hleaves.step?, hleaves⟩
  · intro arithmetic store operations last hperforms
    apply hperforms.named_eq
    intro instr hinstr name hdst
    have hwithin : (after.dropCode before.code.size).Within (fun _ => False) (fun _ => True) := by
      apply hlowers.within (fun _ _ _ => trivial)
      simp [Builder.Within, hstart]
    exact (hwithin instr hinstr).dst name hdst

/-- Lowering a condition appends code that decides it, for every pair of targets. No
earlier instruction knows the labels of this code, and behind the earlier ones it runs
as it does by itself, whatever comes after it. -/
theorem Expr.lowerCondition_tests {expr : Expr} {targets : Targets}
    (hbefore : ∀ label, label ∈ before.marks ∨ label ∈ before.targets →
      label.number < before.labels)
    (htargets : ∀ label, targets.Has label → label.number < before.labels)
    (hlower : expr.lowerCondition symbols targets before = .ok () after) :
    ∃ fragment : Code, after.code.toList = before.code.toList ++ fragment ∧
      fragment.Tests symbols expr targets ∧
      (∀ label ∈ fragment.marks, label ∉ before.marks ∧ label ∉ before.targets) ∧
      ∀ arithmetic store operations last back,
        fragment.Performs arithmetic ⟨0, store⟩ operations last →
        Code.Performs arithmetic (after.code.toList ++ back) ⟨before.code.size, store⟩ operations
          ⟨before.code.size + last.position, last.store⟩ := by
  have hlowers := lowersCondition_of_lowerCondition hlower
  obtain ⟨fragment, happends⟩ := hlowers.exists_appends
  have hnew : ∀ label ∈ fragment.marks, label ∉ before.marks ∧ label ∉ before.targets := by
    intro label hlabel
    have hfresh := (happends.fresh label hlabel).1
    constructor
    · intro hmark
      exact absurd (hbefore label (.inl hmark)) (Nat.not_lt.mpr hfresh)
    · intro htarget
      exact absurd (hbefore label (.inr htarget)) (Nat.not_lt.mpr hfresh)
  refine ⟨fragment, happends.code_eq, hlowers.tests happends htargets, hnew, ?_⟩
  intro arithmetic store operations last back hperforms
  rw [happends.code_eq]
  have hfront : ∀ label ∈ fragment.marks, label ∉ Code.marks before.code.toList :=
    fun label hlabel => (hnew label hlabel).1
  simpa [Code.Config.shift] using hperforms.placed hfront back

/-- The head of a loop is placed, and its exit is still owed. -/
def Builder.inLoop : Builder :=
  (Builder.empty.afterLabel.afterLabel.emit (.label ⟨0⟩)).emit
    (.branch (.var (.named "x")) .lt (.imm 3) ⟨1⟩ true)

def Symbols.guarded : Symbols :=
  ((Symbols.empty.declare "x" .number).declare "y" .number).declare "flag" .boolean

/-- A division on the left that may have no result. -/
def Expr.guarded : Expr :=
  .and (.or (.compare .lt (.arith .div (.ident "x") (.ident "y")) (.int 1)) (.ident "flag"))
    (.compare .ne (.ident "x") (.ident "y"))

theorem Expr.lowerCondition_tests_guarded :
    ∃ (after : Builder) (fragment : Code),
      Expr.guarded.lowerCondition .guarded (.falseTo ⟨1⟩) .inLoop = .ok () after ∧
      after.code.toList = Builder.inLoop.code.toList ++ fragment ∧ fragment.length = 5 ∧
      fragment.Tests .guarded .guarded (.falseTo ⟨1⟩) ∧
      (∀ label ∈ fragment.marks,
        label ∉ Builder.inLoop.marks ∧ label ∉ Builder.inLoop.targets) ∧
      ∀ arithmetic store operations last back,
        fragment.Performs arithmetic ⟨0, store⟩ operations last →
        Code.Performs arithmetic (after.code.toList ++ back) ⟨2, store⟩ operations
          ⟨2 + last.position, last.store⟩ := by
  have hbefore : ∀ label, label ∈ Builder.inLoop.marks ∨ label ∈ Builder.inLoop.targets →
      label.number < 2 := by
    rintro label (hmark | htarget)
    · cases List.mem_singleton.mp hmark
      decide
    · cases List.mem_singleton.mp htarget
      decide
  have htargets : ∀ label, (Targets.falseTo ⟨1⟩).Has label → label.number < 2 := by
    rintro label (hlabel | hlabel) <;> cases hlabel
    decide
  obtain ⟨after, hlower, hsize⟩ : ∃ after,
      Expr.guarded.lowerCondition .guarded (.falseTo ⟨1⟩) .inLoop = .ok () after ∧
        after.code.toList.length = 7 := ⟨_, rfl, rfl⟩
  obtain ⟨fragment, hcode, htests⟩ := lowerCondition_tests hbefore htargets hlower
  refine ⟨after, fragment, hlower, hcode, ?_, htests⟩
  rw [hcode, List.length_append] at hsize
  exact Nat.add_left_cancel hsize

end ThreeAddress
