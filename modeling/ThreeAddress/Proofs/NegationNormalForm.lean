import Mathlib.Logic.Relation
import ThreeAddress.Lowering.Expr

/-!
Negations in conditions cost nothing. The laws of De Morgan move a negation inwards
past `and` and `or`, and two negations in a row go away, until each one that is left
stands on a leaf. One such move anywhere in a condition leaves its lowering as it is,
whatever the targets and the builder: a negation only exchanges the targets, and `and`
and `or` do the same with their targets exchanged. So a condition and its negation
normal form are lowered alike, down to labels, temporaries and errors.
-/

namespace ThreeAddress.Expr

/-- One negation moves inwards, or two go away, anywhere in a condition. Comparisons
are leaves: what stands in them are values. -/
inductive PushesNot : Expr → Expr → Prop
  | notAnd (left right : Expr) :
      PushesNot (.not (.and left right)) (.or (.not left) (.not right))
  | notOr (left right : Expr) :
      PushesNot (.not (.or left right)) (.and (.not left) (.not right))
  | notNot (operand : Expr) : PushesNot (.not (.not operand)) operand
  | andLeft {left after : Expr} (h : PushesNot left after) (right : Expr) :
      PushesNot (.and left right) (.and after right)
  | andRight (left : Expr) {right after : Expr} (h : PushesNot right after) :
      PushesNot (.and left right) (.and left after)
  | orLeft {left after : Expr} (h : PushesNot left after) (right : Expr) :
      PushesNot (.or left right) (.or after right)
  | orRight (left : Expr) {right after : Expr} (h : PushesNot right after) :
      PushesNot (.or left right) (.or left after)
  | not {operand after : Expr} (h : PushesNot operand after) :
      PushesNot (.not operand) (.not after)

/-- Conditions that are not put together from others. -/
def isLeaf : Expr → Bool
  | .and .. | .or .. | .not _ => false
  | .int _ | .bool _ | .ident _ | .neg _ | .arith .. | .compare .. => true

/-- Every negation stands on a leaf. -/
def isNegationNormal : Expr → Bool
  | .and left right | .or left right => left.isNegationNormal && right.isNegationNormal
  | .not operand => operand.isLeaf
  | .int _ | .bool _ | .ident _ | .neg _ | .arith .. | .compare .. => true

def negateIf (negated : Bool) (expr : Expr) : Expr :=
  if negated then .not expr else expr

/-- Takes a negation, if there is one, down to the leaves. -/
def pushNot (negated : Bool) : Expr → Expr
  | .and left right =>
      if negated then .or (left.pushNot true) (right.pushNot true)
      else .and (left.pushNot false) (right.pushNot false)
  | .or left right =>
      if negated then .and (left.pushNot true) (right.pushNot true)
      else .or (left.pushNot false) (right.pushNot false)
  | .not operand => operand.pushNot (!negated)
  | leaf => negateIf negated leaf

def negationNormalForm (expr : Expr) : Expr := expr.pushNot false

open Relation (ReflTransGen)

variable {expr form left right : Expr}

theorem isNegationNormal_pushNot (expr : Expr) (negated : Bool) :
    (expr.pushNot negated).isNegationNormal := by
  induction expr generalizing negated with
  | and left right ihl ihr | or left right ihl ihr =>
    cases negated with
    | false => exact Bool.and_eq_true_iff.mpr ⟨ihl false, ihr false⟩
    | true => exact Bool.and_eq_true_iff.mpr ⟨ihl true, ihr true⟩
  | not operand ih => exact ih (!negated)
  | int | bool | ident | neg | arith | compare => cases negated <;> rfl

section Moves

variable {after : Expr}

theorem pushesAll_and (hleft : ReflTransGen PushesNot left form)
    (hright : ReflTransGen PushesNot right after) :
    ReflTransGen PushesNot (.and left right) (.and form after) :=
  (hleft.lift (Expr.and · right) fun _ _ h => .andLeft h right).trans
    (hright.lift (Expr.and form) fun _ _ h => .andRight form h)

theorem pushesAll_or (hleft : ReflTransGen PushesNot left form)
    (hright : ReflTransGen PushesNot right after) :
    ReflTransGen PushesNot (.or left right) (.or form after) :=
  (hleft.lift (Expr.or · right) fun _ _ h => .orLeft h right).trans
    (hright.lift (Expr.or form) fun _ _ h => .orRight form h)

end Moves

/-- The moves lead all the way to the leaves. -/
theorem pushesAll_pushNot (expr : Expr) (negated : Bool) :
    ReflTransGen PushesNot (expr.negateIf negated) (expr.pushNot negated) := by
  induction expr generalizing negated with
  | and left right ihl ihr =>
    cases negated with
    | false => exact pushesAll_and (ihl false) (ihr false)
    | true => exact .head (.notAnd left right) (pushesAll_or (ihl true) (ihr true))
  | or left right ihl ihr =>
    cases negated with
    | false => exact pushesAll_or (ihl false) (ihr false)
    | true => exact .head (.notOr left right) (pushesAll_and (ihl true) (ihr true))
  | not operand ih =>
    cases negated with
    | false => exact ih true
    | true => exact .head (.notNot operand) (ih false)
  | int | bool | ident | neg | arith | compare => exact .refl

/-- A move does not change where the moves lead. -/
theorem PushesNot.pushNot_eq (h : PushesNot expr form) (negated : Bool) :
    expr.pushNot negated = form.pushNot negated := by
  induction h generalizing negated with
  | notAnd left right | notOr left right => cases negated <;> rfl
  | notNot operand => simp [pushNot]
  | andLeft _ right ih | orLeft _ right ih => simp [pushNot, ih]
  | andRight left _ ih | orRight left _ ih => simp [pushNot, ih]
  | not _ ih => exact ih (!negated)

theorem pushNot_eq_of_pushesAll (h : ReflTransGen PushesNot expr form) (negated : Bool) :
    expr.pushNot negated = form.pushNot negated := by
  induction h with
  | refl => rfl
  | tail _ hmove ih => exact ih.trans (hmove.pushNot_eq negated)

theorem pushNot_of_isNegationNormal (h : expr.isNegationNormal) : expr.pushNot false = expr := by
  induction expr with
  | and left right ihl ihr | or left right ihl ihr =>
    obtain ⟨hleft, hright⟩ := Bool.and_eq_true_iff.mp h
    simp [pushNot, ihl hleft, ihr hright]
  | not operand =>
    cases operand with
    | and | or | not => cases h
    | int | bool | ident | neg | arith | compare => rfl
  | int | bool | ident | neg | arith | compare => rfl

/-- The moves lead to one form in which every negation stands on a leaf. -/
theorem pushesAll_and_isNegationNormal_iff :
    ReflTransGen PushesNot expr form ∧ form.isNegationNormal ↔ form = expr.negationNormalForm := by
  constructor
  · rintro ⟨hmoves, hnormal⟩
    rw [negationNormalForm, pushNot_eq_of_pushesAll hmoves, pushNot_of_isNegationNormal hnormal]
  · rintro rfl
    exact ⟨expr.pushesAll_pushNot false, expr.isNegationNormal_pushNot false⟩

/-- A move leaves the lowering of a condition as it is. A negation of both operands
exchanges the targets of both, and that is what makes `and` of `or`. -/
theorem PushesNot.lowerCondition_eq (h : PushesNot expr form) (symbols : Symbols)
    (targets : Targets) :
    expr.lowerCondition symbols targets = form.lowerCondition symbols targets := by
  induction h generalizing targets with
  | notAnd left right | notOr left right | notNot operand => rfl
  | andLeft _ right ih | orLeft _ right ih => simp only [lowerCondition, ih]
  | andRight left _ ih | orRight left _ ih => simp only [lowerCondition, ih]
  | not _ ih => exact ih targets.swap

theorem lowerCondition_eq_of_pushesAll (h : ReflTransGen PushesNot expr form) (symbols : Symbols)
    (targets : Targets) :
    expr.lowerCondition symbols targets = form.lowerCondition symbols targets := by
  induction h with
  | refl => rfl
  | tail _ hmove ih => exact ih.trans (hmove.lowerCondition_eq symbols targets)

/-- A condition is lowered like its negation normal form, the one form that De Morgan's
laws lead to with every negation on a leaf. From any builder and for any targets both
succeed or fail in the same way and leave the same builder. -/
theorem lowerCondition_negationNormalForm (symbols : Symbols) (expr : Expr) :
    (∀ form, ReflTransGen PushesNot expr form ∧ form.isNegationNormal ↔
      form = expr.negationNormalForm) ∧
    ∀ (targets : Targets) (before : Builder),
      expr.negationNormalForm.lowerCondition symbols targets before =
        expr.lowerCondition symbols targets before := by
  refine ⟨fun _ => pushesAll_and_isNegationNormal_iff, ?_⟩
  intro targets before
  have hmoves : ReflTransGen PushesNot expr expr.negationNormalForm := expr.pushesAll_pushNot false
  exact congrFun (lowerCondition_eq_of_pushesAll hmoves symbols targets).symm before

example : (Expr.not (.and (.ident "a") (.or (.not (.ident "b")) (.bool true)))).negationNormalForm =
    .or (.not (.ident "a")) (.and (.ident "b") (.not (.bool true))) := rfl

end ThreeAddress.Expr
