import Mathlib.Data.List.Forall2
import ThreeAddress.Source.Encoding

/-!
The written forms of programs. A program has one form that is written and many
that are read, and `IsForm` says which these are, construct by construct, without
reference to reading. The form that is written is one of them.
-/

namespace ThreeAddress

namespace Json

/-- A name that stands alone. -/
def IsBare (json : Json) (tag : String) : Prop :=
  json = .str tag ∨ json = .obj [(tag, .null)]

/-- A record with these fields, `none` being a field that is left out. It is an array
of all fields in order, or an object that has each field once, or not at all if it is
left out. Other members of the object do not matter. -/
def IsRecord (json : Json) (fields : List (String × Option Json)) : Prop :=
  (∃ items, json = .arr items ∧ fields.map Prod.snd = items.map some) ∨
    ∃ members, json = .obj members ∧ ∀ name value, (name, value) ∈ fields →
      members.filter (·.1 == name) = (value.map (Prod.mk name)).toList

theorem filter_eq_singleton {name : String} {value : Json} {members : List (String × Json)}
    (hnodup : (members.map Prod.fst).Nodup) (hmem : (name, value) ∈ members) :
    members.filter (·.1 == name) = [(name, value)] := by
  induction members with
  | nil => cases hmem
  | cons first rest ih =>
    obtain ⟨hfirst, hrest⟩ := List.nodup_cons.mp hnodup
    rcases List.mem_cons.mp hmem with rfl | hmem
    · have hnone : rest.filter (·.1 == name) = [] := by
        rw [List.filter_eq_nil_iff]
        intro member hmember hname
        exact hfirst (List.mem_map.mpr ⟨member, hmember, by simpa using hname⟩)
      simp [hnone]
    · have hne : first.1 ≠ name := by
        rintro rfl
        exact hfirst (List.mem_map.mpr ⟨_, hmem, rfl⟩)
      simp [hne, ih hrest hmem]

/-- An object whose members have different names is a record of them. -/
theorem isRecord_obj {members : List (String × Json)} (hnodup : (members.map Prod.fst).Nodup) :
    (obj members).IsRecord (members.map fun member => (member.1, some member.2)) := by
  refine .inr ⟨members, rfl, ?_⟩
  intro name value hmem
  obtain ⟨member, hmember, heq⟩ := List.mem_map.mp hmem
  cases heq
  exact filter_eq_singleton hnodup hmember

end Json

def ArithOp.IsForm (op : ArithOp) (json : Json) : Prop := json.IsBare op.tag

def RelOp.IsForm (op : RelOp) (json : Json) : Prop := json.IsBare op.tag

def DeclType.IsForm : DeclType → Json → Prop
  | .number, json => json.IsBare "num"
  | .boolean, json => json.IsBare "bool"
  | .enumeration name, json => json = .obj [("enum", .str name)]

def Expr.IsForm : Expr → Json → Prop
  | .int value, json => json = .obj [("Int", .int value.toInt)]
  | .bool value, json => json = .obj [("Bool", .bool value)]
  | .ident name, json => json = .obj [("Ident", .str name)]
  | .neg operand, json => ∃ form, json = .obj [("Neg", form)] ∧ operand.IsForm form
  | .arith op left right, json => ∃ record opForm leftForm rightForm,
      json = .obj [("Arith", record)] ∧
      record.IsRecord [("op", some opForm), ("left", some leftForm), ("right", some rightForm)] ∧
      op.IsForm opForm ∧ left.IsForm leftForm ∧ right.IsForm rightForm
  | .compare op left right, json => ∃ record opForm leftForm rightForm,
      json = .obj [("Compare", record)] ∧
      record.IsRecord [("op", some opForm), ("left", some leftForm), ("right", some rightForm)] ∧
      op.IsForm opForm ∧ left.IsForm leftForm ∧ right.IsForm rightForm
  | .and left right, json => ∃ leftForm rightForm,
      json = .obj [("And", .arr [leftForm, rightForm])] ∧
      left.IsForm leftForm ∧ right.IsForm rightForm
  | .or left right, json => ∃ leftForm rightForm,
      json = .obj [("Or", .arr [leftForm, rightForm])] ∧
      left.IsForm leftForm ∧ right.IsForm rightForm
  | .not operand, json => ∃ form, json = .obj [("Not", form)] ∧ operand.IsForm form

mutual

def Stmt.IsForm : Stmt → Json → Prop
  | .declare name type, json => ∃ record typeForm, json = .obj [("Declaration", record)] ∧
      record.IsRecord [("name", some (.str name)), ("ty", some typeForm)] ∧ type.IsForm typeForm
  | .declareEnum name variants, json => ∃ record, json = .obj [("EnumDecl", record)] ∧
      record.IsRecord [("name", some (.str name)), ("variants", some (.arr (variants.map .str)))]
  | .block body, json => ∃ items, json = .obj [("Block", .arr items)] ∧ IsBlockForm body items
  | .assign target value, json => ∃ record valueForm, json = .obj [("Assign", record)] ∧
      record.IsRecord [("target", some (.str target)), ("value", some valueForm)] ∧
      value.IsForm valueForm
  | .ite condition thenBranch elseBranch, json => ∃ record conditionForm thenForm elseForm,
      json = .obj [("If", record)] ∧
      record.IsRecord [("condition", some conditionForm), ("then_branch", thenForm),
        ("else_branch", elseForm)] ∧
      condition.IsForm conditionForm ∧ IsBranchForm thenBranch thenForm ∧
      IsBranchForm elseBranch elseForm
  | .whileLoop condition body, json => ∃ record conditionForm bodyForm,
      json = .obj [("While", record)] ∧
      record.IsRecord [("condition", some conditionForm), ("body", some bodyForm)] ∧
      condition.IsForm conditionForm ∧ body.IsForm bodyForm
  | .forLoop init condition update body, json =>
      ∃ record initForm conditionForm updateForm bodyForm, json = .obj [("For", record)] ∧
      record.IsRecord [("init", some initForm), ("condition", some conditionForm),
        ("update", some updateForm), ("body", some bodyForm)] ∧
      init.IsForm initForm ∧ condition.IsForm conditionForm ∧ update.IsForm updateForm ∧
      body.IsForm bodyForm
  | .switch selector cases, json => ∃ record selectorForm items,
      json = .obj [("Switch", record)] ∧
      record.IsRecord [("selector", some selectorForm), ("cases", some (.arr items))] ∧
      selector.IsForm selectorForm ∧ IsCasesForm cases items
  | .breakSwitch, json => json.IsBare "Break"

/-- A branch that is missing may be left out or written `null`. -/
def IsBranchForm : Option Stmt → Option Json → Prop
  | none, form => form = none ∨ form = some .null
  | some branch, form => ∃ json, form = some json ∧ branch.IsForm json

def IsBlockForm : List Stmt → List Json → Prop
  | [], items => items = []
  | stmt :: rest, items => ∃ form others,
      stmt.IsForm form ∧ IsBlockForm rest others ∧ items = form :: others

def Case.IsForm : Case → Json → Prop
  | ⟨value, body⟩, json => ∃ valueForm items,
      json.IsRecord [("value", some valueForm), ("body", some (.arr items))] ∧
      value.IsForm valueForm ∧ IsBlockForm body items

def IsCasesForm : List Case → List Json → Prop
  | [], items => items = []
  | branch :: rest, items => ∃ form others,
      branch.IsForm form ∧ IsCasesForm rest others ∧ items = form :: others

end

def Program.IsForm (program : Program) (json : Json) : Prop :=
  ∃ items, json.IsRecord [("body", some (.arr items))] ∧ IsBlockForm program.body items

theorem isBlockForm_iff {body : List Stmt} {items : List Json} :
    IsBlockForm body items ↔ List.Forall₂ Stmt.IsForm body items := by
  induction body generalizing items with
  | nil => simp [IsBlockForm]
  | cons stmt rest ih => simp only [IsBlockForm, List.forall₂_cons_left_iff, ih]

theorem isCasesForm_iff {cases : List Case} {items : List Json} :
    IsCasesForm cases items ↔ List.Forall₂ Case.IsForm cases items := by
  induction cases generalizing items with
  | nil => simp [IsCasesForm]
  | cons branch rest ih => simp only [IsCasesForm, List.forall₂_cons_left_iff, ih]

theorem DeclType.isForm_toJson (type : DeclType) : type.IsForm type.toJson := by
  cases type with
  | number | boolean => exact .inl rfl
  | enumeration name => rfl

theorem Expr.isForm_toJson (expr : Expr) : expr.IsForm expr.toJson := by
  induction expr with
  | int | bool | ident => rfl
  | neg operand ih | not operand ih => exact ⟨_, rfl, ih⟩
  | arith op left right ihl ihr | compare op left right ihl ihr =>
    exact ⟨_, _, _, _, rfl, Json.isRecord_obj (by simp), .inl rfl, ihl, ihr⟩
  | and left right ihl ihr | or left right ihl ihr => exact ⟨_, _, rfl, ihl, ihr⟩

mutual

theorem Stmt.isForm_toJson : ∀ stmt : Stmt, stmt.IsForm stmt.toJson
  | .declare _ type => ⟨_, _, rfl, Json.isRecord_obj (by simp), type.isForm_toJson⟩
  | .declareEnum _ _ => ⟨_, rfl, Json.isRecord_obj (by simp)⟩
  | .block body => ⟨_, rfl, isBlockForm_toJson body⟩
  | .assign _ value => ⟨_, _, rfl, Json.isRecord_obj (by simp), value.isForm_toJson⟩
  | .ite condition thenBranch elseBranch =>
    ⟨_, _, _, _, rfl, Json.isRecord_obj (by simp), condition.isForm_toJson,
      isBranchForm_toJson thenBranch, isBranchForm_toJson elseBranch⟩
  | .whileLoop condition body =>
    ⟨_, _, _, rfl, Json.isRecord_obj (by simp), condition.isForm_toJson, body.isForm_toJson⟩
  | .forLoop init condition update body =>
    ⟨_, _, _, _, _, rfl, Json.isRecord_obj (by simp), init.isForm_toJson, condition.isForm_toJson,
      update.isForm_toJson, body.isForm_toJson⟩
  | .switch selector cases =>
    ⟨_, _, _, rfl, Json.isRecord_obj (by simp), selector.isForm_toJson, isCasesForm_toJson cases⟩
  | .breakSwitch => .inl rfl

theorem isBranchForm_toJson : ∀ branch, IsBranchForm branch (some (branchToJson branch))
  | none => .inr rfl
  | some branch => ⟨_, rfl, branch.isForm_toJson⟩

theorem isBlockForm_toJson : ∀ body, IsBlockForm body (blockToJson body)
  | [] => rfl
  | stmt :: rest => ⟨_, _, stmt.isForm_toJson, isBlockForm_toJson rest, rfl⟩

theorem isCasesForm_toJson : ∀ cases, IsCasesForm cases (casesToJson cases)
  | [] => rfl
  | ⟨value, body⟩ :: rest =>
    ⟨_, _, ⟨_, _, Json.isRecord_obj (by simp), value.isForm_toJson, isBlockForm_toJson body⟩,
      isCasesForm_toJson rest, rfl⟩

end

/-- What is written is a form of what it was written for. -/
theorem Program.isForm_toJson (program : Program) : program.IsForm program.toJson :=
  ⟨_, Json.isRecord_obj (by simp), isBlockForm_toJson program.body⟩

end ThreeAddress
