import ThreeAddress.Proofs.BuilderGrowth
import ThreeAddress.Proofs.LoweringAdequacy

/-!
Which names of a program come back in its code. Code writes only targets of
assignments and temporaries, and reads only names that the program uses as
variables. Names that it uses otherwise, as variants or only in declarations,
leave no trace.
-/

namespace ThreeAddress

/-- The names that an expression reads. -/
def Expr.idents : Expr → List String
  | .int _ | .bool _ => []
  | .ident name => [name]
  | .neg operand | .not operand => operand.idents
  | .arith _ left right | .compare _ left right | .and left right | .or left right =>
      left.idents ++ right.idents

mutual

/-- The targets of all assignments in a statement, and what a function finds in
its expressions. -/
def Stmt.names (inExpr : Expr → List String) : Stmt → List String
  | .declare .. | .declareEnum .. | .breakSwitch => []
  | .block body => blockNames inExpr body
  | .assign target value => target :: inExpr value
  | .ite condition thenBranch elseBranch =>
      inExpr condition ++ branchNames inExpr thenBranch ++ branchNames inExpr elseBranch
  | .whileLoop condition body => inExpr condition ++ body.names inExpr
  | .forLoop init condition update body =>
      init.names inExpr ++ inExpr condition ++ update.names inExpr ++ body.names inExpr
  | .switch selector cases => inExpr selector ++ caseNames inExpr cases

def branchNames (inExpr : Expr → List String) : Option Stmt → List String
  | none => []
  | some branch => branch.names inExpr

def blockNames (inExpr : Expr → List String) : List Stmt → List String
  | [] => []
  | stmt :: rest => stmt.names inExpr ++ blockNames inExpr rest

def caseNames (inExpr : Expr → List String) : List Case → List String
  | [] => []
  | ⟨value, body⟩ :: rest => inExpr value ++ blockNames inExpr body ++ caseNames inExpr rest

end

namespace Program

/-- The names that a program assigns. -/
def targets (program : Program) : List String :=
  blockNames (fun _ => []) program.body

/-- The names that a program assigns or reads. -/
def names (program : Program) : List String :=
  blockNames Expr.idents program.body

end Program

/-- Names of numbers, Booleans and variables of an enumeration. -/
def Symbols.IsVariable (symbols : Symbols) (name : String) : Prop :=
  symbols.lookup name = some .number ∨ symbols.lookup name = some .boolean ∨
    symbols.lookup name = some .enumVar

namespace Instr

/-- The variable that an instruction writes. -/
def dst? : Instr → Option Var
  | .assign dst _ | .binary dst _ _ _ => some dst
  | .branch .. | .jump _ | .label _ => none

def operands : Instr → List Value
  | .assign _ source => [source]
  | .binary _ left _ right | .branch left _ right _ _ => [left, right]
  | .jump _ | .label _ => []

/-- An instruction writes and reads only such names. -/
structure Within (written read : String → Prop) (instr : Instr) : Prop where
  dst : ∀ name, instr.dst? = some (.named name) → written name
  operands : ∀ name, .var (.named name) ∈ instr.operands → read name

end Instr

def Builder.Within (written read : String → Prop) (builder : Builder) : Prop :=
  ∀ instr ∈ builder.code.toList, instr.Within written read

namespace Builder.Within

variable {written read : String → Prop} {builder : Builder}

theorem emit (h : builder.Within written read) {instr : Instr}
    (hinstr : instr.Within written read) : (builder.emit instr).Within written read := by
  intro other hother
  simp only [emit_code, Array.toList_push, List.mem_append, List.mem_singleton] at hother
  rcases hother with hold | rfl
  · exact h other hold
  · exact hinstr

theorem emitJump (h : builder.Within written read) (target : Label) :
    (builder.emit (.jump target)).Within written read :=
  h.emit ⟨by simp [Instr.dst?], by simp [Instr.operands]⟩

theorem emitLabel (h : builder.Within written read) (place : Label) :
    (builder.emit (.label place)).Within written read :=
  h.emit ⟨by simp [Instr.dst?], by simp [Instr.operands]⟩

theorem mark (h : builder.Within written read) (label : Label) :
    (builder.mark label).Within written read := by
  unfold Builder.mark
  split
  · exact h.emitLabel label
  · exact h

theorem afterLabel (h : builder.Within written read) : builder.afterLabel.Within written read := h

theorem withSwitches (h : builder.Within written read) (switches : List SwitchLabels) :
    { builder with switches }.Within written read := h

theorem openExit (h : builder.Within written read) (continuation : Continuation) :
    (builder.openExit continuation).Within written read := by
  cases continuation <;> exact h

theorem closeExit (h : builder.Within written read) (continuation : Continuation) (exit : Label) :
    (builder.closeExit continuation exit).Within written read := by
  cases continuation with
  | label target => exact h
  | fall => exact h.mark exit

end Builder.Within

variable {symbols : Symbols} {before after : Builder} {written read : String → Prop}

/-- A value reads only such names. -/
def Value.Reads (read : String → Prop) (value : Value) : Prop :=
  ∀ name, value = .var (.named name) → read name

theorem Expr.LowersValue.reads {expr : Expr} {value : Value}
    (h : expr.LowersValue symbols value before after)
    (hread : ∀ name ∈ expr.idents, symbols.IsVariable name → read name) : value.Reads read := by
  intro name hname
  cases h with
  | int | bool | variant | neg | arith => cases hname
  | «variable» _ hlookup hkind =>
    cases hname
    apply hread name (by simp [Expr.idents])
    rcases hkind with rfl | rfl | rfl
    · exact .inl hlookup
    · exact .inr (.inl hlookup)
    · exact .inr (.inr hlookup)

theorem Instr.within_of_operands {instr : Instr} {left right : Value}
    (hdst : ∀ name, instr.dst? ≠ some (.named name)) (hoperands : instr.operands = [left, right])
    (hleft : left.Reads read) (hright : right.Reads read) : instr.Within written read := by
  refine ⟨fun name hname => absurd hname (hdst name), ?_⟩
  intro name hname
  rw [hoperands] at hname
  rcases List.mem_cons.mp hname with hname | hname
  · exact hleft name hname.symm
  · exact hright name (List.mem_singleton.mp hname).symm

theorem Instr.within_binary {temp : Temp} {left right : Value} {op : ArithOp}
    (hleft : left.Reads read) (hright : right.Reads read) :
    (Instr.binary (.temp temp) left op right).Within written read :=
  within_of_operands (by simp [dst?]) rfl hleft hright

theorem Instr.within_branch {left right : Value} {op : RelOp} {target : Label} {sense : Bool}
    (hleft : left.Reads read) (hright : right.Reads read) :
    (Instr.branch left op right target sense).Within written read :=
  within_of_operands (by simp [dst?]) rfl hleft hright

theorem Instr.within_assign {target : String} {source : Value} (htarget : written target)
    (hsource : source.Reads read) : (Instr.assign (.named target) source).Within written read := by
  refine ⟨?_, ?_⟩
  · rintro name ⟨⟩
    exact htarget
  · intro name hname
    exact hsource name (List.mem_singleton.mp hname).symm

theorem Expr.LowersValue.within {expr : Expr} {value : Value}
    (h : expr.LowersValue symbols value before after)
    (hread : ∀ name ∈ expr.idents, symbols.IsVariable name → read name)
    (hbefore : before.Within written read) : after.Within written read := by
  induction h with
  | int | bool | «variable» | variant => exact hbefore
  | neg hoperand ih =>
    refine (ih hread hbefore).emit (Instr.within_binary ?_ (hoperand.reads hread))
    rintro name ⟨⟩
  | arith hleft hright ihl ihr =>
    simp only [Expr.idents, List.mem_append] at hread
    have hreadLeft := fun name hname => hread name (.inl hname)
    have hreadRight := fun name hname => hread name (.inr hname)
    exact (ihr hreadRight (ihl hreadLeft hbefore)).emit
      (Instr.within_binary (hleft.reads hreadLeft) (hright.reads hreadRight))

theorem LowersBranch.within {left right : Value} {op : RelOp} {targets : Targets}
    (h : LowersBranch left op right targets before after) (hleft : left.Reads read)
    (hright : right.Reads read) (hbefore : before.Within written read) :
    after.Within written read := by
  cases h with
  | both => exact (hbefore.emit (Instr.within_branch hleft hright)).emitJump _
  | onTrue | onFalse => exact hbefore.emit (Instr.within_branch hleft hright)

theorem Expr.LowersCondition.within {expr : Expr} {targets : Targets}
    (h : expr.LowersCondition symbols targets before after)
    (hread : ∀ name ∈ expr.idents, symbols.IsVariable name → read name)
    (hbefore : before.Within written read) : after.Within written read := by
  induction h with
  | and _ _ ihl ihr | or _ _ ihl ihr =>
    simp only [Expr.idents, List.mem_append] at hread
    exact (ihr (fun name hname => hread name (.inr hname))
      (ihl (fun name hname => hread name (.inl hname)) (hbefore.openExit _))).closeExit _ _
  | not _ ih => exact ih hread hbefore
  | compare hleft hright hbranch =>
    simp only [Expr.idents, List.mem_append] at hread
    have hreadLeft := fun name hname => hread name (.inl hname)
    have hreadRight := fun name hname => hread name (.inr hname)
    exact hbranch.within (hleft.reads hreadLeft) (hright.reads hreadRight)
      (hright.within hreadRight (hleft.within hreadLeft hbefore))
  | @ident name targets before after hlookup hbranch =>
    refine hbranch.within ?_ ?_ hbefore
    · rintro other ⟨⟩
      exact hread name (by simp [Expr.idents]) (.inr (.inl hlookup))
    · rintro other ⟨⟩
  | boolJump => exact hbefore.emitJump _
  | boolFall => exact hbefore

theorem LowersTests.within {selector : Value} {cases : List Case} {labels : List Label}
    (h : LowersTests symbols selector cases labels before after)
    (hread : ∀ name ∈ caseNames Expr.idents cases, symbols.IsVariable name → read name)
    (hselector : selector.Reads read) (hbefore : before.Within written read) :
    after.Within written read := by
  induction h with
  | nil => exact hbefore
  | cons hvalue _ ih =>
    simp only [caseNames, List.mem_append] at hread
    have hreadValue := fun name hname => hread name (.inl (.inl hname))
    apply ih (fun name hname => hread name (.inr hname))
    exact (hvalue.within hreadValue hbefore).emit
      (Instr.within_branch hselector (hvalue.reads hreadValue))

def Piece.names (inExpr : Expr → List String) : Piece → List String
  | .stmt single _ => single.names inExpr
  | .block body _ => blockNames inExpr body
  | .cases branches _ => caseNames inExpr branches

/-- The code of a piece writes only its targets and reads only its variables. -/
theorem Lowers.within {piece : Piece} (h : Lowers symbols piece before after)
    {inExpr : Expr → List String}
    (hwritten : ∀ name ∈ piece.names inExpr, symbols.IsVariable name → written name)
    (hread : ∀ name ∈ piece.names Expr.idents, symbols.IsVariable name → read name)
    (hbefore : before.Within written read) : after.Within written read := by
  induction h with
  | declare | declareEnum | blockNil | casesNil => exact hbefore
  | block _ ih => exact ih hwritten hread hbefore
  | blockLast _ ih =>
    simp only [Piece.names, blockNames, List.append_nil] at hwritten hread
    exact ih hwritten hread hbefore
  | assignNumber hkind hvalue =>
    simp only [Piece.names, Stmt.names, List.mem_cons, or_imp, forall_and, forall_eq] at hwritten hread
    refine (hvalue.within hread.2 hbefore).emit (Instr.within_assign ?_ (hvalue.reads hread.2))
    exact hwritten.1 (hkind.elim .inl fun h => .inr (.inr h))
  | assignBoolean hkind hvalue hplaced =>
    simp only [Piece.names, Stmt.names, List.mem_cons, or_imp, forall_and, forall_eq] at hwritten hread
    have htarget := hwritten.1 (.inr (.inl hkind))
    have hassign (value : Int64) : (Instr.assign (.named _) (.imm value)).Within written read :=
      Instr.within_assign htarget (by rintro name ⟨⟩)
    have htested := hvalue.within hread.2 (hbefore.openExit _)
    subst hplaced
    exact ((((htested.emit (hassign 1)).emitJump _).mark _).emit (hassign 0)).closeExit _ _
  | iteNone hcondition =>
    simp only [Piece.names, Stmt.names, branchNames, List.append_nil] at hread
    exact (hcondition.within hread (hbefore.openExit _)).closeExit _ _
  | iteThen hcondition _ ih =>
    simp only [Piece.names, Stmt.names, branchNames, List.mem_append, or_imp, forall_and]
      at hwritten hread
    exact (ih hwritten.1.2 hread.1.2
      (hcondition.within hread.1.1 (hbefore.openExit _))).closeExit _ _
  | iteElse hcondition _ hplaced _ ihthen ihelse =>
    simp only [Piece.names, Stmt.names, branchNames, List.mem_append, or_imp, forall_and]
      at hwritten hread
    have hthen := ihthen hwritten.1.2 hread.1.2 (hcondition.within hread.1.1 (hbefore.openExit _))
    subst hplaced
    exact (ihelse hwritten.2 hread.2 ((hthen.emitJump _).mark _)).closeExit _ _
  | whileLoop hhead hcondition _ ih =>
    simp only [Piece.names, Stmt.names, List.mem_append, or_imp, forall_and] at hwritten hread
    subst hhead
    have htested := hcondition.within hread.1 ((hbefore.afterLabel.emitLabel _).openExit _)
    exact ((ih hwritten.2 hread.2 htested).emitJump _).closeExit _ _
  | forLoop _ hhead hcondition _ _ ihinit ihbody ihupdate =>
    simp only [Piece.names, Stmt.names, List.mem_append, or_imp, forall_and] at hwritten hread
    obtain ⟨⟨⟨hwrittenInit, _⟩, hwrittenUpdate⟩, hwrittenBody⟩ := hwritten
    obtain ⟨⟨⟨hreadInit, hreadCondition⟩, hreadUpdate⟩, hreadBody⟩ := hread
    subst hhead
    have hstarted := ihinit hwrittenInit hreadInit hbefore
    have htested := hcondition.within hreadCondition ((hstarted.emitLabel _).openExit _)
    have hbody := ihbody hwrittenBody hreadBody htested
    exact ((ihupdate hwrittenUpdate hreadUpdate (hbody.mark _)).emitJump _).closeExit _ _
  | switch _ hselector htests hinside _ _ ih =>
    simp only [Piece.names, Stmt.names, List.mem_append, or_imp, forall_and] at hwritten hread
    subst hinside
    have hselected := hselector.within hread.1 (hbefore.openExit _)
    have htested := htests.within hread.2 (hselector.reads hread.1) hselected
    have hbodies := ih hwritten.2 hread.2 ((htested.emitJump _).withSwitches _)
    exact (hbodies.withSwitches _).closeExit _ _
  | breakSwitch => exact hbefore.emitJump _
  | @blockCons stmt next rest _ _ _ _ _ _ ihstmt ihrest =>
    have hcons (inExpr : Expr → List String) : blockNames inExpr (stmt :: next :: rest) =
        stmt.names inExpr ++ blockNames inExpr (next :: rest) := by
      rw [blockNames]
    simp only [Piece.names, hcons, List.mem_append, or_imp, forall_and] at hwritten hread
    exact ihrest hwritten.2 hread.2 ((ihstmt hwritten.1 hread.1 hbefore).mark _)
  | @casesCons branch _ _ _ _ _ _ _ _ _ _ _ hplaced _ _ ihbody ihrest =>
    obtain ⟨value, body⟩ := branch
    simp only [Piece.names, caseNames, List.mem_append, or_imp, forall_and] at hwritten hread
    subst hplaced
    have hbody := ihbody hwritten.1.2 hread.1.2 ((hbefore.withSwitches _).mark _)
    exact ihrest hwritten.2 hread.2 hbody

/-- Every target of a lowered piece is a variable. -/
theorem Lowers.isVariable_of_target {piece : Piece} (h : Lowers symbols piece before after)
    {name : String} (hname : name ∈ piece.names fun _ => []) : symbols.IsVariable name := by
  induction h with
  | declare | declareEnum | blockNil | casesNil | breakSwitch => cases hname
  | block _ ih => exact ih hname
  | blockLast _ ih =>
    simp only [Piece.names, blockNames, List.append_nil] at hname
    exact ih hname
  | assignNumber hkind =>
    simp only [Piece.names, Stmt.names, List.mem_singleton] at hname
    subst hname
    exact hkind.elim .inl fun h => .inr (.inr h)
  | assignBoolean hkind =>
    simp only [Piece.names, Stmt.names, List.mem_singleton] at hname
    subst hname
    exact .inr (.inl hkind)
  | iteNone => simp [Piece.names, Stmt.names, branchNames] at hname
  | iteThen _ _ ih =>
    simp only [Piece.names, Stmt.names, branchNames, List.nil_append, List.append_nil] at hname
    exact ih hname
  | iteElse _ _ _ _ ihthen ihelse =>
    simp only [Piece.names, Stmt.names, branchNames, List.nil_append, List.mem_append] at hname
    exact hname.elim ihthen ihelse
  | whileLoop _ _ _ ih =>
    simp only [Piece.names, Stmt.names, List.nil_append] at hname
    exact ih hname
  | forLoop _ _ _ _ _ ihinit ihbody ihupdate =>
    simp only [Piece.names, Stmt.names, List.append_nil, List.mem_append] at hname
    rcases hname with (hinit | hupdate) | hbody
    · exact ihinit hinit
    · exact ihupdate hupdate
    · exact ihbody hbody
  | switch _ _ _ _ _ _ ih =>
    simp only [Piece.names, Stmt.names, List.nil_append] at hname
    exact ih hname
  | blockCons _ _ ihstmt ihrest =>
    rw [Piece.names, blockNames, List.mem_append] at hname
    exact hname.elim ihstmt ihrest
  | @casesCons branch _ _ _ _ _ _ _ _ _ _ _ _ _ _ ihbody ihrest =>
    obtain ⟨value, body⟩ := branch
    simp only [Piece.names, caseNames, List.nil_append, List.mem_append] at hname
    exact hname.elim ihbody ihrest

theorem Program.isVariable_of_target {program : Program} {code : Code}
    (h : program.toCode symbols = .ok code) {name : String} (hname : name ∈ program.targets) :
    symbols.IsVariable name := by
  obtain ⟨after, hbody, _⟩ := Program.toCode_eq_ok.mp h
  exact hbody.isVariable_of_target hname

/-- The code of a program writes only its targets and reads only its variables. -/
theorem Program.toCode_within {program : Program} {code : Code}
    (h : program.toCode symbols = .ok code) {inExpr : Expr → List String}
    (hwritten : ∀ name ∈ blockNames inExpr program.body, symbols.IsVariable name → written name)
    (hread : ∀ name ∈ program.names, symbols.IsVariable name → read name) :
    ∀ instr ∈ code, instr.Within written read := by
  obtain ⟨after, hbody, rfl⟩ := Program.toCode_eq_ok.mp h
  have hempty : Builder.empty.afterLabel.Within written read := by
    rintro instr ⟨⟩
  exact (hbody.within hwritten hread hempty).mark _

end ThreeAddress
