import ThreeAddress.Proofs.CodeNames
import ThreeAddress.Proofs.CodeRuns

/-!
Temporaries of lowered code. Each is written by one operation, in the order of
their numbers, and read again before the next label or jump, so a run that reads
one comes straight from the operation that wrote it. The invariant `InOrder` goes
with the growing code: it says where temporaries may be read and which of them
nothing has read yet.
-/

namespace ThreeAddress

def Var.temp? : Var → Option Temp
  | .named _ => none
  | .temp t => some t

namespace Instr

/-- The temporary that an instruction writes. -/
def temp? (instr : Instr) : Option Temp := instr.dst?.bind Var.temp?

def Reads (instr : Instr) (temp : Temp) : Prop := .var (.temp temp) ∈ instr.operands

/-- Operations write temporaries and assignments write named variables. -/
def IsRegular : Instr → Prop
  | .assign dst _ => ∃ name, dst = .named name
  | .binary dst _ _ _ => ∃ temp, dst = .temp temp
  | .branch .. | .jump _ | .label _ => True

/-- Control comes to a label from elsewhere, and never goes on behind a jump. -/
def isBarrier : Instr → Bool
  | .jump _ | .label _ => true
  | .assign .. | .binary .. | .branch .. => false

end Instr

namespace Code

/-- The temporaries that code writes, in the order in which they are written. -/
def temps (code : Code) : List Temp := code.filterMap Instr.temp?

/-- The instruction at a position is an operation that writes the temporary. -/
def Defines (code : Code) (position : Nat) (temp : Temp) : Prop :=
  ∃ left op right, code[position]? = some (.binary (.temp temp) left op right)

/-- A temporary was written before a position, with neither a label nor a jump
in between. -/
def AtHand (code : Code) (temp : Temp) (position : Nat) : Prop :=
  ∃ definition < position, code.Defines definition temp ∧
    ∀ between instr, definition < between → between < position →
      code[between]? = some instr → instr.isBarrier = false

end Code

/-- The temporary that a value is, if it is one. -/
def Value.temps : Value → List Temp
  | .var (.temp t) => [t]
  | .var (.named _) | .imm _ => []

theorem Value.mem_temps {value : Value} {temp : Temp} :
    temp ∈ value.temps ↔ value = .var (.temp temp) := by
  rcases value with constant | name | other
  · simp [temps]
  · simp [temps]
  · simp [temps, eq_comm]

theorem Instr.reads_assign {dst : Var} {source : Value} {temp : Temp} :
    (Instr.assign dst source).Reads temp ↔ temp ∈ source.temps := by
  simp [Reads, operands, Value.mem_temps, eq_comm]

theorem Instr.reads_binary {dst : Var} {left right : Value} {op : ArithOp} {temp : Temp} :
    (Instr.binary dst left op right).Reads temp ↔ temp ∈ left.temps ++ right.temps := by
  simp [Reads, operands, Value.mem_temps, eq_comm]

theorem Instr.reads_branch {left right : Value} {op : RelOp} {target : Label} {sense : Bool}
    {temp : Temp} :
    (Instr.branch left op right target sense).Reads temp ↔ temp ∈ left.temps ++ right.temps := by
  simp [Reads, operands, Value.mem_temps, eq_comm]

namespace Code

variable {code rest : Code} {instr : Instr} {temp : Temp} {position count : Nat}
  {unread others : List Temp}

theorem temps_push : Code.temps (code ++ [instr]) = code.temps ++ instr.temp?.toList := by
  rw [temps, List.filterMap_append]
  cases htemp : instr.temp? <;> simp [temps, htemp]

theorem AtHand.append (h : code.AtHand temp position) (hposition : position ≤ code.length) :
    Code.AtHand (code ++ rest) temp position := by
  obtain ⟨definition, hlt, ⟨left, op, right, hget⟩, hbetween⟩ := h
  refine ⟨definition, hlt, ⟨left, op, right, ?_⟩, ?_⟩
  · rw [List.getElem?_append_left (by omega)]
    exact hget
  · intro between instr hfirst hsecond hinstr
    rw [List.getElem?_append_left (by omega)] at hinstr
    exact hbetween between instr hfirst hsecond hinstr

/-- What is at hand stays so behind an instruction that is no barrier. -/
theorem AtHand.push (h : code.AtHand temp code.length) (hinstr : instr.isBarrier = false) :
    Code.AtHand (code ++ [instr]) temp (code.length + 1) := by
  obtain ⟨definition, hlt, hdefines, hbetween⟩ := h.append (Nat.le_refl _)
  refine ⟨definition, Nat.lt_succ_of_lt hlt, hdefines, ?_⟩
  intro between other hfirst hsecond hother
  rcases Nat.lt_succ_iff_lt_or_eq.mp hsecond with hlast | rfl
  · exact hbetween between other hfirst hlast hother
  · simp only [List.getElem?_concat_length, Option.some.injEq] at hother
    exact hother ▸ hinstr

/-- The temporaries of code are in order: it writes so many of them, one after
the other, reads each only where it is at hand, and reads all of them somewhere
but the given ones. -/
structure InOrder (code : Code) (count : Nat) (unread : List Temp) : Prop where
  written : code.temps = (List.range count).map Temp.mk
  regular : ∀ instr ∈ code, instr.IsRegular
  atHand : ∀ position instr temp, code[position]? = some instr → instr.Reads temp →
    code.AtHand temp position
  read : ∀ temp : Temp, temp.number < count → temp ∉ unread → ∃ instr ∈ code, instr.Reads temp

/-- One more instruction that reads only what is at hand. What it reads counts as
read from then on. -/
theorem InOrder.push (h : code.InOrder count unread) {more : Nat} (hregular : instr.IsRegular)
    (hreads : ∀ temp, instr.Reads temp → code.AtHand temp code.length)
    (hwritten : Code.temps (code ++ [instr]) = (List.range more).map Temp.mk)
    (hothers : ∀ temp : Temp, temp.number < more → temp ∉ others →
      (temp.number < count ∧ temp ∉ unread) ∨ instr.Reads temp) :
    Code.InOrder (code ++ [instr]) more others := by
  refine ⟨hwritten, ?_, ?_, ?_⟩
  · intro other hother
    rcases List.mem_append.mp hother with hold | hnew
    · exact h.regular other hold
    · exact List.mem_singleton.mp hnew ▸ hregular
  · intro position other temp hother hread
    by_cases hlt : position < code.length
    · rw [List.getElem?_append_left hlt] at hother
      exact (h.atHand position other temp hother hread).append (Nat.le_of_lt hlt)
    · have hposition := (List.getElem?_eq_some_iff.mp hother).1
      rw [List.length_append, List.length_singleton] at hposition
      obtain rfl : position = code.length := by omega
      simp only [List.getElem?_concat_length, Option.some.injEq] at hother
      exact (hreads temp (hother ▸ hread)).append (Nat.le_refl _)
  · intro temp hlt hnot
    rcases hothers temp hlt hnot with ⟨hold, hunread⟩ | hread
    · obtain ⟨other, hother, hread⟩ := h.read temp hold hunread
      exact ⟨other, List.mem_append_left _ hother, hread⟩
    · exact ⟨instr, by simp, hread⟩

end Code

namespace Builder

variable {builder : Builder} {unread rest : List Temp} {temp : Temp} {instr : Instr}

/-- A temporary may be read by the next instruction. -/
def AtHand (builder : Builder) (temp : Temp) : Prop :=
  Code.AtHand builder.code.toList temp builder.code.toList.length

def InOrder (builder : Builder) (unread : List Temp) : Prop :=
  Code.InOrder builder.code.toList builder.temps unread

theorem AtHand.emit (h : builder.AtHand temp) (hinstr : instr.isBarrier = false) :
    (builder.emit instr).AtHand temp := by
  simpa [AtHand] using Code.AtHand.push h hinstr

/-- An operation leaves its temporary at hand. -/
theorem atHand_binary (temp : Temp) (left : Value) (op : ArithOp) (right : Value) :
    (builder.emit (.binary (.temp temp) left op right)).AtHand temp := by
  refine ⟨builder.code.toList.length, by simp, ⟨left, op, right, by simp⟩, ?_⟩
  intro between _ hfirst hsecond
  simp only [emit_code, Array.toList_push, List.length_append, List.length_singleton] at hsecond
  omega

namespace InOrder

theorem empty : Builder.empty.InOrder [] :=
  ⟨rfl, by simp [Builder.empty], by simp [Builder.empty], by simp [Builder.empty]⟩

theorem mono (h : builder.InOrder unread) (hsubset : unread ⊆ rest) : builder.InOrder rest :=
  ⟨h.written, h.regular, h.atHand, fun temp hlt hnot =>
    h.read temp hlt fun hmem => hnot (hsubset hmem)⟩

/-- An instruction that writes no temporary. What it reads need not be read
again. -/
theorem emit (h : builder.InOrder unread) (htemp : instr.temp? = none) (hregular : instr.IsRegular)
    (hreads : ∀ temp, instr.Reads temp → builder.AtHand temp)
    (hrest : ∀ temp ∈ unread, temp ∈ rest ∨ instr.Reads temp) :
    (builder.emit instr).InOrder rest := by
  have hcode : (builder.emit instr).code.toList = builder.code.toList ++ [instr] := by simp
  rw [InOrder, hcode]
  refine Code.InOrder.push h hregular hreads ?_ ?_
  · rw [Code.temps_push, htemp, h.written]
    exact List.append_nil _
  · intro temp hlt hnot
    by_cases hmem : temp ∈ unread
    · exact .inr ((hrest temp hmem).resolve_left hnot)
    · exact .inl ⟨hlt, hmem⟩

/-- An operation on operands at hand writes the next temporary, which is unread. -/
theorem emitBinary (h : builder.InOrder unread) {left right : Value} {op : ArithOp}
    (hreads : ∀ temp ∈ left.temps ++ right.temps, builder.AtHand temp)
    (hrest : ∀ temp ∈ unread, temp ∈ rest ∨ temp ∈ left.temps ++ right.temps) :
    (builder.afterTemp.emit (.binary (.temp builder.freshTemp) left op right)).InOrder
      (builder.freshTemp :: rest) := by
  have hcode :
      (builder.afterTemp.emit (.binary (.temp builder.freshTemp) left op right)).code.toList =
        builder.code.toList ++ [.binary (.temp builder.freshTemp) left op right] := by simp
  rw [InOrder, hcode]
  refine Code.InOrder.push h ⟨_, rfl⟩ ?_ ?_ ?_
  · intro temp hread
    exact hreads temp (Instr.reads_binary.mp hread)
  · rw [Code.temps_push, h.written]
    change _ = (List.range (builder.temps + 1)).map Temp.mk
    rw [List.range_succ, List.map_append]
    rfl
  · intro temp hlt hnot
    simp only [List.mem_cons, not_or] at hnot
    have hne : temp.number ≠ builder.temps := fun heq => hnot.1 (congrArg Temp.mk heq)
    have hold : temp.number < builder.temps := Nat.lt_of_le_of_ne (Nat.lt_succ_iff.mp hlt) hne
    by_cases hmem : temp ∈ unread
    · exact .inr (Instr.reads_binary.mpr ((hrest temp hmem).resolve_left hnot.2))
    · exact .inl ⟨hold, hmem⟩

theorem emitPlain (h : builder.InOrder unread) (htemp : instr.temp? = none)
    (hregular : instr.IsRegular) (hreads : ∀ temp, ¬ instr.Reads temp) :
    (builder.emit instr).InOrder unread :=
  h.emit htemp hregular (fun temp hread => absurd hread (hreads temp)) fun _ hmem => .inl hmem

theorem emitJump (h : builder.InOrder unread) (target : Label) :
    (builder.emit (.jump target)).InOrder unread :=
  h.emitPlain rfl trivial (by simp [Instr.Reads, Instr.operands])

theorem emitLabel (h : builder.InOrder unread) (place : Label) :
    (builder.emit (.label place)).InOrder unread :=
  h.emitPlain rfl trivial (by simp [Instr.Reads, Instr.operands])

theorem emitConstant (h : builder.InOrder unread) (target : String) (constant : Int64) :
    (builder.emit (.assign (.named target) (.imm constant))).InOrder unread :=
  h.emitPlain rfl ⟨target, rfl⟩ (by simp [Instr.Reads, Instr.operands])

theorem mark (h : builder.InOrder unread) (label : Label) :
    (builder.mark label).InOrder unread := by
  unfold Builder.mark
  split
  · exact h.emitLabel label
  · exact h

/-- An assignment reads its source. -/
theorem emitAssign {source : Value} (h : builder.InOrder (source.temps ++ unread))
    (hreads : ∀ temp ∈ source.temps, builder.AtHand temp) (target : String) :
    (builder.emit (.assign (.named target) source)).InOrder unread := by
  refine h.emit rfl ⟨target, rfl⟩ ?_ ?_
  · intro temp hread
    exact hreads temp (Instr.reads_assign.mp hread)
  · intro temp htemp
    rw [Instr.reads_assign]
    exact (List.mem_append.mp htemp).symm

theorem afterLabel (h : builder.InOrder unread) : builder.afterLabel.InOrder unread := h

theorem withSwitches (h : builder.InOrder unread) (switches : List SwitchLabels) :
    { builder with switches }.InOrder unread := h

theorem openExit (h : builder.InOrder unread) (continuation : Continuation) :
    (builder.openExit continuation).InOrder unread := by
  cases continuation <;> exact h

theorem closeExit (h : builder.InOrder unread) (continuation : Continuation) (exit : Label) :
    (builder.closeExit continuation exit).InOrder unread := by
  cases continuation with
  | label target => exact h
  | fall => exact h.mark exit

end InOrder

end Builder

variable {symbols : Symbols} {before after : Builder} {unread : List Temp}

/-- The code of a value is made of operations, so nothing gets out of hand. -/
theorem Expr.LowersValue.atHand {expr : Expr} {value : Value} {temp : Temp}
    (h : expr.LowersValue symbols value before after) (hbefore : before.AtHand temp) :
    after.AtHand temp := by
  induction h with
  | int | bool | «variable» | variant => exact hbefore
  | @neg _ _ _ after _ ih =>
    have hafter : after.afterTemp.AtHand temp := ih hbefore
    exact hafter.emit rfl
  | @arith _ _ _ _ _ _ _ after _ _ ihl ihr =>
    have hafter : after.afterTemp.AtHand temp := ihr (ihl hbefore)
    exact hafter.emit rfl

/-- A value that is a temporary can be read where it is returned. -/
theorem Expr.LowersValue.value_atHand {expr : Expr} {value : Value} {temp : Temp}
    (h : expr.LowersValue symbols value before after) (htemp : temp ∈ value.temps) :
    after.AtHand temp := by
  cases h with
  | int | bool | «variable» | variant => cases htemp
  | neg | arith =>
    obtain rfl := List.mem_singleton.mp htemp
    exact Builder.atHand_binary _ _ _ _

/-- A value is the only temporary that its own code leaves unread. -/
theorem Expr.LowersValue.inOrder {expr : Expr} {value : Value}
    (h : expr.LowersValue symbols value before after) (hbefore : before.InOrder unread) :
    after.InOrder (value.temps ++ unread) := by
  induction h generalizing unread with
  | int | bool | «variable» | variant => exact hbefore
  | neg hoperand ih =>
    refine (ih hbefore).emitBinary ?_ ?_
    · intro temp htemp
      exact hoperand.value_atHand htemp
    · intro temp htemp
      exact (List.mem_append.mp htemp).symm
  | arith hleft hright ihl ihr =>
    refine (ihr (ihl hbefore)).emitBinary ?_ ?_
    · intro temp htemp
      rcases List.mem_append.mp htemp with htemp | htemp
      · exact hright.atHand (hleft.value_atHand htemp)
      · exact hright.value_atHand htemp
    · intro temp htemp
      simp only [List.mem_append] at htemp ⊢
      rcases htemp with hright | hleft | hunread
      · exact .inr (.inr hright)
      · exact .inr (.inl hleft)
      · exact .inl hunread

theorem LowersBranch.inOrder {left right : Value} {op : RelOp} {targets : Targets}
    (h : LowersBranch left op right targets before after)
    (hbefore : before.InOrder (right.temps ++ (left.temps ++ unread)))
    (hreads : ∀ temp ∈ left.temps ++ right.temps, before.AtHand temp) : after.InOrder unread := by
  have hbranch (target : Label) (sense : Bool) :
      (before.emit (.branch left op right target sense)).InOrder unread := by
    refine hbefore.emit rfl trivial ?_ ?_
    · intro temp hread
      exact hreads temp (Instr.reads_branch.mp hread)
    · intro temp htemp
      rw [Instr.reads_branch]
      simp only [List.mem_append] at htemp ⊢
      rcases htemp with hright | hleft | hunread
      · exact .inr (.inr hright)
      · exact .inr (.inl hleft)
      · exact .inl hunread
  cases h with
  | both onTrue onFalse => exact (hbranch onTrue true).emitJump onFalse
  | onTrue target => exact hbranch target true
  | onFalse target => exact hbranch target false

theorem Expr.LowersCondition.inOrder {expr : Expr} {targets : Targets}
    (h : expr.LowersCondition symbols targets before after) (hbefore : before.InOrder unread) :
    after.InOrder unread := by
  induction h with
  | and _ _ ihl ihr | or _ _ ihl ihr => exact (ihr (ihl (hbefore.openExit _))).closeExit _ _
  | not _ ih => exact ih hbefore
  | compare hleft hright hbranch =>
    refine hbranch.inOrder (hright.inOrder (hleft.inOrder hbefore)) ?_
    intro temp htemp
    rcases List.mem_append.mp htemp with htemp | htemp
    · exact hright.atHand (hleft.value_atHand htemp)
    · exact hright.value_atHand htemp
  | ident _ hbranch =>
    exact hbranch.inOrder hbefore (by simp [Value.temps])
  | boolJump => exact hbefore.emitJump _
  | boolFall => exact hbefore

/-- The tests of a `switch` all read its selector, so one of them is enough to
have it read. -/
theorem LowersTests.inOrder {selector : Value} {cases : List Case} {labels : List Label}
    (h : LowersTests symbols selector cases labels before after) (hcases : cases ≠ [])
    (hbefore : before.InOrder (selector.temps ++ unread))
    (hselector : ∀ temp ∈ selector.temps, before.AtHand temp) : after.InOrder unread := by
  induction h with
  | nil => exact absurd rfl hcases
  | @cons _ _ rest constant _ _ between _ hvalue hrest ih =>
    have hreads : ∀ temp ∈ selector.temps ++ constant.temps, between.afterLabel.AtHand temp := by
      intro temp htemp
      rcases List.mem_append.mp htemp with htemp | htemp
      · exact hvalue.atHand (hselector temp htemp)
      · exact hvalue.value_atHand htemp
    have htested : (between.afterLabel.emit
        (.branch selector .eq constant between.freshLabel true)).InOrder unread :=
      (LowersBranch.onTrue between.freshLabel between.afterLabel).inOrder
        (hvalue.inOrder hbefore) hreads
    cases hrest with
    | nil => exact htested
    | cons =>
      refine ih (List.cons_ne_nil _ _) (htested.mono (List.subset_append_right _ _)) ?_
      intro temp htemp
      exact (hreads temp (List.mem_append_left _ htemp)).emit rfl

/-- Every piece leaves the temporaries in order, and all of them read. -/
theorem Lowers.inOrder {piece : Piece} (h : Lowers symbols piece before after)
    (hbefore : before.InOrder []) : after.InOrder [] := by
  induction h with
  | declare | declareEnum | blockNil | casesNil => exact hbefore
  | block _ ih | blockLast _ ih => exact ih hbefore
  | assignNumber _ hvalue =>
    exact (hvalue.inOrder hbefore).emitAssign (fun temp htemp => hvalue.value_atHand htemp) _
  | assignBoolean _ hvalue hplaced =>
    have htested := hvalue.inOrder (hbefore.openExit _)
    subst hplaced
    exact ((((htested.emitConstant _ 1).emitJump _).mark _).emitConstant _ 0).closeExit _ _
  | iteNone hcondition => exact (hcondition.inOrder (hbefore.openExit _)).closeExit _ _
  | iteThen hcondition _ ih => exact (ih (hcondition.inOrder (hbefore.openExit _))).closeExit _ _
  | iteElse hcondition _ hplaced _ ihthen ihelse =>
    have hthen := ihthen (hcondition.inOrder (hbefore.openExit _))
    subst hplaced
    exact (ihelse ((hthen.emitJump _).mark _)).closeExit _ _
  | whileLoop hhead hcondition _ ih =>
    subst hhead
    have htested := hcondition.inOrder ((hbefore.afterLabel.emitLabel _).openExit _)
    exact ((ih htested).emitJump _).closeExit _ _
  | forLoop _ hhead hcondition _ _ ihinit ihbody ihupdate =>
    subst hhead
    have htested := hcondition.inOrder (((ihinit hbefore).emitLabel _).openExit _)
    exact ((ihupdate ((ihbody htested).mark _)).emitJump _).closeExit _ _
  | switch hcases hselector htests hinside _ _ ih =>
    subst hinside
    have hselected := hselector.inOrder (hbefore.openExit _)
    have htested := htests.inOrder hcases hselected fun temp htemp => hselector.value_atHand htemp
    exact ((ih ((htested.emitJump _).withSwitches _)).withSwitches _).closeExit _ _
  | breakSwitch => exact hbefore.emitJump _
  | blockCons _ _ ihstmt ihrest => exact ihrest ((ihstmt hbefore).mark _)
  | casesCons _ hplaced _ _ ihbody ihrest =>
    subst hplaced
    exact ihrest (ihbody ((hbefore.withSwitches _).mark _))

/-- The temporaries of finished code are in order, and none is left unread. -/
theorem Program.exists_inOrder {program : Program} {code : Code}
    (h : program.toCode symbols = .ok code) : ∃ count, code.InOrder count [] := by
  obtain ⟨after, hbody, rfl⟩ := Program.toCode_eq_ok.mp h
  have hstart : Builder.empty.afterLabel.InOrder [] := Builder.InOrder.empty.afterLabel
  exact ⟨_, (hbody.inOrder hstart).mark _⟩

/-- A run that comes to an instruction with a temporary at hand has come through
its definition, and straight on from there. -/
theorem Code.AtHand.exists_straight {arithmetic : Arithmetic} {code : Code} {store last : Store}
    {temp : Temp} {position : Nat} {instr : Instr} (h : code.AtHand temp position)
    (hinstr : code[position]? = some instr) (hread : instr.Reads temp)
    (hrun : Reaches arithmetic code ⟨0, store⟩ ⟨position, last⟩) :
    ∃ definition middle, code.Defines definition temp ∧ definition < position ∧
      Reaches arithmetic code ⟨0, store⟩ ⟨definition, middle⟩ ∧
      Advances arithmetic code ⟨definition, middle⟩ ⟨position, last⟩ := by
  obtain ⟨definition, hlt, hdefines, hbetween⟩ := h
  have hlabels : ∀ between label, definition < between → between ≤ position →
      code[between]? ≠ some (.label label) := by
    intro between label hfirst hle hlabel
    rcases Nat.lt_or_eq_of_le hle with hbefore | rfl
    · cases hbetween between _ hfirst hbefore hlabel
    · obtain rfl := Option.some.inj (hinstr.symm.trans hlabel)
      cases hread
  obtain ⟨middle, hreaches, hadvances⟩ := hrun.exists_advances (Nat.le_of_lt hlt) hlabels
  exact ⟨definition, middle, hdefines, hlt, hreaches, hadvances⟩

/-- Code in which temporaries are single-assignment and defined before use. -/
structure Code.SingleAssignment (code : Code) : Prop where
  /-- The temporaries are written in the order of their numbers, each of them once. -/
  written : ∃ count, code.temps = (List.range count).map Temp.mk
  /-- Only operations write temporaries. -/
  operation : ∀ instr ∈ code, ∀ temp, instr.dst? = some (.temp temp) →
    ∃ left op right, instr = .binary (.temp temp) left op right
  /-- Only assignments write named variables. -/
  assignment : ∀ instr ∈ code, ∀ name, instr.dst? = some (.named name) →
    ∃ source, instr = .assign (.named name) source
  /-- Every temporary is read behind its definition. -/
  read : ∀ definition temp, code.Defines definition temp →
    ∃ use instr, definition < use ∧ code[use]? = some instr ∧ instr.Reads temp
  /-- It is read only where neither a label nor a jump stands in between. -/
  atHand : ∀ use instr temp, code[use]? = some instr → instr.Reads temp → code.AtHand temp use
  /-- A run that reads it has come straight from its definition. -/
  straight : ∀ arithmetic store use last instr temp,
    Reaches arithmetic code ⟨0, store⟩ ⟨use, last⟩ → code[use]? = some instr → instr.Reads temp →
    ∃ definition middle, code.Defines definition temp ∧ definition < use ∧
      Reaches arithmetic code ⟨0, store⟩ ⟨definition, middle⟩ ∧
      Advances arithmetic code ⟨definition, middle⟩ ⟨use, last⟩

namespace Code.InOrder

variable {code : Code} {count : Nat} {unread : List Temp} (h : code.InOrder count unread)
include h

/-- Temporaries are defined in the order of their numbers. -/
theorem number_lt {first second : Nat} {one other : Temp} (hfirst : code.Defines first one)
    (hsecond : code.Defines second other) (hlt : first < second) : one.number < other.number := by
  have hsorted : code.temps.Pairwise (·.number < ·.number) := by
    rw [h.written, List.pairwise_map]
    exact List.pairwise_lt_range
  obtain ⟨_, _, _, hfirst⟩ := hfirst
  obtain ⟨_, _, _, hsecond⟩ := hsecond
  obtain ⟨hfirstLt, hfirst⟩ := List.getElem?_eq_some_iff.mp hfirst
  obtain ⟨hsecondLt, hsecond⟩ := List.getElem?_eq_some_iff.mp hsecond
  refine List.pairwise_iff_getElem.mp (List.pairwise_filterMap.mp hsorted) first second hfirstLt
    hsecondLt hlt one ?_ other ?_
  · rw [hfirst]
    rfl
  · rw [hsecond]
    rfl

theorem definition_unique {first second : Nat} {temp : Temp} (hfirst : code.Defines first temp)
    (hsecond : code.Defines second temp) : first = second := by
  rcases Nat.lt_trichotomy first second with hlt | heq | hlt
  · exact absurd (h.number_lt hfirst hsecond hlt) (Nat.lt_irrefl _)
  · exact heq
  · exact absurd (h.number_lt hsecond hfirst hlt) (Nat.lt_irrefl _)

theorem operation {instr : Instr} {temp : Temp} (hinstr : instr ∈ code)
    (htemp : instr.dst? = some (.temp temp)) :
    ∃ left op right, instr = .binary (.temp temp) left op right := by
  have hregular := h.regular instr hinstr
  cases instr with
  | assign dst source =>
    obtain ⟨name, rfl⟩ := hregular
    cases htemp
  | binary dst left op right =>
    cases htemp
    exact ⟨left, op, right, rfl⟩
  | branch | jump | label => cases htemp

theorem assignment {instr : Instr} {name : String} (hinstr : instr ∈ code)
    (hname : instr.dst? = some (.named name)) : ∃ source, instr = .assign (.named name) source := by
  have hregular := h.regular instr hinstr
  cases instr with
  | assign dst source =>
    cases hname
    exact ⟨source, rfl⟩
  | binary dst left op right =>
    obtain ⟨temp, rfl⟩ := hregular
    cases hname
  | branch | jump | label => cases hname

/-- The temporaries that code defines are exactly the first so many. -/
theorem number_lt_of_defines {definition : Nat} {temp : Temp}
    (hdefines : code.Defines definition temp) : temp.number < count := by
  obtain ⟨left, op, right, hget⟩ := hdefines
  have hmem : temp ∈ code.temps := List.mem_filterMap.mpr ⟨_, List.mem_of_getElem? hget, rfl⟩
  rw [h.written, List.mem_map] at hmem
  obtain ⟨number, hnumber, rfl⟩ := hmem
  exact List.mem_range.mp hnumber

/-- A temporary that is not unread is read behind its definition. -/
theorem exists_use {definition : Nat} {temp : Temp} (hdefines : code.Defines definition temp)
    (hunread : temp ∉ unread) :
    ∃ use instr, definition < use ∧ code[use]? = some instr ∧ instr.Reads temp := by
  obtain ⟨instr, hinstr, hread⟩ := h.read temp (h.number_lt_of_defines hdefines) hunread
  obtain ⟨use, huse⟩ := List.mem_iff_getElem?.mp hinstr
  obtain ⟨other, hlt, hother, _⟩ := h.atHand use instr temp huse hread
  obtain rfl := h.definition_unique hdefines hother
  exact ⟨use, instr, hlt, huse, hread⟩

end Code.InOrder

/-- In the code of a program, temporaries are single-assignment and every use of
one comes straight from its definition. -/
theorem Program.toCode_singleAssignment {program : Program} {code : Code}
    (h : program.toCode symbols = .ok code) : code.SingleAssignment := by
  obtain ⟨count, horder⟩ := Program.exists_inOrder h
  refine ⟨⟨count, horder.written⟩, ?_, ?_, ?_, horder.atHand, ?_⟩
  · intro instr hinstr temp htemp
    exact horder.operation hinstr htemp
  · intro instr hinstr name hname
    exact horder.assignment hinstr hname
  · intro definition temp hdefines
    exact horder.exists_use hdefines List.not_mem_nil
  · intro arithmetic store use last instr temp hrun hinstr hread
    exact (horder.atHand use instr temp hinstr hread).exists_straight hinstr hread hrun

/-- A `switch` that computes its selector and the value of a case, around a loop
that computes its condition. -/
def Program.computedSwitch : Program :=
  ⟨[.switch (.neg (.int 1))
    [⟨.arith .add (.int 1) (.int 2),
        [.whileLoop (.compare .lt (.neg (.int 3)) (.int 2)) .breakSwitch]⟩,
      ⟨.int 4, []⟩]]⟩

def Program.computedSwitchCode : Code :=
  [.binary (.temp ⟨0⟩) (.imm 0) .sub (.imm 1), .binary (.temp ⟨1⟩) (.imm 1) .add (.imm 2),
    .branch (.var (.temp ⟨0⟩)) .eq (.var (.temp ⟨1⟩)) ⟨1⟩ true,
    .branch (.var (.temp ⟨0⟩)) .eq (.imm 4) ⟨2⟩ true, .jump ⟨0⟩,
    .label ⟨1⟩, .label ⟨3⟩, .binary (.temp ⟨2⟩) (.imm 0) .sub (.imm 3),
    .branch (.var (.temp ⟨2⟩)) .lt (.imm 2) ⟨4⟩ false, .jump ⟨0⟩, .jump ⟨3⟩, .label ⟨4⟩,
    .label ⟨2⟩, .label ⟨0⟩]

theorem eq_ok_of_toOption {ε α : Type} {result : Except ε α} {value : α}
    (h : result.toOption = some value) : result = .ok value := by
  cases result with
  | error e => cases h
  | ok other => exact congrArg Except.ok (Option.some.inj h)

theorem Program.toCode_singleAssignment_computedSwitch :
    computedSwitch.toCode ∅ = .ok computedSwitchCode ∧ computedSwitchCode.SingleAssignment := by
  have hcode : computedSwitch.toCode ∅ = .ok computedSwitchCode := by
    apply eq_ok_of_toOption
    decide +kernel
  exact ⟨hcode, toCode_singleAssignment hcode⟩

end ThreeAddress
