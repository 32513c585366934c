import ThreeAddress.Proofs.AllocationCorrect

/-!
Assembly as rules. Each rule names the register files between the parts of a line,
so a property of all assembled code is proved by one induction over the rules and
never opens the assembler. Assembling always succeeds, and in a way that the rules
describe.
-/

namespace ThreeAddress.Machine

theorem ok_bind {ε α β : Type} (value : α) (step : α → Except ε β) :
    (Except.ok value >>= step) = step value := rfl

/-- The operation of a line, which is left out when it adds zero to its own
destination. -/
def Op.compute (op : Op) (dst : Register) (left right : Source) : List Instr :=
  if op = .add ∧ left = .imm 0 ∧ right = .reg dst then [] else [.op op dst left right]

/-- A constant takes no register, and a variable is loaded unless it is held. -/
inductive RegisterFile.AllocatesOperand (file : RegisterFile) (live : NameSet) (next : NextUse) :
    Operand → Source → List Instr → RegisterFile → Prop
  | imm (value : Int64) : AllocatesOperand file live next (.imm value) (.imm value) [] file
  | var {name : String} {register : Register} {stores : List Instr} {after : RegisterFile}
      (h : file.Allocates name live next register stores after) :
      AllocatesOperand file live next (.var name) (.reg register)
        (stores ++ if name ∈ file.slots then [] else [.load register name]) after

/-- A line gets registers for its operands and then for its destination, which is
marked as newer than memory. -/
inductive Line.Assembles (line : Line) (live : LiveSpan) (next : NextSpan) (file : RegisterFile) :
    List Instr → RegisterFile → Prop
  | intro {left right : Source} {loadLeft loadRight stores : List Instr} {dst : Register}
      {first second third : RegisterFile}
      (hleft : file.AllocatesOperand live.before next.before line.left left loadLeft first)
      (hright : first.AllocatesOperand live.before next.before line.right right loadRight second)
      (hdst : second.Allocates line.dst live.after next.after dst stores third) :
      Assembles line live next file
        (loadLeft ++ loadRight ++ stores ++ line.op.compute dst left right)
        (third.markDirty line.dst)

/-- Lines are assembled one after the other, the first having the given index. -/
inductive AssemblesFrom (outputs : NameSet) :
    Nat → RegisterFile → List Line → List Step → RegisterFile → Prop
  | nil (index : Nat) (file : RegisterFile) : AssemblesFrom outputs index file [] [] file
  | cons {index : Nat} {file between after : RegisterFile} {line : Line} {rest : List Line}
      {instrs : List Instr} {steps : List Step}
      (hline : line.Assembles ⟨liveAt outputs (line :: rest), liveAt outputs rest⟩
        ⟨nextAt index (line :: rest), nextAt (index + 1) rest⟩ file instrs between)
      (hrest : AssemblesFrom outputs (index + 1) between rest steps after) :
      AssemblesFrom outputs index file (line :: rest)
        (⟨index, line, instrs, ⟨liveAt outputs (line :: rest), liveAt outputs rest⟩,
          ⟨nextAt index (line :: rest), nextAt (index + 1) rest⟩⟩ :: steps) after

variable {file after : RegisterFile} {line : Line} {live : LiveSpan} {next : NextSpan}
  {instrs : List Instr}

namespace RegisterFile.AllocatesOperand

variable {names : NameSet} {uses : NextUse} {operand : Operand} {source : Source}

theorem wellFormed (h : file.AllocatesOperand names uses operand source instrs after)
    (hfile : file.WellFormed) : after.WellFormed := by
  cases h with
  | imm value => exact hfile
  | var h => exact h.wellFormed hfile

theorem capacity_eq (h : file.AllocatesOperand names uses operand source instrs after) :
    after.capacity = file.capacity := by
  cases h with
  | imm value => rfl
  | var h => exact h.capacity_eq

theorem supplies (h : file.AllocatesOperand names uses operand source instrs after) :
    after.Supplies operand source := by
  cases h with
  | imm value => rfl
  | var h => exact h.holds_name

/-- A name keeps its register, unless it is the one to reuse. -/
theorem holds_other {register : Register} {name : String}
    (h : file.AllocatesOperand names uses operand source instrs after)
    (hname : file.Holds register name) :
    after.Holds register name ∨ ∃ wanted, operand = .var wanted ∧ wanted ∉ file.slots ∧
      file.capacity ≤ file.slots.length ∧ file.victim? uses = some register := by
  cases h with
  | imm value => exact .inl hname
  | @var wanted _ _ _ h =>
    rcases h.holds_other hname with hkept | ⟨hfull, hwanted, hvictim⟩
    · exact .inl hkept
    · exact .inr ⟨wanted, rfl, hwanted, hfull, hvictim⟩

end RegisterFile.AllocatesOperand

theorem RegisterFile.exists_allocatesOperand (hfile : file.WellFormed) (operand : Operand)
    (names : NameSet) (uses : NextUse) :
    ∃ source instrs after,
      file.allocateOperand operand names uses true = .ok (source, instrs, after) ∧
      file.AllocatesOperand names uses operand source instrs after := by
  cases operand with
  | imm value => exact ⟨_, _, _, rfl, .imm value⟩
  | var name =>
    obtain ⟨register, stores, after, h, hallocate⟩ := exists_allocates hfile name names uses
    refine ⟨.reg register, _, after, ?_, .var h⟩
    simp only [allocateOperand, hallocate, ok_bind, true_and, ite_not]
    rfl

namespace Line.Assembles

theorem wellFormed (h : line.Assembles live next file instrs after) (hfile : file.WellFormed) :
    after.WellFormed := by
  cases h with
  | intro hleft hright hdst =>
    exact (hdst.wellFormed (hright.wellFormed (hleft.wellFormed hfile))).markDirty line.dst

theorem capacity_eq (h : line.Assembles live next file instrs after) :
    after.capacity = file.capacity := by
  cases h with
  | intro hleft hright hdst =>
    rw [RegisterFile.markDirty_capacity, hdst.capacity_eq, hright.capacity_eq, hleft.capacity_eq]

end Line.Assembles

theorem Line.exists_assembles (line : Line) (live : LiveSpan) (next : NextSpan)
    (hfile : file.WellFormed) :
    ∃ instrs after, line.assemble live next file = .ok (instrs, after) ∧
      line.Assembles live next file instrs after := by
  obtain ⟨left, loadLeft, first, hleft, hfirst⟩ :=
    RegisterFile.exists_allocatesOperand hfile line.left live.before next.before
  obtain ⟨right, loadRight, second, hright, hsecond⟩ :=
    RegisterFile.exists_allocatesOperand (hfirst.wellFormed hfile) line.right live.before next.before
  obtain ⟨dst, stores, third, hthird, hdst⟩ :=
    RegisterFile.exists_allocates (hsecond.wellFormed (hfirst.wellFormed hfile)) line.dst live.after
      next.after
  refine ⟨_, _, ?_, .intro hfirst hsecond hthird⟩
  simp only [Line.assemble, hleft, ok_bind, hright, hdst, Bool.false_eq_true, false_and, if_false,
    List.append_nil]
  rfl

/-- Lines are assembled from the first on. -/
theorem assembleFrom_cons {outputs : NameSet} {rest : List Line} {index : Nat}
    {steps : List Step} {between : RegisterFile}
    (hline : line.assemble ⟨liveAt outputs (line :: rest), liveAt outputs rest⟩
      ⟨nextAt index (line :: rest), nextAt (index + 1) rest⟩ file = .ok (instrs, between))
    (hrest : assembleFrom (index + 1) between
      (rest.zip ((liveness outputs rest).zip (nextUsesFrom (index + 1) rest))) =
        .ok (steps, after)) :
    assembleFrom index file ((line :: rest).zip
        ((liveness outputs (line :: rest)).zip (nextUsesFrom index (line :: rest)))) =
      .ok (⟨index, line, instrs, ⟨liveAt outputs (line :: rest), liveAt outputs rest⟩,
        ⟨nextAt index (line :: rest), nextAt (index + 1) rest⟩⟩ :: steps, after) := by
  rw [liveness_cons, nextUsesFrom_cons]
  simp only [List.zip_cons_cons, assembleFrom, hline, ok_bind, hrest]
  rfl

theorem exists_assemblesFrom (lines : List Line) (hfile : file.WellFormed) (outputs : NameSet)
    (index : Nat) :
    ∃ steps after, assembleFrom index file
        (lines.zip ((liveness outputs lines).zip (nextUsesFrom index lines))) = .ok (steps, after) ∧
      AssemblesFrom outputs index file lines steps after := by
  induction lines generalizing file index with
  | nil => exact ⟨[], file, rfl, .nil index file⟩
  | cons line rest ih =>
    obtain ⟨instrs, between, hassemble, hline⟩ := line.exists_assembles
      ⟨liveAt outputs (line :: rest), liveAt outputs rest⟩
      ⟨nextAt index (line :: rest), nextAt (index + 1) rest⟩ hfile
    obtain ⟨steps, after, hsteps, hrest⟩ := ih (hline.wellFormed hfile) (index + 1)
    exact ⟨_, after, assembleFrom_cons hassemble hsteps, .cons hline hrest⟩

/-- A program is assembled with any number of registers but none. -/
theorem Program.exists_assembles (program : Program) {registers : Nat}
    (hregisters : 0 < registers) :
    ∃ steps file, program.assemble registers = .ok ⟨steps, file.flush program.outputs⟩ ∧
      AssemblesFrom program.outputs 0 ⟨registers, [], ∅⟩ program.lines steps file := by
  obtain ⟨steps, file, hsteps, h⟩ := exists_assemblesFrom program.lines
    (RegisterFile.wellFormed_new hregisters) program.outputs 0
  refine ⟨steps, file, ?_, h⟩
  simp only [assemble, RegisterFile.new_of_pos hregisters, ok_bind, annotated, nextUses, hsteps]
  rfl

end ThreeAddress.Machine
