import ThreeAddress.Proofs.AssemblyCorrect
import ThreeAddress.Proofs.LoadComparison

/-!
Other choices of the register to reuse. The assembler is run here with any strategy
in the place of its own, which may look at the program, at all that was done so far
and at the registers. With its own strategy this is the assembler itself. A run with
any strategy is seen as the sets of names that are held, and its loads are counted.
-/

namespace ThreeAddress.Machine

/-- All that is known when a register has to be reused: the program and the steps
that are done, the line and the operand of it that needs a register, the
instructions of the line so far, and the registers. -/
structure Moment where
  program : Program
  done : List Step
  line : Line
  live : LiveSpan
  next : NextSpan
  role : OperandRole
  emitted : List Instr
  file : RegisterFile

abbrev Strategy := Moment → Option Register

/-- A register that may be reused is in use, and does not hold the left operand while
the right operand of the same line gets its register. -/
def Moment.Allows (moment : Moment) (register : Register) : Prop :=
  ∃ name, moment.file.Holds register name ∧
    (moment.role = .right → moment.line.left ≠ .var name)

/-- The strategy always picks a register that may be reused, if there is one. -/
def Strategy.Lawful (strategy : Strategy) : Prop :=
  ∀ moment, (∃ register, moment.Allows register) →
    ∃ register, strategy moment = some register ∧ moment.Allows register

def NextSpan.forRole (next : NextSpan) : OperandRole → NextUse
  | .left | .right => next.before
  | .destination => next.after

/-- The assembler's own strategy. -/
def Strategy.farthest : Strategy :=
  fun moment => moment.file.victim? (moment.next.forRole moment.role)

/-- The first register that may be reused. -/
def Strategy.lowest : Strategy :=
  fun moment => (moment.file.residents.find? fun (_, name) =>
    moment.role ≠ .right || moment.line.left ≠ .var name).map Prod.fst

theorem Strategy.lowest_lawful : Strategy.lowest.Lawful := by
  rintro moment ⟨register, name, hname, hallowed⟩
  unfold Strategy.lowest
  cases hfind : moment.file.residents.find? fun (_, name) =>
      moment.role ≠ .right || moment.line.left ≠ .var name with
  | none =>
    have hnone := List.find?_eq_none.mp hfind _ (RegisterFile.mem_residents.mpr hname)
    simp only [Bool.or_eq_true, decide_eq_true_eq, not_or, not_not] at hnone
    exact absurd hnone.2 (hallowed hnone.1)
  | some pair =>
    refine ⟨pair.1, rfl, pair.2,
      RegisterFile.mem_residents.mp (List.mem_of_find?_eq_some hfind), ?_⟩
    have hfound := List.find?_some hfind
    simp only [Bool.or_eq_true, decide_eq_true_eq] at hfound
    exact fun hrole => hfound.resolve_left (not_not.mpr hrole)

namespace RegisterFile

/-- Finds a register for a name, with the register to reuse given. -/
def allocateReusing (file : RegisterFile) (name : String) (live : NameSet)
    (victim : Option Register) (load : Bool) : Except Error (Register × List Instr × RegisterFile) :=
  let fetch (register : Register) : List Instr := if load then [.load register name] else []
  match file.registerOf? name with
  | some register => .ok (register, [], file)
  | none =>
      if file.slots.length < file.capacity then
        let register : Register := ⟨file.slots.length⟩
        .ok (register, fetch register, { file with slots := file.slots ++ [name] })
      else
        match victim with
        | some register =>
            .ok (register, file.spill register live ++ fetch register, file.rebind register name)
        | none => .error .noRegisters

def allocateOperandReusing (file : RegisterFile) (operand : Operand) (live : NameSet)
    (victim : Option Register) (load : Bool) : Except Error (Source × List Instr × RegisterFile) :=
  match operand with
  | .imm value => .ok (.imm value, [], file)
  | .var name => do
      let (register, instrs, file) ← file.allocateReusing name live victim load
      return (.reg register, instrs, file)

end RegisterFile

/-- The instructions of one line, with a choice of the register to reuse for each of
its operands. -/
def Line.assembleWith (line : Line) (live : LiveSpan)
    (choose : OperandRole → List Instr → RegisterFile → Option Register) (file : RegisterFile) :
    Except Error (List Instr × RegisterFile) := do
  let (left, loadLeft, file) ←
    file.allocateOperandReusing line.left live.before (choose .left [] file) true
  let (right, loadRight, file) ←
    file.allocateOperandReusing line.right live.before (choose .right loadLeft file) true
  let (dst, spill, file) ←
    file.allocateReusing line.dst live.after (choose .destination (loadLeft ++ loadRight) file) false
  let compute :=
    if line.op = .add ∧ left = .imm 0 ∧ right = .reg dst then []
    else [.op line.op dst left right]
  return (loadLeft ++ loadRight ++ spill ++ compute, file.markDirty line.dst)

/-- Assembles lines one after the other, behind the steps that are done. -/
def assembleWithFrom (strategy : Strategy) (program : Program) (done : List Step)
    (file : RegisterFile) :
    List (Line × LiveSpan × NextSpan) → Except Error (List Step × RegisterFile)
  | [] => .ok ([], file)
  | (line, live, next) :: rest => do
      let (instrs, file) ← line.assembleWith live
        (fun role emitted file => strategy ⟨program, done, line, live, next, role, emitted, file⟩)
        file
      let step : Step := ⟨done.length, line, instrs, live, next⟩
      let (steps, file) ← assembleWithFrom strategy program (done ++ [step]) file rest
      return (step :: steps, file)

def Program.assembleWith (program : Program) (strategy : Strategy) (registers : Nat) :
    Except Error Assembly := do
  let file ← RegisterFile.new registers
  let (steps, file) ← assembleWithFrom strategy program [] file program.annotated
  return ⟨steps, file.flush program.outputs⟩

theorem assembleWithFrom_farthest (program : Program) (done : List Step) (file : RegisterFile)
    (lines : List (Line × LiveSpan × NextSpan)) :
    assembleWithFrom .farthest program done file lines = assembleFrom done.length file lines := by
  induction lines generalizing done file with
  | nil => rfl
  | cons head rest ih =>
    obtain ⟨line, live, next⟩ := head
    have hline : line.assembleWith live (fun role emitted file =>
        Strategy.farthest ⟨program, done, line, live, next, role, emitted, file⟩) file =
          line.assemble live next file := rfl
    simp only [assembleWithFrom, assembleFrom, hline, ih, List.length_append, List.length_singleton]

/-- With its own strategy the assembler does what it does. -/
theorem Program.assembleWith_farthest (program : Program) (registers : Nat) :
    program.assembleWith .farthest registers = program.assemble registers := by
  simp only [assembleWith, assemble, assembleWithFrom_farthest, List.length_nil]

namespace RegisterFile

/-- The names in registers. -/
def names (file : RegisterFile) : Finset String := file.slots.toFinset

variable {file : RegisterFile} {register : Register} {name old : String} {capacity : Nat}
  {mayGo : Finset String → String → Prop}

theorem mem_names : name ∈ file.names ↔ name ∈ file.slots := List.mem_toFinset

@[simp] theorem names_markDirty (file : RegisterFile) (name : String) :
    (file.markDirty name).names = file.names := by
  simp [names]

theorem WellFormed.card_names (hfile : file.WellFormed) : file.names.card = file.slots.length :=
  List.toFinset_card_of_nodup hfile.distinct

/-- The name that a reused register held is replaced by the new one. -/
theorem WellFormed.names_rebind (hfile : file.WellFormed) (hold : file.Holds register old) :
    (file.rebind register name).names = insert name (file.names.erase old) := by
  have hheld : (file.rebind register name).Holds register name := holds_rebind hold
  ext other
  simp only [mem_names, Finset.mem_insert, Finset.mem_erase, mem_slots_iff]
  constructor
  · rintro ⟨holder, hholder⟩
    by_cases hsame : register = holder
    · subst hsame
      exact .inl (hholder.name_unique hheld)
    · right
      have hkept := (holds_rebind_of_ne hsame).mp hholder
      refine ⟨?_, holder, hkept⟩
      rintro rfl
      exact hsame (hold.register_unique hkept hfile)
  · rintro (rfl | ⟨hne, holder, hholder⟩)
    · exact ⟨register, hheld⟩
    · refine ⟨holder, (holds_rebind_of_ne ?_).mpr hholder⟩
      rintro rfl
      exact hne (hholder.name_unique hold)

theorem spill_loads (file : RegisterFile) (register : Register) (live : NameSet) :
    (file.spill register live).countP Instr.isLoad = 0 := by
  unfold spill
  split
  · split <;> rfl
  · rfl

/-- A register was found for a name, and another name may have gone for it. -/
structure Takes (file : RegisterFile) (mayGo : Finset String → String → Prop) (name : String)
    (after : RegisterFile) : Prop where
  wellFormed : after.WellFormed
  capacity_eq : after.capacity = file.capacity
  names : BringsIn file.capacity mayGo file.names name after.names

/-- A register is found for a name if a full file has one to reuse. The name is
loaded if that is wanted and it was not held. -/
theorem exists_allocateReusing (hfile : file.WellFormed) (name : String) (live : NameSet)
    {victim : Option Register} (load : Bool)
    (hvictim : file.capacity ≤ file.slots.length → ∃ register old, victim = some register ∧
      file.Holds register old ∧ mayGo file.names old) :
    ∃ register instrs after, file.allocateReusing name live victim load =
        .ok (register, instrs, after) ∧
      instrs.countP Instr.isLoad = (if load ∧ name ∉ file.names then 1 else 0) ∧
      file.Takes mayGo name after := by
  have hfetch (register : Register) :
      (if load then [Instr.load register name] else []).countP Instr.isLoad =
        if load then 1 else 0 := by
    cases load <;> rfl
  by_cases hname : name ∈ file.slots
  · obtain ⟨register, hregister⟩ := mem_slots_iff.mp hname
    have hnames : name ∈ file.names := mem_names.mpr hname
    refine ⟨register, [], file, ?_, by simp [hnames], hfile, rfl, .held hnames⟩
    simp only [allocateReusing, registerOf?_eq_some hfile hregister]
  · have hnames : name ∉ file.names := mt mem_names.mp hname
    have hnone := registerOf?_eq_none hname
    by_cases hfree : file.slots.length < file.capacity
    · refine ⟨⟨file.slots.length⟩, if load then [.load ⟨file.slots.length⟩ name] else [],
        { file with slots := file.slots ++ [name] },
        by simp only [allocateReusing, hnone, hfree, if_true], ?_,
        hfile.append hname hfree, rfl, ?_⟩
      · rw [hfetch]
        simp [hnames]
      · have hinsert : names { file with slots := file.slots ++ [name] } =
            insert name file.names := by
          ext other
          simp [mem_names, or_comm]
        rw [hinsert]
        exact .free hnames (hfile.card_names ▸ hfree)
    · have hfull : file.capacity ≤ file.slots.length := Nat.not_lt.mp hfree
      obtain ⟨register, old, rfl, hold, hgo⟩ := hvictim hfull
      refine ⟨register, file.spill register live ++ if load then [.load register name] else [],
        file.rebind register name, by simp only [allocateReusing, hnone, hfree, if_false], ?_,
        hfile.rebind hname hold, rfl, ?_⟩
      · rw [List.countP_append, spill_loads, hfetch]
        simp [hnames]
      · rw [hfile.names_rebind hold]
        have hcard : file.names.card = file.capacity :=
          hfile.card_names.trans (Nat.le_antisymm hfile.bounded hfull)
        exact .swap hnames hcard (mem_names.mpr (mem_slots_iff.mpr ⟨register, hold⟩)) hgo

/-- A register is found for an operand. A constant needs none. -/
theorem exists_allocateOperandReusing (hfile : file.WellFormed) (operand : Operand)
    (live : NameSet) {victim : Option Register}
    (hvictim : file.capacity ≤ file.slots.length → ∃ register old, victim = some register ∧
      file.Holds register old ∧ mayGo file.names old) :
    ∃ source instrs after, file.allocateOperandReusing operand live victim true =
        .ok (source, instrs, after) ∧ after.WellFormed ∧ after.capacity = file.capacity ∧
      BringsAll file.capacity mayGo file.names operand.var?.toList (instrs.countP Instr.isLoad)
        after.names := by
  cases operand with
  | imm value => exact ⟨_, _, _, rfl, hfile, rfl, .nil file.names⟩
  | var name =>
    obtain ⟨register, instrs, after, hallocate, hloads, htakes⟩ :=
      exists_allocateReusing hfile name live true hvictim
    refine ⟨.reg register, instrs, after, ?_, htakes.wellFormed, htakes.capacity_eq, ?_⟩
    · simp only [allocateOperandReusing, hallocate]
      rfl
    · have hload : instrs.countP Instr.isLoad = (if name ∈ file.names then 0 else 1) + 0 := by
        simp [hloads]
      rw [hload]
      exact .cons htakes.names (.nil after.names)

theorem flush_loads (file : RegisterFile) (outputs : NameSet) :
    (file.flush outputs).countP Instr.isLoad = 0 := by
  rw [List.countP_eq_zero]
  intro instr hinstr
  obtain ⟨⟨register, name⟩, _, hstore⟩ := List.mem_filterMap.mp hinstr
  obtain ⟨-, hinstr⟩ := Option.ite_none_right_eq_some.mp hstore
  cases hinstr
  simp [Instr.isLoad]

end RegisterFile

/-- Whenever all registers are in use, the choice gives up a name that may go. -/
def GivesUp (capacity : Nat) (choose : OperandRole → List Instr → RegisterFile → Option Register)
    (mayGo : OperandRole → Finset String → String → Prop) : Prop :=
  ∀ role emitted file, file.WellFormed → file.capacity = capacity →
    capacity ≤ file.slots.length → ∃ register old, choose role emitted file = some register ∧
      file.Holds register old ∧ mayGo role file.names old

theorem Line.exists_assembleWith {file : RegisterFile} (line : Line) (live : LiveSpan)
    {choose : OperandRole → List Instr → RegisterFile → Option Register}
    {mayGo : OperandRole → Finset String → String → Prop} (hfile : file.WellFormed)
    (hchoose : GivesUp file.capacity choose mayGo) :
    ∃ instrs after left right first second,
      line.assembleWith live choose file = .ok (instrs, after) ∧ after.WellFormed ∧
      after.capacity = file.capacity ∧ instrs.countP Instr.isLoad = left + right ∧
      BringsAll file.capacity (mayGo .left) file.names line.left.var?.toList left first ∧
      BringsAll file.capacity (mayGo .right) first line.right.var?.toList right second ∧
      BringsIn file.capacity (mayGo .destination) second line.dst after.names := by
  obtain ⟨left, loadLeft, first, hleft, hfirst, hfirstCapacity, hleftNames⟩ :=
    RegisterFile.exists_allocateOperandReusing hfile line.left live.before
      (hchoose .left [] file hfile rfl)
  obtain ⟨right, loadRight, second, hright, hsecond, hsecondCapacity, hrightNames⟩ :=
    RegisterFile.exists_allocateOperandReusing hfirst line.right live.before
      (hfirstCapacity ▸ hchoose .right loadLeft first hfirst hfirstCapacity)
  have hcapacity := hsecondCapacity.trans hfirstCapacity
  obtain ⟨dst, spill, third, hdst, hspill, htakes⟩ :=
    RegisterFile.exists_allocateReusing hsecond line.dst live.after false
      (hcapacity ▸ hchoose .destination (loadLeft ++ loadRight) second hsecond hcapacity)
  rw [hfirstCapacity] at hrightNames
  have hdstNames := htakes.names
  rw [hcapacity] at hdstNames
  refine ⟨loadLeft ++ loadRight ++ spill ++ line.op.compute dst left right,
    third.markDirty line.dst, _, _, first.names, second.names, ?_,
    htakes.wellFormed.markDirty line.dst, ?_, ?_, hleftNames, hrightNames, ?_⟩
  · simp only [assembleWith, hleft, ok_bind, hright, hdst]
    rfl
  · rw [RegisterFile.markDirty_capacity, htakes.capacity_eq, hcapacity]
  · have hcompute : (line.op.compute dst left right).countP Instr.isLoad = 0 := by
      unfold Op.compute
      split <;> rfl
    simp only [List.countP_append, hspill, hcompute]
    simp
  · rwa [RegisterFile.names_markDirty]

end ThreeAddress.Machine
