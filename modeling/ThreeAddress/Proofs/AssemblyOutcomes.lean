import Mathlib.Data.Nat.Find
import ThreeAddress.Proofs.CommandRuns

/-!
How assembling ends. Code may be faulty in more than one way and place, and one fault
decides the outcome: the first jump or label comes before everything else, then the
first instruction with a variable that has no name, then the lack of registers. Code
without a fault is assembled, one step for each instruction. Compiling a program ends
in the same way when its code is straight, and without assembly when it is not.
-/

namespace ThreeAddress

/-- The first instruction with a property, and its index. -/
structure Code.FirstWith (code : Code) (property : Instr → Prop) (index : Nat) (instr : Instr) :
    Prop where
  get : code[index]? = some instr
  has : property instr
  first : ∀ earlier < index, ∀ other, code[earlier]? = some other → ¬ property other

def Value.var? : Value → Option Var
  | .imm _ => none
  | .var v => some v

namespace Instr

/-- The variables of an instruction, each with the part it plays, in the order in which they
are checked. The source of an assignment counts as its right operand. -/
def roles : Instr → List (OperandRole × Var)
  | .assign dst source => (.destination, dst) :: source.var?.toList.map (.right, ·)
  | .binary dst left _ right =>
      (.destination, dst) :: (left.var?.toList.map (.left, ·) ++ right.var?.toList.map (.right, ·))
  | .branch left _ right _ _ =>
      left.var?.toList.map (.left, ·) ++ right.var?.toList.map (.right, ·)
  | .jump _ | .label _ => []

/-- The part of the first variable whose name is empty. -/
def nameless? (instr : Instr) : Option OperandRole :=
  (instr.roles.find? (·.2 = .named "")).map Prod.fst

end Instr

/-- Every variable of the code has a name. -/
def Code.IsNamed (code : Code) : Prop :=
  ∀ instr ∈ code, instr.nameless? = none

instance (code : Code) : Decidable code.IsNamed :=
  inferInstanceAs (Decidable (∀ instr ∈ code, instr.nameless? = none))

/-- The error for the first empty name in code whose instructions are numbered from `first`. -/
def Code.namelessError? (code : Code) (first : Nat) : Option Error :=
  (code.zipIdx first).findSome? fun entry => entry.1.nameless?.map (Error.missingOperand entry.2)

theorem Temp.text_ne_empty (temp : Temp) : temp.text ≠ "" := by
  simp [Temp.text]

/-- Only a named variable can have an empty name. -/
theorem Var.text_eq_empty {var : Var} : var.text = "" ↔ var = .named "" := by
  cases var with
  | named name => simp [Var.text]
  | temp temp => simp [Var.text, temp.text_ne_empty]

namespace Machine

/-- The search for an empty name in one operand. -/
theorem find?_role (role : OperandRole) (value : Value) :
    (value.var?.toList.map (role, ·)).find? (·.2 = .named "") =
      if (Operand.ofValue value).isMissing then some (role, .named "") else none := by
  cases value with
  | imm constant => rfl
  | var var =>
    by_cases hvar : var = .named ""
    · subst hvar
      rfl
    · have htext : var.text ≠ "" := fun h => hvar (Var.text_eq_empty.mp h)
      simp [Value.var?, hvar, Operand.ofValue, Operand.isMissing, htext]

/-- A line lacks what its instruction has no name for. -/
theorem Line.missing?_ofInstr? {instr : ThreeAddress.Instr} {line : Line}
    (h : Line.ofInstr? instr = some line) : line.missing? = instr.nameless? := by
  cases instr with
  | assign dst source =>
    cases h
    have hzero : (Operand.imm 0).isMissing = false := rfl
    rw [ThreeAddress.Instr.nameless?, ThreeAddress.Instr.roles, List.find?_cons, find?_role]
    simp only [missing?, copy, new, hzero, String.isEmpty_iff, Var.text_eq_empty]
    by_cases hdst : dst = .named ""
    · simp [hdst]
    · by_cases hsource : (Operand.ofValue source).isMissing <;> simp [hdst, hsource]
  | binary dst left op right =>
    cases h
    rw [ThreeAddress.Instr.nameless?, ThreeAddress.Instr.roles, List.find?_cons, List.find?_append,
      find?_role, find?_role]
    simp only [missing?, new, String.isEmpty_iff, Var.text_eq_empty]
    by_cases hdst : dst = .named ""
    · simp [hdst]
    · by_cases hleft : (Operand.ofValue left).isMissing <;>
        by_cases hright : (Operand.ofValue right).isMissing <;> simp [hdst, hleft, hright]
  | branch | jump | label => cases h

/-- The lines of straight code lack a name where the code does. -/
theorem findSome?_missing {code : Code} (hstraight : code.isStraightLine) (first : Nat) :
    ((code.filterMap Line.ofInstr?).zipIdx first).findSome? (fun entry =>
        entry.1.missing?.map (Error.missingOperand entry.2)) = code.namelessError? first := by
  unfold Code.namelessError?
  rw [Code.isStraightLine_iff] at hstraight
  induction code generalizing first with
  | nil => rfl
  | cons instr rest ih =>
    obtain ⟨hinstr, hrest⟩ := List.forall_mem_cons.mp hstraight
    obtain ⟨line, hline⟩ := instr.exists_line hinstr
    simp only [List.filterMap_cons_some hline, List.zipIdx_cons, List.findSome?_cons,
      Line.missing?_ofInstr? hline, ih hrest]

theorem Program.ofLines_eq (lines : List Line) (outputs : NameSet) :
    ofLines lines outputs =
      (lines.zipIdx.findSome? fun entry =>
        entry.1.missing?.map (Error.missingOperand entry.2)).elim
          (.ok ⟨lines, outputs⟩) .error := by
  unfold ofLines
  split
  next error hfound => exact (congrArg (Option.elim · _ _) hfound).symm
  next hnone => exact (congrArg (Option.elim · _ _) hnone).symm

end Machine

namespace Code

variable {code : Code} {property : Instr → Prop} {index : Nat} {instr : Instr} {options : Options}

/-- What occurs in code occurs somewhere first. -/
theorem exists_firstWith (h : ∃ instr ∈ code, property instr) :
    ∃ index instr, code.FirstWith property index instr := by
  classical
  obtain ⟨instr, hmem, hinstr⟩ := h
  obtain ⟨index, hindex⟩ := List.mem_iff_getElem?.mp hmem
  have hsome : ∃ index instr, code[index]? = some instr ∧ property instr :=
    ⟨index, instr, hindex, hinstr⟩
  obtain ⟨found, hget, hfound⟩ := Nat.find_spec hsome
  refine ⟨Nat.find hsome, found, hget, hfound, ?_⟩
  intro earlier hearlier other hother hproperty
  exact Nat.find_min hsome hearlier ⟨other, hother, hproperty⟩

theorem FirstWith.exists_append (h : code.FirstWith property index instr) :
    ∃ before after, code = before ++ instr :: after ∧ before.length = index ∧
      ∀ other ∈ before, ¬ property other := by
  obtain ⟨hlt, hget⟩ := List.getElem?_eq_some_iff.mp h.get
  refine ⟨code.take index, code.drop (index + 1), ?_, by simp [Nat.le_of_lt hlt], ?_⟩
  · rw [← hget, ← List.drop_eq_getElem_cons hlt, List.take_append_drop]
  · intro other hother
    obtain ⟨earlier, hlower, rfl⟩ := List.mem_take_iff_getElem.mp hother
    exact h.first earlier (by omega) _ (List.getElem?_eq_getElem (by omega))

theorem find?_zipIdx_of_isStraightLine (hstraight : code.isStraightLine) :
    code.zipIdx.find? (·.1.isControlFlow) = none := by
  rw [List.find?_eq_none]
  intro entry hentry
  simp [isStraightLine_iff.mp hstraight entry.1 (List.fst_mem_of_mem_zipIdx hentry)]

theorem FirstWith.find?_zipIdx (h : code.FirstWith (·.isControlFlow) index instr) :
    code.zipIdx.find? (·.1.isControlFlow) = some (instr, index) := by
  obtain ⟨before, after, rfl, rfl, hbefore⟩ := h.exists_append
  have hstraight : isStraightLine before := by simpa [isStraightLine_iff] using hbefore
  rw [List.zipIdx_append, List.find?_append, find?_zipIdx_of_isStraightLine hstraight,
    List.zipIdx_cons, Option.none_or]
  simp [h.has]

theorem IsNamed.namelessError? (hnamed : code.IsNamed) : code.namelessError? 0 = none := by
  rw [Code.namelessError?, List.findSome?_eq_none_iff]
  intro entry hentry
  rw [hnamed entry.1 (List.fst_mem_of_mem_zipIdx hentry), Option.map_none]

theorem FirstWith.namelessError? {role : OperandRole}
    (h : code.FirstWith (·.nameless? ≠ none) index instr) (hrole : instr.nameless? = some role) :
    code.namelessError? 0 = some (.missingOperand index role) := by
  obtain ⟨before, after, rfl, rfl, hbefore⟩ := h.exists_append
  have hnamed : IsNamed before := by simpa [IsNamed] using hbefore
  have hbeforeError := hnamed.namelessError?
  rw [Code.namelessError?] at hbeforeError ⊢
  rw [List.zipIdx_append, List.findSome?_append, hbeforeError, List.zipIdx_cons, Option.none_or]
  simp [hrole]

/-- The first jump or label is reported, whatever else is wrong. -/
theorem assemble_of_not_isStraightLine (hstraight : ¬ code.isStraightLine) :
    ∃ index instr, code.FirstWith (·.isControlFlow) index instr ∧
      code.assemble options = .error (.notStraightLine index instr) := by
  rw [isStraightLine_iff] at hstraight
  have hsome : ∃ instr ∈ code, instr.isControlFlow := by simpa using hstraight
  obtain ⟨index, instr, hfirst⟩ := exists_firstWith hsome
  refine ⟨index, instr, hfirst, ?_⟩
  rw [Code.assemble, Machine.Program.ofCode, hfirst.find?_zipIdx]
  rfl

/-- Straight code becomes lines unless one of its names is empty. -/
theorem ofCode_of_isStraightLine (hstraight : code.isStraightLine) (outputs : NameSet) :
    Machine.Program.ofCode code outputs =
      (code.namelessError? 0).elim
        (.ok ⟨code.filterMap Machine.Line.ofInstr?, outputs⟩) .error := by
  rw [Machine.Program.ofCode, find?_zipIdx_of_isStraightLine hstraight,
    ← Machine.findSome?_missing hstraight]
  exact Machine.Program.ofLines_eq _ outputs

/-- In straight code the first empty name is reported, however many registers there are. -/
theorem assemble_of_not_isNamed (hstraight : code.isStraightLine) (hnamed : ¬ code.IsNamed) :
    ∃ index instr role, code.FirstWith (·.nameless? ≠ none) index instr ∧
      instr.nameless? = some role ∧
        code.assemble options = .error (.missingOperand index role) := by
  have hsome : ∃ instr ∈ code, instr.nameless? ≠ none := by simpa [IsNamed] using hnamed
  obtain ⟨index, instr, hfirst⟩ := exists_firstWith hsome
  obtain ⟨role, hrole⟩ := Option.ne_none_iff_exists'.mp hfirst.has
  refine ⟨index, instr, role, hfirst, hrole, ?_⟩
  rw [Code.assemble, ofCode_of_isStraightLine hstraight, hfirst.namelessError? hrole]
  rfl

/-- Nothing but the number of registers is left to decide for straight code with names. -/
theorem assemble_of_isNamed (hstraight : code.isStraightLine) (hnamed : code.IsNamed) :
    code.assemble options =
      Machine.Program.assemble ⟨code.filterMap Machine.Line.ofInstr?, options.outputs⟩
        options.registers := by
  rw [Code.assemble, ofCode_of_isStraightLine hstraight, hnamed.namelessError?]
  rfl

end Code

/-- The steps of an assembled program are its lines in order, numbered from the first. -/
theorem Machine.AssemblesFrom.lines_eq {outputs : NameSet} {index : Nat}
    {file after : Machine.RegisterFile} {lines : List Machine.Line} {steps : List Machine.Step}
    (h : Machine.AssemblesFrom outputs index file lines steps after) :
    steps.map (fun step => (step.line, step.index)) = lines.zipIdx index := by
  induction h with
  | nil => rfl
  | cons _ _ ih => rw [List.map_cons, List.zipIdx_cons, ih]

theorem Code.map_ofInstr? {code : Code} (hstraight : code.isStraightLine) :
    code.map Machine.Line.ofInstr? = (code.filterMap Machine.Line.ofInstr?).map some := by
  rw [isStraightLine_iff] at hstraight
  induction code with
  | nil => rfl
  | cons instr rest ih =>
    obtain ⟨hinstr, hrest⟩ := List.forall_mem_cons.mp hstraight
    obtain ⟨line, hline⟩ := instr.exists_line hinstr
    rw [List.map_cons, ih hrest, List.filterMap_cons_some hline, List.map_cons, hline]

/-- Straight code with names is assembled as soon as there is a register, into one step for
each instruction. -/
theorem Code.exists_assembly {code : Code} {options : Options} (hstraight : code.isStraightLine)
    (hnamed : code.IsNamed) (hregisters : options.registers ≠ 0) :
    ∃ assembly, code.assemble options = .ok assembly ∧
      assembly.steps.map (fun step => (some step.line, step.index)) =
        (code.map Machine.Line.ofInstr?).zipIdx := by
  obtain ⟨steps, file, hassemble, hsteps⟩ := Machine.Program.exists_assembles
    ⟨code.filterMap Machine.Line.ofInstr?, options.outputs⟩ (Nat.pos_of_ne_zero hregisters)
  refine ⟨_, (assemble_of_isNamed hstraight hnamed).trans hassemble, ?_⟩
  rw [map_ofInstr? hstraight, List.zipIdx_map, ← hsteps.lines_eq, List.map_map]
  rfl

theorem Code.assemble_eq_noRegisters {code : Code} {options : Options}
    (hstraight : code.isStraightLine) (hnamed : code.IsNamed) (hregisters : options.registers = 0) :
    code.assemble options = .error .noRegisters := by
  rw [assemble_of_isNamed hstraight hnamed, hregisters]
  rfl

/-- Straight code fails exactly if a name is empty or there are no registers. -/
theorem Code.assemble_fails_iff {code : Code} {options : Options}
    (hstraight : code.isStraightLine) :
    (∃ error, code.assemble options = .error error) ↔
      ¬ code.IsNamed ∨ options.registers = 0 := by
  constructor
  · rintro ⟨error, herror⟩
    by_contra hgood
    obtain ⟨hnamed, hregisters⟩ := not_or.mp hgood
    obtain ⟨assembly, hassembly, _⟩ := exists_assembly hstraight (not_not.mp hnamed) hregisters
    rw [hassembly] at herror
    cases herror
  · intro hfault
    by_cases hnamed : code.IsNamed
    · have hregisters := hfault.resolve_left (not_not.mpr hnamed)
      exact ⟨_, assemble_eq_noRegisters hstraight hnamed hregisters⟩
    · obtain ⟨_, _, _, _, _, herror⟩ := assemble_of_not_isNamed hstraight hnamed
      exact ⟨_, herror⟩

namespace Program

variable {program : Program} {symbols : Symbols} {options : Options} {code : Code}

theorem compile_of_isStraightLine (hcode : program.toCode symbols = .ok code)
    (hstraight : code.isStraightLine) :
    program.compile symbols options =
      (code.assemble options).map fun assembly => ⟨code, some assembly⟩ := by
  rw [compile, hcode]
  change (if code.isStraightLine then _ else _) = _
  rw [if_pos hstraight]
  cases code.assemble options <;> rfl

/-- Code that is not straight is all that compiling gives. -/
theorem compile_of_not_isStraightLine (hcode : program.toCode symbols = .ok code)
    (hstraight : ¬ code.isStraightLine) :
    program.compile symbols options = .ok ⟨code, none⟩ := by
  rw [compile, hcode]
  change (if code.isStraightLine then _ else _) = _
  rw [if_neg hstraight]
  rfl

/-- Compiling fails where lowering does, or where straight code cannot be assembled. -/
theorem compile_fails_iff :
    (∃ error, program.compile symbols options = .error error) ↔
      (∃ error, program.toCode symbols = .error error) ∨
        ∃ code, program.toCode symbols = .ok code ∧ code.isStraightLine ∧
          (¬ code.IsNamed ∨ options.registers = 0) := by
  cases hcode : program.toCode symbols with
  | error e =>
    have hcompile : program.compile symbols options = .error e := by
      rw [compile, hcode]
      rfl
    simp [hcompile]
  | ok code =>
    by_cases hstraight : code.isStraightLine
    · have hfails : (∃ error, program.compile symbols options = .error error) ↔
          ∃ error, code.assemble options = .error error := by
        rw [compile_of_isStraightLine hcode hstraight]
        cases code.assemble options <;> simp [Except.map]
      rw [hfails, Code.assemble_fails_iff hstraight]
      simp [hstraight]
    · simp [compile_of_not_isStraightLine hcode hstraight, hstraight]

/-- Of what compiles, exactly straight code comes with assembly, and this is its own. -/
theorem assembly_of_compile_eq_ok {compiled : Compiled}
    (h : program.compile symbols options = .ok compiled) :
    (compiled.assembly.isSome ↔ compiled.code.isStraightLine) ∧
      ∀ assembly, compiled.assembly = some assembly →
        compiled.code.assemble options = .ok assembly := by
  have hcode := toCode_of_compile h
  obtain ⟨code, assembly?⟩ := compiled
  by_cases hstraight : code.isStraightLine
  · rw [compile_of_isStraightLine hcode hstraight] at h
    cases hassembly : code.assemble options with
    | error e =>
      rw [hassembly] at h
      cases h
    | ok assembly =>
      rw [hassembly] at h
      cases h
      simp [hstraight]
  · rw [compile_of_not_isStraightLine hcode hstraight] at h
    cases h
    simp [hstraight]

end Program

/-- The outcome of assembling is decided in a fixed order. The first jump or label is
reported, with its index and its text, before anything else is looked at. Straight code is
searched for the first empty name, and only then it matters whether there are registers.
All other code is assembled, into one step for each instruction, in their order. So
compiling fails exactly if lowering does or straight code has such a fault, and when it
does not fail it gives assembly exactly for straight code. -/
theorem Code.assemble_outcome (code : Code) (options : Options) :
    (¬ code.isStraightLine → ∃ index instr, code.FirstWith (·.isControlFlow) index instr ∧
      code.assemble options = .error (.notStraightLine index instr) ∧
        (Error.notStraightLine index instr).message = "instruction " ++ index.repr ++ " ('" ++
          instr.text ++ "') is not straight-line code") ∧
    (code.isStraightLine →
      (¬ code.IsNamed → ∃ index instr role, code.FirstWith (·.nameless? ≠ none) index instr ∧
        instr.nameless? = some role ∧
          code.assemble options = .error (.missingOperand index role)) ∧
      (code.IsNamed → options.registers = 0 → code.assemble options = .error .noRegisters) ∧
      (code.IsNamed → options.registers ≠ 0 → ∃ assembly, code.assemble options = .ok assembly ∧
        assembly.steps.map (fun step => (some step.line, step.index)) =
          (code.map Machine.Line.ofInstr?).zipIdx)) ∧
    ∀ (program : Program) (symbols : Symbols),
      ((∃ error, program.compile symbols options = .error error) ↔
        (∃ error, program.toCode symbols = .error error) ∨
          ∃ code, program.toCode symbols = .ok code ∧ code.isStraightLine ∧
            (¬ code.IsNamed ∨ options.registers = 0)) ∧
      ∀ compiled, program.compile symbols options = .ok compiled →
        program.toCode symbols = .ok compiled.code ∧
        (compiled.assembly.isSome ↔ compiled.code.isStraightLine) ∧
        ∀ assembly, compiled.assembly = some assembly →
          compiled.code.assemble options = .ok assembly := by
  refine ⟨?_, ?_, ?_⟩
  · intro hstraight
    obtain ⟨index, instr, hfirst, herror⟩ := assemble_of_not_isStraightLine hstraight
    exact ⟨index, instr, hfirst, herror, rfl⟩
  · intro hstraight
    exact ⟨assemble_of_not_isNamed hstraight, assemble_eq_noRegisters hstraight,
      exists_assembly hstraight⟩
  · intro program symbols
    refine ⟨Program.compile_fails_iff, ?_⟩
    intro compiled hcompiled
    exact ⟨Program.toCode_of_compile hcompiled, Program.assembly_of_compile_eq_ok hcompiled⟩

-- The label is reported before the empty name in front of it.
example : Code.assemble [.assign (.named "") (.imm 1), .label ⟨0⟩] ⟨0, ∅⟩ =
    .error (.notStraightLine 1 (.label ⟨0⟩)) := rfl

end ThreeAddress
