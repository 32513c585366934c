import ThreeAddress.Compile
import ThreeAddress.Proofs.AssemblyCorrect
import ThreeAddress.Proofs.LoweringCorrect
import ThreeAddress.Proofs.StraightLine

/-!
Compilation preserves meaning. A program that comes out as assembly has
straight-line code, which is the same as its lines as long as temporaries have
names of their own; so the program, its code, its lines and its assembly finish
together and agree on the outputs.
-/

namespace ThreeAddress

/-- The environment that memory cells stand for. -/
def Environment.ofCells (cells : String → Int) : Environment :=
  ⟨cells, fun name => cells name = 1⟩

theorem Environment.ofCells_matches {symbols : Symbols} {cells : String → Int}
    (h : ∀ name, symbols.lookup name = some .boolean → cells name = 0 ∨ cells name = 1) :
    (ofCells cells).Matches symbols cells := by
  intro name value hcell
  unfold cell? at hcell
  cases hkind : symbols.lookup name with
  | none => simp [hkind] at hcell
  | some kind =>
    cases kind with
    | number | enumVar => simpa [hkind, ofCells] using hcell
    | enumType | enumVariant => simp [hkind] at hcell
    | boolean =>
      rcases h name hkind with hzero | hone
      · simpa [hkind, ofCells, hzero] using hcell
      · simpa [hkind, ofCells, hone] using hcell

theorem Environment.exists_cell? {symbols : Symbols} {name : String}
    (h : symbols.IsVariable name) (env : Environment) :
    ∃ value, env.cell? symbols name = some value := by
  unfold cell?
  rcases h with hkind | hkind | hkind <;> simp [hkind]

theorem Machine.Program.ofCode_eq_ok {code : Code} {outputs : NameSet} {machine : Machine.Program}
    (h : ofCode code outputs = .ok machine) :
    machine = ⟨code.filterMap Line.ofInstr?, outputs⟩ := by
  unfold ofCode ofLines at h
  split at h
  · cases h
  · split at h
    · cases h
    · exact (Except.ok.inj h).symm

/-- Code that becomes lines has neither jumps nor labels. -/
theorem Machine.Program.isStraightLine_of_ofCode {code : Code} {outputs : NameSet}
    {machine : Machine.Program} (h : ofCode code outputs = .ok machine) : code.isStraightLine := by
  unfold ofCode at h
  split at h
  · cases h
  next hnone =>
    rw [Code.isStraightLine_iff]
    intro instr hmem
    obtain ⟨index, hindex⟩ := List.mem_iff_getElem?.mp hmem
    have hzipped : (instr, index) ∈ code.zipIdx := List.mem_zipIdx_iff_getElem?.mpr hindex
    simpa using List.find?_eq_none.mp hnone _ hzipped

theorem Instr.isBuilt_line {instr : Instr} {line : Machine.Line}
    (h : Machine.Line.ofInstr? instr = some line) : line.IsBuilt := by
  cases instr with
  | assign =>
    cases h
    exact Machine.Line.isBuilt_copy _ _
  | binary =>
    cases h
    exact Machine.Line.isBuilt_new _ _ _ _
  | branch | jump | label => cases h

/-- A line writes the cell of the variable that its instruction writes. -/
theorem Instr.dst?_of_line {instr : Instr} {line : Machine.Line}
    (h : Machine.Line.ofInstr? instr = some line) :
    ∃ var, instr.dst? = some var ∧ line.dst = var.text := by
  cases instr with
  | assign | binary =>
    cases h
    exact ⟨_, rfl, rfl⟩
  | branch | jump | label => cases h

theorem exists_of_bind_eq_ok {ε α β : Type} {first : Except ε α} {step : α → Except ε β} {result : β}
    (h : (first >>= step) = .ok result) : ∃ value, first = .ok value ∧ step value = .ok result := by
  cases first with
  | error e => cases h
  | ok value => exact ⟨value, rfl, h⟩

namespace Program

variable {program : Program} {symbols : Symbols} {options : Options} {code : Code}
  {assembly : Machine.Assembly}

/-- Assembly comes from the lines of straight-line code. -/
theorem compile_eq_ok (h : program.compile symbols options = .ok ⟨code, some assembly⟩) :
    program.toCode symbols = .ok code ∧ code.isStraightLine ∧
      Machine.Program.assemble ⟨code.filterMap Machine.Line.ofInstr?, options.outputs⟩
        options.registers = .ok assembly := by
  unfold compile at h
  obtain ⟨written, hcode, hrest⟩ := exists_of_bind_eq_ok h
  split at hrest
  next hstraight =>
    obtain ⟨listed, hlisted, hresult⟩ := exists_of_bind_eq_ok hrest
    cases hresult
    unfold Code.assemble at hlisted
    obtain ⟨machine, hmachine, hassembled⟩ := exists_of_bind_eq_ok hlisted
    rw [Machine.Program.ofCode_eq_ok hmachine] at hassembled
    exact ⟨hcode, hstraight, hassembled⟩
  next => cases hrest

variable {arithmetic : Machine.Arithmetic}

/-- No line of the code writes a cell that the program never assigns. -/
theorem line_dst_ne (h : program.toCode symbols = .ok code) {name : String}
    (hname : name ∉ program.targets) (hplain : ∀ t : Temp, name ≠ t.text) :
    ∀ line ∈ code.filterMap Machine.Line.ofInstr?, line.dst ≠ name := by
  intro line hline hdst
  obtain ⟨instr, hmem, hinstr⟩ := List.mem_filterMap.mp hline
  have hwritten : ∀ other ∈ program.targets, symbols.IsVariable other → other ≠ name := by
    rintro other hother _ rfl
    exact hname hother
  have hwithin : instr.Within (· ≠ name) fun _ => True :=
    toCode_within h hwritten (fun _ _ _ => trivial) instr hmem
  obtain ⟨var, hvar, htext⟩ := instr.dst?_of_line hinstr
  rw [htext] at hdst
  cases var with
  | named other => exact hwithin.dst other hvar hdst
  | temp t => exact hplain t hdst.symm

/-- The code and the assembly of a program complete together, and agree on the
outputs and on what is never assigned. -/
theorem compile_runs (h : program.compile symbols options = .ok ⟨code, some assembly⟩)
    (hregisters : 2 ≤ options.registers)
    (hnames : ∀ name ∈ program.names, symbols.IsVariable name → ∀ t : Temp, name ≠ t.text)
    (hzero : ∀ value, arithmetic .add 0 value = some value) (initial : Machine.State) :
    Option.Rel (fun last state => ∀ name ∈ options.outputs, (∀ t : Temp, name ≠ t.text) →
        state.memory name = last.named name ∧
        (name ∉ program.targets → state.memory name = initial.memory name))
      (code.foldlM (Instr.run fun op => arithmetic (.ofArith op)) fun var => initial.memory var.text)
      (Machine.runInstrs arithmetic initial assembly.instrs) := by
  obtain ⟨hcode, hstraight, hassemble⟩ := compile_eq_ok h
  have hcells : Store.InCells (fun var => initial.memory var.text) initial.memory :=
    fun _ _ => rfl
  have hplain : ∀ instr ∈ code, instr.Plain :=
    fun instr hmem => (toCode_within hcode hnames hnames instr hmem).plain
  have hlines := hcells.run_lines (Code.isStraightLine_iff.mp hstraight) hplain hzero
  have hbuilt : ∀ line ∈ code.filterMap Machine.Line.ofInstr?, line.IsBuilt := by
    intro line hline
    obtain ⟨instr, _, hinstr⟩ := List.mem_filterMap.mp hline
    exact instr.isBuilt_line hinstr
  obtain ⟨other, hother, hruns⟩ := @Machine.Program.exists_assemble
    ⟨code.filterMap Machine.Line.ofInstr?, options.outputs⟩ options.registers arithmetic hbuilt
    (.inl hregisters) hzero
  obtain rfl : assembly = other := Except.ok.inj (hassemble.symm.trans hother)
  have hassembly := hruns initial
  generalize Machine.runLines arithmetic initial.memory (code.filterMap Machine.Line.ofInstr?) =
    result at hlines hassembly
  generalize code.foldlM (Instr.run fun op => arithmetic (.ofArith op))
    (fun var => initial.memory var.text) = reached at hlines ⊢
  generalize Machine.runInstrs arithmetic initial assembly.instrs = completed at hassembly ⊢
  cases hlines with
  | none =>
    cases hassembly
    exact .none
  | some hlast =>
    cases hassembly with
    | some hagrees =>
      refine .some ?_
      intro name hname hnotTemp
      refine ⟨?_, ?_⟩
      · rw [hagrees.1 name hname]
        exact (hlast (.named name) hnotTemp).symm
      · intro htargets
        exact hagrees.2 name (line_dst_ne hcode htargets hnotTemp)

/-- Compilation to assembly preserves the meaning of a program: the program
finishes exactly if its assembly completes, and every output then has in memory
the value that the program gives it, or the one it had if it is never assigned. -/
theorem compile_preserves_meaning
    (h : program.compile symbols options = .ok ⟨code, some assembly⟩)
    (hregisters : 2 ≤ options.registers)
    (hnames : ∀ name ∈ program.names, symbols.IsVariable name → ∀ t : Temp, name ≠ t.text)
    (houtputs : ∀ name ∈ options.outputs, ∀ t : Temp, name ≠ t.text)
    (arithmetic : Machine.Arithmetic) (hzero : ∀ value, arithmetic .add 0 value = some value)
    (initial : Machine.State)
    (hbooleans : ∀ name, symbols.lookup name = some .boolean →
      initial.memory name = 0 ∨ initial.memory name = 1) :
    ((∃ after, program.Runs (fun op => arithmetic (.ofArith op)) symbols
        (.ofCells initial.memory) after) ↔
      ∃ last, Machine.runInstrs arithmetic initial assembly.instrs = some last) ∧
    ∀ after last,
      program.Runs (fun op => arithmetic (.ofArith op)) symbols (.ofCells initial.memory) after →
      Machine.runInstrs arithmetic initial assembly.instrs = some last →
      ∀ name ∈ options.outputs,
        (name ∈ program.targets ∨ symbols.IsVariable name →
          after.cell? symbols name = some (last.memory name)) ∧
        (name ∉ program.targets → last.memory name = initial.memory name) := by
  obtain ⟨hcode, hstraight, _⟩ := compile_eq_ok h
  have hmatch : (Environment.ofCells initial.memory).Matches symbols
      (Store.named fun var => initial.memory var.text) := Environment.ofCells_matches hbooleans
  have hrel := compile_runs h hregisters hnames hzero initial
  have hruns (after : Environment)
      (hrun : program.Runs (fun op => arithmetic (.ofArith op)) symbols
        (.ofCells initial.memory) after) :
      ∃ last, code.foldlM (Instr.run fun op => arithmetic (.ofArith op))
          (fun var => initial.memory var.text) = some last ∧ after.Matches symbols last.named := by
    obtain ⟨last, hlast, hafter⟩ := hrun.code_runs hcode hmatch
    exact ⟨last, (Code.runs_iff_run hstraight).mp hlast, hafter⟩
  refine ⟨⟨?_, ?_⟩, ?_⟩
  · rintro ⟨after, hrun⟩
    obtain ⟨last, hlast, _⟩ := hruns after hrun
    rw [hlast] at hrel
    cases hassembly : Machine.runInstrs arithmetic initial assembly.instrs with
    | none =>
      rw [hassembly] at hrel
      cases hrel
    | some state => exact ⟨state, rfl⟩
  · rintro ⟨state, hstate⟩
    rw [hstate] at hrel
    cases hlast : code.foldlM (Instr.run fun op => arithmetic (.ofArith op))
        (fun var => initial.memory var.text) with
    | none =>
      rw [hlast] at hrel
      cases hrel
    | some last => exact runs_of_code_runs ((Code.runs_iff_run hstraight).mpr hlast) hcode hmatch
  · intro after state hrun hstate name hname
    obtain ⟨last, hlast, hafter⟩ := hruns after hrun
    rw [hlast, hstate] at hrel
    cases hrel with
    | some hagrees =>
      obtain ⟨hvalue, huntouched⟩ := hagrees name hname (houtputs name hname)
      refine ⟨?_, huntouched⟩
      intro hvariable
      obtain ⟨value, hcell⟩ := Environment.exists_cell?
        (hvariable.elim (isVariable_of_target hcode) id) after
      rw [hcell, hvalue, hafter name value hcell]

/-- Straight-line code with a temporary, a copy and a condition that is no test. -/
def straight : Program :=
  ⟨[.declare "x" .number, .declare "y" .number, .declare "b" .boolean,
    .ite (.bool true) (some (.assign "x" (.arith .mul (.ident "b") (.neg (.ident "y"))))) none,
    .assign "y" (.ident "x")]⟩

/-- Operations on integers, without division by zero. -/
def integers : Machine.Arithmetic
  | .add, x, y => some (x + y)
  | .min, x, y => some (x - y)
  | .mul, x, y => some (x * y)
  | .div, x, y => if y = 0 then none else some (x / y)

theorem compile_preserves_meaning_straight : ∃ code assembly,
    straight.compile (.ofProgram straight) ⟨2, .ofList ["x", "y"]⟩ = .ok ⟨code, some assembly⟩ ∧
    (∀ name ∈ straight.names, (Symbols.ofProgram straight).IsVariable name →
      ∀ t : Temp, name ≠ t.text) ∧
    (∀ name ∈ NameSet.ofList ["x", "y"], ∀ t : Temp, name ≠ t.text) ∧
    (∀ value, integers .add 0 value = some value) ∧
    ((∃ after, straight.Runs (fun op => integers (.ofArith op)) (.ofProgram straight)
        (.ofCells fun _ => 1) after) ↔
      ∃ last, Machine.runInstrs integers ⟨fun _ => 0, fun _ => 1⟩ assembly.instrs = some last) ∧
    ∀ after last,
      straight.Runs (fun op => integers (.ofArith op)) (.ofProgram straight)
        (.ofCells fun _ => 1) after →
      Machine.runInstrs integers ⟨fun _ => 0, fun _ => 1⟩ assembly.instrs = some last →
      ∀ name ∈ NameSet.ofList ["x", "y"],
        (name ∈ straight.targets ∨ (Symbols.ofProgram straight).IsVariable name →
          after.cell? (.ofProgram straight) name = some (last.memory name)) ∧
        (name ∉ straight.targets → last.memory name = 1) := by
  have hplain : ∀ name ∈ ["x", "b", "y", "y", "x"], ∀ t : Temp, name ≠ t.text := by
    intro name hname t htext
    have hchars := congrArg String.toList htext
    simp only [List.mem_cons, List.not_mem_nil, or_false] at hname
    rcases hname with rfl | rfl | rfl | rfl | rfl <;> simp [Temp.text] at hchars
  have hnames : ∀ name ∈ straight.names, (Symbols.ofProgram straight).IsVariable name →
      ∀ t : Temp, name ≠ t.text := fun name hname _ => hplain name hname
  have houtputs : ∀ name ∈ NameSet.ofList ["x", "y"], ∀ t : Temp, name ≠ t.text := by
    intro name hname
    apply hplain
    rcases (by simpa [NameSet.ofList] using hname : name = "x" ∨ name = "y") with rfl | rfl
    · simp
    · simp
  have hzero : ∀ value, integers .add 0 value = some value := by
    simp [integers]
  have hcompiled : ((straight.compile (.ofProgram straight)
      ⟨2, .ofList ["x", "y"]⟩).toOption.bind Compiled.assembly).isSome := by decide +kernel
  cases h : straight.compile (.ofProgram straight) ⟨2, .ofList ["x", "y"]⟩ with
  | error e =>
    rw [h] at hcompiled
    cases hcompiled
  | ok compiled =>
    obtain ⟨code, _ | assembly⟩ := compiled
    · rw [h] at hcompiled
      cases hcompiled
    · exact ⟨code, assembly, rfl, hnames, houtputs, hzero,
        compile_preserves_meaning h (Nat.le_refl 2) hnames houtputs integers hzero
          ⟨fun _ => 0, fun _ => 1⟩ (fun _ _ => .inr rfl)⟩

end Program

end ThreeAddress
