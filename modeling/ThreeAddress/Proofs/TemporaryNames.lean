import ThreeAddress.Proofs.CompileCorrect
import ThreeAddress.Proofs.Temporaries

/-!
Names of temporaries. Code tells a temporary from a named variable, but its lines
know both by their names only. Lines keep the two apart exactly if no variable of
the program is called like one of the temporaries that its code writes. Nothing
else makes two variables meet, and a program that declares such a name is accepted
like any other.
-/

namespace ThreeAddress

/-- An instruction writes or reads a variable. -/
def Instr.Uses (instr : Instr) (var : Var) : Prop :=
  instr.dst? = some var ∨ .var var ∈ instr.operands

/-- A line has a variable of its instruction under a name. Operands are compared
from the right, where a copy has its only one. -/
def Instr.Names (instr : Instr) (line : Machine.Line) (var : Var) (name : String) : Prop :=
  (instr.dst? = some var ∧ line.dst = name) ∨
    (.var var, .var name) ∈ instr.operands.reverse.zip [line.right, line.left]

namespace Code

def Uses (code : Code) (var : Var) : Prop := ∃ instr ∈ code, instr.Uses var

/-- A name is that of a temporary that the code writes. -/
def Captures (code : Code) (name : String) : Prop :=
  ∃ number < code.temps.length, name = Temp.text ⟨number⟩

end Code

namespace Machine.Program

variable {machine : Program} {code : Code} {outputs : NameSet}

/-- A program made from code has a variable of the code under a name. -/
def Names (machine : Program) (code : Code) (var : Var) (name : String) : Prop :=
  ∃ (position : Nat) (instr : ThreeAddress.Instr) (line : Line), code[position]? = some instr ∧
    machine.lines[position]? = some line ∧ instr.Names line var name

/-- Different variables have different names. -/
def NamesApart (machine : Program) (code : Code) : Prop :=
  ∀ one other name, machine.Names code one name → machine.Names code other name → one = other

/-- Temporaries do not meet the variables of the program: a line that defines the
name of one defines no variable, and no variable is read or written under it. -/
structure KeepsApart (machine : Program) (code : Code) (symbols : Symbols) : Prop where
  distinct : machine.NamesApart code
  apart : ∀ temp name, machine.Names code (.temp temp) name →
    ∀ line ∈ machine.lines, name ∈ line.defs →
      ¬ symbols.IsVariable name ∧ ∀ user, ¬ machine.Names code (.named user) name

/-- There is one line for each instruction. -/
theorem getElem?_lines (h : ofCode code outputs = .ok machine) (position : Nat) :
    machine.lines[position]? = code[position]?.bind Line.ofInstr? := by
  have hstraight := Code.isStraightLine_iff.mp (isStraightLine_of_ofCode h)
  rw [ofCode_eq_ok h]
  clear h
  induction code generalizing position with
  | nil => rfl
  | cons instr rest ih =>
    obtain ⟨line, hline⟩ := instr.exists_line (hstraight instr List.mem_cons_self)
    have hrest := fun other hmem => hstraight other (List.mem_cons_of_mem instr hmem)
    rw [List.filterMap_cons_some hline]
    cases position with
    | zero => exact hline.symm
    | succ position => exact ih position hrest

end Machine.Program

/-- Names in a line are those of the variables of its instruction. -/
theorem Instr.names_iff {instr : Instr} {line : Machine.Line} {var : Var} {name : String}
    (h : Machine.Line.ofInstr? instr = some line) :
    instr.Names line var name ↔ instr.Uses var ∧ name = var.text := by
  have hdst (dst : Var) : some dst = some var ∧ dst.text = name ↔
      some dst = some var ∧ name = var.text := by
    constructor
    · rintro ⟨⟨⟩, rfl⟩
      exact ⟨rfl, rfl⟩
    · rintro ⟨⟨⟩, rfl⟩
      exact ⟨rfl, rfl⟩
  have hoperand (value : Value) : .var var = value ∧ .var name = Machine.Operand.ofValue value ↔
      .var var = value ∧ name = var.text := by
    constructor
    · rintro ⟨rfl, hname⟩
      exact ⟨rfl, Machine.Operand.var.inj hname⟩
    · rintro ⟨rfl, rfl⟩
      exact ⟨rfl, rfl⟩
  cases instr with
  | assign dst source =>
    cases h
    simp only [Names, Uses, dst?, operands, Machine.Line.copy, Machine.Line.new,
      List.reverse_singleton, List.zip_cons_cons, List.zip_nil_left, List.mem_singleton,
      Prod.mk.injEq, hdst, hoperand, or_and_right]
  | binary dst left op right =>
    cases h
    simp only [Names, Uses, dst?, operands, Machine.Line.new, List.reverse_cons, List.reverse_nil,
      List.nil_append, List.cons_append, List.zip_cons_cons, List.zip_nil_left, List.mem_cons,
      List.not_mem_nil, or_false, Prod.mk.injEq, hdst, hoperand, or_and_right]
    exact or_congr Iff.rfl or_comm
  | branch | jump | label => cases h

theorem Machine.Program.names_iff {machine : Machine.Program} {code : Code} {outputs : NameSet}
    (h : ofCode code outputs = .ok machine) {var : Var} {name : String} :
    machine.Names code var name ↔ code.Uses var ∧ name = var.text := by
  constructor
  · rintro ⟨position, instr, line, hinstr, hline, hnames⟩
    rw [getElem?_lines h, hinstr, Option.bind_some] at hline
    obtain ⟨huses, hname⟩ := (ThreeAddress.Instr.names_iff hline).mp hnames
    exact ⟨⟨instr, List.mem_of_getElem? hinstr, huses⟩, hname⟩
  · rintro ⟨⟨instr, hmem, huses⟩, hname⟩
    obtain ⟨position, hinstr⟩ := List.mem_iff_getElem?.mp hmem
    have hstraight := Code.isStraightLine_iff.mp (isStraightLine_of_ofCode h)
    obtain ⟨line, hline⟩ := instr.exists_line (hstraight instr hmem)
    have hnames : instr.Names line var name :=
      (ThreeAddress.Instr.names_iff hline).mpr ⟨huses, hname⟩
    refine ⟨position, instr, line, hinstr, ?_, hnames⟩
    rw [getElem?_lines h, hinstr, Option.bind_some, hline]

namespace Program

variable {program : Program} {symbols : Symbols} {code : Code} {machine : Machine.Program}
  {outputs : NameSet}

theorem exists_defines (h : program.toCode symbols = .ok code) {temp : Temp}
    (huses : code.Uses (.temp temp)) : ∃ definition, code.Defines definition temp := by
  obtain ⟨count, horder⟩ := exists_inOrder h
  obtain ⟨instr, hmem, huse⟩ := huses
  obtain ⟨position, hposition⟩ := List.mem_iff_getElem?.mp hmem
  rcases huse with hdst | hread
  · obtain ⟨left, op, right, rfl⟩ := horder.operation hmem hdst
    exact ⟨position, left, op, right, hposition⟩
  · obtain ⟨definition, _, hdefines, _⟩ := horder.atHand position instr temp hposition hread
    exact ⟨definition, hdefines⟩

/-- Code uses the temporaries that it writes, and no others. -/
theorem uses_temp_iff (h : program.toCode symbols = .ok code) {temp : Temp} :
    code.Uses (.temp temp) ↔ temp.number < code.temps.length := by
  obtain ⟨count, horder⟩ := exists_inOrder h
  have hlength : code.temps.length = count := by
    simp [horder.written]
  rw [hlength]
  constructor
  · intro huses
    obtain ⟨definition, hdefines⟩ := exists_defines h huses
    exact horder.number_lt_of_defines hdefines
  · intro hlt
    obtain ⟨instr, hmem, hread⟩ := horder.read temp hlt List.not_mem_nil
    exact ⟨instr, hmem, .inr hread⟩

/-- Names that code uses are those of variables. -/
theorem isVariable_of_uses (h : program.toCode symbols = .ok code) {name : String}
    (huses : code.Uses (.named name)) : symbols.IsVariable name := by
  have hnames : ∀ name ∈ program.names, symbols.IsVariable name → symbols.IsVariable name :=
    fun _ _ hvariable => hvariable
  have hwithin := toCode_within h hnames hnames
  obtain ⟨instr, hmem, hdst | hread⟩ := huses
  · exact (hwithin instr hmem).dst name hdst
  · exact (hwithin instr hmem).operands name hread

/-- The name of a temporary that code uses is captured. -/
theorem captures_of_uses (h : program.toCode symbols = .ok code) {temp : Temp}
    (huses : code.Uses (.temp temp)) : code.Captures temp.text :=
  ⟨temp.number, (uses_temp_iff h).mp huses, rfl⟩

theorem namesApart_iff (h : program.toCode symbols = .ok code)
    (hmachine : Machine.Program.ofCode code outputs = .ok machine) :
    machine.NamesApart code ↔ ∀ name, code.Uses (.named name) → ¬ code.Captures name := by
  constructor
  · rintro hapart name huses ⟨number, hlt, rfl⟩
    have htemp : code.Uses (.temp ⟨number⟩) := (uses_temp_iff h).mpr hlt
    have hnamed := (Machine.Program.names_iff hmachine).mpr ⟨huses, rfl⟩
    cases hapart _ _ _ hnamed ((Machine.Program.names_iff hmachine).mpr ⟨htemp, rfl⟩)
  · intro hfree one other name hone hother
    obtain ⟨huseOne, rfl⟩ := (Machine.Program.names_iff hmachine).mp hone
    obtain ⟨huseOther, htext⟩ := (Machine.Program.names_iff hmachine).mp hother
    rcases Var.eq_or_of_text_eq htext with heq | ⟨temp, ⟨rfl, rfl⟩ | ⟨rfl, rfl⟩⟩
    · exact heq
    · exact absurd (captures_of_uses h huseOther) (hfree _ huseOne)
    · exact absurd (captures_of_uses h huseOne) (hfree _ huseOther)

/-- A temporary that code uses is defined by one of its lines. -/
theorem exists_line_defs (h : program.toCode symbols = .ok code)
    (hmachine : Machine.Program.ofCode code outputs = .ok machine) {temp : Temp}
    (huses : code.Uses (.temp temp)) : ∃ line ∈ machine.lines, temp.text ∈ line.defs := by
  obtain ⟨definition, left, op, right, hget⟩ := exists_defines h huses
  refine ⟨.new (.ofArith op) temp.text (.ofValue left) (.ofValue right), ?_, ?_⟩
  · apply List.mem_of_getElem? (i := definition)
    rw [Machine.Program.getElem?_lines hmachine, hget]
    rfl
  · simp [Machine.Line.new, NameSet.ofList]

/-- Different variables of the code have different names exactly if it uses no
variable called like one of its temporaries. Temporaries are kept apart from all
variables that are declared exactly if none of these is called so. -/
theorem keepsApart_iff (h : program.toCode symbols = .ok code)
    (hmachine : Machine.Program.ofCode code outputs = .ok machine) :
    (machine.NamesApart code ↔ ∀ name, code.Uses (.named name) → ¬ code.Captures name) ∧
      (machine.KeepsApart code symbols ↔
        ∀ name, symbols.IsVariable name → ¬ code.Captures name) := by
  refine ⟨namesApart_iff h hmachine, ?_, ?_⟩
  · rintro hkeeps name hvariable ⟨number, hlt, rfl⟩
    have huses : code.Uses (.temp ⟨number⟩) := (uses_temp_iff h).mpr hlt
    obtain ⟨line, hline, hdefs⟩ := exists_line_defs h hmachine huses
    have hnames := (Machine.Program.names_iff hmachine).mpr ⟨huses, rfl⟩
    exact (hkeeps.apart _ _ hnames line hline hdefs).1 hvariable
  · intro hfree
    have hunused : ∀ name, code.Uses (.named name) → ¬ code.Captures name :=
      fun name huses => hfree name (isVariable_of_uses h huses)
    refine ⟨(namesApart_iff h hmachine).mpr hunused, ?_⟩
    intro temp name hnames _ _ _
    obtain ⟨huses, rfl⟩ := (Machine.Program.names_iff hmachine).mp hnames
    have hcaptured := captures_of_uses h huses
    refine ⟨fun hvariable => hfree _ hvariable hcaptured, ?_⟩
    intro user huser
    obtain ⟨huseUser, hname⟩ := (Machine.Program.names_iff hmachine).mp huser
    obtain rfl : temp.text = user := hname
    exact hunused _ huseUser hcaptured

/-- A variable of some name, read after the first temporary is written. -/
def readingLate (name : String) : Program :=
  ⟨[.declare name .number, .declare "x" .number, .declare "y" .number,
    .assign "x" (.arith .add (.ident "y") (.int 1)), .assign "y" (.ident name)]⟩

def readingLateCode (name : String) : Code :=
  [.binary (.temp ⟨0⟩) (.var (.named "y")) .add (.imm 1),
    .assign (.named "x") (.var (.temp ⟨0⟩)), .assign (.named "y") (.var (.named name))]

def readingLateLines (name : String) : Machine.Program :=
  ⟨[.new .add "_t0" (.var "y") (.imm 1), .copy "x" (.var "_t0"), .copy "y" (.var name)],
    .ofList ["y"]⟩

/-- The name of a temporary that the code does not need is free. -/
theorem keepsApart_iff_readingLate :
    (readingLate "_t1").toCode (.ofProgram (readingLate "_t1")) = .ok (readingLateCode "_t1") ∧
    Machine.Program.ofCode (readingLateCode "_t1") (.ofList ["y"]) = .ok (readingLateLines "_t1") ∧
    (readingLateLines "_t1").KeepsApart (readingLateCode "_t1")
      (.ofProgram (readingLate "_t1")) := by
  have hcode : (readingLate "_t1").toCode (.ofProgram (readingLate "_t1")) =
      .ok (readingLateCode "_t1") := by
    apply eq_ok_of_toOption
    decide +kernel
  have hlines : Machine.Program.ofCode (readingLateCode "_t1") (.ofList ["y"]) =
      .ok (readingLateLines "_t1") := by
    apply eq_ok_of_toOption
    decide +kernel
  refine ⟨hcode, hlines, (keepsApart_iff hcode hlines).2.mpr ?_⟩
  rintro name hvariable ⟨number, hlt, rfl⟩
  obtain rfl : number = 0 := Nat.lt_one_iff.mp hlt
  have hundeclared : (Symbols.ofProgram (readingLate "_t1")).lookup (Temp.text ⟨0⟩) = none := by
    decide +kernel
  simp [Symbols.IsVariable, hundeclared] at hvariable

/-- A variable with the name of the first temporary is read as that. -/
theorem not_keepsApart_readingLate :
    (readingLate "_t0").toCode (.ofProgram (readingLate "_t0")) = .ok (readingLateCode "_t0") ∧
    (readingLateCode "_t0").isStraightLine ∧
    Machine.Program.ofCode (readingLateCode "_t0") (.ofList ["y"]) = .ok (readingLateLines "_t0") ∧
    ¬ (readingLateLines "_t0").NamesApart (readingLateCode "_t0") ∧
    ¬ (readingLateLines "_t0").KeepsApart (readingLateCode "_t0")
      (.ofProgram (readingLate "_t0")) := by
  have hcode : (readingLate "_t0").toCode (.ofProgram (readingLate "_t0")) =
      .ok (readingLateCode "_t0") := by
    apply eq_ok_of_toOption
    decide +kernel
  have hlines : Machine.Program.ofCode (readingLateCode "_t0") (.ofList ["y"]) =
      .ok (readingLateLines "_t0") := by
    apply eq_ok_of_toOption
    decide +kernel
  have hnames : ¬ (readingLateLines "_t0").NamesApart (readingLateCode "_t0") := by
    intro hapart
    have htemp : (readingLateLines "_t0").Names (readingLateCode "_t0") (.temp ⟨0⟩) "_t0" :=
      ⟨0, _, _, rfl, rfl, .inl ⟨rfl, rfl⟩⟩
    have hnamed : (readingLateLines "_t0").Names (readingLateCode "_t0") (.named "_t0") "_t0" :=
      ⟨2, _, _, rfl, rfl, .inr List.mem_cons_self⟩
    cases hapart _ _ _ htemp hnamed
  exact ⟨hcode, rfl, hlines, hnames, fun hkeeps => hnames hkeeps.distinct⟩

end Program

end ThreeAddress
