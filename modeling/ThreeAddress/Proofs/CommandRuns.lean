import ThreeAddress.Command.Run
import ThreeAddress.Proofs.CompileCorrect

/-!
Runs of the command on a disk. The command does not call the compiler as a whole: it
makes code, writes it, and only then asks for assembly, whether or not the code is
straight. Still, what it emits is what the compiler gives under the same options, and
it fails when the compiler gives no assembly that is wanted.
-/

namespace ThreeAddress

variable {options : Options} {assembly : Machine.Assembly}

/-- Code with jumps has no assembly, so there is no need to look for them first. -/
theorem Code.isStraightLine_of_assemble {code : Code}
    (h : code.assemble options = .ok assembly) : code.isStraightLine := by
  obtain ⟨machine, hmachine, -⟩ := exists_of_bind_eq_ok h
  exact Machine.Program.isStraightLine_of_ofCode hmachine

theorem Compiled.forall_ne_iff {result : Except Error Compiled} :
    (∀ code assembly, result ≠ .ok ⟨code, some assembly⟩) ↔
      result.toOption.bind Compiled.assembly = none := by
  rcases result with e | ⟨code, _ | assembly⟩ <;> simp [Except.toOption]

namespace Program

variable {program : Program} {symbols : Symbols}

theorem toCode_of_compile {compiled : Compiled}
    (h : program.compile symbols options = .ok compiled) :
    program.toCode symbols = .ok compiled.code := by
  obtain ⟨code, hcode, hrest⟩ := exists_of_bind_eq_ok h
  split at hrest
  next =>
    obtain ⟨listed, -, hresult⟩ := exists_of_bind_eq_ok hrest
    cases hresult
    exact hcode
  next =>
    cases hrest
    exact hcode

/-- Compiling gives the assembly of the code, if it has any. -/
theorem assembly_of_compile (options : Options) {code : Code}
    (hcode : program.toCode symbols = .ok code) :
    (program.compile symbols options).toOption.bind Compiled.assembly =
      (code.assemble options).toOption := by
  have hcompile : program.compile symbols options =
      if code.isStraightLine then return ⟨code, some (← code.assemble options)⟩
      else return ⟨code, none⟩ := by
    rw [compile, hcode]
    rfl
  rw [hcompile]
  cases hassembly : code.assemble options with
  | ok assembly =>
    rw [if_pos (Code.isStraightLine_of_assemble hassembly)]
    rfl
  | error e =>
    split <;> rfl

end Program

namespace Command

/-- The contents of files, and what was printed. -/
structure Disk where
  content : String → Option String
  printed : String

namespace Disk

def print (disk : Disk) (text : String) : Disk :=
  { disk with printed := disk.printed ++ text }

def store (disk : Disk) (file text : String) : Disk :=
  { disk with content := fun other => if other = file then some text else disk.content other }

/-- Leaves a text at a path, or prints it. A path that leads nowhere takes nothing. -/
def receive (locate : String → Option String) (disk : Disk) : Emission → Disk
  | ⟨none, text⟩ => disk.print text
  | ⟨some path, text⟩ => (locate path).elim disk (disk.store · text)

end Disk

/-- A disk as a system. Paths lead to files, and several may lead to the same. What
leads nowhere can be neither read nor written. -/
def System.onDisk (locate : String → Option String) : System (StateM Disk) where
  read path := return (locate path).bind (← get).content
  write path text := do
    match locate path with
    | none => return false
    | some file =>
        modify (·.store file text)
        return true
  print text := modify (·.print text)

variable {locate : String → Option String}

/-- When every path leads somewhere, a plan is carried out to its end. -/
theorem Plan.carryOut_onDisk {emissions : List Emission} (failure : Option Error) (disk : Disk)
    (hpaths : ∀ emission ∈ emissions, ∀ path, emission.path = some path → (locate path).isSome) :
    (carryOut (.onDisk locate) failure emissions).run disk =
      (failure.elim .done .failed, emissions.foldl (Disk.receive locate) disk) := by
  induction emissions generalizing disk with
  | nil => rfl
  | cons emission rest ih =>
    have hrest := fun disk => ih disk fun other hother =>
      hpaths other (List.mem_cons_of_mem _ hother)
    obtain ⟨path, text⟩ := emission
    cases path with
    | none => exact hrest (disk.print text)
    | some path =>
      obtain ⟨file, hfile⟩ := Option.isSome_iff_exists.mp (hpaths _ List.mem_cons_self path rfl)
      have hwrite : (System.write (.onDisk locate) path text).run disk =
          (true, disk.store file text) := by
        simp only [System.onDisk, hfile]
        rfl
      rw [List.foldl_cons, Disk.receive, hfile, carryOut, StateT.run_bind, hwrite]
      exact hrest (disk.store file text)

/-- What a run leaves that emits the code, the assembly, both or neither. -/
structure Emits (locate : String → Option String) (settings : Settings)
    (code assembly : Option String) (before after : Disk) : Prop where
  printed : after.printed = before.printed ++
    (if settings.irOut.isNone then code.getD "" else "") ++
    (if settings.asmOut.isNone then assembly.getD "" else "")
  code_stored : ∀ file text, settings.irOut.bind locate = some file → code = some text →
    after.content file = some text
  assembly_stored : ∀ file text, settings.asmOut.bind locate = some file → assembly = some text →
    after.content file = some text
  others : ∀ file, (code.isSome → settings.irOut.bind locate ≠ some file) →
    (assembly.isSome → settings.asmOut.bind locate ≠ some file) →
    after.content file = before.content file

/-- What a disk is like that got a text, if there is one, at a path or printed. -/
structure Disk.Receives (locate : String → Option String) (path text : Option String)
    (before after : Disk) : Prop where
  printed : after.printed = before.printed ++ if path.isNone then text.getD "" else ""
  stored : ∀ file written, path.bind locate = some file → text = some written →
    after.content file = some written
  others : ∀ file, (text.isSome → path.bind locate ≠ some file) →
    after.content file = before.content file

theorem Disk.receives {path : Option String} (text : Option String) (disk : Disk)
    (hpath : text.isSome → ∀ given, path = some given → (locate given).isSome) :
    disk.Receives locate path text
      ((text.toList.map (Emission.mk path)).foldl (receive locate) disk) := by
  cases text with
  | none =>
    constructor
    · simp
    · intro _ _ _ h
      cases h
    · intro _ _
      rfl
  | some text =>
    cases path with
    | none =>
      constructor
      · rfl
      · intro _ _ h
        cases h
      · intro _ _
        rfl
    | some path =>
      obtain ⟨file, hfile⟩ := Option.isSome_iff_exists.mp (hpath rfl path rfl)
      simp only [Option.toList_some, List.map_cons, List.map_nil, List.foldl_cons, List.foldl_nil,
        receive, hfile, Option.elim_some]
      constructor
      · simp [store]
      · rintro other written hother hwritten
        cases hwritten
        have heq : file = other := by simpa [hfile] using hother
        simp [store, heq]
      · intro other hother
        have hne : other ≠ file := by
          rintro rfl
          exact hother rfl hfile
        simp [store, hne]

/-- Two texts that go to different places, one after the other. -/
theorem Disk.Receives.emits {settings : Settings} {code assembly : Option String}
    {before between after : Disk}
    (hcode : before.Receives locate settings.irOut code between)
    (hassembly : between.Receives locate settings.asmOut assembly after)
    (hdistinct : ∀ file, settings.irOut.bind locate = some file →
      settings.asmOut.bind locate ≠ some file) :
    Emits locate settings code assembly before after where
  printed := by
    rw [hassembly.printed, hcode.printed]
  code_stored file text hfile htext := by
    rw [hassembly.others file fun _ => hdistinct file hfile]
    exact hcode.stored file text hfile htext
  assembly_stored := hassembly.stored
  others file hcodeFile hassemblyFile := by
    rw [hassembly.others file hassemblyFile, hcode.others file hcodeFile]

namespace Settings

variable {settings : Settings} {input : Input}

theorem wantsCode_eq (settings : Settings) :
    settings.wantsCode =
      (settings.ir || settings.both || !(settings.ir || settings.asm || settings.both)) := by
  unfold wantsCode
  cases settings.ir <;> cases settings.asm <;> cases settings.both <;> rfl

/-- The options of a run are the only ones with this register count and these outputs. -/
theorem options_eq
    (hregisters : options.registers = (settings.registers.or input.registers).getD 256)
    (houtputs : ∀ name, name ∈ options.outputs ↔ name ∈ input.outputs ∨ name ∈ settings.outputs) :
    settings.options input = options := by
  obtain ⟨registers, outputs⟩ := options
  have hnames : (settings.options input).outputs = outputs := by
    apply Std.ExtTreeSet.ext_mem
    intro name
    simp [Settings.options, NameSet.ofList, houtputs]
  obtain rfl : registers = _ := hregisters
  rw [← hnames]
  rfl

theorem plan_of_error {e : Error}
    (h : input.program.toCode (.ofProgram input.program) = .error e) :
    settings.plan input = ⟨[], some e⟩ := by
  rw [plan, h]

/-- The plan for code: the code if it is wanted, then the assembly if it is wanted and
there is one. -/
theorem plan_of_ok (settings : Settings) {code : Code}
    (h : input.program.toCode (.ofProgram input.program) = .ok code) :
    (settings.plan input).emissions =
        (if settings.wantsCode then some code.text else none).toList.map
            (Emission.mk settings.irOut) ++
          (if settings.wantsAssembly then
            (code.assemble (settings.options input)).toOption.map (·.text) else none).toList.map
            (Emission.mk settings.asmOut) ∧
      ((settings.plan input).failure.isSome ↔
        settings.wantsAssembly ∧ (code.assemble (settings.options input)).toOption = none) := by
  have hcode : (if settings.wantsCode then [⟨settings.irOut, code.text⟩] else []) =
      (if settings.wantsCode then some code.text else none).toList.map
        (Emission.mk settings.irOut) := by
    cases settings.wantsCode <;> rfl
  rw [plan, h, ← hcode]
  cases settings.wantsAssembly with
  | false => simp
  | true =>
    cases hassembly : code.assemble (settings.options input) <;> simp [hassembly, Except.toOption]

end Settings

/-- How a run should end, going by what the compiler gives under some options. -/
structure AgreesWithCompile (locate : String → Option String) (settings : Settings)
    (program : Program) (options : Options) (before : Disk) (outcome : Outcome) (after : Disk) :
    Prop where
  rejected : ∀ e, program.toCode (.ofProgram program) = .error e →
    outcome = .failed e ∧ after = before
  code : ∀ compiled, program.compile (.ofProgram program) options = .ok compiled →
    program.toCode (.ofProgram program) = .ok compiled.code
  emits : ∀ code, program.toCode (.ofProgram program) = .ok code →
    Emits locate settings
      (if settings.ir || settings.both || !(settings.ir || settings.asm || settings.both) then
        some code.text else none)
      (if settings.asm || settings.both then
        ((program.compile (.ofProgram program) options).toOption.bind Compiled.assembly).map
          (·.text)
       else none)
      before after
  exitCode_ne_zero : outcome.exitCode ≠ 0 ↔
    (∃ e, program.toCode (.ofProgram program) = .error e) ∨
      (settings.asm || settings.both) ∧
        ∀ code assembly, program.compile (.ofProgram program) options ≠ .ok ⟨code, some assembly⟩

theorem Outcome.exitCode_ne_zero (failure : Option Error) :
    (failure.elim .done .failed : Outcome).exitCode ≠ 0 ↔ failure.isSome := by
  cases failure <;> simp [exitCode]

variable {settings : Settings} {input : Input} {disk : Disk}

theorem agrees_of_error {e : Error}
    (hcode : input.program.toCode (.ofProgram input.program) = .error e) :
    AgreesWithCompile locate settings input.program options disk (.failed e) disk where
  rejected := by
    intro _ heq
    rw [hcode] at heq
    cases heq
    exact ⟨rfl, rfl⟩
  code _ := Program.toCode_of_compile
  emits := by
    intro _ heq
    rw [hcode] at heq
    cases heq
  exitCode_ne_zero :=
    ⟨fun _ => .inl ⟨e, hcode⟩, fun _ => (Outcome.exitCode_ne_zero (some e)).mpr rfl⟩

/-- The plan for code, carried out on a disk, agrees with compiling. -/
theorem agrees_of_ok {code : Code}
    (hcode : input.program.toCode (.ofProgram input.program) = .ok code)
    (hoptions : settings.options input = options)
    (hcodePath : settings.wantsCode → ∀ out, settings.irOut = some out → (locate out).isSome)
    (hassemblyPath : settings.wantsAssembly → ∀ out, settings.asmOut = some out →
      (locate out).isSome)
    (hdistinct : ∀ file, settings.irOut.bind locate = some file →
      settings.asmOut.bind locate ≠ some file) :
    AgreesWithCompile locate settings input.program options disk
      ((settings.plan input).failure.elim .done .failed)
      ((settings.plan input).emissions.foldl (Disk.receive locate) disk) := by
  obtain ⟨hemissions, hfailure⟩ := settings.plan_of_ok hcode
  have hassembly := Program.assembly_of_compile options hcode
  rw [hoptions, ← hassembly] at hemissions hfailure
  refine ⟨?_, fun _ => Program.toCode_of_compile, ?_, ?_⟩
  · intro _ heq
    rw [hcode] at heq
    cases heq
  · intro _ heq
    rw [hcode] at heq
    cases heq
    rw [hemissions, List.foldl_append, ← settings.wantsCode_eq]
    refine (Disk.receives _ disk fun h => ?_).emits (Disk.receives _ _ fun h => ?_) hdistinct
    · exact hcodePath (Option.isSome_ite.mp h)
    · have hwants : settings.asm || settings.both := by
        by_contra hnot
        rw [if_neg hnot] at h
        cases h
      exact hassemblyPath hwants
  · rw [Outcome.exitCode_ne_zero, hfailure, Compiled.forall_ne_iff, hcode]
    simp [Settings.wantsAssembly]

theorem Settings.path_of_mem_plan {emission : Emission}
    (h : emission ∈ (settings.plan input).emissions) :
    settings.wantsCode ∧ emission.path = settings.irOut ∨
      settings.wantsAssembly ∧ emission.path = settings.asmOut := by
  cases hcode : input.program.toCode (.ofProgram input.program) with
  | error e =>
    rw [plan_of_error hcode] at h
    cases h
  | ok code =>
    rw [(settings.plan_of_ok hcode).1, List.mem_append, List.mem_map, List.mem_map] at h
    rcases h with ⟨_, htext, rfl⟩ | ⟨_, htext, rfl⟩
    · left
      cases hwants : settings.wantsCode with
      | false => simp [hwants] at htext
      | true => exact ⟨rfl, rfl⟩
    · right
      cases hwants : settings.wantsAssembly with
      | false => simp [hwants] at htext
      | true => exact ⟨rfl, rfl⟩

/-- A run whose words and input can be read carries out its plan. -/
theorem run_onDisk {words : List String} {path text : String}
    (harguments : Arguments.parse? words = some ⟨path, settings⟩)
    (hread : (locate path).bind disk.content = some text)
    (hinput : Input.parse? text = some input) :
    (run (.onDisk locate) words).run disk =
      (Plan.carryOut (.onDisk locate) (settings.plan input).failure
        (settings.plan input).emissions).run disk := by
  have hdisk : (System.read (.onDisk locate) path).run disk = pure (some text, disk) := by
    rw [← hread]
    rfl
  simp only [run, harguments, StateT.run_bind, hdisk, pure_bind, hinput]

/-- A run whose words and input can be read, and whose paths can be written and lead to
different files, ends as the compiler has it. -/
theorem run_agrees_with_compile {words : List String} {path text : String}
    (harguments : Arguments.parse? words = some ⟨path, settings⟩)
    (hread : (locate path).bind disk.content = some text)
    (hinput : Input.parse? text = some input)
    (hcodePath : settings.wantsCode → ∀ out, settings.irOut = some out → (locate out).isSome)
    (hassemblyPath : settings.wantsAssembly → ∀ out, settings.asmOut = some out →
      (locate out).isSome)
    (hdistinct : ∀ file, settings.irOut.bind locate = some file →
      settings.asmOut.bind locate ≠ some file)
    (hregisters : options.registers = (settings.registers.or input.registers).getD 256)
    (houtputs : ∀ name, name ∈ options.outputs ↔ name ∈ input.outputs ∨ name ∈ settings.outputs) :
    ∃ outcome after, (run (.onDisk locate) words).run disk = (outcome, after) ∧
      AgreesWithCompile locate settings input.program options disk outcome after := by
  have hplan : ∀ emission ∈ (settings.plan input).emissions, ∀ out, emission.path = some out →
      (locate out).isSome := by
    intro emission hmem out hout
    rcases Settings.path_of_mem_plan hmem with ⟨hwants, hpath⟩ | ⟨hwants, hpath⟩
    · exact hcodePath hwants out (hpath ▸ hout)
    · exact hassemblyPath hwants out (hpath ▸ hout)
  rw [run_onDisk harguments hread hinput, Plan.carryOut_onDisk _ _ hplan]
  refine ⟨_, _, rfl, ?_⟩
  cases hcode : input.program.toCode (.ofProgram input.program) with
  | error e =>
    rw [Settings.plan_of_error hcode]
    exact agrees_of_error hcode
  | ok code =>
    exact agrees_of_ok hcode (Settings.options_eq hregisters houtputs) hcodePath hassemblyPath
      hdistinct

/-- An input that adds one to `x` and wants it in memory. -/
def savedText : String :=
  "[[[\x7b\"Declaration\":[\"x\",\"num\"]\x7d,\x7b\"Assign\":[\"x\"," ++
    "\x7b\"Arith\":[\"Add\",\x7b\"Ident\":\"x\"\x7d,\x7b\"Int\":1\x7d]\x7d]\x7d]],[\"x\"]]"

def savedDisk : Disk := ⟨fun file => if file = "in.json" then some savedText else none, ""⟩

def savedWords : List String :=
  ["--both", "--ir-out", "out.ir", "--asm-out=out.s", "--output", "y", "--registers=2", "in.json"]

def savedSettings : Settings :=
  ⟨false, false, true, some 2, some "out.ir", some "out.s", ["y"]⟩

theorem run_agrees_with_compile_saved :
    ∃ input, Arguments.parse? savedWords = some ⟨"in.json", savedSettings⟩ ∧
      Input.parse? savedText = some input ∧
      (∃ outcome after, (run (.onDisk some) savedWords).run savedDisk = (outcome, after) ∧
        AgreesWithCompile some savedSettings input.program ⟨2, .ofList (input.outputs ++ ["y"])⟩
          savedDisk outcome after) ∧
      ((run (.onDisk some) savedWords).run savedDisk).1 = .done := by
  have harguments : Arguments.parse? savedWords = some ⟨"in.json", savedSettings⟩ := by
    decide +kernel
  have hsome : (Input.parse? savedText).isSome := by decide +kernel
  obtain ⟨input, hinput⟩ := Option.isSome_iff_exists.mp hsome
  refine ⟨input, harguments, hinput, ?_, by decide +kernel⟩
  apply run_agrees_with_compile harguments rfl hinput
  · intro _ _ _
    rfl
  · intro _ _ _
    rfl
  · intro file hcode hassembly
    have hne : "out.ir" ≠ "out.s" := by decide
    exact hne (Option.some.inj (hcode.trans hassembly.symm))
  · rfl
  · intro name
    simp [NameSet.ofList, savedSettings]

end Command

end ThreeAddress
