import Mathlib.Logic.Equiv.Basic
import ThreeAddress.Proofs.LineSteps

/-!
Names make no difference to assembly. Sets of names are kept in the order of the names,
and yet nothing but equality of names decides what is done: with all names exchanged for
others, one for one, the analyses find the same, the registers are taken and reused in the
same order, and the instructions are the same but for the names in loads and stores. Every
step of assembly commutes with renaming, and so does a whole run.
-/

namespace ThreeAddress

/-- The set with all its names renamed. -/
def NameSet.rename (names : NameSet) (f : String → String) : NameSet :=
  .ofList (names.toList.map f)

theorem NameSet.mem_rename {names : NameSet} {f : String → String} {name : String} :
    name ∈ names.rename f ↔ ∃ old ∈ names, f old = name := by
  simp [rename, ofList]

theorem NameSet.rename_ofList (names : List String) (f : String → String) :
    (NameSet.ofList names).rename f = .ofList (names.map f) := by
  apply Std.ExtTreeSet.ext_mem
  intro name
  simp [mem_rename, ofList]

theorem NameSet.rename_insert (names : NameSet) (name : String) (f : String → String) :
    NameSet.rename (names.insert name) f = (names.rename f).insert (f name) := by
  apply Std.ExtTreeSet.ext_mem
  intro other
  simp only [mem_rename, Std.ExtTreeSet.mem_insert, Std.LawfulEqCmp.compare_eq_iff_eq]
  constructor
  · rintro ⟨old, rfl | hold, rfl⟩
    · exact .inl rfl
    · exact .inr ⟨old, hold, rfl⟩
  · rintro (rfl | ⟨old, hold, rfl⟩)
    · exact ⟨name, .inl rfl, rfl⟩
    · exact ⟨old, .inr hold, rfl⟩

namespace Machine

def Operand.rename (operand : Operand) (f : String → String) : Operand :=
  match operand with
  | .imm value => .imm value
  | .var name => .var (f name)

/-- The line with all its names renamed, also those in its sets. -/
def Line.rename (line : Line) (f : String → String) : Line :=
  { op := line.op
    dst := f line.dst
    left := line.left.rename f
    right := line.right.rename f
    refs := line.refs.rename f
    defs := line.defs.rename f }

@[simp] theorem Line.refs_rename (line : Line) (f : String → String) :
    (line.rename f).refs = line.refs.rename f := rfl

@[simp] theorem Line.defs_rename (line : Line) (f : String → String) :
    (line.rename f).defs = line.defs.rename f := rfl

def Program.rename (program : Program) (f : String → String) : Program :=
  ⟨program.lines.map (·.rename f), program.outputs.rename f⟩

/-- The instruction with the name that it loads or stores renamed. -/
def Instr.rename (instr : Instr) (f : String → String) : Instr :=
  match instr with
  | .load register name => .load register (f name)
  | .store name register => .store (f name) register
  | .op operation dst left right => .op operation dst left right

def RegisterFile.rename (file : RegisterFile) (f : String → String) : RegisterFile :=
  ⟨file.capacity, file.slots.map f, file.dirty.rename f⟩

@[simp] theorem RegisterFile.slots_rename (file : RegisterFile) (f : String → String) :
    (file.rename f).slots = file.slots.map f := rfl

/-- What finding a register gives, with all names renamed. -/
def RegisterFile.renameResult {α : Type} (f : String → String)
    (result : α × List Instr × RegisterFile) : α × List Instr × RegisterFile :=
  (result.1, result.2.1.map (·.rename f), result.2.2.rename f)

/-- The same names are live on either side, but for renaming. -/
structure LiveSpan.RenamedBy (f : String → String) (live renamed : LiveSpan) : Prop where
  before : ∀ name, f name ∈ renamed.before ↔ name ∈ live.before
  after : ∀ name, f name ∈ renamed.after ↔ name ∈ live.after

/-- Names are used next by the same lines, but for renaming. -/
structure NextSpan.RenamedBy (f : String → String) (next renamed : NextSpan) : Prop where
  before : ∀ name, renamed.before.uses (f name) = next.before.uses name
  after : ∀ name, renamed.after.uses (f name) = next.after.uses name

/-- Renaming a line is making it from renamed parts. -/
theorem Line.rename_new (op : Op) (dst : String) (left right : Operand) (f : String → String) :
    (Line.new op dst left right).rename f =
      Line.new op (f dst) (left.rename f) (right.rename f) := by
  have hrefs : ([left, right].filterMap Operand.var?).map f =
      [left.rename f, right.rename f].filterMap Operand.var? := by
    cases left <;> cases right <;> rfl
  simp only [Line.rename, Line.new, NameSet.rename_ofList, hrefs, List.map_cons, List.map_nil]

end Machine

/-- Operations have no names in them. -/
theorem Machine.Op.rename_compute (op : Machine.Op) (dst : Machine.Register)
    (left right : Machine.Source) (f : String → String) :
    (op.compute dst left right).map (·.rename f) = op.compute dst left right := by
  unfold Op.compute
  split <;> rfl

/-- The instructions of a line, put together from those for its parts. -/
theorem Machine.Line.assemble_eq_ok {line : Line} {live : LiveSpan} {next : NextSpan}
    {file first second third : RegisterFile} {left right : Source} {dst : Register}
    {loadLeft loadRight stores : List Instr}
    (hleft : file.allocateOperand line.left live.before next.before true =
      .ok (left, loadLeft, first))
    (hright : first.allocateOperand line.right live.before next.before true =
      .ok (right, loadRight, second))
    (hdst : second.allocate line.dst live.after next.after false = .ok (dst, stores, third)) :
    line.assemble live next file =
      .ok (loadLeft ++ loadRight ++ stores ++ line.op.compute dst left right,
        third.markDirty line.dst) := by
  simp only [Line.assemble, hleft, ok_bind, hright, hdst]
  rfl

section Injective

variable {f : String → String} (hf : Function.Injective f)

include hf

theorem NameSet.mem_rename_of_injective {names : NameSet} {name : String} :
    f name ∈ names.rename f ↔ name ∈ names := by
  rw [mem_rename]
  constructor
  · rintro ⟨old, hold, heq⟩
    exact hf heq ▸ hold
  · intro hname
    exact ⟨name, hname, rfl⟩

theorem NameSet.rename_erase (names : NameSet) (name : String) :
    NameSet.rename (names.erase name) f = (names.rename f).erase (f name) := by
  apply Std.ExtTreeSet.ext_mem
  intro other
  simp only [mem_rename, Std.ExtTreeSet.mem_erase, ne_eq, Std.LawfulEqCmp.compare_eq_iff_eq]
  constructor
  · rintro ⟨old, ⟨hne, hold⟩, rfl⟩
    exact ⟨fun heq => hne (hf heq), old, hold, rfl⟩
  · rintro ⟨hne, old, hold, rfl⟩
    exact ⟨old, ⟨fun heq => hne (congrArg f heq), hold⟩, rfl⟩

namespace Machine

/-- A renamed name is live where the name was. -/
theorem mem_liveAt_rename (outputs : NameSet) (lines : List Line) (name : String) :
    f name ∈ liveAt (outputs.rename f) (lines.map (·.rename f)) ↔ name ∈ liveAt outputs lines := by
  induction lines with
  | nil => exact NameSet.mem_rename_of_injective hf
  | cons line rest ih =>
    rw [List.map_cons, liveAt_cons, liveAt_cons, Line.mem_liveBefore, Line.mem_liveBefore, ih]
    simp only [Line.refs_rename, Line.defs_rename, NameSet.mem_rename_of_injective hf]

theorem uses_nextAt_rename (index : Nat) (lines : List Line) (name : String) :
    (nextAt index (lines.map (·.rename f))).uses (f name) = (nextAt index lines).uses name := by
  induction lines generalizing index with
  | nil => simp [nextAt]
  | cons line rest ih =>
    simp only [List.map_cons, nextAt, Line.uses_nextBefore, ih, Line.refs_rename,
      Line.defs_rename, NameSet.mem_rename_of_injective hf]

namespace RegisterFile

theorem registerOf?_rename (file : RegisterFile) (name : String) :
    (file.rename f).registerOf? (f name) = file.registerOf? name := by
  have hsame : (fun other => other == f name) ∘ f = fun other => other == name := by
    funext other
    simp [hf.eq_iff]
  rw [registerOf?, registerOf?, rename, List.idxOf?, List.findIdx?_map, hsame]
  rfl

omit hf in
/-- The register to reuse is picked by next uses and order alone. -/
theorem victim?_rename (file : RegisterFile) {next renamed : NextUse}
    (hnext : ∀ name, renamed.uses (f name) = next.uses name) :
    (file.rename f).victim? renamed = file.victim? next := by
  have hfirst : renamed.first? ∘ f = next.first? := by
    funext name
    simp [NextUse.first?, hnext]
  have hunused : (fun name => (renamed.first? name).isNone) ∘ f =
      fun name => (next.first? name).isNone := by
    funext name
    simp [NextUse.first?, hnext]
  rw [victim?_eq, victim?_eq, slots_rename, List.findIdx?_map, List.filterMap_map, hfirst,
    hunused]

theorem isDirty_rename (file : RegisterFile) (name : String) :
    (file.rename f).isDirty (f name) = file.isDirty name := by
  simp only [isDirty, rename, NameSet.mem_rename_of_injective hf]

theorem spill_rename (file : RegisterFile) (register : Register) {live renamed : NameSet}
    (hlive : ∀ name, f name ∈ renamed ↔ name ∈ live) :
    (file.rename f).spill register renamed = (file.spill register live).map (·.rename f) := by
  unfold spill
  rw [slots_rename, List.getElem?_map]
  cases file.slots[register.index]? with
  | none => rfl
  | some old =>
    simp only [Option.map_some, isDirty_rename hf, hlive]
    split <;> rfl

theorem rebind_rename (file : RegisterFile) (register : Register) (name : String) :
    (file.rename f).rebind register (f name) = (file.rebind register name).rename f := by
  unfold rebind
  rw [slots_rename, List.getElem?_map]
  cases file.slots[register.index]? with
  | none => simp [rename]
  | some old => simp [rename, NameSet.rename_erase hf]

theorem markDirty_rename (file : RegisterFile) (name : String) :
    (file.rename f).markDirty (f name) = (file.markDirty name).rename f := by
  have hmem : f name ∈ (file.rename f).slots ↔ name ∈ file.slots := by
    simp [hf.eq_iff]
  unfold markDirty
  by_cases hname : name ∈ file.slots
  · rw [if_pos (hmem.mpr hname), if_pos hname]
    simp only [rename, NameSet.rename_insert]
  · rw [if_neg (mt hmem.mp hname), if_neg hname]

variable {live liveRenamed : NameSet} {next nextRenamed : NextUse}

theorem allocate_rename (file : RegisterFile) (name : String)
    (hlive : ∀ name, f name ∈ liveRenamed ↔ name ∈ live)
    (hnext : ∀ name, nextRenamed.uses (f name) = next.uses name) (load : Bool) :
    (file.rename f).allocate (f name) liveRenamed nextRenamed load =
      (file.allocate name live next load).map (renameResult f) := by
  have hfetch (register : Register) : (if load then [Instr.load register (f name)] else []) =
      (if load then [Instr.load register name] else []).map (·.rename f) := by
    cases load <;> rfl
  unfold allocate
  simp only [registerOf?_rename hf, victim?_rename file hnext, spill_rename hf file _ hlive,
    rebind_rename hf, hfetch, slots_rename, List.length_map]
  cases file.registerOf? name with
  | some register => rfl
  | none =>
    by_cases hfree : file.slots.length < file.capacity
    · rw [if_pos hfree, if_pos (show _ < (file.rename f).capacity from hfree)]
      simp [Except.map, renameResult, rename]
    · rw [if_neg hfree, if_neg (show ¬ _ < (file.rename f).capacity from hfree)]
      cases file.victim? next with
      | none => rfl
      | some register => simp [Except.map, renameResult]

theorem allocateOperand_rename (file : RegisterFile) (operand : Operand)
    (hlive : ∀ name, f name ∈ liveRenamed ↔ name ∈ live)
    (hnext : ∀ name, nextRenamed.uses (f name) = next.uses name) (load : Bool) :
    (file.rename f).allocateOperand (operand.rename f) liveRenamed nextRenamed load =
      (file.allocateOperand operand live next load).map (renameResult f) := by
  cases operand with
  | imm value => rfl
  | var name =>
    simp only [allocateOperand, Operand.rename, allocate_rename hf file name hlive hnext]
    cases file.allocate name live next load <;> rfl

/-- The last stores are the same, register by register. -/
theorem flush_rename (file : RegisterFile) (outputs : NameSet) :
    (file.rename f).flush (outputs.rename f) = (file.flush outputs).map (·.rename f) := by
  unfold flush residents
  rw [slots_rename, List.zipIdx_map, List.map_map, List.filterMap_map, List.filterMap_map,
    List.map_filterMap]
  congr 1
  funext entry
  simp only [Function.comp_apply, Prod.map_fst, Prod.map_snd, id_eq, isDirty_rename hf,
    NameSet.mem_rename_of_injective hf]
  split <;> rfl

end RegisterFile

/-- A line takes the same instructions under other names. -/
theorem Line.exists_assemble_rename (line : Line) {live liveRenamed : LiveSpan}
    {next nextRenamed : NextSpan} {file : RegisterFile} (hfile : file.WellFormed)
    (hlive : live.RenamedBy f liveRenamed) (hnext : next.RenamedBy f nextRenamed) :
    ∃ instrs after, line.assemble live next file = .ok (instrs, after) ∧
      (line.rename f).assemble liveRenamed nextRenamed (file.rename f) =
        .ok (instrs.map (·.rename f), after.rename f) ∧ after.WellFormed := by
  obtain ⟨left, loadLeft, first, hleft, hfirst⟩ :=
    RegisterFile.exists_allocatesOperand hfile line.left live.before next.before
  have hfirstFile := hfirst.wellFormed hfile
  obtain ⟨right, loadRight, second, hright, hsecond⟩ :=
    RegisterFile.exists_allocatesOperand hfirstFile line.right live.before next.before
  have hsecondFile := hsecond.wellFormed hfirstFile
  obtain ⟨dst, stores, third, hthird, hdst⟩ :=
    RegisterFile.exists_allocates hsecondFile line.dst live.after next.after
  have hleftRenamed : (file.rename f).allocateOperand (line.left.rename f) liveRenamed.before
      nextRenamed.before true = .ok (left, loadLeft.map (·.rename f), first.rename f) := by
    rw [RegisterFile.allocateOperand_rename hf file line.left hlive.before hnext.before, hleft]
    rfl
  have hrightRenamed : (first.rename f).allocateOperand (line.right.rename f) liveRenamed.before
      nextRenamed.before true = .ok (right, loadRight.map (·.rename f), second.rename f) := by
    rw [RegisterFile.allocateOperand_rename hf first line.right hlive.before hnext.before,
      hright]
    rfl
  have hdstRenamed : (second.rename f).allocate (f line.dst) liveRenamed.after nextRenamed.after
      false = .ok (dst, stores.map (·.rename f), third.rename f) := by
    rw [RegisterFile.allocate_rename hf second line.dst hlive.after hnext.after, hdst]
    simp [Except.map, RegisterFile.renameResult]
  have hplain : second.allocate line.dst live.after next.after false = .ok (dst, stores, third) := by
    simp [hdst]
  refine ⟨_, _, assemble_eq_ok hleft hright hplain, ?_,
    (hthird.wellFormed hsecondFile).markDirty line.dst⟩
  rw [assemble_eq_ok hleftRenamed hrightRenamed hdstRenamed]
  simp only [List.map_append, Op.rename_compute, ← RegisterFile.markDirty_rename hf]
  rfl

/-- Two runs side by side, over lines and over the same lines renamed. -/
theorem exists_assembleFrom_rename (outputs : NameSet) (lines : List Line) {file : RegisterFile}
    (hfile : file.WellFormed) (index : Nat) :
    ∃ steps renamed after,
      assembleFrom index file
        (lines.zip ((liveness outputs lines).zip (nextUsesFrom index lines))) =
          .ok (steps, after) ∧
      assembleFrom index (file.rename f) ((lines.map (·.rename f)).zip
        ((liveness (outputs.rename f) (lines.map (·.rename f))).zip
          (nextUsesFrom index (lines.map (·.rename f))))) = .ok (renamed, after.rename f) ∧
      renamed.map Step.instrs = steps.map fun step => step.instrs.map (·.rename f) := by
  induction lines generalizing file index with
  | nil => exact ⟨[], [], file, rfl, rfl, rfl⟩
  | cons line rest ih =>
    have hlive : LiveSpan.RenamedBy f ⟨liveAt outputs (line :: rest), liveAt outputs rest⟩
        ⟨liveAt (outputs.rename f) ((line :: rest).map (·.rename f)),
          liveAt (outputs.rename f) (rest.map (·.rename f))⟩ :=
      ⟨mem_liveAt_rename hf outputs _, mem_liveAt_rename hf outputs _⟩
    have hnext : NextSpan.RenamedBy f ⟨nextAt index (line :: rest), nextAt (index + 1) rest⟩
        ⟨nextAt index ((line :: rest).map (·.rename f)),
          nextAt (index + 1) (rest.map (·.rename f))⟩ :=
      ⟨uses_nextAt_rename hf _ _, uses_nextAt_rename hf _ _⟩
    obtain ⟨instrs, between, hassemble, hrenamed, hbetween⟩ :=
      line.exists_assemble_rename hf hfile hlive hnext
    obtain ⟨steps, renamed, after, hsteps, hrest, hsame⟩ := ih hbetween (index + 1)
    exact ⟨_, _, after, assembleFrom_cons hassemble hsteps, assembleFrom_cons hrenamed hrest,
      by rw [List.map_cons, List.map_cons, hsame]⟩

end Machine

end Injective

namespace Machine.Program

/-- Assembly does not depend on names. A program and the same program under other names, one
for one, are both assembled, and the instructions of each step and at the end are the same,
with the other names in loads and stores. -/
theorem assemble_rename (program : Program) {registers : Nat} (hregisters : 0 < registers)
    {f : String → String} (hf : Function.Injective f) :
    ∃ assembly renamed, program.assemble registers = .ok assembly ∧
      (program.rename f).assemble registers = .ok renamed ∧
      renamed.steps.map Step.instrs =
        assembly.steps.map (fun step => step.instrs.map (·.rename f)) ∧
      renamed.epilogue = assembly.epilogue.map (·.rename f) := by
  obtain ⟨steps, renamed, file, hsteps, hrenamed, hsame⟩ :=
    exists_assembleFrom_rename hf program.outputs program.lines
      (RegisterFile.wellFormed_new hregisters) 0
  refine ⟨⟨steps, file.flush program.outputs⟩,
    ⟨renamed, (file.rename f).flush (program.outputs.rename f)⟩, ?_, ?_, hsame, ?_⟩
  · simp only [assemble, RegisterFile.new_of_pos hregisters, ok_bind, annotated, nextUses, hsteps]
    rfl
  · have hempty : RegisterFile.rename ⟨registers, [], ∅⟩ f = ⟨registers, [], ∅⟩ := rfl
    rw [hempty] at hrenamed
    simp only [assemble, RegisterFile.new_of_pos hregisters, ok_bind, annotated, nextUses, rename,
      hrenamed]
    rfl
  · exact RegisterFile.flush_rename hf file program.outputs

/-- The first product has to make room for the operands of the second line. -/
def competing : Program :=
  ⟨[.new .mul "t" (.var "a") (.var "b"), .new .min "u" (.var "c") (.var "d"),
    .new .add "v" (.var "t") (.var "u")], .ofList ["v"]⟩

theorem assemble_rename_competing :
    0 < 2 ∧ Function.Injective (Equiv.swap "c" "t") ∧
    competing.rename (Equiv.swap "c" "t") =
      ⟨[.new .mul "c" (.var "a") (.var "b"), .new .min "u" (.var "t") (.var "d"),
        .new .add "v" (.var "c") (.var "u")], .ofList ["v"]⟩ ∧
    ∃ assembly renamed, competing.assemble 2 = .ok assembly ∧
      (competing.rename (Equiv.swap "c" "t")).assemble 2 = .ok renamed ∧
      assembly.storeCount = 2 ∧
      renamed.steps.map Step.instrs =
        assembly.steps.map (fun step => step.instrs.map (·.rename (Equiv.swap "c" "t"))) ∧
      renamed.epilogue = assembly.epilogue.map (·.rename (Equiv.swap "c" "t")) := by
  have hinjective : Function.Injective (Equiv.swap "c" "t") := (Equiv.swap "c" "t").injective
  obtain ⟨assembly, renamed, hassembly, hrenamed, hsteps, hepilogue⟩ :=
    assemble_rename competing (Nat.two_pos) hinjective
  have hstores : (competing.assemble 2).toOption.map Assembly.storeCount = some 2 := by
    decide +kernel
  rw [hassembly] at hstores
  refine ⟨Nat.two_pos, hinjective, ?_, assembly, renamed, hassembly, hrenamed,
    Option.some.inj hstores, hsteps, hepilogue⟩
  simp only [competing, rename, List.map_cons, List.map_nil, Line.rename_new,
    NameSet.rename_ofList]
  rfl

end Machine.Program

end ThreeAddress
