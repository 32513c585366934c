import ThreeAddress.Proofs.LineSteps
import ThreeAddress.Proofs.RegisterCalls

/-!
Assembly with a register for every variable. Nothing is ever given up then: the
variables take the registers in the order in which they first occur and stay there. The
code can be written down without a register file, and it does not depend on how many
registers are left over.
-/

namespace ThreeAddress.Machine

/-- The variables in a line with their roles, in the order in which they get registers. -/
def Line.occurrences (line : Line) : List (String × OperandRole) :=
  line.left.var?.toList.map (·, .left) ++ line.right.var?.toList.map (·, .right) ++
    [(line.dst, .destination)]

def Line.names (line : Line) : List String :=
  line.occurrences.map Prod.fst

/-- As what a variable first occurs in some lines. -/
def firstRole? (lines : List Line) (name : String) : Option OperandRole :=
  ((lines.flatMap Line.occurrences).find? (·.1 = name)).map Prod.snd

/-- The variables of a program, in the order in which they first occur. -/
def Program.order (program : Program) : List String :=
  (program.lines.flatMap Line.names).eraseDups

/-- The register of a variable that has its place in an order. -/
def homeIn (order : List String) (name : String) : Register :=
  ⟨order.idxOf name⟩

namespace Operand

def sourceIn (order : List String) : Operand → Source
  | .imm value => .imm value
  | .var name => .reg (homeIn order name)

/-- A variable is loaded where it occurs for the first time. -/
def loadsIn (order seen : List String) : Operand → List Instr
  | .imm _ => []
  | .var name => if name ∈ seen then [] else [.load (homeIn order name) name]

end Operand

namespace Line

/-- The operation of a line when every variable has its place. -/
def computeIn (line : Line) (order : List String) : List Instr :=
  line.op.compute (homeIn order line.dst) (line.left.sourceIn order) (line.right.sourceIn order)

/-- The instructions of a line when every variable has its place. -/
def instrsIn (line : Line) (order seen : List String) : List Instr :=
  line.left.loadsIn order seen ++ line.right.loadsIn order (seen ++ line.left.var?.toList) ++
    line.computeIn order

end Line

/-- The steps of lines when every variable has its place and some have occurred before. -/
def stepsIn (outputs : NameSet) (order : List String) : Nat → List String → List Line → List Step
  | _, _, [] => []
  | index, seen, line :: rest =>
      ⟨index, line, line.instrsIn order seen, ⟨liveAt outputs (line :: rest), liveAt outputs rest⟩,
        ⟨nextAt index (line :: rest), nextAt (index + 1) rest⟩⟩ ::
      stepsIn outputs order (index + 1) (seen ++ line.names) rest

/-- The code of a program that has a register for every variable. -/
def Program.direct (program : Program) : Assembly where
  steps := stepsIn program.outputs program.order 0 [] program.lines
  epilogue :=
    (program.order.filter fun name =>
      name ∈ program.outputs && program.lines.any (·.dst = name)).map
        fun name => .store name (homeIn program.order name)

section Orders

variable {seen : List String} {name : String}

theorem eraseDups_concat_of_mem (h : name ∈ seen) :
    (seen ++ [name]).eraseDups = seen.eraseDups := by
  simp [List.eraseDups_append, List.removeAll, h]

theorem eraseDups_concat_of_not_mem (h : name ∉ seen) :
    (seen ++ [name]).eraseDups = seen.eraseDups ++ [name] := by
  simp [List.eraseDups_append, List.removeAll, h, List.eraseDups_cons]

theorem eraseDups_isPrefix (seen more : List String) :
    seen.eraseDups <+: (seen ++ more).eraseDups := by
  rw [List.eraseDups_append]
  exact List.prefix_append _ _

end Orders

namespace RegisterFile

variable {file after : RegisterFile} {order seen assigned : List String} {name : String}
  {live : NameSet} {next : NextUse}

/-- The registers hold what has occurred so far, in the order of the first occurrences,
and there are enough for all that is to come. -/
structure InOrder (file : RegisterFile) (order seen assigned : List String) : Prop where
  wellFormed : file.WellFormed
  room : order.length ≤ file.capacity
  slots : file.slots = seen.eraseDups
  dirty : ∀ name, name ∈ file.dirty ↔ name ∈ assigned

namespace InOrder

theorem mem_slots (h : file.InOrder order seen assigned) : name ∈ file.slots ↔ name ∈ seen := by
  rw [h.slots, List.mem_eraseDups]

/-- A variable that has occurred is in its place. -/
theorem holds (h : file.InOrder order seen assigned) (horder : seen.eraseDups <+: order)
    (hname : name ∈ seen) : file.Holds (homeIn order name) name := by
  have hmem := List.mem_eraseDups.mpr hname
  rw [Holds, homeIn, h.slots, ← horder.idxOf_eq_of_mem hmem]
  exact List.getElem?_idxOf hmem

end InOrder

/-- A variable gets its place, and nothing is given up for it. -/
theorem Allocates.inOrder {register : Register} {stores : List Instr}
    (h : file.Allocates name live next register stores after)
    (hfile : file.InOrder order seen assigned) (horder : (seen ++ [name]).eraseDups <+: order) :
    register = homeIn order name ∧ stores = [] ∧ after.InOrder order (seen ++ [name]) assigned := by
  have hafter := h.wellFormed hfile.wellFormed
  have hregister (hin : after.InOrder order (seen ++ [name]) assigned) :
      register = homeIn order name :=
    h.holds_name.register_unique (hin.holds horder (by simp)) hafter
  cases h with
  | held hname =>
    have hseen := hfile.mem_slots.mp (mem_slots_iff.mpr ⟨_, hname⟩)
    have hin : file.InOrder order (seen ++ [name]) assigned :=
      ⟨hafter, hfile.room, hfile.slots.trans (eraseDups_concat_of_mem hseen).symm, hfile.dirty⟩
    exact ⟨hregister hin, rfl, hin⟩
  | free hname _ =>
    have hseen := mt hfile.mem_slots.mpr hname
    have hin : InOrder { file with slots := file.slots ++ [name] } order (seen ++ [name]) assigned :=
      ⟨hafter, hfile.room, by rw [eraseDups_concat_of_not_mem hseen, hfile.slots], hfile.dirty⟩
    exact ⟨hregister hin, rfl, hin⟩
  | evict hname hfull _ _ =>
    have hseen := mt hfile.mem_slots.mpr hname
    have hlength := horder.length_le
    rw [eraseDups_concat_of_not_mem hseen, ← hfile.slots, List.length_append,
      List.length_singleton] at hlength
    have hroom := hfile.room
    omega

theorem AllocatesOperand.inOrder {operand : Operand} {source : Source} {instrs : List Instr}
    (h : file.AllocatesOperand live next operand source instrs after)
    (hfile : file.InOrder order seen assigned)
    (horder : (seen ++ operand.var?.toList).eraseDups <+: order) :
    source = operand.sourceIn order ∧ instrs = operand.loadsIn order seen ∧
      after.InOrder order (seen ++ operand.var?.toList) assigned := by
  cases h with
  | imm value => exact ⟨rfl, rfl, by simpa [Operand.var?] using hfile⟩
  | var h =>
    obtain ⟨rfl, rfl, hafter⟩ := h.inOrder hfile horder
    refine ⟨rfl, ?_, hafter⟩
    simp [Operand.loadsIn, hfile.mem_slots]

/-- The destination is up to date in its register only. -/
theorem InOrder.markDirty (h : file.InOrder order seen assigned) (hname : name ∈ seen) :
    (file.markDirty name).InOrder order seen (assigned ++ [name]) where
  wellFormed := h.wellFormed.markDirty name
  room := (markDirty_capacity file name).symm ▸ h.room
  slots := (markDirty_slots file name).trans h.slots
  dirty other := by
    simp [mem_markDirty_dirty, h.dirty, h.mem_slots, hname]

end RegisterFile

open RegisterFile (InOrder)

variable {file after : RegisterFile} {order seen assigned : List String} {outputs : NameSet}

theorem Line.names_eq (line : Line) :
    line.names = line.left.var?.toList ++ line.right.var?.toList ++ [line.dst] := by
  simp [names, occurrences, Function.comp_def]

/-- A line finds every variable in its place. -/
theorem Line.Assembles.inOrder {line : Line} {live : LiveSpan} {next : NextSpan}
    {instrs : List Instr} (h : line.Assembles live next file instrs after)
    (hfile : file.InOrder order seen assigned) (horder : (seen ++ line.names).eraseDups <+: order) :
    instrs = line.instrsIn order seen ∧
      after.InOrder order (seen ++ line.names) (assigned ++ [line.dst]) := by
  rw [Line.names_eq, ← List.append_assoc, ← List.append_assoc] at horder ⊢
  have hreads := (eraseDups_isPrefix _ _).trans horder
  cases h with
  | intro hleft hright hdst =>
    obtain ⟨rfl, rfl, hfirst⟩ := hleft.inOrder hfile ((eraseDups_isPrefix _ _).trans hreads)
    obtain ⟨rfl, rfl, hsecond⟩ := hright.inOrder hfirst hreads
    obtain ⟨rfl, rfl, hthird⟩ := hdst.inOrder hsecond horder
    exact ⟨by rw [List.append_nil, instrsIn, computeIn], hthird.markDirty (by simp)⟩

/-- All lines do. -/
theorem AssemblesFrom.inOrder {index : Nat} {lines : List Line} {steps : List Step}
    (h : AssemblesFrom outputs index file lines steps after)
    (hfile : file.InOrder order seen assigned)
    (horder : (seen ++ lines.flatMap Line.names).eraseDups <+: order) :
    steps = stepsIn outputs order index seen lines ∧
      after.InOrder order (seen ++ lines.flatMap Line.names) (assigned ++ lines.map Line.dst) := by
  induction h generalizing seen assigned with
  | nil => exact ⟨rfl, by simpa using hfile⟩
  | @cons _ _ _ _ line rest _ _ hline _ ih =>
    rw [List.flatMap_cons, ← List.append_assoc] at horder ⊢
    obtain ⟨rfl, hbetween⟩ := hline.inOrder hfile ((eraseDups_isPrefix _ _).trans horder)
    obtain ⟨rfl, hafter⟩ := ih hbetween horder
    refine ⟨rfl, ?_⟩
    rwa [List.append_assoc assigned] at hafter

namespace RegisterFile

/-- Every name is in the register that has its place among the names. -/
theorem WellFormed.residents_eq (hfile : file.WellFormed) :
    file.residents = file.slots.map fun name => (homeIn file.slots name, name) := by
  apply List.ext_getElem
  · simp [residents]
  · intro index hindex _
    simp [residents, homeIn, hfile.distinct.idxOf_getElem]

theorem InOrder.flush_eq {lines : List Line}
    (h : file.InOrder order seen (lines.map Line.dst)) (horder : seen.eraseDups = order) :
    file.flush outputs =
      (order.filter fun name => name ∈ outputs && lines.any (·.dst = name)).map
        fun name => .store name (homeIn order name) := by
  have hdirty (name : String) : file.isDirty name = lines.any (·.dst = name) := by
    rw [Bool.eq_iff_iff]
    simp [isDirty, h.dirty]
  rw [RegisterFile.flush_eq, h.wellFormed.residents_eq, h.slots, horder, List.filter_map,
    List.map_map]
  simp only [Function.comp_def, hdirty]

end RegisterFile

namespace Program

variable {program : Program} {registers : Nat}

/-- With a register for every variable the code is the direct one. -/
theorem assemble_eq_direct (hregisters : 0 < registers) (henough : program.order.length ≤ registers) :
    program.order.Nodup ∧ program.assemble registers = .ok program.direct := by
  obtain ⟨steps, file, hassemble, h⟩ := program.exists_assembles hregisters
  have hnew : InOrder ⟨registers, [], ∅⟩ program.order [] [] :=
    ⟨RegisterFile.wellFormed_new hregisters, henough, rfl, by simp⟩
  obtain ⟨rfl, hfile⟩ := h.inOrder hnew List.prefix_rfl
  rw [List.nil_append, List.nil_append] at hfile
  refine ⟨?_, ?_⟩
  · have hdistinct := hfile.wellFormed.distinct
    rwa [hfile.slots] at hdistinct
  · rw [hassemble, hfile.flush_eq rfl]
    rfl

end Program

section Loads

variable {name : String}

/-- The instruction loads this variable. -/
def Instr.loads (name : String) : Instr → Bool
  | .load _ other => other = name
  | .store .. | .op .. => false

theorem Op.eq_op_of_mem_compute {op : Op} {dst : Register} {left right : Source} {instr : Instr}
    (h : instr ∈ op.compute dst left right) : instr = .op op dst left right := by
  unfold compute at h
  split at h
  · cases h
  · exact List.mem_singleton.mp h

theorem Operand.eq_load_of_mem_loadsIn {operand : Operand} {instr : Instr}
    (h : instr ∈ operand.loadsIn order seen) :
    ∃ name, operand = .var name ∧ instr = .load (homeIn order name) name := by
  cases operand with
  | imm value => cases h
  | var name =>
    simp only [loadsIn] at h
    split at h
    · cases h
    · exact ⟨name, rfl, List.mem_singleton.mp h⟩

theorem Operand.countP_loadsIn (operand : Operand) :
    (operand.loadsIn order seen).countP (Instr.loads name) =
      if operand.var? = some name ∧ name ∉ seen then 1 else 0 := by
  cases operand with
  | imm value => simp [loadsIn, var?]
  | var other =>
    by_cases hname : other = name
    · subst hname
      by_cases hseen : other ∈ seen <;> simp [loadsIn, var?, Instr.loads, hseen]
    · by_cases hseen : other ∈ seen <;> simp [loadsIn, var?, Instr.loads, hseen, hname]

/-- A line loads a variable that it reads and that has not occurred before. -/
theorem Line.countP_instrsIn (line : Line) :
    (line.instrsIn order seen).countP (Instr.loads name) =
      if (line.left.var? = some name ∨ line.right.var? = some name) ∧ name ∉ seen then 1 else 0 := by
  have hcompute : (line.computeIn order).countP (Instr.loads name) = 0 := by
    rw [List.countP_eq_zero]
    intro instr hmem
    rw [Op.eq_op_of_mem_compute hmem]
    simp [Instr.loads]
  rw [instrsIn, List.countP_append, List.countP_append, hcompute, Operand.countP_loadsIn,
    Operand.countP_loadsIn]
  by_cases hleft : line.left.var? = some name
  · simp [hleft]
  · simp [hleft]

theorem Operand.find?_occurrence (operand : Operand) (role : OperandRole) :
    (operand.var?.toList.map (·, role)).find? (·.1 = name) =
      if operand.var? = some name then some (name, role) else none := by
  cases operand with
  | imm value => simp [var?]
  | var other => by_cases hname : other = name <;> simp [var?, hname]

theorem firstRole?_cons (line : Line) (rest : List Line) (name : String) :
    firstRole? (line :: rest) name =
      if line.left.var? = some name then some .left
      else if line.right.var? = some name then some .right
      else if line.dst = name then some .destination
      else firstRole? rest name := by
  rw [firstRole?, List.flatMap_cons, List.find?_append, Line.occurrences, List.find?_append,
    List.find?_append, Operand.find?_occurrence, Operand.find?_occurrence]
  by_cases hleft : line.left.var? = some name
  · simp [hleft]
  by_cases hright : line.right.var? = some name
  · simp [hleft, hright]
  by_cases hdst : line.dst = name <;> simp [hleft, hright, hdst, firstRole?]

/-- A variable that has not occurred is loaded once if it is first read, and never if it
is first written. -/
theorem countP_stepsIn (lines : List Line) (index : Nat) (seen : List String) :
    ((stepsIn outputs order index seen lines).flatMap Step.instrs).countP (Instr.loads name) =
      if name ∉ seen ∧ firstRole? lines name ∈ [some .left, some .right] then 1 else 0 := by
  induction lines generalizing index seen with
  | nil => simp [stepsIn, firstRole?]
  | cons line rest ih =>
    have hnames : name ∈ line.names ↔
        line.left.var? = some name ∨ line.right.var? = some name ∨ line.dst = name := by
      simp [Line.names_eq, eq_comm]
    rw [stepsIn, List.flatMap_cons, List.countP_append, ih, Line.countP_instrsIn, firstRole?_cons]
    by_cases hseen : name ∈ seen
    · simp [hseen]
    by_cases hleft : line.left.var? = some name
    · simp [hseen, hnames, hleft]
    by_cases hright : line.right.var? = some name
    · simp [hseen, hnames, hleft, hright]
    by_cases hdst : line.dst = name <;> simp [hseen, hnames, hleft, hright, hdst]

end Loads

theorem map_line_stepsIn (lines : List Line) (index : Nat) (seen : List String) :
    (stepsIn outputs order index seen lines).map Step.line = lines := by
  induction lines generalizing index seen with
  | nil => rfl
  | cons line rest ih => rw [stepsIn, List.map_cons, ih]

/-- Every step loads operands into their places and then computes on the places. -/
theorem instrs_of_mem_stepsIn {lines : List Line} {index : Nat} {step : Step}
    (h : step ∈ stepsIn outputs order index seen lines) :
    ∃ loads, step.instrs = loads ++ step.line.computeIn order ∧
      ∀ instr ∈ loads, ∃ name, (step.line.left = .var name ∨ step.line.right = .var name) ∧
        instr = .load (homeIn order name) name := by
  induction lines generalizing index seen with
  | nil => cases h
  | cons line rest ih =>
    rcases List.mem_cons.mp h with rfl | hrest
    · refine ⟨_, rfl, ?_⟩
      intro instr hmem
      rcases List.mem_append.mp hmem with hmem | hmem
      · obtain ⟨name, hleft, hload⟩ := Operand.eq_load_of_mem_loadsIn hmem
        exact ⟨name, .inl hleft, hload⟩
      · obtain ⟨name, hright, hload⟩ := Operand.eq_load_of_mem_loadsIn hmem
        exact ⟨name, .inr hright, hload⟩
    · exact ih hrest

namespace Program

variable {program : Program} {registers : Nat}

theorem dst_mem_order {line : Line} (h : line ∈ program.lines) : line.dst ∈ program.order := by
  rw [order, List.mem_eraseDups]
  exact List.mem_flatMap.mpr ⟨line, h, by simp [Line.names_eq]⟩

theorem mem_epilogue_direct {instr : Instr} :
    instr ∈ program.direct.epilogue ↔ ∃ name ∈ program.outputs,
      (∃ line ∈ program.lines, line.dst = name) ∧
        instr = .store name (homeIn program.order name) := by
  simp only [direct, List.mem_map, List.mem_filter, Bool.and_eq_true, decide_eq_true_eq,
    List.any_eq_true]
  constructor
  · rintro ⟨name, ⟨_, houtput, hassigned⟩, rfl⟩
    exact ⟨name, houtput, hassigned, rfl⟩
  · rintro ⟨name, houtput, ⟨line, hmem, rfl⟩, rfl⟩
    exact ⟨line.dst, ⟨dst_mem_order hmem, houtput, line, hmem, rfl⟩, rfl⟩

/-- If there is a register for every variable, the variables take the registers from
`R0` on in the order in which they first occur, and keep them. No line stores anything,
and a variable is loaded once if it is first read and never if it is first written. At
the end each output that some line assigns is stored once. The number of registers makes
no other difference. -/
theorem assemble_enough_registers (hregisters : 0 < registers)
    (henough : program.order.length ≤ registers) :
    ∃ assembly, program.assemble registers = .ok assembly ∧
      program.order.map (homeIn program.order) =
        (List.range program.order.length).map Register.mk ∧
      assembly.steps.map Step.line = program.lines ∧
      (∀ step ∈ assembly.steps, ∃ loads,
        step.instrs = loads ++ step.line.computeIn program.order ∧
        ∀ instr ∈ loads, ∃ name, (step.line.left = .var name ∨ step.line.right = .var name) ∧
          instr = .load (homeIn program.order name) name) ∧
      (∀ step ∈ assembly.steps, ∀ instr ∈ step.instrs, instr.isStore = false) ∧
      (∀ name, assembly.instrs.countP (Instr.loads name) =
        if firstRole? program.lines name ∈ [some .left, some .right] then 1 else 0) ∧
      (∀ instr ∈ assembly.epilogue, ∃ name ∈ program.outputs,
        (∃ line ∈ program.lines, line.dst = name) ∧
        instr = .store name (homeIn program.order name)) ∧
      (∀ name ∈ program.outputs, (∃ line ∈ program.lines, line.dst = name) →
        assembly.epilogue.count (.store name (homeIn program.order name)) = 1) ∧
      ∀ others, 0 < others → program.order.length ≤ others →
        program.assemble others = .ok assembly := by
  obtain ⟨hnodup, hassemble⟩ := assemble_eq_direct hregisters henough
  refine ⟨program.direct, hassemble, ?_, map_line_stepsIn _ _ _, ?_, ?_, ?_, ?_, ?_, ?_⟩
  · apply List.ext_getElem
    · simp
    · intro index _ _
      simp [homeIn, hnodup.idxOf_getElem]
  · intro step hstep
    exact instrs_of_mem_stepsIn hstep
  · intro step hstep instr hinstr
    obtain ⟨loads, hinstrs, hloads⟩ := instrs_of_mem_stepsIn hstep
    rw [hinstrs, List.mem_append] at hinstr
    rcases hinstr with hload | hcompute
    · obtain ⟨name, _, rfl⟩ := hloads instr hload
      rfl
    · rw [Op.eq_op_of_mem_compute hcompute]
      rfl
  · intro name
    have hepilogue : program.direct.epilogue.countP (Instr.loads name) = 0 := by
      rw [List.countP_eq_zero]
      intro instr hinstr
      obtain ⟨_, _, _, rfl⟩ := mem_epilogue_direct.mp hinstr
      simp [Instr.loads]
    rw [Assembly.instrs, List.countP_append, hepilogue, direct, countP_stepsIn]
    simp
  · exact fun instr => mem_epilogue_direct.mp
  · intro name houtput hassigned
    have hdistinct : program.direct.epilogue.Nodup := by
      refine (hnodup.filter _).map ?_
      intro one other hsame
      exact (Instr.store.inj hsame).1
    exact List.count_eq_one_of_mem hdistinct (mem_epilogue_direct.mpr ⟨name, houtput, hassigned, rfl⟩)
  · intro others hothers hmany
    exact (assemble_eq_direct hothers hmany).2

/-- A variable that is read first and then written twice, one that is written first, and
an output that no line assigns. -/
def squaring : Program :=
  ⟨[.new .mul "x" (.var "x") (.var "x"), .copy "y" (.var "x"), .new .add "x" (.imm 1) (.var "y")],
    .ofList ["x", "z"]⟩

theorem assemble_enough_registers_squaring :
    squaring.order = ["x", "y"] ∧ ∃ assembly, squaring.assemble 2 = .ok assembly ∧
      assembly.instrs.countP (Instr.loads "x") = 1 ∧
      assembly.instrs.countP (Instr.loads "y") = 0 ∧
      assembly.epilogue.count (.store "x" ⟨0⟩) = 1 ∧ squaring.assemble 9 = .ok assembly := by
  have horder : squaring.order = ["x", "y"] := by decide +kernel
  have hlength : squaring.order.length = 2 := congrArg List.length horder
  obtain ⟨assembly, hassemble, _, _, _, _, hloads, _, hstores, hothers⟩ :=
    assemble_enough_registers (by decide : 0 < 2) (Nat.le_of_eq hlength)
  refine ⟨horder, assembly, hassemble, (hloads "x").trans ?_, (hloads "y").trans ?_, ?_,
    hothers 9 (by decide) (by omega)⟩
  · decide +kernel
  · decide +kernel
  · have hhome : homeIn squaring.order "x" = ⟨0⟩ := by decide +kernel
    exact hhome ▸ hstores "x" (by decide +kernel) (by decide +kernel)

end Program

end ThreeAddress.Machine
