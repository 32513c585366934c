import ThreeAddress.Machine.Assembly
import ThreeAddress.Machine.Semantics
import ThreeAddress.Proofs.RegisterFile

/-!
Where values are while a straight-line program runs on registers. Every name that
is in a register has its value there, and in memory too unless it is dirty; a
name that is in no register has its value in memory as long as it is live. Each
step of assembly carries this from one line to the next.
-/

namespace ThreeAddress.Machine

namespace Line

/-- A line whose sets of names are those of its operands and its destination, as
`new`, `copy` and `negate` make them. -/
def IsBuilt (line : Line) : Prop :=
  line = new line.op line.dst line.left line.right

@[simp] theorem isBuilt_new (op : Op) (dst : String) (left right : Operand) :
    (new op dst left right).IsBuilt := rfl

@[simp] theorem isBuilt_copy (dst : String) (source : Operand) : (copy dst source).IsBuilt := rfl

@[simp] theorem isBuilt_negate (dst : String) (source : Operand) :
    (negate dst source).IsBuilt := rfl

variable {line : Line} {name : String}

theorem IsBuilt.mem_refs (h : line.IsBuilt) :
    name ∈ line.refs ↔ line.left = .var name ∨ line.right = .var name := by
  rw [IsBuilt] at h
  rw [h]
  cases line.left <;> cases line.right <;> simp [new, NameSet.ofList, Operand.var?] <;> grind

theorem IsBuilt.mem_defs (h : line.IsBuilt) : name ∈ line.defs ↔ line.dst = name := by
  rw [IsBuilt] at h
  rw [h]
  simp [new, NameSet.ofList]

end Line

theorem liveAt_cons (outputs : NameSet) (line : Line) (rest : List Line) :
    liveAt outputs (line :: rest) = line.liveBefore (liveAt outputs rest) := rfl

/-- Only the destination of a line may be live behind it and not before it. -/
theorem Line.IsBuilt.mem_liveAt_of_ne {outputs : NameSet} {line : Line} {rest : List Line}
    {name : String} (h : line.IsBuilt) (hname : name ∈ liveAt outputs rest)
    (hne : name ≠ line.dst) : name ∈ liveAt outputs (line :: rest) := by
  rw [liveAt_cons, Line.mem_liveBefore, h.mem_defs]
  exact .inr ⟨hname, hne.symm⟩

theorem liveness_cons (outputs : NameSet) (line : Line) (rest : List Line) :
    liveness outputs (line :: rest) =
      ⟨liveAt outputs (line :: rest), liveAt outputs rest⟩ :: liveness outputs rest := by
  apply List.ext_getElem?
  intro i
  rw [liveness_getElem?]
  cases i with
  | zero => simp
  | succ i => simp [liveness_getElem?]

theorem nextUsesFrom_cons (index : Nat) (line : Line) (rest : List Line) :
    nextUsesFrom index (line :: rest) =
      ⟨nextAt index (line :: rest), nextAt (index + 1) rest⟩ :: nextUsesFrom (index + 1) rest := by
  apply List.ext_getElem?
  intro i
  rw [nextUsesFrom_getElem?]
  cases i with
  | zero => simp
  | succ i => simp [nextUsesFrom_getElem?, Nat.add_comm, Nat.add_left_comm]

/-- A name is used by a line that reads it, and behind one that does not write it. -/
theorem mem_uses_nextAt_cons {index use : Nat} {line : Line} {rest : List Line} {name : String} :
    use ∈ (nextAt index (line :: rest)).uses name ↔
      (name ∈ line.refs ∧ use = index) ∨
        (name ∉ line.defs ∧ use ∈ (nextAt (index + 1) rest).uses name) := by
  rw [nextAt, Line.uses_nextBefore, List.mem_append, List.mem_ite_nil_right,
    List.mem_ite_nil_left, List.mem_singleton]

/-- No use comes before the first line. -/
theorem le_of_mem_uses_nextAt {index use : Nat} {lines : List Line} {name : String}
    (h : use ∈ (nextAt index lines).uses name) : index ≤ use := by
  induction lines generalizing index with
  | nil => simp [nextAt] at h
  | cons line rest ih =>
    rcases mem_uses_nextAt_cons.mp h with ⟨_, hown⟩ | ⟨_, hlater⟩
    · omega
    · have hle := ih hlater
      omega

/-- What a line reads is used first by the line itself. -/
theorem first?_nextAt_of_mem_refs {index : Nat} {line : Line} {rest : List Line} {name : String}
    (h : name ∈ line.refs) : (nextAt index (line :: rest)).first? name = some index := by
  simp [NextUse.first?, nextAt, h]

theorem lt_of_first?_nextAt {index use : Nat} {line : Line} {rest : List Line} {name : String}
    (h : name ∉ line.refs) (huse : (nextAt index (line :: rest)).first? name = some use) :
    index < use := by
  rcases mem_uses_nextAt_cons.mp (List.mem_of_head? huse) with ⟨hreads, _⟩ | ⟨_, hlater⟩
  · exact absurd hreads h
  · have hle := le_of_mem_uses_nextAt hlater
    omega

/-- Where the value of one name is: in its register, in memory if the register is
clean, and in memory alone if there is no register and the name is live. -/
structure RegisterFile.Locates (file : RegisterFile) (live : NameSet) (state : State)
    (memory : Memory) (name : String) : Prop where
  held : ∀ register, file.Holds register name → state.registers register = memory name
  clean : name ∈ file.slots → name ∉ file.dirty → state.memory name = memory name
  saved : name ∉ file.slots → name ∈ live → state.memory name = memory name

/-- The state of the machine stands for the memory of the lines: every name is
located, and names that are never assigned are as they were. -/
structure Tracks (assigned : String → Prop) (original : Memory) (file : RegisterFile)
    (live : NameSet) (state : State) (memory : Memory) : Prop where
  located : ∀ name, file.Locates live state memory name
  dirty_assigned : ∀ name ∈ file.dirty, assigned name
  untouched : ∀ name, ¬ assigned name → state.memory name = original name

variable {arithmetic : Arithmetic} {assigned : String → Prop} {original : Memory}
  {file after : RegisterFile} {live later : NameSet} {state : State} {memory : Memory}
  {register : Register} {name : String} {next : NextUse} {stores : List Instr}

theorem runInstrs_append (state : State) (first second : List Instr) :
    runInstrs arithmetic state (first ++ second) =
      (runInstrs arithmetic state first).bind (runInstrs arithmetic · second) := by
  unfold runInstrs
  exact List.foldlM_append

/-- A register that is reused is saved first if memory needs its value. -/
theorem RegisterFile.Holds.run_spill {old : String} (hold : file.Holds register old) :
    runInstrs arithmetic state (file.spill register live) =
      some { state with
        memory := if old ∈ file.dirty ∧ old ∈ live then
          state.memory.set old (state.registers register) else state.memory } := by
  rw [RegisterFile.spill_eq hold]
  split <;> rfl

/-- What a reused register held is in memory as far as it is needed. -/
theorem RegisterFile.Locates.run_spill_memory {old : String}
    (h : file.Locates live state memory old) (hold : file.Holds register old) (hlater : old ∈ later) :
    (if old ∈ file.dirty ∧ old ∈ later then state.memory.set old (state.registers register)
      else state.memory) old = memory old := by
  by_cases hdirty : old ∈ file.dirty
  · simp [hdirty, hlater, Memory.set, h.held register hold]
  · simp only [hdirty, false_and, if_false]
    exact h.clean (RegisterFile.mem_slots_iff.mpr ⟨register, hold⟩) hdirty

/-- Reusing a register keeps all names located but the one that gets it. -/
theorem Tracks.evicts {old : String} (htracks : Tracks assigned original file live state memory)
    (hfile : file.WellFormed) (hold : file.Holds register old)
    (h : file.Allocates name later next register stores (file.rebind register name))
    (hlater : ∀ other ∈ later, other ≠ name → other ∈ live) {other : String} (hne : other ≠ name) :
    (file.rebind register name).Locates later { state with
      memory := if old ∈ file.dirty ∧ old ∈ later then
        state.memory.set old (state.registers register) else state.memory } memory other := by
  have hlocated := htracks.located other
  by_cases heq : other = old
  · subst heq
    have hgone : other ∉ (file.rebind register name).slots := by
      intro hslots
      obtain ⟨holder, hholder⟩ := RegisterFile.mem_slots_iff.mp hslots
      have hsame := (h.holds_before hholder hne).register_unique hold hfile
      subst hsame
      exact hne (hholder.name_unique h.holds_name)
    refine ⟨?_, fun hslots => absurd hslots hgone, fun _ => hlocated.run_spill_memory hold⟩
    intro holder hholder
    exact absurd (RegisterFile.mem_slots_iff.mpr ⟨holder, hholder⟩) hgone
  · have hmemory : (if old ∈ file.dirty ∧ old ∈ later then
        state.memory.set old (state.registers register) else state.memory) other =
        state.memory other := by
      split
      · simp [Memory.set, heq]
      · rfl
    refine ⟨fun holder hholder => hlocated.held holder (h.holds_before hholder hne), ?_, ?_⟩
    · intro hslots hclean
      obtain ⟨holder, hholder⟩ := RegisterFile.mem_slots_iff.mp hslots
      have hheld := RegisterFile.mem_slots_iff.mpr ⟨holder, h.holds_before hholder hne⟩
      refine hmemory.trans (hlocated.clean hheld ?_)
      intro hdirty
      exact hclean ((RegisterFile.mem_rebind_dirty hold).mpr ⟨hdirty, heq⟩)
    · intro hslots hlive
      refine hmemory.trans (hlocated.saved ?_ (hlater other hlive hne))
      intro hheld
      obtain ⟨holder, hholder⟩ := RegisterFile.mem_slots_iff.mp hheld
      have hregister : register ≠ holder := by
        rintro rfl
        exact heq (hholder.name_unique hold)
      apply hslots
      exact RegisterFile.mem_slots_iff.mpr
        ⟨holder, (RegisterFile.holds_rebind_of_ne hregister).mpr hholder⟩

/-- While a register is found for a name, all other names stay located. What is
live may already be what is needed afterwards. -/
theorem Tracks.allocates (htracks : Tracks assigned original file live state memory)
    (hfile : file.WellFormed) (h : file.Allocates name later next register stores after)
    (hlater : ∀ other ∈ later, other ≠ name → other ∈ live) :
    ∃ middle, runInstrs arithmetic state stores = some middle ∧
      middle.registers = state.registers ∧
      middle.memory name = state.memory name ∧
      (∀ other, ¬ assigned other → middle.memory other = original other) ∧
      ∀ other, other ≠ name → after.Locates later middle memory other := by
  have hallocates := h
  cases h with
  | held hname =>
    refine ⟨state, rfl, rfl, rfl, htracks.untouched, ?_⟩
    intro other hne
    have hother := htracks.located other
    exact ⟨hother.held, hother.clean, fun hslots hlive => hother.saved hslots (hlater other hlive hne)⟩
  | free hname hfree =>
    refine ⟨state, rfl, rfl, rfl, htracks.untouched, ?_⟩
    intro other hne
    have hother := htracks.located other
    have hslots : other ∈ file.slots ++ [name] ↔ other ∈ file.slots := by
      simp [hne]
    exact ⟨fun holder hholds => hother.held holder (hallocates.holds_before hholds hne),
      fun hheld => hother.clean (hslots.mp hheld),
      fun hfree hlive => hother.saved (mt hslots.mpr hfree) (hlater other hlive hne)⟩
  | @evict _ old hname hfull hvictim hold =>
    refine ⟨_, hold.run_spill, rfl, ?_, ?_, ?_⟩
    · have hne : name ≠ old := by
        rintro rfl
        exact hname (RegisterFile.mem_slots_iff.mpr ⟨register, hold⟩)
      split
      · simp [Memory.set, hne]
      · rfl
    · intro other hother
      split
      next hstored =>
        have hne : other ≠ old := by
          rintro rfl
          exact hother (htracks.dirty_assigned other hstored.1)
        simp [Memory.set, hne, htracks.untouched other hother]
      next => exact htracks.untouched other hother
    · intro other hne
      exact htracks.evicts hfile hold hallocates hlater hne

/-- Writing a register moves no name but the one it holds. -/
theorem RegisterFile.Locates.setRegister {other : String}
    (h : file.Locates live state memory other) (hname : file.Holds register name)
    (hne : other ≠ name) (value : Int) :
    file.Locates live (state.setRegister register value) memory other := by
  refine ⟨?_, h.clean, h.saved⟩
  intro holder hholder
  have hregister : holder ≠ register := by
    rintro rfl
    exact hne (hholder.name_unique hname)
  simp only [State.setRegister, hregister, if_false]
  exact h.held holder hholder

/-- Loading a name from memory locates it. -/
theorem Tracks.load (hfile : after.WellFormed) (hname : after.Holds register name)
    (hothers : ∀ other, other ≠ name → after.Locates live state memory other)
    (hassigned : ∀ other ∈ after.dirty, assigned other)
    (huntouched : ∀ other, ¬ assigned other → state.memory other = original other)
    (hmemory : state.memory name = memory name) :
    Tracks assigned original after live (state.setRegister register (state.memory name)) memory := by
  refine ⟨?_, hassigned, huntouched⟩
  intro other
  by_cases heq : other = name
  · subst heq
    refine ⟨?_, fun _ _ => hmemory, fun _ _ => hmemory⟩
    intro holder hholder
    rw [hholder.register_unique hname hfile]
    simpa [State.setRegister] using hmemory
  · exact (hothers other heq).setRegister hname heq _

/-- Writing the destination of a line locates it, and makes it dirty. -/
theorem Tracks.assign (hfile : after.WellFormed) (hname : after.Holds register name)
    (hothers : ∀ other, other ≠ name → after.Locates live state memory other)
    (hassigned : ∀ other ∈ after.dirty, assigned other) (hdst : assigned name)
    (huntouched : ∀ other, ¬ assigned other → state.memory other = original other)
    (value : Int) :
    Tracks assigned original (after.markDirty name) live (state.setRegister register value)
      (memory.set name value) := by
  have hslots : name ∈ after.slots := RegisterFile.mem_slots_iff.mpr ⟨register, hname⟩
  refine ⟨?_, ?_, huntouched⟩
  · intro other
    by_cases heq : other = name
    · subst heq
      refine ⟨?_, ?_, ?_⟩
      · intro holder hholder
        rw [RegisterFile.Holds, RegisterFile.markDirty_slots] at hholder
        rw [RegisterFile.Holds.register_unique hholder hname hfile]
        simp [State.setRegister, Memory.set]
      · intro _ hclean
        exact absurd (RegisterFile.mem_markDirty_dirty.mpr (.inr ⟨rfl, hslots⟩)) hclean
      · intro hfree
        rw [RegisterFile.markDirty_slots] at hfree
        exact absurd hslots hfree
    · have hother := (hothers other heq).setRegister hname heq value
      have hvalue : memory.set name value other = memory other := by
        simp [Memory.set, heq]
      refine ⟨?_, ?_, ?_⟩
      · intro holder hholder
        rw [RegisterFile.Holds, RegisterFile.markDirty_slots] at hholder
        rw [hvalue]
        exact hother.held holder hholder
      · intro hheld hclean
        rw [RegisterFile.markDirty_slots] at hheld
        rw [hvalue]
        apply hother.clean hheld
        intro hdirty
        exact hclean (RegisterFile.mem_markDirty_dirty.mpr (.inl hdirty))
      · intro hfree
        rw [RegisterFile.markDirty_slots] at hfree
        rw [hvalue]
        exact hother.saved hfree
  · intro other hdirty
    rcases RegisterFile.mem_markDirty_dirty.mp hdirty with hold | ⟨rfl, _⟩
    · exact hassigned other hold
    · exact hdst

/-- Instructions carry what a register file knows past a change of memory: they
are completed exactly if that is defined, and every name is located again. -/
def Carries (arithmetic : Arithmetic) (assigned : String → Prop) (instrs : List Instr)
    (file : RegisterFile) (live : NameSet) (after : RegisterFile) (later : NameSet)
    (effect : Memory → Option Memory) : Prop :=
  ∀ ⦃original state memory⦄, Tracks assigned original file live state memory →
    Option.Rel (Tracks assigned original after later) (runInstrs arithmetic state instrs)
      (effect memory)

theorem Carries.refl (file : RegisterFile) (live : NameSet) :
    Carries arithmetic assigned [] file live file live some :=
  fun _ _ _ htracks => .some htracks

theorem Carries.append {between : RegisterFile} {middle : NameSet} {first second : List Instr}
    {effect further : Memory → Option Memory}
    (hfirst : Carries arithmetic assigned first file live between middle effect)
    (hsecond : Carries arithmetic assigned second between middle after later further) :
    Carries arithmetic assigned (first ++ second) file live after later
      fun memory => (effect memory).bind further := by
  intro original state memory htracks
  rw [runInstrs_append]
  exact rel_bind (hfirst htracks) fun _ _ hmiddle => hsecond hmiddle

/-- A register supplies the operand of a line. -/
def RegisterFile.Supplies (file : RegisterFile) : Operand → Source → Prop
  | .imm value, .imm constant => constant = value
  | .var name, .reg register => file.Holds register name
  | .imm _, .reg _ | .var _, .imm _ => False

theorem RegisterFile.Supplies.eval_eq {operand : Operand} {source : Source}
    (h : file.Supplies operand source) (htracks : Tracks assigned original file live state memory) :
    source.eval state.registers = operand.eval memory := by
  cases operand with
  | imm value =>
    cases source with
    | imm constant => exact congrArg Int64.toInt h
    | reg register => exact h.elim
  | var name =>
    cases source with
    | imm constant => exact h.elim
    | reg register => exact (htracks.located name).held register h

end ThreeAddress.Machine
