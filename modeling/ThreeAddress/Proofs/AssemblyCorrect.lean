import ThreeAddress.Proofs.LineSteps

/-!
Assembly preserves meaning. The operands of a line are in registers of their own
when its operation runs, since the one that was fetched first is needed before
all other names. Line by line the machine keeps standing for the memory of the
lines, and the last stores bring the outputs to memory.
-/

namespace ThreeAddress.Machine

variable {arithmetic : Arithmetic} {assigned : String → Prop} {original : Memory}
  {file after : RegisterFile} {live later outputs : NameSet} {state : State} {memory : Memory}
  {register : Register} {next : NextUse} {stores : List Instr}

/-- An operand is brought into a register without a change of memory. -/
theorem RegisterFile.AllocatesOperand.carries {operand : Operand} {source : Source}
    {instrs : List Instr} (h : file.AllocatesOperand live next operand source instrs after)
    (hfile : file.WellFormed) (hlive : ∀ name, operand = .var name → name ∈ live) :
    Carries arithmetic assigned instrs file live after live some := by
  cases h with
  | imm value => exact Carries.refl file live
  | @var name register stores _ h =>
    intro original state memory htracks
    by_cases hheld : name ∈ file.slots
    · cases h with
      | held hname =>
        rw [if_pos hheld]
        exact Carries.refl file live htracks
      | free hname => exact absurd hheld hname
      | evict hname => exact absurd hheld hname
    · obtain ⟨middle, hrun, _, hmemory, huntouched, hothers⟩ :=
        htracks.allocates hfile h fun _ hmem _ => hmem
      have hsaved := (htracks.located name).saved hheld (hlive name rfl)
      have hload : runInstrs arithmetic middle [.load register name] =
          some (middle.setRegister register (middle.memory name)) := rfl
      rw [if_neg hheld, runInstrs_append, hrun, Option.bind_some, hload]
      apply Option.Rel.some
      apply Tracks.load (h.wellFormed hfile) h.holds_name hothers _ huntouched
      · rw [hmemory]
        exact hsaved
      · intro other hdirty
        exact htracks.dirty_assigned other (h.dirty_before hdirty)

theorem run_compute {op : Op} {left right : Source}
    (hzero : ∀ value, arithmetic .add 0 value = some value) :
    runInstrs arithmetic state (op.compute register left right) =
      (arithmetic op (left.eval state.registers) (right.eval state.registers)).map
        (state.setRegister register) := by
  unfold Op.compute
  split
  next hcopy =>
    obtain ⟨rfl, rfl, rfl⟩ := hcopy
    have hsame : state.setRegister register (state.registers register) = state := by
      obtain ⟨registers, memory⟩ := state
      simp only [State.setRegister, State.mk.injEq, and_true]
      funext other
      split
      · simp [*]
      · rfl
    have hresult : arithmetic .add (Source.eval state.registers (.imm 0))
        (Source.eval state.registers (.reg register)) = some (state.registers register) :=
      hzero _
    rw [hresult, Option.map_some, hsame]
    rfl
  next =>
    simp only [runInstrs, List.foldlM_cons, List.foldlM_nil, Instr.run]
    cases arithmetic op (left.eval state.registers) (right.eval state.registers) <;> rfl

/-- The last part of a line: a register for the destination, then the operation. -/
theorem carries_compute {line : Line} {left right : Source} (hfile : file.WellFormed)
    (h : file.Allocates line.dst later next register stores after)
    (hlater : ∀ name ∈ later, name ≠ line.dst → name ∈ live)
    (hleft : file.Supplies line.left left) (hright : file.Supplies line.right right)
    (hzero : ∀ value, arithmetic .add 0 value = some value) (hdst : assigned line.dst) :
    Carries arithmetic assigned (stores ++ line.op.compute register left right) file live
      (after.markDirty line.dst) later (line.run arithmetic) := by
  intro original state memory htracks
  obtain ⟨middle, hrun, hregisters, _, huntouched, hothers⟩ :=
    htracks.allocates hfile h hlater
  have hline : line.run arithmetic memory =
      (arithmetic line.op (left.eval middle.registers) (right.eval middle.registers)).map
        (memory.set line.dst) := by
    rw [hregisters, hleft.eval_eq htracks, hright.eval_eq htracks, Line.run]
    cases arithmetic line.op (line.left.eval memory) (line.right.eval memory) <;> rfl
  change Option.Rel _ _ (line.run arithmetic memory)
  rw [runInstrs_append, hrun, Option.bind_some, run_compute hzero, hline]
  cases arithmetic line.op (left.eval middle.registers) (right.eval middle.registers) with
  | none => exact .none
  | some value =>
    apply Option.Rel.some
    apply Tracks.assign (h.wellFormed hfile) h.holds_name hothers _ hdst huntouched
    intro name hdirty
    exact htracks.dirty_assigned name (h.dirty_before hdirty)

/-- A line's operands fit some registers at once: there are two, or one name is
enough for both. -/
def Line.Fits (line : Line) (registers : Nat) : Prop :=
  2 ≤ registers ∨ ∀ x y, line.left = .var x → line.right = .var y → x = y

/-- The left operand keeps its register while the right one is fetched. It is used
by the line itself, and every other name that could give way is used later. -/
theorem supplies_left {line : Line} {rest : List Line} {index : Nat} {left : Source}
    (hline : line.IsBuilt) (hfile : file.WellFormed)
    (hfits : line.Fits file.capacity) (hleft : file.Supplies line.left left)
    (hkept : ∀ register name, file.Holds register name → after.Holds register name ∨
      ∃ wanted, line.right = .var wanted ∧ wanted ∉ file.slots ∧
        file.capacity ≤ file.slots.length ∧
        file.victim? (nextAt index (line :: rest)) = some register) :
    after.Supplies line.left left := by
  cases hoperand : line.left with
  | imm value =>
    rw [hoperand] at hleft
    cases left with
    | imm constant => exact hleft
    | reg register => exact hleft.elim
  | var name =>
    rw [hoperand] at hleft
    cases left with
    | imm constant => exact hleft.elim
    | reg register =>
      have hheld : file.Holds register name := hleft
      rcases hkept register name hheld with hstays | ⟨wanted, hright, hwanted, hfull, hvictim⟩
      · exact hstays
      · exfalso
        have hne : name ≠ wanted := by
          rintro rfl
          exact hwanted (RegisterFile.mem_slots_iff.mpr ⟨register, hheld⟩)
        have hcapacity : 2 ≤ file.capacity := by
          rcases hfits with hcapacity | hsame
          · exact hcapacity
          · exact absurd (hsame name wanted hoperand hright) hne
        have hfirst : (nextAt index (line :: rest)).first? name = some index :=
          first?_nextAt_of_mem_refs (hline.mem_refs.mpr (.inl hoperand))
        apply RegisterFile.victim?_ne_of_first hfile hheld hcapacity hfull hfirst _ hvictim
        intro other hother hother_ne use huse
        apply lt_of_first?_nextAt _ huse
        intro hrefs
        rcases hline.mem_refs.mp hrefs with hsame | hsame
        · rw [hoperand] at hsame
          exact hother_ne (Operand.var.inj hsame).symm
        · rw [hright] at hsame
          exact hwanted (Operand.var.inj hsame ▸ hother)

/-- The operands of a line are fetched, from whatever was in registers before. The
right one is in its register afterwards, and so is the left one if the registers
are enough for both. -/
structure Line.Fetches (line : Line) (file : RegisterFile) (live : NameSet) (left right : Source)
    (loads : List Instr) (fetched : RegisterFile) : Prop where
  wellFormed : fetched.WellFormed
  capacity_eq : fetched.capacity = file.capacity
  left_supplied : ∃ between : RegisterFile, between.WellFormed ∧
    between.capacity = file.capacity ∧ between.Supplies line.left left
  left_kept : line.Fits file.capacity → fetched.Supplies line.left left
  right_supplied : fetched.Supplies line.right right
  carries : ∀ arithmetic assigned, Carries arithmetic assigned loads file live fetched live some

theorem Line.Assembles.exists_fetches {line : Line} {rest : List Line} {index : Nat}
    {instrs : List Instr}
    (h : line.Assembles ⟨liveAt outputs (line :: rest), liveAt outputs rest⟩
      ⟨nextAt index (line :: rest), nextAt (index + 1) rest⟩ file instrs after)
    (hline : line.IsBuilt) (hfile : file.WellFormed) :
    ∃ left right loads fetched register stores placed,
      line.Fetches file (liveAt outputs (line :: rest)) left right loads fetched ∧
      fetched.Allocates line.dst (liveAt outputs rest) (nextAt (index + 1) rest) register stores
        placed ∧
      instrs = loads ++ stores ++ line.op.compute register left right ∧
      after = placed.markDirty line.dst := by
  have hrefs : ∀ name ∈ line.refs, name ∈ liveAt outputs (line :: rest) := by
    intro name hname
    rw [liveAt_cons, Line.mem_liveBefore]
    exact .inl hname
  cases h with
  | @intro left right loadLeft loadRight stores dst first second third hleft hright hdst =>
  have hfirst := hleft.wellFormed hfile
  refine ⟨left, right, loadLeft ++ loadRight, second, dst, stores, third,
    ⟨hright.wellFormed hfirst, hright.capacity_eq.trans hleft.capacity_eq,
      ⟨first, hfirst, hleft.capacity_eq, hleft.supplies⟩, ?_, hright.supplies, ?_⟩, hdst, rfl, rfl⟩
  · intro hfits
    rw [← hleft.capacity_eq] at hfits
    exact supplies_left hline hfirst hfits hleft.supplies fun _ _ => hright.holds_other
  · intro arithmetic assigned
    have hleftCarries : Carries arithmetic assigned loadLeft file _ first _ some :=
      hleft.carries hfile fun name hname => hrefs name (hline.mem_refs.mpr (.inl hname))
    exact hleftCarries.append
      (hright.carries hfirst fun name hname => hrefs name (hline.mem_refs.mpr (.inr hname)))

/-- A line is always assembled: its operands are fetched, a register is found for
its destination, and the operation follows. -/
theorem Line.exists_fetches {line : Line} (rest : List Line) (hline : line.IsBuilt)
    (hfile : file.WellFormed) (outputs : NameSet) (index : Nat) :
    ∃ left right loads fetched register stores placed,
      line.Fetches file (liveAt outputs (line :: rest)) left right loads fetched ∧
      fetched.Allocates line.dst (liveAt outputs rest) (nextAt (index + 1) rest) register stores
        placed ∧
      line.assemble ⟨liveAt outputs (line :: rest), liveAt outputs rest⟩
        ⟨nextAt index (line :: rest), nextAt (index + 1) rest⟩ file =
          .ok (loads ++ stores ++ line.op.compute register left right,
            placed.markDirty line.dst) := by
  obtain ⟨instrs, after, hassemble, hassembles⟩ := line.exists_assembles
    ⟨liveAt outputs (line :: rest), liveAt outputs rest⟩
    ⟨nextAt index (line :: rest), nextAt (index + 1) rest⟩ hfile
  obtain ⟨left, right, loads, fetched, register, stores, placed, hfetches, hallocates, rfl, rfl⟩ :=
    hassembles.exists_fetches hline hfile
  exact ⟨left, right, loads, fetched, register, stores, placed, hfetches, hallocates, hassemble⟩

/-- If its operands fit the registers, the instructions of a line do what it does. -/
theorem Line.Assembles.carries {line : Line} {rest : List Line} {index : Nat}
    {instrs : List Instr}
    (h : line.Assembles ⟨liveAt outputs (line :: rest), liveAt outputs rest⟩
      ⟨nextAt index (line :: rest), nextAt (index + 1) rest⟩ file instrs after)
    (hline : line.IsBuilt) (hfile : file.WellFormed) (hfits : line.Fits file.capacity)
    (hzero : ∀ value, arithmetic .add 0 value = some value) (hdst : assigned line.dst) :
    Carries arithmetic assigned instrs file (liveAt outputs (line :: rest)) after
      (liveAt outputs rest) (line.run arithmetic) := by
  obtain ⟨left, right, loads, fetched, register, stores, placed, hfetches, hallocates, rfl, rfl⟩ :=
    h.exists_fetches hline hfile
  have hcompute := carries_compute hfetches.wellFormed hallocates
    (fun _ => hline.mem_liveAt_of_ne) (hfetches.left_kept hfits) hfetches.right_supplied hzero hdst
  rw [List.append_assoc]
  exact (hfetches.carries arithmetic assigned).append hcompute

/-- A line is always assembled, and if its operands fit the registers its
instructions do what it does. -/
theorem Line.exists_assemble {line : Line} (rest : List Line) (hline : line.IsBuilt)
    (hfile : file.WellFormed) (outputs : NameSet) (index : Nat) :
    ∃ instrs after, line.assemble ⟨liveAt outputs (line :: rest), liveAt outputs rest⟩
        ⟨nextAt index (line :: rest), nextAt (index + 1) rest⟩ file = .ok (instrs, after) ∧
      after.WellFormed ∧ after.capacity = file.capacity ∧
      (line.Fits file.capacity → ∀ arithmetic : Arithmetic,
        (∀ value, arithmetic .add 0 value = some value) →
        ∀ assigned : String → Prop, assigned line.dst →
          Carries arithmetic assigned instrs file (liveAt outputs (line :: rest)) after
            (liveAt outputs rest) (line.run arithmetic)) := by
  obtain ⟨instrs, after, hassemble, h⟩ := line.exists_assembles
    ⟨liveAt outputs (line :: rest), liveAt outputs rest⟩
    ⟨nextAt index (line :: rest), nextAt (index + 1) rest⟩ hfile
  exact ⟨instrs, after, hassemble, h.wellFormed hfile, h.capacity_eq,
    fun hfits _ hzero _ hdst => h.carries hline hfile hfits hzero hdst⟩

/-- The instructions of lines that fit the registers do what the lines do. -/
theorem AssemblesFrom.carries {lines : List Line} {steps : List Step} {index : Nat}
    (h : AssemblesFrom outputs index file lines steps after)
    (hlines : ∀ line ∈ lines, line.IsBuilt) (hfile : file.WellFormed)
    (hfits : ∀ line ∈ lines, line.Fits file.capacity)
    (hzero : ∀ value, arithmetic .add 0 value = some value)
    (hassigned : ∀ line ∈ lines, assigned line.dst) :
    Carries arithmetic assigned (steps.flatMap Step.instrs) file (liveAt outputs lines) after
      outputs (runLines arithmetic · lines) := by
  induction h with
  | nil index file => exact Carries.refl file outputs
  | cons hline _ ih =>
    obtain ⟨hbuilt, hothersBuilt⟩ := List.forall_mem_cons.mp hlines
    obtain ⟨hlineFits, hothersFit⟩ := List.forall_mem_cons.mp hfits
    obtain ⟨hdst, hdsts⟩ := List.forall_mem_cons.mp hassigned
    have hothers := ih hothersBuilt (hline.wellFormed hfile) (hline.capacity_eq ▸ hothersFit) hdsts
    exact (hline.carries hbuilt hfile hlineFits hzero hdst).append hothers

/-- Stores of registers to their own cells bring these up to date and leave the
others alone. -/
theorem run_stores {pairs : List (Register × String)} (stored : String → Bool)
    (hvalues : ∀ pair ∈ pairs, state.registers pair.1 = memory pair.2) :
    ∃ last, runInstrs arithmetic state (pairs.filterMap fun (register, name) =>
        if stored name then some (.store name register) else none) = some last ∧
      (∀ name, last.memory name = state.memory name ∨
        (stored name ∧ last.memory name = memory name)) ∧
      ∀ pair ∈ pairs, stored pair.2 → last.memory pair.2 = memory pair.2 := by
  induction pairs generalizing state with
  | nil => exact ⟨state, rfl, fun _ => .inl rfl, by simp⟩
  | cons pair rest ih =>
    obtain ⟨register, name⟩ := pair
    have hrest : ∀ pair ∈ rest, state.registers pair.1 = memory pair.2 :=
      fun pair hmem => hvalues pair (List.mem_cons_of_mem _ hmem)
    by_cases hstored : stored name
    · have hvalue : state.registers register = memory name :=
        hvalues (register, name) List.mem_cons_self
      obtain ⟨last, hrun, hcells, hpairs⟩ :=
        @ih { state with memory := state.memory.set name (state.registers register) } hrest
      have hname : last.memory name = memory name := by
        rcases hcells name with hsame | ⟨_, hnew⟩
        · rw [hsame, ← hvalue]
          simp [Memory.set]
        · exact hnew
      refine ⟨last, ?_, ?_, ?_⟩
      · simp only [List.filterMap_cons, hstored, if_true]
        exact hrun
      · intro other
        by_cases heq : other = name
        · exact .inr ⟨heq ▸ hstored, heq ▸ hname⟩
        · rcases hcells other with hsame | hnew
          · left
            rw [hsame]
            simp [Memory.set, heq]
          · exact .inr hnew
      · intro pair hmem hpair
        rcases List.mem_cons.mp hmem with rfl | hmem
        · exact hname
        · exact hpairs pair hmem hpair
    · obtain ⟨last, hrun, hcells, hpairs⟩ := ih hrest
      refine ⟨last, by simpa [hstored] using hrun, hcells, ?_⟩
      intro pair hmem hpair
      rcases List.mem_cons.mp hmem with rfl | hmem
      · exact absurd hpair hstored
      · exact hpairs pair hmem hpair

/-- After the last stores every output is in memory. -/
theorem Tracks.flush (htracks : Tracks assigned original file outputs state memory) :
    ∃ last, runInstrs arithmetic state (file.flush outputs) = some last ∧
      (∀ name ∈ outputs, last.memory name = memory name) ∧
      ∀ name, ¬ assigned name → last.memory name = original name := by
  have hvalues : ∀ pair ∈ file.residents, state.registers pair.1 = memory pair.2 := by
    rintro ⟨register, name⟩ hmem
    exact (htracks.located name).held register (RegisterFile.mem_residents.mp hmem)
  obtain ⟨last, hrun, hcells, hpairs⟩ :=
    run_stores (fun name => decide (name ∈ outputs) && file.isDirty name) hvalues
  refine ⟨last, hrun, ?_, ?_⟩
  · intro name hname
    have hlocated := htracks.located name
    rcases hcells name with hsame | ⟨_, hnew⟩
    · by_cases hheld : name ∈ file.slots
      · by_cases hdirty : name ∈ file.dirty
        · obtain ⟨register, hregister⟩ := RegisterFile.mem_slots_iff.mp hheld
          apply hpairs (register, name) (RegisterFile.mem_residents.mpr hregister)
          simp [hname, RegisterFile.isDirty, hdirty]
        · rw [hsame]
          exact hlocated.clean hheld hdirty
      · rw [hsame]
        exact hlocated.saved hheld hname
    · exact hnew
  · intro name hname
    rcases hcells name with hsame | ⟨hstored, _⟩
    · rw [hsame]
      exact htracks.untouched name hname
    · simp only [RegisterFile.isDirty, Bool.and_eq_true, decide_eq_true_eq] at hstored
      exact absurd (htracks.dirty_assigned name hstored.2) hname

namespace Program

variable {program : Program} {registers : Nat}

/-- A program that fits its registers is assembled, and its instructions do what
its lines do, as far as memory is wanted or never assigned. -/
theorem exists_assemble (arithmetic : Arithmetic)
    (hlines : ∀ line ∈ program.lines, line.IsBuilt)
    (hregisters : 2 ≤ registers ∨ (registers = 1 ∧ ∀ line ∈ program.lines, ∀ x y,
      line.left = .var x → line.right = .var y → x = y))
    (hzero : ∀ value, arithmetic .add 0 value = some value) :
    ∃ assembly, program.assemble registers = .ok assembly ∧ ∀ initial : State,
      Option.Rel (fun last memory => (∀ name ∈ program.outputs, last.memory name = memory name) ∧
          ∀ name, (∀ line ∈ program.lines, line.dst ≠ name) → last.memory name = initial.memory name)
        (runInstrs arithmetic initial assembly.instrs)
        (runLines arithmetic initial.memory program.lines) := by
  have hpositive : 0 < registers := by omega
  have hfile := RegisterFile.wellFormed_new hpositive
  have hfits : ∀ line ∈ program.lines, 2 ≤ registers ∨ ∀ x y,
      line.left = .var x → line.right = .var y → x = y := by
    intro line hmem
    rcases hregisters with htwo | ⟨_, hsame⟩
    · exact .inl htwo
    · exact .inr (hsame line hmem)
  obtain ⟨steps, file, hassemble, hsteps⟩ := program.exists_assembles hpositive
  have hcarries : Carries arithmetic (fun name => ∃ line ∈ program.lines, line.dst = name)
      (steps.flatMap Step.instrs) _ _ file _ _ :=
    hsteps.carries hlines hfile hfits hzero fun line hmem => ⟨line, hmem, rfl⟩
  refine ⟨⟨steps, file.flush program.outputs⟩, hassemble, ?_⟩
  intro initial
  have hinitial : Tracks (fun name => ∃ line ∈ program.lines, line.dst = name) initial.memory
      ⟨registers, [], ∅⟩ (liveAt program.outputs program.lines) initial initial.memory := by
    refine ⟨?_, by simp, fun _ _ => rfl⟩
    intro name
    exact ⟨by simp [RegisterFile.Holds], fun _ _ => rfl, fun _ _ => rfl⟩
  have hrel : Option.Rel _ _ (runLines arithmetic initial.memory program.lines) :=
    hcarries hinitial
  rw [Assembly.instrs, runInstrs_append]
  generalize runInstrs arithmetic initial (steps.flatMap Step.instrs) = reached at hrel ⊢
  generalize runLines arithmetic initial.memory program.lines = result at hrel ⊢
  cases hrel with
  | none => exact .none
  | some htracks =>
    obtain ⟨last, hrun, houtputs, huntouched⟩ := htracks.flush
    rw [Option.bind_some, hrun]
    refine .some ⟨houtputs, ?_⟩
    intro name hname
    apply huntouched
    rintro ⟨line, hmem, hdst⟩
    exact hname line hmem hdst

/-- Assembly of a program that fits its registers succeeds and preserves its
meaning: it completes exactly if the lines do, every output then has its value in
memory, and cells that no line assigns are left alone. -/
theorem assemble_preserves_meaning (hlines : ∀ line ∈ program.lines, line.IsBuilt)
    (hregisters : 2 ≤ registers ∨ (registers = 1 ∧ ∀ line ∈ program.lines, ∀ x y,
      line.left = .var x → line.right = .var y → x = y)) :
    ∃ assembly, program.assemble registers = .ok assembly ∧
      ∀ arithmetic : Arithmetic, (∀ value, arithmetic .add 0 value = some value) →
      ∀ initial : State,
        ((∃ last, runInstrs arithmetic initial assembly.instrs = some last) ↔
          ∃ memory, runLines arithmetic initial.memory program.lines = some memory) ∧
        ∀ last memory, runInstrs arithmetic initial assembly.instrs = some last →
          runLines arithmetic initial.memory program.lines = some memory →
          (∀ name ∈ program.outputs, last.memory name = memory name) ∧
          ∀ name, (∀ line ∈ program.lines, line.dst ≠ name) →
            last.memory name = initial.memory name := by
  obtain ⟨assembly, hassembly, _⟩ :=
    exists_assemble (fun _ x y => some (x + y)) hlines hregisters (by simp)
  refine ⟨assembly, hassembly, ?_⟩
  intro arithmetic hzero initial
  obtain ⟨other, hother, hruns⟩ := exists_assemble arithmetic hlines hregisters hzero
  obtain rfl : assembly = other := Except.ok.inj (hassembly.symm.trans hother)
  have hrel := hruns initial
  generalize runInstrs arithmetic initial assembly.instrs = reached at hrel ⊢
  generalize runLines arithmetic initial.memory program.lines = result at hrel ⊢
  cases hrel with
  | none => simp
  | some hagrees =>
    refine ⟨by simp, ?_⟩
    rintro _ _ ⟨⟩ ⟨⟩
    exact hagrees

/-- More names than two registers hold, one of them copied. -/
def spilling : Program :=
  ⟨[.new .mul "t" (.var "a") (.var "b"), .new .min "u" (.var "c") (.var "t"),
    .copy "v" (.var "u"), .new .add "w" (.var "t") (.var "v")], .ofList ["u", "w"]⟩

theorem spilling_isBuilt : ∀ line ∈ spilling.lines, line.IsBuilt := by
  simp [spilling]

theorem assemble_preserves_meaning_spilling :
    (∀ line ∈ spilling.lines, line.IsBuilt) ∧
    ∃ assembly, spilling.assemble 2 = .ok assembly ∧
      ∀ arithmetic : Arithmetic, (∀ value, arithmetic .add 0 value = some value) →
      ∀ initial : State,
        ((∃ last, runInstrs arithmetic initial assembly.instrs = some last) ↔
          ∃ memory, runLines arithmetic initial.memory spilling.lines = some memory) ∧
        ∀ last memory, runInstrs arithmetic initial assembly.instrs = some last →
          runLines arithmetic initial.memory spilling.lines = some memory →
          (∀ name ∈ spilling.outputs, last.memory name = memory name) ∧
          ∀ name, (∀ line ∈ spilling.lines, line.dst ≠ name) →
            last.memory name = initial.memory name :=
  ⟨spilling_isBuilt, assemble_preserves_meaning spilling_isBuilt (.inl (Nat.le_refl 2))⟩

end Program

end ThreeAddress.Machine
