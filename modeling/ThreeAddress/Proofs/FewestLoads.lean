import ThreeAddress.Proofs.VictimStrategies

/-!
The assembler loads as little as can be. No other strategy for the register to reuse
takes fewer loads, and no program takes more of them when it gets more registers. Each
line of a run is a line of the comparison between sets of held names, and so is the
whole run.
-/

namespace ThreeAddress.Machine

variable {capacity registers : Nat} {program : Program}

/-- Whatever was done before it, every line is assembled, and only names that may go
are given up for it. -/
def Strategy.PassesLines (strategy : Strategy) (capacity : Nat)
    (mayGo : NextUse → Finset String → String → Prop) : Prop :=
  ∀ (program : Program) (done : List Step) (line : Line) (live : LiveSpan) (rest : List Line)
    (index : Nat) (file : RegisterFile), line.IsBuilt → file.WellFormed → file.capacity = capacity →
    ∃ instrs after, line.assembleWith live (fun role emitted file => strategy ⟨program, done, line,
          live, ⟨nextAt index (line :: rest), nextAt (index + 1) rest⟩, role, emitted, file⟩) file =
        .ok (instrs, after) ∧ after.WellFormed ∧ after.capacity = capacity ∧
      line.Passes capacity (mayGo (nextAt index (line :: rest))) (mayGo (nextAt (index + 1) rest))
        file.names (instrs.countP Instr.isLoad) after.names

theorem farthest_givesUp (capacity : Nat) (next : NextSpan) :
    GivesUp capacity (fun role _ file => file.victim? (next.forRole role))
      (fun role => (next.forRole role).Farthest) := by
  rintro role _ file hfile rfl hfull
  have hslots : file.slots ≠ [] := by
    have hpositive := hfile.positive
    exact List.ne_nil_of_length_pos (by omega)
  obtain ⟨register, old, hvictim, hold, hlast⟩ :=
    RegisterFile.exists_victim hslots (next.forRole role)
  refine ⟨register, old, hvictim, hold, ?_⟩
  intro use huse other hother
  exact hlast use huse other (RegisterFile.mem_names.mp hother)

theorem Strategy.farthest_passesLines (capacity : Nat) :
    Strategy.farthest.PassesLines capacity NextUse.Farthest := by
  rintro program done line live rest index file hline hfile rfl
  obtain ⟨instrs, after, left, right, first, second, hassemble, hafter, hcapacity, hloads, hleft,
    hright, hdst⟩ := line.exists_assembleWith live hfile (farthest_givesUp file.capacity
      ⟨nextAt index (line :: rest), nextAt (index + 1) rest⟩)
  have hreads := hleft.append hright
  refine ⟨instrs, after, hassemble, hafter, hcapacity, ?_⟩
  rw [hloads]
  refine .intro hreads hdst ?_
  by_cases htwo : 2 ≤ file.capacity
  · left
    exact hreads.toFinset_subset (fun _ => hline.due_nextAt_iff) (fun _ => List.mem_toFinset.mpr)
      (line.reads_card_le.trans htwo)
  · -- with a single register nothing but the destination is left
    right
    have hbounded : after.names.card ≤ 1 := by
      have hslots := hafter.bounded
      rw [hafter.card_names]
      omega
    intro name hname
    rw [Finset.card_le_one.mp hbounded name hname line.dst hdst.mem]
    exact Finset.mem_insert_self _ _

namespace Strategy.Lawful

variable {strategy : Strategy}

theorem givesUp (h : strategy.Lawful) (htwo : 2 ≤ capacity) (program : Program)
    (done : List Step) (line : Line) (live : LiveSpan) (next : NextSpan) :
    GivesUp capacity
      (fun role emitted file => strategy ⟨program, done, line, live, next, role, emitted, file⟩)
      (fun role _ old => role = .right → line.left ≠ .var old) := by
  rintro role emitted file hfile rfl hfull
  -- of two names at least one is not the left operand
  obtain ⟨other, hother, hne⟩ := hfile.exists_other (by omega) (line.left.var?.getD "")
  obtain ⟨holder, hholder⟩ := RegisterFile.mem_slots_iff.mp hother
  have hallowed : line.left ≠ .var other := by
    intro hleft
    simp [hleft, Operand.var?] at hne
  obtain ⟨register, hregister, old, hold, hgo⟩ :=
    h ⟨program, done, line, live, next, role, emitted, file⟩
      ⟨holder, other, hholder, fun _ => hallowed⟩
  exact ⟨register, old, hregister, hold, hgo⟩

theorem passesLines (h : strategy.Lawful) (htwo : 2 ≤ capacity) :
    strategy.PassesLines capacity (fun _ _ _ => True) := by
  rintro program done line live rest index file hline hfile rfl
  obtain ⟨instrs, after, left, right, first, second, hassemble, hafter, hcapacity, hloads, hleft,
    hright, hdst⟩ := line.exists_assembleWith live hfile (h.givesUp htwo program done line live
      ⟨nextAt index (line :: rest), nextAt (index + 1) rest⟩)
  refine ⟨instrs, after, hassemble, hafter, hcapacity, ?_⟩
  rw [hloads]
  refine .intro ((hleft.mono fun _ _ _ => trivial).append (hright.mono fun _ _ _ => trivial))
    (hdst.mono fun _ _ _ => trivial) (.inl ?_)
  intro name hname
  rcases List.mem_append.mp (List.mem_toFinset.mp hname) with hread | hread
  · apply hright.mem_of_held
    · intro held hgo
      apply hgo rfl
      cases hoperand : line.left <;> simp_all [Operand.var?]
    · exact hleft.mem_of_toList hread
  · exact hright.mem_of_toList hread

end Strategy.Lawful

/-- A whole run is a run through the sets of held names, with the same loads. -/
theorem exists_assembleWithFrom {strategy : Strategy}
    {mayGo : NextUse → Finset String → String → Prop} (h : strategy.PassesLines capacity mayGo)
    (program : Program) {lines : List Line} (hlines : ∀ line ∈ lines, line.IsBuilt)
    (outputs : NameSet) (index : Nat) (done : List Step) {file : RegisterFile}
    (hfile : file.WellFormed) (hcapacity : file.capacity = capacity) :
    ∃ steps after, assembleWithFrom strategy program done file
        (lines.zip ((liveness outputs lines).zip (nextUsesFrom index lines))) = .ok (steps, after) ∧
      LoadsIn capacity mayGo index lines file.names
        ((steps.flatMap Step.instrs).countP Instr.isLoad) := by
  induction lines generalizing index done file with
  | nil => exact ⟨[], file, rfl, .nil index file.names⟩
  | cons line rest ih =>
    obtain ⟨hline, hothers⟩ := List.forall_mem_cons.mp hlines
    let live : LiveSpan := ⟨liveAt outputs (line :: rest), liveAt outputs rest⟩
    let next : NextSpan := ⟨nextAt index (line :: rest), nextAt (index + 1) rest⟩
    obtain ⟨instrs, between, hassemble, hbetween, hkept, hpasses⟩ :=
      h program done line live rest index file hline hfile hcapacity
    let step : Step := ⟨done.length, line, instrs, live, next⟩
    obtain ⟨steps, after, hsteps, hloads⟩ :=
      ih hothers (index + 1) (done ++ [step]) hbetween hkept
    refine ⟨step :: steps, after, ?_, ?_⟩
    · rw [liveness_cons, nextUsesFrom_cons]
      simp only [List.zip_cons_cons, assembleWithFrom, hassemble, ok_bind, live, next, step]
        at hsteps ⊢
      rw [hsteps]
      rfl
    · rw [List.flatMap_cons, List.countP_append]
      exact .cons hpasses hloads

namespace Program

theorem exists_assembleWith {strategy : Strategy}
    {mayGo : NextUse → Finset String → String → Prop} (h : strategy.PassesLines registers mayGo)
    (hlines : ∀ line ∈ program.lines, line.IsBuilt) (hregisters : 0 < registers) :
    ∃ assembly, program.assembleWith strategy registers = .ok assembly ∧
      LoadsIn registers mayGo 0 program.lines ∅ assembly.loadCount := by
  obtain ⟨steps, file, hsteps, hloads⟩ := exists_assembleWithFrom h program hlines program.outputs 0
    [] (RegisterFile.wellFormed_new hregisters) rfl
  refine ⟨⟨steps, file.flush program.outputs⟩, ?_, ?_⟩
  · simp only [assembleWith, RegisterFile.new_of_pos hregisters, ok_bind, annotated, nextUses,
      hsteps]
    rfl
  · simp only [Assembly.loadCount, Assembly.instrs, List.countP_append, file.flush_loads]
    exact hloads

theorem exists_assemble_loadsIn (hlines : ∀ line ∈ program.lines, line.IsBuilt)
    (hregisters : 0 < registers) :
    ∃ assembly, program.assemble registers = .ok assembly ∧
      LoadsIn registers NextUse.Farthest 0 program.lines ∅ assembly.loadCount := by
  rw [← program.assembleWith_farthest]
  exact exists_assembleWith (Strategy.farthest_passesLines registers) hlines hregisters

/-- The assembler's strategy takes the fewest loads. Any other strategy may look at the
whole program and at all that was done so far. -/
theorem assemble_fewest_loads (hlines : ∀ line ∈ program.lines, line.IsBuilt)
    (hregisters : 2 ≤ registers) :
    ∃ assembly, program.assemble registers = .ok assembly ∧
      program.assembleWith .farthest registers = .ok assembly ∧
      ∀ strategy : Strategy, strategy.Lawful →
        ∃ other, program.assembleWith strategy registers = .ok other ∧
          assembly.loadCount ≤ other.loadCount := by
  have hpositive : 0 < registers := by omega
  obtain ⟨assembly, hassemble, hloads⟩ := exists_assemble_loadsIn hlines hpositive
  refine ⟨assembly, hassemble, (program.assembleWith_farthest registers).trans hassemble, ?_⟩
  intro strategy hstrategy
  obtain ⟨other, hother, hrival⟩ :=
    exists_assembleWith (hstrategy.passesLines hregisters) hlines hpositive
  refine ⟨other, hother, ?_⟩
  have hfewest := hloads.le_of_farthest hrival hlines (Nat.le_refl registers) hregisters
    (Nat.zero_le _) (Nat.le_refl 0) (fun _ _ => Nat.le_refl _)
  omega

theorem assemble_fewest_loads_lowest :
    Strategy.lowest.Lawful ∧ (∀ line ∈ spilling.lines, line.IsBuilt) ∧
      ∃ assembly other, spilling.assemble 2 = .ok assembly ∧
        spilling.assembleWith .lowest 2 = .ok other ∧ assembly.loadCount ≤ other.loadCount := by
  refine ⟨Strategy.lowest_lawful, spilling_isBuilt, ?_⟩
  obtain ⟨assembly, hassemble, _, hfewest⟩ :=
    assemble_fewest_loads spilling_isBuilt (Nat.le_refl 2)
  obtain ⟨other, hother, hle⟩ := hfewest .lowest Strategy.lowest_lawful
  exact ⟨assembly, other, hassemble, hother, hle⟩

/-- More registers never cost a load. -/
theorem assemble_loads_antitone {fewer more : Nat} (hlines : ∀ line ∈ program.lines, line.IsBuilt)
    (hfewer : 1 ≤ fewer) (hle : fewer ≤ more) :
    ∃ small large, program.assemble fewer = .ok small ∧ program.assemble more = .ok large ∧
      large.loadCount ≤ small.loadCount := by
  obtain ⟨small, hsmall, hrival⟩ := exists_assemble_loadsIn hlines hfewer
  obtain ⟨large, hlarge, hloads⟩ := exists_assemble_loadsIn hlines (hfewer.trans hle)
  refine ⟨small, large, hsmall, hlarge, ?_⟩
  by_cases htwo : 2 ≤ more
  · have hfewest := hloads.le_of_farthest hrival hlines hle htwo
      (Nat.zero_le _) (Nat.le_refl 0) (fun _ _ => Nat.le_refl _)
    omega
  · -- a single register on both sides
    obtain rfl : fewer = more := by omega
    cases hsmall.symm.trans hlarge
    exact Nat.le_refl _

theorem assemble_loads_antitone_spilling :
    (∀ line ∈ spilling.lines, line.IsBuilt) ∧
      ∃ small large, spilling.assemble 1 = .ok small ∧ spilling.assemble 3 = .ok large ∧
        large.loadCount ≤ small.loadCount :=
  ⟨spilling_isBuilt, assemble_loads_antitone spilling_isBuilt (Nat.le_refl 1) (by decide)⟩

end Program

end ThreeAddress.Machine
