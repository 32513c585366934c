import ThreeAddress.Proofs.RegisterFile

/-!
Register files in use. Whatever is asked of a file, in whatever order and with
whatever analysis at hand, it answers, and it stays well formed. Finding a register
touches that register alone, and takes the mark of being out of date from the name
it drives out and from no other.
-/

namespace ThreeAddress.Machine.RegisterFile

/-- What may be asked of a register file. The live names, the next uses and
whether to load are the caller's, and need not fit any program. -/
inductive Call where
  | allocate (name : String) (live : NameSet) (next : NextUse) (load : Bool)
  | allocateOperand (operand : Operand) (live : NameSet) (next : NextUse) (load : Bool)
  | markDirty (name : String)

/-- The file that a call leaves. -/
def Call.run (file : RegisterFile) : Call → Except Error RegisterFile
  | .allocate name live next load => return (← file.allocate name live next load).2.2
  | .allocateOperand operand live next load =>
      return (← file.allocateOperand operand live next load).2.2
  | .markDirty name => .ok (file.markDirty name)

/-- A new file after some calls. -/
def afterCalls (capacity : Nat) (calls : List Call) : Except Error RegisterFile :=
  new capacity >>= calls.foldlM Call.run

/-- A name got a register, and that is all that changed. Only a name that was in
this register before, and now is in none, can have lost its mark. -/
structure Grants (file : RegisterFile) (name : String) (register : Register)
    (after : RegisterFile) : Prop where
  index_lt : register.index < file.capacity
  holds : after.Holds register name
  others : ∀ other, other ≠ register → ∀ held, after.Holds other held ↔ file.Holds other held
  dirty : ∀ other, (other ∈ after.dirty ↔ other ∈ file.dirty) ∨
    (file.Holds register other ∧ other ∉ after.slots)

/-- The registers that are stored for some outputs: in order, each once, and
exactly those whose name is an output that memory does not have. -/
structure Flushes (file : RegisterFile) (outputs : NameSet)
    (stored : List (Register × String)) : Prop where
  mem_iff : ∀ register name, (register, name) ∈ stored ↔
    file.Holds register name ∧ name ∈ outputs ∧ name ∈ file.dirty
  ordered : stored.Pairwise fun first second => first.1.index < second.1.index
  names_nodup : (stored.map Prod.snd).Nodup

/-- What a file of some capacity guarantees at any moment. -/
structure Serves (file : RegisterFile) (capacity : Nat) : Prop where
  capacity_eq : file.capacity = capacity
  bounded : file.slots.length ≤ capacity
  distinct : ∀ register other name, file.Holds register name → file.Holds other name →
    register = other
  dirty_held : ∀ name ∈ file.dirty, ∃ register, file.Holds register name
  allocate : ∀ name live next load, ∃ register instrs after,
    file.allocate name live next load = .ok (register, instrs, after) ∧
      file.Grants name register after
  markDirty : ∀ name other, other ∈ (file.markDirty name).dirty ↔
    other ∈ file.dirty ∨ (other = name ∧ ∃ register, file.Holds register name)
  flush : ∀ outputs, ∃ stored, file.Flushes outputs stored ∧
    file.flush outputs = stored.map fun (register, name) => .store name register

variable {file after : RegisterFile} {register : Register} {name : String} {live : NameSet}
  {next : NextUse} {stores : List Instr} {capacity : Nat}

namespace Allocates

/-- A name that is driven out of its register is in none. -/
theorem not_mem_slots (h : file.Allocates name live next register stores after)
    (hfile : file.WellFormed) {old : String} (hold : file.Holds register old) (hne : old ≠ name) :
    old ∉ after.slots := by
  intro hmem
  obtain ⟨other, hother⟩ := mem_slots_iff.mp hmem
  have hregister : register = other :=
    hold.register_unique (h.holds_before hother hne) hfile
  subst hregister
  exact hne (hother.name_unique h.holds_name)

/-- The only mark that can go is that of the name driven out. -/
theorem dirty_iff (h : file.Allocates name live next register stores after)
    (hfile : file.WellFormed) (other : String) :
    (other ∈ after.dirty ↔ other ∈ file.dirty) ∨
      (file.Holds register other ∧ other ∉ after.slots) := by
  by_cases hdriven : file.Holds register other ∧ other ≠ name
  · exact .inr ⟨hdriven.1, h.not_mem_slots hfile hdriven.1 hdriven.2⟩
  · left
    cases h with
    | held => exact Iff.rfl
    | free => exact Iff.rfl
    | @evict _ old hname _ _ hold =>
      have hne : other ≠ old := by
        rintro rfl
        apply hdriven
        refine ⟨hold, ?_⟩
        rintro rfl
        exact hname (mem_slots_iff.mpr ⟨register, hold⟩)
      rw [mem_rebind_dirty hold, and_iff_left hne]

theorem grants (h : file.Allocates name live next register stores after)
    (hfile : file.WellFormed) : file.Grants name register after where
  index_lt := by
    rw [← h.capacity_eq]
    exact h.holds_name.index_lt (h.wellFormed hfile)
  holds := h.holds_name
  others _ hne _ := h.holds_iff hne
  dirty := h.dirty_iff hfile

end Allocates

theorem residents_indices (file : RegisterFile) :
    file.residents.map (fun pair => pair.1.index) = List.range file.slots.length := by
  rw [residents, List.map_map, List.range_eq_range', ← List.zipIdx_map_snd 0 file.slots]
  rfl

theorem residents_names (file : RegisterFile) : file.residents.map Prod.snd = file.slots := by
  rw [residents, List.map_map]
  exact List.zipIdx_map_fst 0 file.slots

theorem residents_ordered (file : RegisterFile) :
    file.residents.Pairwise fun first second => first.1.index < second.1.index := by
  have hindices : (file.residents.map fun pair => pair.1.index).Pairwise (· < ·) := by
    rw [residents_indices]
    exact List.pairwise_lt_range
  exact List.pairwise_map.mp hindices

theorem WellFormed.flushes (hfile : file.WellFormed) (outputs : NameSet) :
    file.Flushes outputs
      (file.residents.filter fun (_, name) => name ∈ outputs && file.isDirty name) where
  mem_iff register name := by
    simp [List.mem_filter, mem_residents, isDirty]
  ordered := file.residents_ordered.filter _
  names_nodup := by
    have hnames : (file.residents.map Prod.snd).Nodup := by
      rw [residents_names]
      exact hfile.distinct
    exact hnames.sublist (List.filter_sublist.map _)

theorem flush_eq (file : RegisterFile) (outputs : NameSet) :
    file.flush outputs =
      (file.residents.filter fun (_, name) => name ∈ outputs && file.isDirty name).map
        fun (register, name) => .store name register := by
  rw [flush, ← List.filterMap_eq_map, List.filterMap_filter]
  rfl

theorem WellFormed.serves (hfile : file.WellFormed) : file.Serves file.capacity where
  capacity_eq := rfl
  bounded := hfile.bounded
  distinct _ _ _ hfirst hsecond := hfirst.register_unique hsecond hfile
  dirty_held name hdirty := mem_slots_iff.mp (hfile.dirty_held name hdirty)
  allocate name live next load := by
    obtain ⟨register, stores, after, h, hallocate⟩ := exists_allocates hfile name live next
    exact ⟨register, _, after, hallocate load, h.grants hfile⟩
  markDirty name other := by
    rw [mem_markDirty_dirty, mem_slots_iff]
  flush outputs := ⟨_, hfile.flushes outputs, file.flush_eq outputs⟩

/-- A variable as an operand gets its register as a name does. -/
theorem Call.run_allocateOperand_var (name : String) (live : NameSet) (next : NextUse)
    (load : Bool) (file : RegisterFile) :
    (Call.allocateOperand (.var name) live next load).run file =
      (Call.allocate name live next load).run file := by
  simp only [run, RegisterFile.allocateOperand]
  cases file.allocate name live next load <;> rfl

theorem Call.exists_run_allocate (hfile : file.WellFormed) (name : String) (live : NameSet)
    (next : NextUse) (load : Bool) :
    ∃ after, (Call.allocate name live next load).run file = .ok after ∧ after.WellFormed ∧
      after.capacity = file.capacity := by
  obtain ⟨register, stores, after, h, hallocate⟩ := exists_allocates hfile name live next
  refine ⟨after, ?_, h.wellFormed hfile, h.capacity_eq⟩
  simp only [run, hallocate]
  rfl

/-- Every call on a well-formed file is answered, and keeps it well formed. -/
theorem Call.exists_run (call : Call) (hfile : file.WellFormed) :
    ∃ after, call.run file = .ok after ∧ after.WellFormed ∧ after.capacity = file.capacity := by
  cases call with
  | allocate name live next load => exact exists_run_allocate hfile name live next load
  | allocateOperand operand live next load =>
    cases operand with
    | imm value => exact ⟨file, rfl, hfile, rfl⟩
    | var name =>
      rw [run_allocateOperand_var]
      exact exists_run_allocate hfile name live next load
  | markDirty name =>
    exact ⟨file.markDirty name, rfl, hfile.markDirty name, markDirty_capacity file name⟩

/-- So is every series of calls. -/
theorem exists_foldlM_run (calls : List Call) (hfile : file.WellFormed) :
    ∃ after, calls.foldlM Call.run file = .ok after ∧ after.WellFormed ∧
      after.capacity = file.capacity := by
  induction calls generalizing file with
  | nil => exact ⟨file, rfl, hfile, rfl⟩
  | cons call calls ih =>
    obtain ⟨between, hcall, hbetween, hcapacity⟩ := call.exists_run hfile
    obtain ⟨after, hcalls, hafter, hkept⟩ := ih hbetween
    refine ⟨after, ?_, hafter, hkept.trans hcapacity⟩
    rw [List.foldlM_cons, hcall]
    exact hcalls

/-- A file with a register answers every series of calls, and afterwards still
guarantees all that it did when it was new. -/
theorem afterCalls_serves {capacity : Nat} (hcapacity : 0 < capacity) (calls : List Call) :
    ∃ file, afterCalls capacity calls = .ok file ∧ file.Serves capacity := by
  obtain ⟨file, hcalls, hfile, hkept⟩ := exists_foldlM_run calls (wellFormed_new hcapacity)
  refine ⟨file, ?_, ?_⟩
  · rw [afterCalls, new_of_pos hcapacity]
    exact hcalls
  · have hserves := hfile.serves
    rwa [hkept] at hserves

/-- Three names in two registers. The third drives out the first, which then
drives out the second because the third is used again. -/
def crowdedCalls : List Call :=
  [.allocate "a" ∅ .empty true, .allocateOperand (.var "b") ∅ .empty true, .markDirty "a",
    .markDirty "b", .markDirty "c", .allocateOperand (.imm 7) ∅ .empty true,
    .allocate "c" (.ofList ["a"]) .empty false, .markDirty "c",
    .allocate "a" ∅ (NextUse.empty.prepend 3 "c") true]

theorem afterCalls_serves_crowded :
    0 < 2 ∧ (∃ file, afterCalls 2 crowdedCalls = .ok file ∧ file.Serves 2) ∧
      (afterCalls 2 crowdedCalls).toOption.map (fun file =>
        (file.slots, file.flush (.ofList ["a", "b", "c"]))) =
          some (["c", "a"], [.store "c" ⟨0⟩]) :=
  ⟨by decide, afterCalls_serves (by decide) crowdedCalls, by decide +kernel⟩

end ThreeAddress.Machine.RegisterFile
