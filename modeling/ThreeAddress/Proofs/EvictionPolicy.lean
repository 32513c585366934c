import ThreeAddress.Proofs.RegisterCalls

/-!
What a full register file does for a name that it does not hold. However the file came
about, the register to reuse is picked by the next uses alone, the name in it is saved
if memory lacks a value that is still live, and beyond this register and its old name
nothing changes.
-/

namespace ThreeAddress.Machine.RegisterFile

/-- A register is taken from one name and given to another. -/
structure Evicts (file : RegisterFile) (old name : String) (live : NameSet) (next : NextUse)
    (load : Bool) (register : Register) (instrs : List Instr) (after : RegisterFile) : Prop where
  victim : file.IsVictim next register
  held : file.Holds register old
  instrs_eq : instrs =
    (if old ∈ file.dirty ∧ old ∈ live then [.store old register] else []) ++
      if load then [.load register name] else []
  capacity_eq : after.capacity = file.capacity
  holds : after.Holds register name
  others : ∀ other, other ≠ register → ∀ kept, after.Holds other kept ↔ file.Holds other kept
  dirty : ∀ other, other ∈ after.dirty ↔ other ∈ file.dirty ∧ other ≠ old
  clean : old ∉ after.dirty ∧ name ∉ after.dirty

variable {file : RegisterFile} {name : String} {capacity : Nat}

theorem evicts_rebind (hfile : file.WellFormed) (hname : name ∉ file.slots) {register : Register}
    {old : String} {next : NextUse} (hvictim : file.IsVictim next register)
    (hold : file.Holds register old) (live : NameSet) (load : Bool) :
    file.Evicts old name live next load register
      (file.spill register live ++ if load then [.load register name] else [])
      (file.rebind register name) where
  victim := hvictim
  held := hold
  instrs_eq := by rw [spill_eq hold]
  capacity_eq := rfl
  holds := holds_rebind hold
  others _ hne _ := holds_rebind_of_ne hne.symm
  dirty _ := mem_rebind_dirty hold
  clean := by
    rw [mem_rebind_dirty hold, mem_rebind_dirty hold]
    exact ⟨fun h => h.2 rfl, fun h => hname (hfile.dirty_held name h.1)⟩

theorem WellFormed.exists_evicts (hfile : file.WellFormed)
    (hfull : file.slots.length = file.capacity) (hname : name ∉ file.slots) (live : NameSet)
    (next : NextUse) (load : Bool) :
    ∃ register old instrs after, file.allocate name live next load = .ok (register, instrs, after) ∧
      file.Evicts old name live next load register instrs after := by
  have hslots : file.slots ≠ [] := by
    apply List.ne_nil_of_length_pos
    rw [hfull]
    exact hfile.positive
  obtain ⟨register, hregister, hvictim⟩ := exists_isVictim hslots next
  obtain ⟨old, hold, _⟩ := hvictim.exists_holds
  have hnotFree : ¬ file.slots.length < file.capacity := by omega
  refine ⟨register, old, _, _, ?_, evicts_rebind hfile hname hvictim hold live load⟩
  simp [allocate, registerOf?_eq_none hname, hnotFree, hregister]

/-- The file that calls leave is well formed. -/
theorem wellFormed_of_afterCalls {calls : List Call} (h : afterCalls capacity calls = .ok file) :
    file.WellFormed ∧ file.capacity = capacity := by
  rcases Nat.eq_zero_or_pos capacity with rfl | hpositive
  · cases h
  · obtain ⟨after, hcalls, hafter, hcapacity⟩ := exists_foldlM_run calls (wellFormed_new hpositive)
    rw [afterCalls, new_of_pos hpositive] at h
    obtain rfl : after = file := Except.ok.inj (hcalls.symm.trans h)
    exact ⟨hafter, hcapacity⟩

/-- After any calls that fill a file, a name that is not held takes the lowest register
whose name is not used again, or else the lowest of those whose names are used last.
The old name is stored exactly if it is live and newer than memory, and the new one
loaded exactly if this is wanted. -/
theorem afterCalls_evicts {calls : List Call} (hfile : afterCalls capacity calls = .ok file)
    (hfull : file.slots.length = capacity) (hname : name ∉ file.slots) (live : NameSet)
    (next : NextUse) (load : Bool) :
    ∃ register old instrs after, file.allocate name live next load = .ok (register, instrs, after) ∧
      file.Evicts old name live next load register instrs after := by
  obtain ⟨hwellFormed, hcapacity⟩ := wellFormed_of_afterCalls hfile
  exact hwellFormed.exists_evicts (hfull.trans hcapacity.symm) hname live next load

/-- Three names in three registers, two of them newer than memory. -/
def fillingCalls : List Call :=
  [.allocate "a" ∅ .empty true, .allocate "b" ∅ .empty true,
    .allocateOperand (.var "c") ∅ .empty false, .markDirty "b", .markDirty "c"]

/-- Two of the names are first used at the same line, after the other. -/
def tiedUses : NextUse :=
  ((NextUse.empty.prepend 5 "b").prepend 5 "c").prepend 2 "a"

theorem afterCalls_evicts_tied :
    ∃ file, afterCalls 3 fillingCalls = .ok file ∧ file.slots.length = 3 ∧ "d" ∉ file.slots ∧
      ∃ register old instrs after,
        file.allocate "d" (.ofList ["b"]) tiedUses true = .ok (register, instrs, after) ∧
        instrs = [.store "b" ⟨1⟩, .load ⟨1⟩ "d"] ∧
        file.Evicts old "d" (.ofList ["b"]) tiedUses true register instrs after := by
  have hslots : (afterCalls 3 fillingCalls).toOption.map slots = some ["a", "b", "c"] := by
    decide +kernel
  have hemitted : ((afterCalls 3 fillingCalls).toOption.bind fun file =>
      (file.allocate "d" (.ofList ["b"]) tiedUses true).toOption.map (·.2.1)) =
        some [.store "b" ⟨1⟩, .load ⟨1⟩ "d"] := by
    decide +kernel
  cases hfile : afterCalls 3 fillingCalls with
  | error e =>
    rw [hfile] at hslots
    cases hslots
  | ok file =>
    rw [hfile] at hslots hemitted
    have hnames : file.slots = ["a", "b", "c"] := Option.some.inj hslots
    have hfull : file.slots.length = 3 := by rw [hnames]; rfl
    have hname : "d" ∉ file.slots := by rw [hnames]; decide
    obtain ⟨register, old, instrs, after, hallocate, hevicts⟩ :=
      afterCalls_evicts hfile hfull hname (.ofList ["b"]) tiedUses true
    have hinstrs : ((file.allocate "d" (.ofList ["b"]) tiedUses true).toOption.map (·.2.1)) =
        some [.store "b" ⟨1⟩, .load ⟨1⟩ "d"] := hemitted
    rw [hallocate] at hinstrs
    exact ⟨file, rfl, hfull, hname, register, old, instrs, after, hallocate,
      Option.some.inj hinstrs, hevicts⟩

end ThreeAddress.Machine.RegisterFile
