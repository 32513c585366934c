import Mathlib.Data.List.Nodup
import ThreeAddress.Machine.RegisterFile

/-!
What a register file guarantees. Its registers hold different names, there are
never more of them in use than it has, and only names in registers are dirty.
Finding a register for a name always succeeds, and `Allocates` says all that it
can do: the name is held already, a free register takes it, or the register whose
name is needed last is reused.
-/

namespace ThreeAddress.Machine.RegisterFile

/-- A register holds a name. -/
def Holds (file : RegisterFile) (register : Register) (name : String) : Prop :=
  file.slots[register.index]? = some name

structure WellFormed (file : RegisterFile) : Prop where
  positive : 0 < file.capacity
  bounded : file.slots.length ≤ file.capacity
  distinct : file.slots.Nodup
  dirty_held : ∀ name ∈ file.dirty, name ∈ file.slots

theorem new_of_pos {capacity : Nat} (h : 0 < capacity) : new capacity = .ok ⟨capacity, [], ∅⟩ :=
  if_neg (Nat.ne_of_gt h)

theorem wellFormed_new {capacity : Nat} (h : 0 < capacity) : WellFormed ⟨capacity, [], ∅⟩ :=
  ⟨h, Nat.zero_le _, List.nodup_nil, by simp⟩

/-- What finding a register for a name can do. The register is given with the
stores that save the name it held before. -/
inductive Allocates (file : RegisterFile) (name : String) (live : NameSet) (next : NextUse) :
    Register → List Instr → RegisterFile → Prop
  | held {register : Register} (hname : file.Holds register name) :
      Allocates file name live next register [] file
  | free (hname : name ∉ file.slots) (hfree : file.slots.length < file.capacity) :
      Allocates file name live next ⟨file.slots.length⟩ [] { file with slots := file.slots ++ [name] }
  | evict {register : Register} {old : String} (hname : name ∉ file.slots)
      (hfull : file.capacity ≤ file.slots.length) (hvictim : file.victim? next = some register)
      (hold : file.Holds register old) :
      Allocates file name live next register (file.spill register live) (file.rebind register name)

variable {file : RegisterFile} {register other : Register} {name old : String}

theorem mem_slots_iff : name ∈ file.slots ↔ ∃ register, file.Holds register name := by
  rw [List.mem_iff_getElem?]
  constructor
  · rintro ⟨index, hindex⟩
    exact ⟨⟨index⟩, hindex⟩
  · rintro ⟨register, hregister⟩
    exact ⟨register.index, hregister⟩

theorem mem_residents : (register, name) ∈ file.residents ↔ file.Holds register name := by
  simp only [residents, List.mem_map, Prod.exists, Prod.mk.injEq, List.mem_zipIdx_iff_getElem?]
  constructor
  · rintro ⟨_, _, hget, rfl, rfl⟩
    exact hget
  · intro hholds
    exact ⟨name, register.index, hholds, rfl, rfl⟩

theorem Holds.name_unique (hfirst : file.Holds register name) (hsecond : file.Holds register old) :
    name = old :=
  Option.some.inj (hfirst.symm.trans hsecond)

theorem Holds.register_unique (hfirst : file.Holds register name)
    (hsecond : file.Holds other name) (hfile : file.WellFormed) : register = other := by
  obtain ⟨first, hget⟩ := List.getElem?_eq_some_iff.mp hfirst
  have hindex : register.index = other.index :=
    (List.getElem?_inj first hfile.distinct).mp (hfirst.trans hsecond.symm)
  cases register
  cases other
  exact congrArg Register.mk hindex

theorem Holds.index_lt (h : file.Holds register name) (hfile : file.WellFormed) :
    register.index < file.capacity := by
  obtain ⟨hlt, _⟩ := List.getElem?_eq_some_iff.mp h
  have hbounded := hfile.bounded
  omega

/-- Reusing a register leaves the others alone. -/
theorem holds_rebind_of_ne (hne : register ≠ other) :
    (file.rebind register name).Holds other old ↔ file.Holds other old := by
  have hindex : register.index ≠ other.index := by
    cases register
    cases other
    simpa using hne
  rw [Holds, Holds, rebind, List.getElem?_set_ne hindex]

theorem holds_rebind (hold : file.Holds register old) :
    (file.rebind register name).Holds register name := by
  obtain ⟨hlt, _⟩ := List.getElem?_eq_some_iff.mp hold
  simp [Holds, rebind, hlt]

/-- Only the name that was in a reused register stops being dirty. -/
theorem mem_rebind_dirty (hold : file.Holds register old) {other : String} :
    other ∈ (file.rebind register name).dirty ↔ other ∈ file.dirty ∧ other ≠ old := by
  unfold Holds at hold
  rw [and_comm, ne_comm]
  simp [rebind, hold]

theorem spill_eq (hold : file.Holds register old) (live : NameSet) :
    file.spill register live =
      if old ∈ file.dirty ∧ old ∈ live then [.store old register] else [] := by
  unfold Holds at hold
  simp [spill, hold, isDirty]

/-- A free register takes a name that is not held. -/
theorem WellFormed.append (hfile : file.WellFormed) (hname : name ∉ file.slots)
    (hfree : file.slots.length < file.capacity) :
    WellFormed { file with slots := file.slots ++ [name] } := by
  refine ⟨hfile.positive, ?_, ?_, ?_⟩
  · simp only [List.length_append, List.length_singleton]
    omega
  · simpa using hfile.distinct.concat hname
  · intro dirty hdirty
    exact List.mem_append_left _ (hfile.dirty_held dirty hdirty)

/-- So does a register that is reused. -/
theorem WellFormed.rebind (hfile : file.WellFormed) (hname : name ∉ file.slots)
    (hold : file.Holds register old) : (file.rebind register name).WellFormed := by
  refine ⟨hfile.positive, ?_, hfile.distinct.set hname, ?_⟩
  · simpa [RegisterFile.rebind] using hfile.bounded
  · intro dirty hdirty
    obtain ⟨hbefore, hkept⟩ := (mem_rebind_dirty hold).mp hdirty
    obtain ⟨other, hother⟩ := mem_slots_iff.mp (hfile.dirty_held dirty hbefore)
    have hne : register ≠ other := by
      rintro rfl
      exact hkept (hother.name_unique hold)
    exact mem_slots_iff.mpr ⟨other, (holds_rebind_of_ne hne).mpr hother⟩

theorem registerOf?_eq_some (hfile : file.WellFormed) (h : file.Holds register name) :
    file.registerOf? name = some register := by
  have hmem : name ∈ file.slots := mem_slots_iff.mpr ⟨register, h⟩
  obtain ⟨index, hindex⟩ := Option.isSome_iff_exists.mp (List.isSome_idxOf?.mpr hmem)
  obtain ⟨hlt, hget, _⟩ := List.idxOf?_eq_some_iff.mp hindex
  have hholds : file.Holds ⟨index⟩ name := List.getElem?_eq_some_iff.mpr ⟨hlt, hget⟩
  rw [registerOf?, hindex, Option.map_some, hholds.register_unique h hfile]

theorem registerOf?_eq_none (h : name ∉ file.slots) : file.registerOf? name = none := by
  simp [registerOf?, h]

/-- The lowest register whose name has a property. -/
structure LowestWith (file : RegisterFile) (property : String → Prop) (register : Register) :
    Prop where
  holds : ∃ name, file.Holds register name ∧ property name
  lowest : ∀ other name, file.Holds other name → property name → register.index ≤ other.index

/-- A name that is used again, and of all names in the file is first used last. -/
def UsedLast (file : RegisterFile) (next : NextUse) (name : String) : Prop :=
  ∃ use, next.first? name = some use ∧
    ∀ other ∈ file.slots, ∀ earlier, next.first? other = some earlier → earlier ≤ use

/-- The register that is to be reused. Names that are not used again go first, and the
lowest register decides between equals. -/
structure IsVictim (file : RegisterFile) (next : NextUse) (register : Register) : Prop where
  unused : (∃ name ∈ file.slots, next.first? name = none) →
    file.LowestWith (fun name => next.first? name = none) register
  used : (∀ name ∈ file.slots, next.first? name ≠ none) →
    file.LowestWith (file.UsedLast next) register

/-- The register with the greatest of the uses, and this use, where uses are listed by
register. The lowest register comes before others with the same use. -/
def farthest? (uses : List Nat) : Option (Register × Nat) :=
  uses.max?.bind fun farthest => (uses.idxOf? farthest).map fun index => (⟨index⟩, farthest)

theorem farthest?_eq_some {uses : List Nat} {farthest index : Nat}
    (hmax : uses.max? = some farthest) (hindex : uses.idxOf? farthest = some index) :
    farthest? uses = some (⟨index⟩, farthest) := by
  simp [farthest?, hmax, hindex]

/-- With one more register, the farthest use stays where it is unless the new one is
later. -/
theorem farthest?_concat (uses : List Nat) (use : Nat) :
    farthest? (uses ++ [use]) =
      if (farthest? uses).all (·.2 < use) then some (⟨uses.length⟩, use)
      else farthest? uses := by
  cases hmax : uses.max? with
  | none =>
    rw [List.max?_eq_none_iff] at hmax
    simp [hmax, farthest?]
  | some farthest =>
    obtain ⟨hmem, hle⟩ := List.max?_eq_some_iff.mp hmax
    obtain ⟨index, hindex⟩ := Option.isSome_iff_exists.mp (List.isSome_idxOf?.mpr hmem)
    have hidxOf (value : Nat) : (uses ++ [use]).idxOf? value =
        (uses.idxOf? value).or (if use == value then some uses.length else none) := by
      rw [List.idxOf?, List.findIdx?_append, List.findIdx?_singleton]
      split <;> simp
    rw [farthest?_eq_some hmax hindex]
    by_cases hlater : farthest < use
    · have hgreatest : (uses ++ [use]).max? = some use := by
        refine List.max?_eq_some_iff.mpr ⟨by simp, ?_⟩
        intro other hother
        rcases List.mem_append.mp hother with hold | hnew
        · exact Nat.le_of_lt (Nat.lt_of_le_of_lt (hle other hold) hlater)
        · exact Nat.le_of_eq (List.mem_singleton.mp hnew)
      have hunseen : uses.idxOf? use = none := by
        rw [List.idxOf?_eq_none_iff]
        intro hseen
        exact absurd (hle use hseen) (Nat.not_le_of_lt hlater)
      have hlast : (uses ++ [use]).idxOf? use = some uses.length := by
        simp [hidxOf, hunseen]
      rw [farthest?_eq_some hgreatest hlast]
      simp [hlater]
    · have hgreatest : (uses ++ [use]).max? = some farthest := by
        refine List.max?_eq_some_iff.mpr ⟨by simp [hmem], ?_⟩
        intro other hother
        rcases List.mem_append.mp hother with hold | hnew
        · exact hle other hold
        · exact Nat.le_trans (Nat.le_of_eq (List.mem_singleton.mp hnew)) (Nat.le_of_not_lt hlater)
      have hsame : (uses ++ [use]).idxOf? farthest = some index := by
        rw [hidxOf, hindex, Option.some_or]
      rw [farthest?_eq_some hgreatest hsame]
      simp [hlater]

theorem victimFrom?_cons_none {next : NextUse} {farthest : Option (Register × Nat)}
    {name : String} (h : next.first? name = none) (register : Register)
    (rest : List (Register × String)) :
    victimFrom? next farthest ((register, name) :: rest) = some register := by
  rw [victimFrom?, h]

theorem victimFrom?_cons_some {next : NextUse} {farthest : Option (Register × Nat)}
    {name : String} {use : Nat} (h : next.first? name = some use) (register : Register)
    (rest : List (Register × String)) :
    victimFrom? next farthest ((register, name) :: rest) =
      victimFrom? next (if farthest.all (·.2 < use) then some (register, use) else farthest)
        rest := by
  simp only [victimFrom?, h]
  split <;> rfl

/-- The pass from a register on, where the uses of the registers below are known. -/
theorem victimFrom?_eq (next : NextUse) (uses : List Nat) (names : List String) :
    victimFrom? next (farthest? uses)
        ((names.zipIdx uses.length).map fun entry => (⟨entry.2⟩, entry.1)) =
      ((names.findIdx? fun name => (next.first? name).isNone).map (⟨uses.length + ·⟩)).or
        ((farthest? (uses ++ names.filterMap next.first?)).map Prod.fst) := by
  induction names generalizing uses with
  | nil => simp [victimFrom?]
  | cons name rest ih =>
    rw [List.zipIdx_cons, List.map_cons, List.findIdx?_cons]
    cases hfirst : next.first? name with
    | none => simp [victimFrom?_cons_none hfirst]
    | some use =>
      have hrest := ih (uses ++ [use])
      rw [farthest?_concat, List.append_assoc, List.length_append, List.length_singleton] at hrest
      rw [victimFrom?_cons_some hfirst, hrest, List.filterMap_cons_some hfirst]
      simp [Function.comp_def, Nat.add_assoc, Nat.add_comm 1]

/-- One pass finds what two searches do: the lowest register whose name is not used
again, and if there is none the lowest of those whose first use is farthest away. -/
theorem victim?_eq (file : RegisterFile) (next : NextUse) :
    file.victim? next =
      ((file.slots.findIdx? fun name => (next.first? name).isNone).map Register.mk).or
        ((farthest? (file.slots.filterMap next.first?)).map Prod.fst) := by
  have hpass := victimFrom?_eq next [] file.slots
  simp only [List.length_nil, Nat.zero_add, List.nil_append] at hpass
  exact hpass

theorem isVictim_of_findIdx? {next : NextUse} {index : Nat}
    (h : file.slots.findIdx? (fun name => (next.first? name).isNone) = some index) :
    file.IsVictim next ⟨index⟩ := by
  obtain ⟨hlt, hunused, hbefore⟩ := List.findIdx?_eq_some_iff_getElem.mp h
  have hnone : next.first? file.slots[index] = none := by simpa using hunused
  refine ⟨fun _ => ⟨⟨_, List.getElem?_eq_getElem hlt, hnone⟩, ?_⟩, ?_⟩
  · intro other name hother hname
    by_contra hlower
    obtain ⟨hindex, rfl⟩ := List.getElem?_eq_some_iff.mp hother
    apply hbefore other.index (Nat.lt_of_not_le hlower)
    simp [hname]
  · intro hused
    exact absurd hnone (hused _ (List.getElem_mem hlt))

/-- If every name is used again, the first uses stand in the order of the registers. -/
theorem isVictim_of_idxOf? {next : NextUse} {farthest index : Nat}
    (hused : ∀ name ∈ file.slots, next.first? name = some ((next.first? name).getD 0))
    (hfarthest : (file.slots.map fun name => (next.first? name).getD 0).max? = some farthest)
    (h : (file.slots.map fun name => (next.first? name).getD 0).idxOf? farthest = some index) :
    file.IsVictim next ⟨index⟩ := by
  obtain ⟨_, hmax⟩ := List.max?_eq_some_iff.mp hfarthest
  obtain ⟨hlt, hget, hbefore⟩ := List.idxOf?_eq_some_iff.mp h
  rw [List.length_map] at hlt
  rw [List.getElem_map] at hget
  have hmem : file.slots[index] ∈ file.slots := List.getElem_mem hlt
  have hfirst : next.first? file.slots[index] = some farthest := hget ▸ hused _ hmem
  have hlast (name : String) (hname : name ∈ file.slots) (use : Nat)
      (huse : next.first? name = some use) : use ≤ farthest := by
    apply hmax
    exact List.mem_map.mpr ⟨name, hname, by rw [huse, Option.getD_some]⟩
  refine ⟨?_, fun _ => ⟨⟨_, List.getElem?_eq_getElem hlt, farthest, hfirst, hlast⟩, ?_⟩⟩
  · rintro ⟨name, hname, hnone⟩
    have hsome := hused name hname
    rw [hnone] at hsome
    cases hsome
  · rintro other name hother ⟨use, huse, hmaximal⟩
    by_contra hlower
    obtain ⟨hindex, rfl⟩ := List.getElem?_eq_some_iff.mp hother
    have hequal : use = farthest :=
      Nat.le_antisymm (hlast _ (List.getElem_mem hindex) use huse) (hmaximal _ hmem _ hfirst)
    apply hbefore other.index (Nat.lt_of_not_le hlower)
    rw [List.getElem_map, huse, Option.getD_some, hequal]

/-- A file in use always has a register to reuse. -/
theorem exists_isVictim (hslots : file.slots ≠ []) (next : NextUse) :
    ∃ register, file.victim? next = some register ∧ file.IsVictim next register := by
  rw [victim?_eq]
  cases hfind : file.slots.findIdx? fun name => (next.first? name).isNone with
  | some index => exact ⟨⟨index⟩, rfl, isVictim_of_findIdx? hfind⟩
  | none =>
    have hused : ∀ name ∈ file.slots, next.first? name = some ((next.first? name).getD 0) := by
      intro name hname
      have hsome := List.findIdx?_eq_none_iff.mp hfind name hname
      cases hfirst : next.first? name with
      | none => simp [hfirst] at hsome
      | some use => rfl
    have hmap := List.filterMap_eq_map_iff_forall_eq_some.mpr hused
    have hne : file.slots.map (fun name => (next.first? name).getD 0) ≠ [] := by
      simpa using hslots
    obtain ⟨farthest, hfarthest⟩ :=
      Option.isSome_iff_exists.mp (List.isSome_max?_of_ne_nil hne)
    obtain ⟨hmem, _⟩ := List.max?_eq_some_iff.mp hfarthest
    obtain ⟨index, hindex⟩ := Option.isSome_iff_exists.mp (List.isSome_idxOf?.mpr hmem)
    refine ⟨⟨index⟩, ?_, isVictim_of_idxOf? hused hfarthest hindex⟩
    simp [farthest?, hmap, hfarthest, hindex]

theorem IsVictim.exists_holds {next : NextUse} (h : file.IsVictim next register) :
    ∃ name, file.Holds register name ∧
      ∀ use, next.first? name = some use →
        ∀ other ∈ file.slots, ∃ earlier, next.first? other = some earlier ∧ earlier ≤ use := by
  by_cases hunused : ∃ name ∈ file.slots, next.first? name = none
  · obtain ⟨name, hholds, hnone⟩ := (h.unused hunused).holds
    refine ⟨name, hholds, ?_⟩
    intro use huse
    rw [hnone] at huse
    cases huse
  · have hused : ∀ name ∈ file.slots, next.first? name ≠ none :=
      fun name hname hnone => hunused ⟨name, hname, hnone⟩
    obtain ⟨name, hholds, last, hlast, hmaximal⟩ := (h.used hused).holds
    refine ⟨name, hholds, ?_⟩
    intro use huse other hother
    obtain rfl : last = use := Option.some.inj (hlast.symm.trans huse)
    obtain ⟨earlier, hearlier⟩ := Option.ne_none_iff_exists'.mp (hused other hother)
    exact ⟨earlier, hearlier, hmaximal other hother earlier hearlier⟩

/-- The name in the register to reuse is not used again, or no name in the file is
first used later. -/
theorem exists_victim (hslots : file.slots ≠ []) (next : NextUse) :
    ∃ register name, file.victim? next = some register ∧ file.Holds register name ∧
      ∀ use, next.first? name = some use →
        ∀ other ∈ file.slots, ∃ earlier, next.first? other = some earlier ∧ earlier ≤ use := by
  obtain ⟨register, hregister, hvictim⟩ := exists_isVictim hslots next
  obtain ⟨name, hholds, hlast⟩ := hvictim.exists_holds
  exact ⟨register, name, hregister, hholds, hlast⟩

/-- Finding a register always succeeds, and a load is added exactly for a name
that is wanted from memory and not held yet. -/
theorem exists_allocates (hfile : file.WellFormed) (name : String) (live : NameSet)
    (next : NextUse) :
    ∃ register stores after, file.Allocates name live next register stores after ∧
      ∀ load, file.allocate name live next load =
        .ok (register, stores ++ (if load ∧ name ∉ file.slots then [.load register name] else []),
          after) := by
  by_cases hname : name ∈ file.slots
  · obtain ⟨register, hregister⟩ := mem_slots_iff.mp hname
    refine ⟨register, [], file, .held hregister, ?_⟩
    intro load
    simp [allocate, registerOf?_eq_some hfile hregister, hname]
  · have hnone := registerOf?_eq_none hname
    by_cases hfree : file.slots.length < file.capacity
    · refine ⟨_, _, _, .free hname hfree, ?_⟩
      intro load
      simp [allocate, hnone, hfree, hname]
    · have hfull : file.capacity ≤ file.slots.length := by omega
      have hslots : file.slots ≠ [] := by
        apply List.ne_nil_of_length_pos
        have hpositive := hfile.positive
        omega
      obtain ⟨register, old, hvictim, hold, _⟩ := exists_victim hslots next
      refine ⟨_, _, _, .evict hname hfull hvictim hold, ?_⟩
      intro load
      simp [allocate, hnone, hfree, hvictim, hname]

namespace Allocates

variable {live : NameSet} {next : NextUse} {stores : List Instr} {after : RegisterFile}

theorem capacity_eq (h : file.Allocates name live next register stores after) :
    after.capacity = file.capacity := by
  cases h <;> rfl

theorem holds_name (h : file.Allocates name live next register stores after) :
    after.Holds register name := by
  cases h with
  | held hname => exact hname
  | free => simp [Holds]
  | evict _ _ _ hold => exact holds_rebind hold

/-- Registers other than the one that is found keep their names. -/
theorem holds_iff (h : file.Allocates name live next register stores after)
    (hne : other ≠ register) : after.Holds other old ↔ file.Holds other old := by
  cases h with
  | held => exact Iff.rfl
  | free =>
    have hindex : other.index ≠ file.slots.length := by
      intro hlength
      apply hne
      cases other
      exact congrArg Register.mk hlength
    by_cases hlt : other.index < file.slots.length
    · rw [Holds, Holds, List.getElem?_append_left hlt]
    · have hend : (file.slots ++ [name]).length ≤ other.index := by
        rw [List.length_append, List.length_singleton]
        omega
      rw [Holds, Holds, List.getElem?_eq_none hend, List.getElem?_eq_none (by omega)]
  | evict => exact holds_rebind_of_ne hne.symm

/-- Other names are where they were, unless the register was the one to reuse. -/
theorem holds_other (h : file.Allocates name live next register stores after)
    (hother : file.Holds other old) :
    after.Holds other old ∨
      (file.capacity ≤ file.slots.length ∧ name ∉ file.slots ∧ file.victim? next = some other) := by
  by_cases heq : other = register
  · subst heq
    cases h with
    | held => exact .inl hother
    | free =>
      obtain ⟨hlt, _⟩ := List.getElem?_eq_some_iff.mp hother
      exact absurd hlt (Nat.lt_irrefl _)
    | evict hname hfull hvictim => exact .inr ⟨hfull, hname, hvictim⟩
  · exact .inl ((h.holds_iff heq).mpr hother)

/-- A register that now holds another name held it before. -/
theorem holds_before (h : file.Allocates name live next register stores after)
    (hother : after.Holds other old) (hne : old ≠ name) : file.Holds other old := by
  apply (h.holds_iff ?_).mp hother
  rintro rfl
  exact hne (hother.name_unique h.holds_name)

theorem wellFormed (h : file.Allocates name live next register stores after)
    (hfile : file.WellFormed) : after.WellFormed := by
  cases h with
  | held => exact hfile
  | free hname hfree => exact hfile.append hname hfree
  | evict hname _ _ hold => exact hfile.rebind hname hold

/-- A name only gets dirty by being marked. -/
theorem dirty_before (h : file.Allocates name live next register stores after)
    (hdirty : old ∈ after.dirty) : old ∈ file.dirty := by
  cases h with
  | held => exact hdirty
  | free => exact hdirty
  | evict _ _ _ hold => exact ((mem_rebind_dirty hold).mp hdirty).1

end Allocates

@[simp] theorem markDirty_slots (file : RegisterFile) (name : String) :
    (file.markDirty name).slots = file.slots := by
  unfold markDirty
  split <;> rfl

@[simp] theorem markDirty_capacity (file : RegisterFile) (name : String) :
    (file.markDirty name).capacity = file.capacity := by
  unfold markDirty
  split <;> rfl

theorem mem_markDirty_dirty :
    old ∈ (file.markDirty name).dirty ↔ old ∈ file.dirty ∨ (old = name ∧ name ∈ file.slots) := by
  unfold markDirty
  split
  · simp [*, or_comm, eq_comm (a := old)]
  · simp [*]

theorem WellFormed.markDirty (hfile : file.WellFormed) (name : String) :
    (file.markDirty name).WellFormed := by
  refine ⟨by simpa using hfile.positive, by simpa using hfile.bounded,
    by simpa using hfile.distinct, ?_⟩
  intro dirty hdirty
  rw [markDirty_slots]
  rcases mem_markDirty_dirty.mp hdirty with hold | ⟨heq, hname⟩
  · exact hfile.dirty_held dirty hold
  · exact heq ▸ hname

theorem WellFormed.exists_other (hfile : file.WellFormed) (hlength : 2 ≤ file.slots.length)
    (name : String) : ∃ other ∈ file.slots, other ≠ name := by
  have hdistinct := hfile.distinct
  rcases hslots : file.slots with _ | ⟨first, _ | ⟨second, rest⟩⟩
  · simp [hslots] at hlength
  · simp [hslots] at hlength
  · rw [hslots] at hdistinct
    by_cases hfirst : first = name
    · refine ⟨second, by simp, ?_⟩
      rintro rfl
      simp [hfirst] at hdistinct
    · exact ⟨first, by simp, hfirst⟩

/-- With two registers full, a name that is used before all others keeps its
register. -/
theorem victim?_ne_of_first (hfile : file.WellFormed) (hheld : file.Holds register name)
    (hcapacity : 2 ≤ file.capacity) (hfull : file.capacity ≤ file.slots.length) {next : NextUse}
    {use : Nat} (hfirst : next.first? name = some use)
    (hothers : ∀ other ∈ file.slots, other ≠ name →
      ∀ later, next.first? other = some later → use < later) :
    file.victim? next ≠ some register := by
  intro hvictim
  have hslots : file.slots ≠ [] := by
    apply List.ne_nil_of_length_pos
    omega
  obtain ⟨chosen, held, hchosen, hchosenHeld, hlast⟩ := exists_victim hslots next
  obtain rfl : chosen = register := Option.some.inj (hchosen.symm.trans hvictim)
  obtain rfl : held = name := hchosenHeld.name_unique hheld
  obtain ⟨other, hother, hne⟩ := hfile.exists_other (by omega) held
  obtain ⟨earlier, hearlier, hle⟩ := hlast use hfirst other hother
  have hlt := hothers other hother hne earlier hearlier
  omega

end ThreeAddress.Machine.RegisterFile
