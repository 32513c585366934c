import ThreeAddress.Proofs.AssemblyCorrect
import ThreeAddress.Proofs.RegisterCalls

/-!
No store of an assembled program is useless. What a program does is a list of events:
the instructions in their order, and the end of each line behind its instructions.
A name that is in no register but still live is loaded before it is stored or
assigned again, or else it is an output and stays as it is. A name whose register is
newer than memory has been assigned since it was last stored or loaded. So the value
that a store saves is both needed and new.
-/

namespace ThreeAddress.Machine

/-- An instruction runs, or the instructions of a line come to their end. -/
inductive Event
  | run (instr : Instr)
  | finish (line : Line)

namespace Event

def Stores (name : String) : Event → Prop
  | .run (.store other _) => other = name
  | _ => False

def Loads (name : String) : Event → Prop
  | .run (.load _ other) => other = name
  | _ => False

/-- The event is the end of a line with this destination. -/
def Assigns (name : String) : Event → Prop
  | .finish line => line.dst = name
  | .run _ => False

end Event

def Step.events (step : Step) : List Event :=
  step.instrs.map .run ++ [.finish step.line]

def Assembly.events (assembly : Assembly) : List Event :=
  assembly.steps.flatMap Step.events ++ assembly.epilogue.map .run

/-- The value of a name in memory is loaded before the name is stored or assigned
again, or it is there at the end for an output. -/
inductive Needs (outputs : NameSet) (name : String) : List Event → Prop
  | output (houtput : name ∈ outputs) : Needs outputs name []
  | load {event : Event} (hload : event.Loads name) (rest : List Event) :
      Needs outputs name (event :: rest)
  | skip {event : Event} {rest : List Event} (hstore : ¬ event.Stores name)
      (hassign : ¬ event.Assigns name) (hrest : Needs outputs name rest) :
      Needs outputs name (event :: rest)

/-- A name was assigned, and since then neither stored nor loaded. -/
def Assigned (name : String) (events : List Event) : Prop :=
  ∃ earlier event between, events = earlier ++ event :: between ∧ event.Assigns name ∧
    ∀ other ∈ between, ¬ other.Stores name ∧ ¬ other.Loads name

/-- Every store among some events saves a value that is needed behind it and that was
assigned before it. -/
def StoresUseful (outputs : NameSet) (before events after : List Event) : Prop :=
  ∀ earlier name register later, events = earlier ++ .run (.store name register) :: later →
    Needs outputs name (later ++ after) ∧ Assigned name (before ++ earlier)

variable {outputs : NameSet} {name : String} {before events more after : List Event}

namespace Needs

theorem append (hevents : ∀ event ∈ events, ¬ event.Stores name ∧ ¬ event.Assigns name)
    (h : Needs outputs name more) : Needs outputs name (events ++ more) := by
  induction events with
  | nil => exact h
  | cons event rest ih =>
    obtain ⟨⟨hstore, hassign⟩, hrest⟩ := List.forall_mem_cons.mp hevents
    exact .skip hstore hassign (ih hrest)

/-- The two ways in which a stored value is needed. -/
theorem loaded_or_output (h : Needs outputs name events) :
    (∃ between event later, events = between ++ event :: later ∧ event.Loads name ∧
      ∀ other ∈ between, ¬ other.Stores name ∧ ¬ other.Assigns name) ∨
    (name ∈ outputs ∧ ∀ event ∈ events, ¬ event.Stores name ∧ ¬ event.Assigns name) := by
  induction h with
  | output houtput => exact .inr ⟨houtput, by simp⟩
  | @load event hload rest => exact .inl ⟨[], event, rest, rfl, hload, by simp⟩
  | @skip event rest hstore hassign _ ih =>
    rcases ih with ⟨between, load, later, rfl, hload, hbetween⟩ | ⟨houtput, hrest⟩
    · left
      refine ⟨event :: between, load, later, rfl, hload, ?_⟩
      exact List.forall_mem_cons.mpr ⟨⟨hstore, hassign⟩, hbetween⟩
    · exact .inr ⟨houtput, List.forall_mem_cons.mpr ⟨⟨hstore, hassign⟩, hrest⟩⟩

end Needs

namespace Assigned

theorem finish (before : List Event) (line : Line) :
    Assigned line.dst (before ++ [.finish line]) :=
  ⟨before, .finish line, [], rfl, rfl, by simp⟩

theorem append (h : Assigned name before)
    (hevents : ∀ event ∈ events, ¬ event.Stores name ∧ ¬ event.Loads name) :
    Assigned name (before ++ events) := by
  obtain ⟨earlier, event, between, rfl, hassign, hbetween⟩ := h
  refine ⟨earlier, event, between ++ events, by simp, hassign, ?_⟩
  exact List.forall_mem_append.mpr ⟨hbetween, hevents⟩

end Assigned

namespace StoresUseful

theorem nil (outputs : NameSet) (before after : List Event) :
    StoresUseful outputs before [] after := by
  intro earlier name register later hevents
  simp at hevents

/-- A store among the events of two parts is in one of them. -/
theorem append (hfirst : StoresUseful outputs before events (more ++ after))
    (hsecond : StoresUseful outputs (before ++ events) more after) :
    StoresUseful outputs before (events ++ more) after := by
  intro earlier name register later hevents
  rcases List.append_eq_append_iff.mp hevents with
    ⟨between, rfl, hmore⟩ | ⟨between, hfirstPart, hlater⟩
  · obtain ⟨hneeds, hassigned⟩ := hsecond between name register later hmore
    exact ⟨hneeds, by simpa using hassigned⟩
  · cases between with
    | nil =>
      obtain ⟨hneeds, hassigned⟩ := hsecond [] name register later hlater.symm
      rw [List.append_nil] at hfirstPart
      exact ⟨hneeds, by simpa [hfirstPart] using hassigned⟩
    | cons head between =>
      simp only [List.cons_append, List.cons.injEq] at hlater
      obtain ⟨rfl, rfl⟩ := hlater
      obtain ⟨hneeds, hassigned⟩ := hfirst earlier name register between hfirstPart
      exact ⟨by simpa using hneeds, hassigned⟩

theorem of_no_stores (hevents : ∀ event ∈ events, ∀ name, ¬ event.Stores name) :
    StoresUseful outputs before events after := by
  rintro earlier name register later rfl
  exact absurd rfl (hevents (.run (.store name register)) (by simp) name)

theorem singleton {register : Register} (hneeds : Needs outputs name after)
    (hassigned : Assigned name before) :
    StoresUseful outputs before [.run (.store name register)] after := by
  intro earlier other holder later hevents
  cases earlier with
  | nil =>
    simp only [List.nil_append, List.cons.injEq, Event.run.injEq, Instr.store.injEq] at hevents
    obtain ⟨⟨rfl, rfl⟩, rfl⟩ := hevents
    exact ⟨hneeds, by simpa using hassigned⟩
  | cons => simp at hevents

end StoresUseful

/-- Every name that is newer than memory was assigned since it was stored or loaded. -/
def RegisterFile.DirtyAssigned (file : RegisterFile) (before : List Event) : Prop :=
  ∀ name ∈ file.dirty, Assigned name before

theorem Event.not_assigns_of_mem {instrs : List Instr} {event : Event}
    (h : event ∈ instrs.map Event.run) : ¬ event.Assigns name := by
  obtain ⟨instr, _, rfl⟩ := List.mem_map.mp h
  exact id

theorem Event.not_stores_fetch {held : Prop} [Decidable held] {register : Register}
    {wanted : String} {event : Event}
    (h : event ∈ (if held then [] else [Instr.load register wanted]).map Event.run) :
    ¬ event.Stores name := by
  split at h
  · cases h
  · obtain rfl := List.mem_singleton.mp h
    exact id

namespace RegisterFile

variable {file last : RegisterFile} {live : NameSet} {next : NextUse} {register : Register}
  {instrs : List Instr} {wanted : String}

namespace Allocates

/-- At most one name is stored. Its register goes to the wanted name. -/
theorem stores_cases (h : file.Allocates wanted live next register instrs last)
    (hfile : file.WellFormed) :
    instrs = [] ∨ ∃ old, instrs = [.store old register] ∧ old ∈ file.dirty ∧ old ∈ live ∧
      old ∉ last.slots := by
  cases h with
  | held => exact .inl rfl
  | free => exact .inl rfl
  | @evict _ old hwanted hfull hvictim hold =>
    have hne : old ≠ wanted := by
      rintro rfl
      exact hwanted (mem_slots_iff.mpr ⟨register, hold⟩)
    have hevict : file.Allocates wanted live next register (file.spill register live)
        (file.rebind register wanted) := .evict hwanted hfull hvictim hold
    have hgone := hevict.not_mem_slots hfile hold hne
    rw [spill_eq hold]
    split
    next hspill => exact .inr ⟨old, rfl, hspill.1, hspill.2, hgone⟩
    next => exact .inl rfl

theorem not_mem_slots_of_ne (h : file.Allocates wanted live next register instrs last)
    (hname : name ∉ file.slots) (hne : name ≠ wanted) : name ∉ last.slots := by
  intro hmem
  obtain ⟨holder, hholder⟩ := mem_slots_iff.mp hmem
  exact hname (mem_slots_iff.mpr ⟨holder, h.holds_before hholder hne⟩)

theorem not_loads (h : file.Allocates wanted live next register instrs last)
    (hfile : file.WellFormed) {event : Event} (hevent : event ∈ instrs.map Event.run) :
    ¬ event.Loads name := by
  rcases h.stores_cases hfile with rfl | ⟨old, rfl, _⟩
  · cases hevent
  · obtain rfl := List.mem_singleton.mp hevent
    exact id

/-- A name that was in no register is not stored, nor one that keeps its register. -/
theorem not_stores (h : file.Allocates wanted live next register instrs last)
    (hfile : file.WellFormed) (hname : name ∉ file.slots ∨ name ∈ last.slots) {event : Event}
    (hevent : event ∈ instrs.map Event.run) : ¬ event.Stores name := by
  rcases h.stores_cases hfile with rfl | ⟨old, rfl, hdirty, _, hgone⟩
  · cases hevent
  · obtain rfl := List.mem_singleton.mp hevent
    rintro rfl
    rcases hname with hname | hname
    · exact hname (hfile.dirty_held old hdirty)
    · exact hgone hname

theorem needs (h : file.Allocates wanted live next register instrs last)
    (hfile : file.WellFormed) (hname : name ∉ file.slots) (hneeds : Needs outputs name after) :
    Needs outputs name (instrs.map .run ++ after) := by
  apply Needs.append _ hneeds
  intro event hevent
  exact ⟨h.not_stores hfile (.inl hname) hevent, Event.not_assigns_of_mem hevent⟩

theorem storesUseful (h : file.Allocates wanted live next register instrs last)
    (hfile : file.WellFormed) (hdirty : file.DirtyAssigned before)
    (hneeds : ∀ old ∈ live, old ∉ last.slots → Needs outputs old after) :
    StoresUseful outputs before (instrs.map .run) after := by
  rcases h.stores_cases hfile with rfl | ⟨old, rfl, hold, hlive, hgone⟩
  · exact .nil outputs before after
  · exact .singleton (hneeds old hlive hgone) (hdirty old hold)

theorem dirtyAssigned (h : file.Allocates wanted live next register instrs last)
    (hfile : file.WellFormed) (hdirty : file.DirtyAssigned before) :
    last.DirtyAssigned (before ++ instrs.map .run) := by
  intro name hname
  apply (hdirty name (h.dirty_before hname)).append
  intro event hevent
  have hheld := (h.wellFormed hfile).dirty_held name hname
  exact ⟨h.not_stores hfile (.inr hheld) hevent, h.not_loads hfile hevent⟩

end Allocates

variable {operand : Operand} {source : Source}

theorem Supplies.mem_slots (h : file.Supplies operand source) (hname : operand = .var name) :
    name ∈ file.slots := by
  subst hname
  cases source with
  | imm value => exact h.elim
  | reg register => exact mem_slots_iff.mpr ⟨register, h⟩

namespace AllocatesOperand

/-- The value in memory is needed if it is the operand, or if it is needed later. -/
theorem needs (h : file.AllocatesOperand live next operand source instrs last)
    (hfile : file.WellFormed) (hname : name ∉ file.slots)
    (hneeds : operand = .var name ∨ (name ∉ last.slots → Needs outputs name after)) :
    Needs outputs name (instrs.map .run ++ after) := by
  cases h with
  | imm value =>
    rcases hneeds with himm | hneeds
    · cases himm
    · exact hneeds hname
  | @var wanted register stores _ h =>
    rw [List.map_append, List.append_assoc]
    apply h.needs hfile hname
    by_cases hwanted : wanted = name
    · subst hwanted
      rw [if_neg hname]
      have hload : (Event.run (.load register wanted)).Loads wanted := rfl
      exact .load hload after
    · apply Needs.append
      · exact fun event hevent =>
          ⟨Event.not_stores_fetch hevent, Event.not_assigns_of_mem hevent⟩
      · rcases hneeds with hoperand | hneeds
        · cases hoperand
          exact absurd rfl hwanted
        · exact hneeds (h.not_mem_slots_of_ne hname (Ne.symm hwanted))

theorem storesUseful (h : file.AllocatesOperand live next operand source instrs last)
    (hfile : file.WellFormed) (hdirty : file.DirtyAssigned before)
    (hneeds : ∀ old ∈ live, old ∉ last.slots → Needs outputs old after) :
    StoresUseful outputs before (instrs.map .run) after := by
  cases h with
  | imm value => exact .nil outputs before after
  | @var wanted register stores _ h =>
    rw [List.map_append]
    refine .append (h.storesUseful hfile hdirty ?_)
      (.of_no_stores fun event hevent _ => Event.not_stores_fetch hevent)
    intro old hold hgone
    apply Needs.append _ (hneeds old hold hgone)
    exact fun event hevent => ⟨Event.not_stores_fetch hevent, Event.not_assigns_of_mem hevent⟩

theorem dirtyAssigned (h : file.AllocatesOperand live next operand source instrs last)
    (hfile : file.WellFormed) (hdirty : file.DirtyAssigned before) :
    last.DirtyAssigned (before ++ instrs.map .run) := by
  cases h with
  | imm value => simpa using hdirty
  | @var wanted register stores _ h =>
    intro name hname
    rw [List.map_append, ← List.append_assoc]
    apply (h.dirtyAssigned hfile hdirty name hname).append
    have hheld := hfile.dirty_held name (h.dirty_before hname)
    intro event hevent
    split at hevent
    next => cases hevent
    next hwanted =>
      obtain rfl := List.mem_singleton.mp hevent
      refine ⟨id, ?_⟩
      rintro rfl
      exact hwanted hheld

end AllocatesOperand

/-- The stores at the end are of outputs, each of which is newer than memory and
stored once. -/
theorem WellFormed.flush_cases (hfile : file.WellFormed) {outputs : NameSet}
    {earlier later : List Instr} {instr : Instr}
    (hflush : file.flush outputs = earlier ++ instr :: later) :
    ∃ name register, instr = .store name register ∧ name ∈ outputs ∧ name ∈ file.dirty ∧
      ∀ other ∈ earlier ++ later, ∃ kept holder, other = .store kept holder ∧ kept ≠ name := by
  have hflushes := hfile.flushes outputs
  rw [flush_eq] at hflush
  obtain ⟨first, others, hstored, rfl, hmap⟩ := List.map_eq_append_iff.mp hflush
  obtain ⟨⟨register, name⟩, second, rfl, rfl, rfl⟩ := List.map_eq_cons_iff.mp hmap
  have hmem := (hflushes.mem_iff register name).mp (by rw [hstored]; simp)
  have hnodup := hflushes.names_nodup
  rw [hstored] at hnodup
  refine ⟨name, register, rfl, hmem.2.1, hmem.2.2, ?_⟩
  intro other hother
  rw [← List.map_append] at hother
  obtain ⟨⟨holder, kept⟩, hkept, rfl⟩ := List.mem_map.mp hother
  refine ⟨kept, holder, rfl, ?_⟩
  rintro rfl
  simp only [List.map_append, List.map_cons, List.nodup_middle, List.nodup_cons] at hnodup
  exact hnodup.1 (by rw [← List.map_append]; exact List.mem_map_of_mem hkept)

theorem WellFormed.needs_flush (hfile : file.WellFormed) (hname : name ∉ file.slots)
    (houtput : name ∈ outputs) : Needs outputs name ((file.flush outputs).map .run) := by
  rw [← List.append_nil (List.map _ _)]
  apply Needs.append _ (.output houtput)
  intro event hevent
  refine ⟨?_, Event.not_assigns_of_mem hevent⟩
  obtain ⟨instr, hinstr, rfl⟩ := List.mem_map.mp hevent
  obtain ⟨earlier, later, hflush⟩ := List.append_of_mem hinstr
  obtain ⟨stored, _, rfl, _, hdirty, _⟩ := hfile.flush_cases hflush
  rintro rfl
  exact hname (hfile.dirty_held stored hdirty)

theorem WellFormed.storesUseful_flush (hfile : file.WellFormed)
    (hdirty : file.DirtyAssigned before) :
    StoresUseful outputs before ((file.flush outputs).map .run) [] := by
  intro earlier name register later hevents
  obtain ⟨first, others, hflush, rfl, hmap⟩ := List.map_eq_append_iff.mp hevents
  obtain ⟨instr, second, rfl, hinstr, rfl⟩ := List.map_eq_cons_iff.mp hmap
  cases hinstr
  obtain ⟨stored, holder, hstore, houtput, hnew, hothers⟩ := hfile.flush_cases hflush
  cases hstore
  have hkept : ∀ event ∈ (first ++ second).map Event.run,
      ¬ event.Stores name ∧ ¬ event.Loads name := by
    intro event hevent
    obtain ⟨instr, hmem, rfl⟩ := List.mem_map.mp hevent
    obtain ⟨kept, holder, rfl, hne⟩ := hothers instr hmem
    exact ⟨hne, id⟩
  rw [List.map_append] at hkept
  obtain ⟨hfirst, hsecond⟩ := List.forall_mem_append.mp hkept
  refine ⟨?_, (hdirty name hnew).append hfirst⟩
  exact Needs.append (fun event hevent =>
    ⟨(hsecond event hevent).1, Event.not_assigns_of_mem hevent⟩) (.output houtput)

end RegisterFile

namespace Line

variable {line : Line} {rest : List Line} {file first second third last : RegisterFile}
  {live : NameSet} {next : NextUse} {spans : NextSpan} {dst : Register}
  {left right : Source} {instrs stores : List Instr}

theorem not_stores_compute {op : Op} {event : Event}
    (hevent : event ∈ (op.compute dst left right).map Event.run) :
    ¬ event.Stores name ∧ ¬ event.Loads name := by
  unfold Op.compute at hevent
  split at hevent
  · cases hevent
  · obtain rfl := List.mem_singleton.mp hevent
    exact ⟨id, id⟩

/-- What is needed behind a line is needed before its destination is computed, unless
it is the destination. -/
theorem needs_compute (hne : name ≠ line.dst) (hneeds : Needs outputs name after) :
    Needs outputs name ((line.op.compute dst left right).map .run ++ (.finish line :: after)) := by
  apply Needs.append
  · exact fun event hevent => ⟨(not_stores_compute hevent).1, Event.not_assigns_of_mem hevent⟩
  · exact .skip id (Ne.symm hne) hneeds

namespace Assembles

theorem needs (h : line.Assembles ⟨liveAt outputs (line :: rest), liveAt outputs rest⟩ spans file
      instrs last) (hline : line.IsBuilt) (hfile : file.WellFormed) (hname : name ∉ file.slots)
    (hlive : name ∈ liveAt outputs (line :: rest))
    (hrest : name ∈ liveAt outputs rest → name ∉ last.slots → Needs outputs name after) :
    Needs outputs name (instrs.map .run ++ (.finish line :: after)) := by
  cases h with
  | @intro left right loadLeft loadRight stores dst first second third hleft hright hdst =>
  rw [liveAt_cons, Line.mem_liveBefore, hline.mem_refs, hline.mem_defs] at hlive
  simp only [List.map_append, List.append_assoc]
  apply hleft.needs hfile hname
  by_cases hleftName : line.left = .var name
  · exact .inl hleftName
  right
  intro hfirst
  apply hright.needs (hleft.wellFormed hfile) hfirst
  by_cases hrightName : line.right = .var name
  · exact .inl hrightName
  right
  intro hsecond
  rcases hlive with (hread | hread) | ⟨hlater, hne⟩
  · exact absurd hread hleftName
  · exact absurd hread hrightName
  · have hthird := hdst.not_mem_slots_of_ne hsecond (Ne.symm hne)
    exact hdst.needs (hright.wellFormed (hleft.wellFormed hfile)) hsecond
      (needs_compute (Ne.symm hne) (hrest hlater (by simpa using hthird)))

theorem dirtyAssigned {liveSpan : LiveSpan} (h : line.Assembles liveSpan spans file instrs last)
    (hfile : file.WellFormed) (hdirty : file.DirtyAssigned before) :
    last.DirtyAssigned (before ++ (instrs.map .run ++ [.finish line])) := by
  cases h with
  | @intro left right loadLeft loadRight stores dst first second third hleft hright hdst =>
  have hfirst := hleft.wellFormed hfile
  have hthird := hdst.dirtyAssigned (hright.wellFormed hfirst)
    (hright.dirtyAssigned hfirst (hleft.dirtyAssigned hfile hdirty))
  intro name hname
  by_cases hassigned : line.dst = name
  · subst hassigned
    rw [← List.append_assoc]
    exact .finish _ line
  · rcases RegisterFile.mem_markDirty_dirty.mp hname with hkept | ⟨heq, _⟩
    · have hbehind : ∀ event ∈ (line.op.compute dst left right).map Event.run ++ [.finish line],
          ¬ event.Stores name ∧ ¬ event.Loads name := by
        intro event hevent
        rcases List.mem_append.mp hevent with hcompute | hfinish
        · exact not_stores_compute hcompute
        · obtain rfl := List.mem_singleton.mp hfinish
          exact ⟨id, id⟩
      simpa using (hthird name hkept).append hbehind
    · exact absurd heq.symm hassigned

theorem storesUseful {index : Nat}
    (h : line.Assembles ⟨liveAt outputs (line :: rest), liveAt outputs rest⟩
      ⟨nextAt index (line :: rest), nextAt (index + 1) rest⟩ file instrs last)
    (hline : line.IsBuilt) (hfile : file.WellFormed) (htwo : 2 ≤ file.capacity)
    (hdirty : file.DirtyAssigned before)
    (hrest : ∀ name ∈ liveAt outputs rest, name ∉ last.slots → Needs outputs name after) :
    StoresUseful outputs before (instrs.map .run ++ [.finish line]) after := by
  cases h with
  | @intro left right loadLeft loadRight stores dst first second third hleft hright hdst =>
  have hfirst := hleft.wellFormed hfile
  have hsecond := hright.wellFormed hfirst
  have hfirstDirty := hleft.dirtyAssigned hfile hdirty
  have hkept : second.Supplies line.left left :=
    supplies_left hline hfirst (.inl (hleft.capacity_eq ▸ htwo)) hleft.supplies
      fun _ _ => hright.holds_other
  -- a name that is live before the line and is no operand is needed behind the line
  have hneeds : ∀ name ∈ liveAt outputs (line :: rest), name ∉ second.slots →
      Needs outputs name (stores.map .run ++ ((line.op.compute dst left right).map .run ++
        (.finish line :: after))) := by
    intro name hlive hname
    rw [liveAt_cons, Line.mem_liveBefore, hline.mem_refs, hline.mem_defs] at hlive
    rcases hlive with (hread | hread) | ⟨hlater, hne⟩
    · exact absurd (hkept.mem_slots hread) hname
    · exact absurd (hright.supplies.mem_slots hread) hname
    · have hthird := hdst.not_mem_slots_of_ne hname (Ne.symm hne)
      exact hdst.needs hsecond hname
        (needs_compute (Ne.symm hne) (hrest name hlater (by simpa using hthird)))
  simp only [List.map_append, List.append_assoc]
  refine .append (hleft.storesUseful hfile hdirty ?_) (.append
    (hright.storesUseful hfirst hfirstDirty ?_) (.append
    (hdst.storesUseful hsecond (hright.dirtyAssigned hfirst hfirstDirty) ?_) (.of_no_stores ?_)))
  · intro name hlive hname
    simp only [List.append_assoc, List.singleton_append]
    exact hright.needs hfirst hname (.inr (hneeds name hlive))
  · simpa only [List.append_assoc, List.singleton_append] using hneeds
  · intro name hlive hname
    have hne : name ≠ line.dst := by
      rintro rfl
      exact hname (RegisterFile.mem_slots_iff.mpr ⟨dst, hdst.holds_name⟩)
    simp only [List.append_assoc, List.singleton_append]
    exact needs_compute hne (hrest name hlive (by simpa using hname))
  · intro event hevent name
    rcases List.mem_append.mp hevent with hcompute | hfinish
    · exact (not_stores_compute hcompute).1
    · obtain rfl := List.mem_singleton.mp hfinish
      exact id

end Assembles

end Line

namespace AssemblesFrom

variable {index : Nat} {file last : RegisterFile} {lines : List Line} {steps : List Step}

/-- A live name that is in no register is needed from memory. -/
theorem needs (h : AssemblesFrom outputs index file lines steps last)
    (hlines : ∀ line ∈ lines, line.IsBuilt) (hfile : file.WellFormed) (hname : name ∉ file.slots)
    (hlive : name ∈ liveAt outputs lines) :
    Needs outputs name (steps.flatMap Step.events ++ (last.flush outputs).map .run) := by
  induction h with
  | nil index file => exact hfile.needs_flush hname hlive
  | cons hline _ ih =>
    obtain ⟨hbuilt, hothers⟩ := List.forall_mem_cons.mp hlines
    simp only [List.flatMap_cons, Step.events, List.append_assoc, List.singleton_append]
    exact hline.needs hbuilt hfile hname hlive fun hlater hgone =>
      ih hothers (hline.wellFormed hfile) hgone hlater

theorem storesUseful (h : AssemblesFrom outputs index file lines steps last)
    (hlines : ∀ line ∈ lines, line.IsBuilt) (hfile : file.WellFormed) (htwo : 2 ≤ file.capacity)
    (hdirty : file.DirtyAssigned before) :
    StoresUseful outputs before (steps.flatMap Step.events ++ (last.flush outputs).map .run) [] := by
  induction h generalizing before with
  | nil index file => exact hfile.storesUseful_flush hdirty
  | cons hline hrest ih =>
    obtain ⟨hbuilt, hothers⟩ := List.forall_mem_cons.mp hlines
    have hbetween := hline.wellFormed hfile
    rw [List.flatMap_cons, List.append_assoc]
    refine .append ?_ (ih hothers hbetween (hline.capacity_eq ▸ htwo)
      (hline.dirtyAssigned hfile hdirty))
    rw [List.append_nil]
    exact hline.storesUseful hbuilt hfile htwo hdirty fun name hlive hgone =>
      hrest.needs hothers hbetween hgone hlive

end AssemblesFrom

/-- Every store saves a value that was assigned since the name was last stored or
loaded. The value is loaded before the name is stored or assigned again, or else the
name is an output and is neither stored nor assigned any more. -/
theorem Program.assemble_stores_useful {program : Program} {registers : Nat}
    (hlines : ∀ line ∈ program.lines, line.IsBuilt) (hregisters : 2 ≤ registers) :
    ∃ assembly, program.assemble registers = .ok assembly ∧
      ∀ before name register after,
        assembly.events = before ++ .run (.store name register) :: after →
        ((∃ between load later, after = between ++ load :: later ∧ load.Loads name ∧
            ∀ event ∈ between, ¬ event.Stores name ∧ ¬ event.Assigns name) ∨
          (name ∈ program.outputs ∧
            ∀ event ∈ after, ¬ event.Stores name ∧ ¬ event.Assigns name)) ∧
        ∃ earlier finish between, before = earlier ++ finish :: between ∧ finish.Assigns name ∧
          ∀ event ∈ between, ¬ event.Stores name ∧ ¬ event.Loads name := by
  have hpositive : 0 < registers := by omega
  obtain ⟨steps, file, hassemble, hsteps⟩ := program.exists_assembles hpositive
  refine ⟨⟨steps, file.flush program.outputs⟩, hassemble, ?_⟩
  intro before name register after hevents
  have hdirty : RegisterFile.DirtyAssigned ⟨registers, [], ∅⟩ [] := by
    simp [RegisterFile.DirtyAssigned]
  obtain ⟨hneeds, hassigned⟩ :=
    hsteps.storesUseful hlines (RegisterFile.wellFormed_new hpositive) hregisters hdirty
      before name register after hevents
  rw [List.append_nil] at hneeds
  exact ⟨hneeds.loaded_or_output, hassigned⟩

/-- The first product is in the way of the second line and is needed by the last. -/
def Program.crowded : Program :=
  ⟨[.new .mul "t" (.var "a") (.var "b"), .new .min "u" (.var "c") (.var "d"),
    .copy "v" (.var "u"), .new .add "w" (.var "t") (.var "v")], .ofList ["u", "w"]⟩

theorem Program.assemble_stores_useful_crowded :
    (∀ line ∈ crowded.lines, line.IsBuilt) ∧
    ∃ assembly, crowded.assemble 2 = .ok assembly ∧ assembly.storeCount = 3 ∧
      ∀ before name register after,
        assembly.events = before ++ .run (.store name register) :: after →
        ((∃ between load later, after = between ++ load :: later ∧ load.Loads name ∧
            ∀ event ∈ between, ¬ event.Stores name ∧ ¬ event.Assigns name) ∨
          (name ∈ crowded.outputs ∧
            ∀ event ∈ after, ¬ event.Stores name ∧ ¬ event.Assigns name)) ∧
        ∃ earlier finish between, before = earlier ++ finish :: between ∧ finish.Assigns name ∧
          ∀ event ∈ between, ¬ event.Stores name ∧ ¬ event.Loads name := by
  have hlines : ∀ line ∈ crowded.lines, line.IsBuilt := by
    simp [crowded]
  obtain ⟨assembly, hassemble, huseful⟩ := assemble_stores_useful hlines (Nat.le_refl 2)
  have hcount : (crowded.assemble 2).toOption.map Assembly.storeCount = some 3 := by
    decide +kernel
  rw [hassemble] at hcount
  exact ⟨hlines, assembly, hassemble, Option.some.inj hcount, huseful⟩

end ThreeAddress.Machine
