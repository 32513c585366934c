import ThreeAddress.Machine.Instr
import ThreeAddress.Machine.NextUse

/-!
A register file of bounded size. Registers are taken into use in order, and each
holds one name. When all are taken, the register is reused whose value is needed
last; its value goes to memory first if it is still needed and memory does not
have it.
-/

namespace ThreeAddress.Machine

/-- The names held by the registers in use, from `R0` on, and those of them
whose value in memory is out of date. -/
structure RegisterFile where
  capacity : Nat
  slots : List String
  dirty : NameSet

namespace RegisterFile

def new (capacity : Nat) : Except Error RegisterFile :=
  if capacity = 0 then .error .noRegisters else .ok ⟨capacity, [], ∅⟩

def registerOf? (file : RegisterFile) (name : String) : Option Register :=
  (file.slots.idxOf? name).map Register.mk

/-- The registers in use with the names they hold. -/
def residents (file : RegisterFile) : List (Register × String) :=
  file.slots.zipIdx.map fun (name, index) => (⟨index⟩, name)

def isDirty (file : RegisterFile) (name : String) : Bool :=
  name ∈ file.dirty

/-- Records that a register has a newer value than memory. A name that no
register holds is not recorded. -/
def markDirty (file : RegisterFile) (name : String) : RegisterFile :=
  if name ∈ file.slots then { file with dirty := file.dirty.insert name } else file

/-- Goes through registers in search of one to reuse. The first whose name is not
used again is taken at once. Until there is one, `farthest` is the register whose
name is used last of those gone through, together with this use. Another takes its
place only by a later use. -/
def victimFrom? (next : NextUse) (farthest : Option (Register × Nat)) :
    List (Register × String) → Option Register
  | [] => farthest.map Prod.fst
  | (register, name) :: rest =>
      match next.first? name with
      | none => some register
      | some use =>
          if farthest.all (·.2 < use) then victimFrom? next (some (register, use)) rest
          else victimFrom? next farthest rest

/-- The register to reuse. -/
def victim? (file : RegisterFile) (next : NextUse) : Option Register :=
  victimFrom? next none file.residents

/-- The store that saves the value of a register before the register is reused.
None is needed when memory has the value or nothing reads it any more. -/
def spill (file : RegisterFile) (register : Register) (live : NameSet) : List Instr :=
  match file.slots[register.index]? with
  | some name => if file.isDirty name && name ∈ live then [.store name register] else []
  | none => []

/-- Gives a register in use to another name. -/
def rebind (file : RegisterFile) (register : Register) (name : String) : RegisterFile :=
  { file with
    slots := file.slots.set register.index name
    dirty :=
      match file.slots[register.index]? with
      | some old => file.dirty.erase old
      | none => file.dirty }

/-- Finds a register for a name, with the instructions that this takes. A name
that is held already keeps its register and takes none. -/
def allocate (file : RegisterFile) (name : String) (live : NameSet) (next : NextUse)
    (load : Bool) : Except Error (Register × List Instr × RegisterFile) :=
  let fetch (register : Register) : List Instr := if load then [.load register name] else []
  match file.registerOf? name with
  | some register => .ok (register, [], file)
  | none =>
      if file.slots.length < file.capacity then
        let register : Register := ⟨file.slots.length⟩
        .ok (register, fetch register, { file with slots := file.slots ++ [name] })
      else
        match file.victim? next with
        | some register =>
            .ok (register, file.spill register live ++ fetch register, file.rebind register name)
        | none => .error .noRegisters

/-- Finds a register for an operand. A constant takes none. -/
def allocateOperand (file : RegisterFile) (operand : Operand) (live : NameSet) (next : NextUse)
    (load : Bool) : Except Error (Source × List Instr × RegisterFile) :=
  match operand with
  | .imm value => .ok (.imm value, [], file)
  | .var name => do
      let (register, instrs, file) ← file.allocate name live next load
      return (.reg register, instrs, file)

/-- The stores that bring the outputs in memory up to date. -/
def flush (file : RegisterFile) (outputs : NameSet) : List Instr :=
  file.residents.filterMap fun (register, name) =>
    if name ∈ outputs && file.isDirty name then some (.store name register) else none

end RegisterFile

end ThreeAddress.Machine
