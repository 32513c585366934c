import Std.Data.String.ToNat
import ThreeAddress.Machine.Semantics
import ThreeAddress.Proofs.CodeNames
import ThreeAddress.Proofs.CodeRuns

/-!
Straight-line code and machine lines. Code without jumps runs its instructions
one after the other, and each of them is a line over the names under which its
variables are written. As long as no variable has the name of a temporary, two
variables never share a cell and both do the same.
-/

namespace ThreeAddress

/-- A variable that no temporary is written like. -/
def Var.Plain : Var → Prop
  | .named name => ∀ t : Temp, name ≠ t.text
  | .temp _ => True

theorem Temp.text_injective {one other : Temp} (h : one.text = other.text) : one = other := by
  obtain ⟨first⟩ := one
  obtain ⟨second⟩ := other
  have hnumber := Nat.repr_injective ((String.append_right_inj "_t").mp h)
  exact congrArg Temp.mk hnumber

/-- Two variables are written alike only if one is a temporary and the other has
its name. -/
theorem Var.eq_or_of_text_eq {one other : Var} (h : one.text = other.text) :
    one = other ∨ ∃ temp : Temp, (one = .named temp.text ∧ other = .temp temp) ∨
      (one = .temp temp ∧ other = .named temp.text) := by
  cases one with
  | named first =>
    cases other with
    | named second => exact .inl (congrArg Var.named h)
    | temp second => exact .inr ⟨second, .inl ⟨congrArg Var.named h, rfl⟩⟩
  | temp first =>
    cases other with
    | named second => exact .inr ⟨first, .inr ⟨rfl, congrArg Var.named h.symm⟩⟩
    | temp second => exact .inl (congrArg Var.temp (Temp.text_injective h))

/-- Different variables are written differently. -/
theorem Var.Plain.text_injective {one other : Var} (hone : one.Plain) (hother : other.Plain)
    (h : one.text = other.text) : one = other := by
  rcases Var.eq_or_of_text_eq h with heq | ⟨temp, ⟨rfl, rfl⟩ | ⟨rfl, rfl⟩⟩
  · exact heq
  · exact absurd rfl (hone temp)
  · exact absurd rfl (hother temp)

/-- What an instruction does where it is not a jump and not a label. -/
def Instr.run (arithmetic : Arithmetic) (store : Store) : Instr → Option Store
  | .assign dst source => some (store.set dst (source.eval store))
  | .binary dst left op right =>
      (arithmetic op (left.eval store) (right.eval store)).map (store.set dst)
  | .branch .. | .jump _ | .label _ => none

namespace Code

variable {arithmetic : Arithmetic} {code : Code} {store last : Store}

theorem step?_run {position : Nat} {instr : Instr} (h : code[position]? = some instr)
    (hinstr : instr.isControlFlow = false) :
    code.step? arithmetic ⟨position, store⟩ =
      (instr.run arithmetic store).map (⟨position + 1, ·⟩) := by
  cases instr with
  | assign dst source => exact step?_assign h
  | binary dst left op right =>
    rw [step?_binary h, Instr.run, Option.map_map]
    rfl
  | branch | jump | label => cases hinstr

theorem reaches_iff_run {first rest : List Instr} (hcode : code = first ++ rest)
    (hstraight : ∀ instr ∈ rest, instr.isControlFlow = false) :
    Reaches arithmetic code ⟨first.length, store⟩ ⟨code.length, last⟩ ↔
      rest.foldlM (Instr.run arithmetic) store = some last := by
  induction rest generalizing first store with
  | nil =>
    have hend : code.length = first.length := by
      simp [hcode]
    rw [← hend]
    constructor
    · intro h
      exact congrArg some (h.end_unique (.refl _)).symm
    · intro h
      rw [Option.some.inj h]
      exact .refl _
  | cons instr rest ih =>
    have hinstr : code[first.length]? = some instr := by
      simp [hcode]
    have hstep : code.step? arithmetic ⟨first.length, store⟩ =
        (instr.run arithmetic store).map (⟨first.length + 1, ·⟩) :=
      step?_run hinstr (hstraight instr List.mem_cons_self)
    have hrest (next : Store) :
        Reaches arithmetic code ⟨first.length + 1, next⟩ ⟨code.length, last⟩ ↔
          rest.foldlM (Instr.run arithmetic) next = some last := by
      have hothers := @ih next (first ++ [instr]) (by simp [hcode])
        (fun other hmem => hstraight other (List.mem_cons_of_mem instr hmem))
      rwa [List.length_append, List.length_singleton] at hothers
    rw [List.foldlM_cons]
    constructor
    · intro h
      have hne : first.length ≠ code.length := by
        simp [hcode]
      obtain ⟨next, honce, hothers⟩ := h.exists_step hne
      rw [hstep] at honce
      obtain ⟨middle, hmiddle, rfl⟩ := Option.map_eq_some_iff.mp honce
      exact Option.bind_eq_some_iff.mpr ⟨middle, hmiddle, (hrest middle).mp hothers⟩
    · intro h
      obtain ⟨middle, hmiddle, hothers⟩ := Option.bind_eq_some_iff.mp h
      rw [hmiddle] at hstep
      exact .step hstep ((hrest middle).mpr hothers)

theorem isStraightLine_iff :
    code.isStraightLine ↔ ∀ instr ∈ code, instr.isControlFlow = false := by
  simp [isStraightLine]

/-- Straight-line code runs to its end exactly if every instruction has a result. -/
theorem runs_iff_run (hstraight : code.isStraightLine) :
    code.Runs arithmetic store last ↔ code.foldlM (Instr.run arithmetic) store = some last := by
  exact @reaches_iff_run arithmetic code store last [] code rfl (isStraightLine_iff.mp hstraight)

end Code

/-- Every variable is in the cell of its name. -/
def Store.InCells (store : Store) (cells : Machine.Memory) : Prop :=
  ∀ var : Var, var.Plain → store var = cells var.text

namespace Store.InCells

variable {store : Store} {cells : Machine.Memory}

theorem set (h : store.InCells cells) {dst : Var} (hdst : dst.Plain) (value : Int) :
    (store.set dst value).InCells (cells.set dst.text value) := by
  intro var hvar
  by_cases heq : var = dst
  · simp [heq, Store.set, Machine.Memory.set]
  · have htext : var.text ≠ dst.text := by
      intro htext
      exact heq (hvar.text_injective hdst htext)
    simp only [Store.set, heq, if_false, Machine.Memory.set, htext]
    exact h var hvar

theorem eval_eq (h : store.InCells cells) {value : Value}
    (hvalue : ∀ var, value = .var var → var.Plain) :
    (Machine.Operand.ofValue value).eval cells = value.eval store := by
  cases value with
  | imm constant => rfl
  | var var => exact (h var (hvalue var rfl)).symm

end Store.InCells

/-- An instruction all of whose variables are plain. -/
structure Instr.Plain (instr : Instr) : Prop where
  dst : ∀ var, instr.dst? = some var → var.Plain
  operands : ∀ var, .var var ∈ instr.operands → var.Plain

theorem Instr.Within.plain {instr : Instr}
    (h : instr.Within (fun name => ∀ t : Temp, name ≠ t.text) fun name => ∀ t : Temp, name ≠ t.text) :
    instr.Plain := by
  refine ⟨?_, ?_⟩
  · intro var hvar
    cases var with
    | named name => exact h.dst name hvar
    | temp t => trivial
  · intro var hvar
    cases var with
    | named name => exact h.operands name hvar
    | temp t => trivial

theorem Instr.exists_line {instr : Instr} (h : instr.isControlFlow = false) :
    ∃ line, Machine.Line.ofInstr? instr = some line := by
  cases instr with
  | assign | binary => exact ⟨_, rfl⟩
  | branch | jump | label => cases h

variable {arithmetic : Machine.Arithmetic} {store : Store} {cells : Machine.Memory}

/-- A line does in the cells what its instruction does with the variables. -/
theorem Instr.Plain.run_line {instr : Instr} {line : Machine.Line} (hinstr : instr.Plain)
    (hline : Machine.Line.ofInstr? instr = some line)
    (hzero : ∀ value, arithmetic .add 0 value = some value) (h : store.InCells cells) :
    Option.Rel Store.InCells (instr.run (fun op => arithmetic (.ofArith op)) store)
      (line.run arithmetic cells) := by
  cases instr with
  | assign dst source =>
    cases hline
    have hsource : (Machine.Operand.ofValue source).eval cells = source.eval store :=
      h.eval_eq fun var hvar => hinstr.operands var (by simp [Instr.operands, hvar])
    have hresult : arithmetic .add (Machine.Operand.eval cells (.imm 0))
        ((Machine.Operand.ofValue source).eval cells) = some (source.eval store) := by
      rw [hsource]
      exact hzero _
    simp only [Instr.run, Machine.Line.copy, Machine.Line.new, Machine.Line.run, hresult]
    exact .some (h.set (hinstr.dst dst rfl) _)
  | binary dst left op right =>
    cases hline
    have hleft : (Machine.Operand.ofValue left).eval cells = left.eval store :=
      h.eval_eq fun var hvar => hinstr.operands var (by simp [Instr.operands, hvar])
    have hright : (Machine.Operand.ofValue right).eval cells = right.eval store :=
      h.eval_eq fun var hvar => hinstr.operands var (by simp [Instr.operands, hvar])
    simp only [Instr.run, Machine.Line.new, Machine.Line.run, hleft, hright]
    cases arithmetic (.ofArith op) (left.eval store) (right.eval store) with
    | none => exact .none
    | some value => exact .some (h.set (hinstr.dst dst rfl) value)
  | branch | jump | label => cases hline

/-- The lines of straight-line code do in the cells what the code does with its
variables. -/
theorem Store.InCells.run_lines {code : Code} (h : store.InCells cells)
    (hstraight : ∀ instr ∈ code, instr.isControlFlow = false)
    (hcode : ∀ instr ∈ code, instr.Plain)
    (hzero : ∀ value, arithmetic .add 0 value = some value) :
    Option.Rel Store.InCells (code.foldlM (Instr.run fun op => arithmetic (.ofArith op)) store)
      (Machine.runLines arithmetic cells (code.filterMap Machine.Line.ofInstr?)) := by
  induction code generalizing store cells with
  | nil => exact .some h
  | cons instr rest ih =>
    obtain ⟨line, hline⟩ := instr.exists_line (hstraight instr List.mem_cons_self)
    have hrel := (hcode instr List.mem_cons_self).run_line hline hzero h
    rw [List.filterMap_cons_some hline, List.foldlM_cons]
    apply Machine.rel_bind hrel
    intro _ _ hnext
    exact ih hnext (fun other hmem => hstraight other (List.mem_cons_of_mem instr hmem))
      fun other hmem => hcode other (List.mem_cons_of_mem instr hmem)

end ThreeAddress
