import ThreeAddress.Code.Semantics
import ThreeAddress.Source.Semantics

/-!
Runs of programs beside a store of integers. A number is stored as itself and a
Boolean as one or zero, and assignments keep the two in step. The laws of blocks
and loops say which statements have the same runs.
-/

namespace ThreeAddress

namespace Environment

/-- The integer that stands for a variable: a number itself, and one or zero for
a Boolean. Names that are not variables have none. -/
def cell? (symbols : Symbols) (env : Environment) (name : String) : Option Int :=
  match symbols.lookup name with
  | some .number | some .enumVar => some (env.numbers name)
  | some .boolean => some (if env.booleans name then 1 else 0)
  | some .enumType | some .enumVariant | none => none

/-- Every variable is stored as the integer that stands for it. -/
def Matches (symbols : Symbols) (env : Environment) (cells : String → Int) : Prop :=
  ∀ name value, env.cell? symbols name = some value → cells name = value

variable {symbols : Symbols} {env : Environment} {cells : String → Int} {target : String}

theorem cell?_setNumber_of_ne {name : String} (hname : name ≠ target) (value : Int) :
    (env.setNumber target value).cell? symbols name = env.cell? symbols name := by
  unfold cell?
  cases symbols.lookup name with
  | none => rfl
  | some kind =>
    cases kind with
    | number | enumVar => simp [setNumber, hname]
    | boolean | enumType | enumVariant => rfl

theorem cell?_setBoolean_of_ne {name : String} (hname : name ≠ target) (value : Bool) :
    (env.setBoolean target value).cell? symbols name = env.cell? symbols name := by
  unfold cell?
  cases symbols.lookup name with
  | none => rfl
  | some kind =>
    cases kind with
    | boolean => simp [setBoolean, hname]
    | number | enumVar | enumType | enumVariant => rfl

theorem Matches.setNumber (h : env.Matches symbols cells) (value : Int)
    (hkind : symbols.lookup target = some .number ∨ symbols.lookup target = some .enumVar) :
    (env.setNumber target value).Matches symbols
      fun name => if name = target then value else cells name := by
  intro name result hcell
  by_cases hname : name = target
  · subst hname
    obtain hkind | hkind := hkind <;> simpa [cell?, hkind, Environment.setNumber] using hcell
  · simp only [hname, if_false]
    rw [cell?_setNumber_of_ne hname] at hcell
    exact h name result hcell

theorem Matches.setBoolean (h : env.Matches symbols cells) (value : Bool)
    (hkind : symbols.lookup target = some .boolean) :
    (env.setBoolean target value).Matches symbols
      fun name => if name = target then (if value then 1 else 0) else cells name := by
  intro name result hcell
  by_cases hname : name = target
  · subst hname
    simpa [cell?, hkind, Environment.setBoolean] using hcell
  · simp only [hname, if_false]
    rw [cell?_setBoolean_of_ne hname] at hcell
    exact h name result hcell

end Environment

/-- The part of a store that belongs to the program. -/
def Store.named (store : Store) : String → Int := fun name => store (.named name)

@[simp] theorem Store.named_set_named (store : Store) (target : String) (value : Int) :
    (store.set (.named target) value).named =
      fun name => if name = target then value else store.named name := by
  funext name
  simp [Store.named, Store.set]

/-- A block is run part by part. -/
theorem Stmt.runs_block_append {arithmetic : Arithmetic} {symbols : Symbols}
    {first rest : List Stmt} {before after : Environment} {exit : Exit} :
    Runs arithmetic symbols (.block (first ++ rest)) before after exit ↔
      Runs arithmetic symbols (.block (.block first :: rest)) before after exit := by
  induction first generalizing before with
  | nil =>
    constructor
    · intro h
      exact .blockCons (.blockNil before) h
    · intro h
      cases h with
      | blockCons hnil hrest =>
        cases hnil
        exact hrest
      | blockBroken hnil => cases hnil
  | cons stmt others ih =>
    constructor
    · intro h
      cases h with
      | blockCons hstmt hothers =>
        cases ih.mp hothers with
        | blockCons hfirst hrest => exact .blockCons (.blockCons hstmt hfirst) hrest
        | blockBroken hfirst => exact .blockBroken (.blockCons hstmt hfirst)
      | blockBroken hstmt => exact .blockBroken (.blockBroken hstmt)
    · intro h
      cases h with
      | blockCons hfirst hrest =>
        cases hfirst with
        | blockCons hstmt hothers => exact .blockCons hstmt (ih.mpr (.blockCons hothers hrest))
      | blockBroken hfirst =>
        cases hfirst with
        | blockCons hstmt hothers => exact .blockCons hstmt (ih.mpr (.blockBroken hothers))
        | blockBroken hstmt => exact .blockBroken hstmt

theorem Stmt.runs_block_singleton {arithmetic : Arithmetic} {symbols : Symbols} {stmt : Stmt}
    {before after : Environment} {exit : Exit} :
    Runs arithmetic symbols (.block [stmt]) before after exit ↔
      Runs arithmetic symbols stmt before after exit := by
  constructor
  · intro h
    cases h with
    | blockCons hstmt hnil =>
      cases hnil
      exact hstmt
    | blockBroken hstmt => exact hstmt
  · intro h
    cases exit with
    | normal => exact .blockCons h (.blockNil after)
    | broken => exact .blockBroken h

/-- A counting loop is a loop with its update at the end of every round. -/
theorem Stmt.runs_forLoop {arithmetic : Arithmetic} {symbols : Symbols} {init update body : Stmt}
    {condition : Expr} {before after : Environment} {exit : Exit} :
    Runs arithmetic symbols (.forLoop init condition update body) before after exit ↔
      Runs arithmetic symbols (.block [init, .whileLoop condition (.block [body, update])])
        before after exit := by
  constructor
  · intro h
    cases h with
    | forLoop run => exact run
  · exact .forLoop

/-- A case that ends with a break never runs on into the next one. -/
theorem Case.not_runs_normal {arithmetic : Arithmetic} {symbols : Symbols} {branch : Case}
    (h : branch.endsWithBreak) {before after : Environment} :
    ¬ Stmt.Runs arithmetic symbols (.block branch.body) before after .normal := by
  intro hrun
  obtain ⟨last, hlast, hbreak⟩ : ∃ last, branch.body.getLast? = some last ∧ last.isBreak := by
    simpa [Case.endsWithBreak, Option.any_eq_true] using h
  obtain ⟨others, hbody⟩ := List.getLast?_eq_some_iff.mp hlast
  rw [hbody, Stmt.runs_block_append] at hrun
  cases hrun with
  | blockCons _ hend =>
    cases hend with
    | blockCons hstmt _ => cases hstmt <;> cases hbreak

end ThreeAddress
