import Mathlib.Data.List.Chain
import ThreeAddress.Proofs.Evaluations

/-!
Code that only jumps forward. Every step of it goes to a later instruction, so a run
passes each instruction at most once and comes to an end: behind the last instruction,
or at an operation that has no result.
-/

namespace ThreeAddress.Code

variable {arithmetic : Arithmetic} {code : Code} {first next config : Config}

/-- Every jump goes to a later instruction. -/
def Forward (code : Code) : Prop :=
  ∀ position label, code.CanJump position label →
    ∃ place, position < place ∧ code.position? label = some place

/-- A run, as where it stands step after step. -/
def IsRun (arithmetic : Arithmetic) (code : Code) (configs : List Config) : Prop :=
  configs.IsChain fun first next => code.step? arithmetic first = some next

/-- A run does not leave the code. -/
theorem position_le_of_step? (h : code.step? arithmetic first = some next) :
    next.position ≤ code.length := by
  rcases next_or_jump_of_step? h with hnext | ⟨label, _, hplace⟩
  · have hfirst : first.position < code.length := by
      by_contra hlast
      simp [step?, List.getElem?_eq_none (Nat.le_of_not_lt hlast)] at h
    omega
  · exact (List.getElem?_eq_some_iff.mp (getElem?_of_position? hplace)).1.le

/-- There is no step from an instruction only if it jumps to a label that is not marked,
or if its operation has no result. -/
theorem fails_or_jumps_of_step?_eq_none {instr : Instr}
    (hinstr : code[config.position]? = some instr) (h : code.step? arithmetic config = none) :
    (∃ operation, FailsAt arithmetic code config operation) ∨
      ∃ label, code.CanJump config.position label ∧ code.position? label = none := by
  obtain ⟨position, store⟩ := config
  cases instr with
  | assign dst source => simp [step?_assign hinstr] at h
  | binary dst left op right =>
    rw [step?_binary hinstr, Option.map_eq_none_iff] at h
    exact .inl ⟨⟨op, left.eval store, right.eval store⟩, by simp [operation?, hinstr], h⟩
  | branch left op right target sense =>
    simp only [step?, hinstr] at h
    split at h
    · exact .inr ⟨target, ⟨_, hinstr, rfl⟩, Option.map_eq_none_iff.mp h⟩
    · cases h
  | jump target =>
    simp only [step?, hinstr] at h
    exact .inr ⟨target, ⟨_, hinstr, rfl⟩, Option.map_eq_none_iff.mp h⟩
  | label place => simp [step?_label hinstr] at h

namespace Forward

theorem position_lt (h : code.Forward) (hstep : code.step? arithmetic first = some next) :
    first.position < next.position := by
  rcases next_or_jump_of_step? hstep with hnext | ⟨label, hjump, hplace⟩
  · omega
  · obtain ⟨place, hlt, hfound⟩ := h _ label hjump
    rw [hplace, Option.some.injEq] at hfound
    rwa [hfound]

/-- A run that cannot go on is finished or at an operation that has no result. -/
theorem ends (h : code.Forward) (hnone : code.step? arithmetic config = none)
    (hle : config.position ≤ code.length) :
    config.position = code.length ∨ ∃ operation, FailsAt arithmetic code config operation := by
  cases hinstr : code[config.position]? with
  | none => exact .inl (Nat.le_antisymm hle (List.getElem?_eq_none_iff.mp hinstr))
  | some instr =>
    refine .inr ((fails_or_jumps_of_step?_eq_none hinstr hnone).resolve_right ?_)
    rintro ⟨label, hjump, hlost⟩
    obtain ⟨place, _, hplace⟩ := h _ label hjump
    rw [hlost] at hplace
    cases hplace

theorem pairwise (h : code.Forward) {run : List Config} (hrun : code.IsRun arithmetic run) :
    (run.map Config.position).Pairwise (· < ·) := by
  rw [← List.isChain_iff_pairwise, List.isChain_map]
  exact hrun.imp fun _ _ => h.position_lt

/-- From every place of the code there is a run to an end. The induction is on how many
instructions are left. -/
theorem exists_end_from (h : code.Forward) (config : Config)
    (hle : config.position ≤ code.length) :
    ∃ more last, code.IsRun arithmetic (config :: more) ∧
      (config :: more).getLast? = some last ∧
      (last.position = code.length ∨ ∃ operation, FailsAt arithmetic code last operation) := by
  induction hleft : code.length - config.position using Nat.strong_induction_on generalizing config
    with
  | _ left ih =>
    cases hstep : code.step? arithmetic config with
    | none => exact ⟨[], config, .singleton config, rfl, h.ends hstep hle⟩
    | some next =>
      have hlt := h.position_lt hstep
      have hnext := position_le_of_step? hstep
      obtain ⟨more, last, hrun, hlast, hend⟩ := ih _ (by omega) next hnext rfl
      exact ⟨next :: more, last, .cons_cons hstep hrun, by rwa [List.getLast?_cons_cons], hend⟩

/-- Every run can be carried on to an end. -/
theorem exists_end (h : code.Forward) {run : List Config}
    (hrun : code.IsRun arithmetic (config :: run)) (hle : config.position ≤ code.length) :
    ∃ more last, code.IsRun arithmetic (config :: (run ++ more)) ∧
      (config :: (run ++ more)).getLast? = some last ∧
      (last.position = code.length ∨ ∃ operation, FailsAt arithmetic code last operation) := by
  induction run generalizing config with
  | nil => exact h.exists_end_from config hle
  | cons next rest ih =>
    obtain ⟨hstep, hrest⟩ := List.isChain_cons_cons.mp hrun
    obtain ⟨more, last, hmore, hlast, hend⟩ := ih hrest (position_le_of_step? hstep)
    exact ⟨more, last, .cons_cons hstep hmore, by rwa [List.cons_append, List.getLast?_cons_cons],
      hend⟩

end Forward

end ThreeAddress.Code
