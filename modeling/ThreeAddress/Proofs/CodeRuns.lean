import ThreeAddress.Code.Semantics

/-!
Runs of code. A step is a function, so two runs from one configuration are one
run: what halts does not get stuck, and whatever is reached on the way still
halts. `Computes` ties a partial result to the run that produces it, and a run
that cannot go on to the lack of a result.
-/

namespace ThreeAddress.Code

variable {arithmetic : Arithmetic} {code : Code}

namespace Reaches

variable {first middle last : Config}

theorem trans (hfirst : Reaches arithmetic code first middle)
    (hsecond : Reaches arithmetic code middle last) : Reaches arithmetic code first last := by
  induction hfirst with
  | refl => exact hsecond
  | step once _ ih => exact .step once (ih hsecond)

theorem single (h : code.step? arithmetic first = some last) :
    Reaches arithmetic code first last :=
  .step h (.refl last)

/-- A run that gets somewhere else starts with a step. -/
theorem exists_step (h : Reaches arithmetic code first last)
    (hne : first.position ≠ last.position) :
    ∃ next, code.step? arithmetic first = some next ∧ Reaches arithmetic code next last := by
  cases h with
  | refl => exact absurd rfl hne
  | step once others => exact ⟨_, once, others⟩

end Reaches

section Steps

variable {position : Nat} {store : Store}

theorem step?_assign {dst : Var} {source : Value}
    (h : code[position]? = some (.assign dst source)) :
    code.step? arithmetic ⟨position, store⟩ =
      some ⟨position + 1, store.set dst (source.eval store)⟩ := by
  simp [step?, h]

theorem step?_binary {dst : Var} {left right : Value} {op : ArithOp}
    (h : code[position]? = some (.binary dst left op right)) :
    code.step? arithmetic ⟨position, store⟩ =
      (arithmetic op (left.eval store) (right.eval store)).map
        fun result => ⟨position + 1, store.set dst result⟩ := by
  simp only [step?, h]
  cases arithmetic op (left.eval store) (right.eval store) <;> rfl

theorem step?_branch_taken {left right : Value} {op : RelOp} {target : Label} {sense : Bool}
    {place : Nat} (h : code[position]? = some (.branch left op right target sense))
    (hplace : code.position? target = some place)
    (htaken : op.holds (left.eval store) (right.eval store) = sense) :
    code.step? arithmetic ⟨position, store⟩ = some ⟨place, store⟩ := by
  simp [step?, h, htaken, hplace]

theorem step?_branch_passed {left right : Value} {op : RelOp} {target : Label} {sense : Bool}
    (h : code[position]? = some (.branch left op right target sense))
    (hpassed : op.holds (left.eval store) (right.eval store) ≠ sense) :
    code.step? arithmetic ⟨position, store⟩ = some ⟨position + 1, store⟩ := by
  simp [step?, h, hpassed]

theorem step?_jump {target : Label} {place : Nat} (h : code[position]? = some (.jump target))
    (hplace : code.position? target = some place) :
    code.step? arithmetic ⟨position, store⟩ = some ⟨place, store⟩ := by
  simp [step?, h, hplace]

theorem step?_label {place : Label} (h : code[position]? = some (.label place)) :
    code.step? arithmetic ⟨position, store⟩ = some ⟨position + 1, store⟩ := by
  simp [step?, h]

theorem step?_end : code.step? arithmetic ⟨code.length, store⟩ = none := by
  simp [step?]

end Steps

section Straight

variable {first next last : Config} {position : Nat}

theorem getElem?_of_position? {label : Label} (h : code.position? label = some position) :
    code[position]? = some (.label label) := by
  obtain ⟨hlt, hlabel, _⟩ := List.findIdx?_eq_some_iff_getElem.mp h
  rw [List.getElem?_eq_getElem hlt]
  exact congrArg some (of_decide_eq_true hlabel)

/-- The instruction at a position may jump to the label. -/
def CanJump (code : Code) (position : Nat) (label : Label) : Prop :=
  ∃ instr, code[position]? = some instr ∧ instr.target? = some label

/-- A step goes to the next instruction, or it is a jump to where a label is marked. -/
theorem next_or_jump_of_step? (h : code.step? arithmetic first = some next) :
    next.position = first.position + 1 ∨
      ∃ label, code.CanJump first.position label ∧ code.position? label = some next.position := by
  obtain ⟨position, store⟩ := first
  have hjump {instr : Instr} {target : Label} (hinstr : code[position]? = some instr)
      (hcan : instr.target? = some target)
      (htarget : (code.position? target).map (⟨·, store⟩) = some next) :
      ∃ label, code.CanJump position label ∧ code.position? label = some next.position := by
    obtain ⟨place, hplace, rfl⟩ := Option.map_eq_some_iff.mp htarget
    exact ⟨target, ⟨instr, hinstr, hcan⟩, hplace⟩
  cases hinstr : code[position]? with
  | none => simp [step?, hinstr] at h
  | some instr =>
    cases instr with
    | assign dst source =>
      rw [step?_assign hinstr] at h
      cases h
      exact .inl rfl
    | binary dst left op right =>
      rw [step?_binary hinstr] at h
      obtain ⟨_, _, rfl⟩ := Option.map_eq_some_iff.mp h
      exact .inl rfl
    | branch left op right target sense =>
      simp only [step?, hinstr] at h
      split at h
      · exact .inr (hjump hinstr rfl h)
      · cases h
        exact .inl rfl
    | jump target =>
      simp only [step?, hinstr] at h
      exact .inr (hjump hinstr rfl h)
    | label place =>
      rw [step?_label hinstr] at h
      cases h
      exact .inl rfl

/-- A step that does not go to a label goes to the next instruction. -/
theorem position_of_step? (h : code.step? arithmetic first = some next)
    (hnext : ∀ label, code[next.position]? ≠ some (.label label)) :
    next.position = first.position + 1 := by
  rcases next_or_jump_of_step? h with hposition | ⟨label, _, hplace⟩
  · exact hposition
  · exact absurd (getElem?_of_position? hplace) (hnext label)

/-- A run is empty or has a last step. -/
theorem Reaches.eq_or_exists_last (h : Reaches arithmetic code first last) :
    first = last ∨
      ∃ middle, Reaches arithmetic code first middle ∧ code.step? arithmetic middle = some last := by
  induction h with
  | refl => exact .inl rfl
  | @step first _ _ once _ ih =>
    right
    rcases ih with rfl | ⟨middle, hmiddle, hlast⟩
    · exact ⟨first, .refl first, once⟩
    · exact ⟨middle, .step once hmiddle, hlast⟩

/-- Any number of steps, each to the next instruction. -/
inductive Advances (arithmetic : Arithmetic) (code : Code) : Config → Config → Prop
  | refl (config : Config) : Advances arithmetic code config config
  | step {first middle last : Config} (others : Advances arithmetic code first middle)
      (once : code.step? arithmetic middle = some last)
      (hnext : last.position = middle.position + 1) : Advances arithmetic code first last

/-- A run from the start to a place that no label leads to, back as far as there
is no label, came straight from there. -/
theorem Reaches.exists_advances {store reached : Store} {start : Nat}
    (h : Reaches arithmetic code ⟨0, store⟩ ⟨position, reached⟩) (hstart : start ≤ position)
    (hlabels : ∀ between label, start < between → between ≤ position →
      code[between]? ≠ some (.label label)) :
    ∃ middle, Reaches arithmetic code ⟨0, store⟩ ⟨start, middle⟩ ∧
      Advances arithmetic code ⟨start, middle⟩ ⟨position, reached⟩ := by
  -- the run is followed back from its end, one step for each instruction in between
  induction hstart generalizing reached with
  | refl => exact ⟨reached, h, .refl _⟩
  | @step position hle ih =>
    obtain heq | ⟨⟨previous, earlier⟩, hearlier, hlast⟩ := h.eq_or_exists_last
    · cases heq
    · have hposition : position + 1 = previous + 1 := position_of_step? hlast
        fun label => hlabels _ label (Nat.lt_succ_of_le hle) (Nat.le_refl _)
      obtain rfl : position = previous := Nat.succ.inj hposition
      obtain ⟨middle, hmiddle, hadvances⟩ := ih hearlier
        fun between label hfirst hbetween => hlabels between label hfirst (Nat.le_succ_of_le hbetween)
      exact ⟨middle, hmiddle, .step hadvances hlast rfl⟩

end Straight

/-- The run from here is over after exactly this many steps. -/
def HaltsIn (arithmetic : Arithmetic) (code : Code) : Nat → Config → Prop
  | 0, config => config.position = code.length
  | n + 1, config => ∃ next, code.step? arithmetic config = some next ∧ HaltsIn arithmetic code n next

def Halts (arithmetic : Arithmetic) (code : Code) (config : Config) : Prop :=
  ∃ steps, HaltsIn arithmetic code steps config

/-- The run from here comes to an instruction that cannot be carried out. -/
def Stuck (arithmetic : Arithmetic) (code : Code) (config : Config) : Prop :=
  ∃ last, Reaches arithmetic code config last ∧ code.step? arithmetic last = none ∧
    last.position ≠ code.length

theorem halts_of_reaches_end {config : Config} {store : Store}
    (h : Reaches arithmetic code config ⟨code.length, store⟩) : Halts arithmetic code config := by
  generalize hlast : (⟨code.length, store⟩ : Config) = last at h
  induction h with
  | refl config =>
    subst hlast
    exact ⟨0, rfl⟩
  | step once _ ih =>
    obtain ⟨steps, hsteps⟩ := ih hlast
    exact ⟨steps + 1, _, once, hsteps⟩

theorem HaltsIn.of_step {steps : Nat} {config next : Config}
    (h : HaltsIn arithmetic code steps config)
    (hstep : code.step? arithmetic config = some next) :
    ∃ fewer, fewer < steps ∧ HaltsIn arithmetic code fewer next := by
  cases steps with
  | zero =>
    obtain ⟨position, store⟩ := config
    obtain rfl : position = code.length := h
    rw [step?_end] at hstep
    cases hstep
  | succ steps =>
    obtain ⟨other, hother, hrest⟩ := h
    rw [hstep] at hother
    cases hother
    exact ⟨steps, Nat.lt_succ_self steps, hrest⟩

theorem HaltsIn.of_reaches {steps : Nat} {config last : Config}
    (h : HaltsIn arithmetic code steps config) (hreaches : Reaches arithmetic code config last) :
    ∃ fewer, fewer ≤ steps ∧ HaltsIn arithmetic code fewer last := by
  induction hreaches generalizing steps with
  | refl => exact ⟨steps, Nat.le_refl steps, h⟩
  | step once _ ih =>
    obtain ⟨fewer, hfewer, hnext⟩ := h.of_step once
    obtain ⟨fewest, hfewest, hlast⟩ := ih hnext
    exact ⟨fewest, by omega, hlast⟩

theorem Halts.of_reaches {config last : Config} (h : Halts arithmetic code config)
    (hreaches : Reaches arithmetic code config last) : Halts arithmetic code last := by
  obtain ⟨steps, hsteps⟩ := h
  obtain ⟨fewer, _, hfewer⟩ := hsteps.of_reaches hreaches
  exact ⟨fewer, hfewer⟩

theorem Halts.not_stuck {config : Config} (h : Halts arithmetic code config) :
    ¬ Stuck arithmetic code config := by
  rintro ⟨last, hreaches, hnone, hposition⟩
  obtain ⟨steps, hsteps⟩ := h.of_reaches hreaches
  cases steps with
  | zero => exact hposition hsteps
  | succ steps =>
    obtain ⟨next, hnext, _⟩ := hsteps
    rw [hnone] at hnext
    cases hnext

theorem Stuck.of_reaches {first config : Config} (h : Stuck arithmetic code config)
    (hreaches : Reaches arithmetic code first config) : Stuck arithmetic code first := by
  obtain ⟨last, hlast, hnone, hposition⟩ := h
  exact ⟨last, hreaches.trans hlast, hnone, hposition⟩

/-- A run that is over in two stores is over in one. -/
theorem Reaches.end_unique {config : Config} {one other : Store}
    (hone : Reaches arithmetic code config ⟨code.length, one⟩)
    (hother : Reaches arithmetic code config ⟨code.length, other⟩) : one = other := by
  generalize hlast : (⟨code.length, one⟩ : Config) = last at hone
  induction hone with
  | refl config =>
    subst hlast
    cases hother with
    | refl => rfl
    | step once _ =>
      rw [step?_end] at once
      cases once
  | step once _ ih =>
    cases hother with
    | refl =>
      rw [step?_end] at once
      cases once
    | step again hrest =>
      rw [once] at again
      cases again
      exact ih hrest hlast

/-- The run from here produces a result, which holds of where it then is; or
there is no result, and the run gets stuck. -/
def Computes {α : Type} (arithmetic : Arithmetic) (code : Code) (start : Config)
    (result : Option α) (holds : α → Config → Prop) : Prop :=
  match result with
  | some value => ∃ last, Reaches arithmetic code start last ∧ holds value last
  | none => Stuck arithmetic code start

namespace Computes

variable {α β : Type} {start : Config} {result : Option α} {holds : α → Config → Prop}

theorem done {value : α} (h : holds value start) :
    Computes arithmetic code start (some value) holds :=
  ⟨start, .refl start, h⟩

theorem after {first : Config} (hreaches : Reaches arithmetic code first start)
    (h : Computes arithmetic code start result holds) :
    Computes arithmetic code first result holds := by
  cases result with
  | none => exact Stuck.of_reaches h hreaches
  | some value =>
    obtain ⟨last, hlast, hholds⟩ := h
    exact ⟨last, hreaches.trans hlast, hholds⟩

/-- Results are produced one after the other as they are bound. -/
theorem bind {next : α → Option β} {goal : β → Config → Prop}
    (h : Computes arithmetic code start result holds)
    (hnext : ∀ value config, holds value config →
      Computes arithmetic code config (next value) goal) :
    Computes arithmetic code start (result.bind next) goal := by
  cases result with
  | none => exact h
  | some value =>
    obtain ⟨last, hlast, hholds⟩ := h
    exact after hlast (hnext value last hholds)

theorem mono {goal : α → Config → Prop} (h : Computes arithmetic code start result holds)
    (hgoal : ∀ value config, holds value config → goal value config) :
    Computes arithmetic code start result goal := by
  cases result with
  | none => exact h
  | some value =>
    obtain ⟨last, hlast, hholds⟩ := h
    exact ⟨last, hlast, hgoal value last hholds⟩

theorem isSome (h : Computes arithmetic code start result holds)
    (hhalts : Halts arithmetic code start) : ∃ value, result = some value := by
  cases result with
  | none => exact absurd h hhalts.not_stuck
  | some value => exact ⟨value, rfl⟩

end Computes

end ThreeAddress.Code
