import ThreeAddress.Lowering.Builder

/-!
The steps of a builder. Each has a lemma that says when it succeeds, what it
returns and which builder it leaves, so that a run is taken apart step by step.
-/

namespace ThreeAddress

namespace Builder

/-- The builder after a label is handed out; the label is the old count. -/
def afterLabel (builder : Builder) : Builder :=
  { builder with labels := builder.labels + 1 }

def afterTemp (builder : Builder) : Builder :=
  { builder with temps := builder.temps + 1 }

def freshLabel (builder : Builder) : Label := ⟨builder.labels⟩

def freshTemp (builder : Builder) : Temp := ⟨builder.temps⟩

/-- The label that stands for a continuation: its own, or a fresh one. -/
def exitLabel (builder : Builder) : Continuation → Label
  | .label exit => exit
  | .fall => builder.freshLabel

def openExit (builder : Builder) : Continuation → Builder
  | .label _ => builder
  | .fall => builder.afterLabel

/-- Places the label of a continuation that falls through. -/
def closeExit (builder : Builder) (continuation : Continuation) (exit : Label) : Builder :=
  match continuation with
  | .label _ => builder
  | .fall => builder.mark exit

def pushSwitch (builder : Builder) (labels : SwitchLabels) : Builder :=
  { builder with switches := labels :: builder.switches }

def popSwitch (builder : Builder) : Builder :=
  { builder with switches := builder.switches.tail }

end Builder

namespace Build

variable {α β : Type} {before after : Builder}

theorem bind_eq_ok {step : Build α} {next : α → Build β} {result : β} :
    (step >>= next) before = .ok result after ↔
      ∃ value between, step before = .ok value between ∧ next value between = .ok result after := by
  change EStateM.bind step next before = _ ↔ _
  unfold EStateM.bind
  cases step before with
  | ok value between =>
    constructor
    · intro h
      exact ⟨value, between, rfl, h⟩
    · rintro ⟨_, _, heq, h⟩
      cases heq
      exact h
  | error e between => simp

theorem bind_of_ok {step : Build α} {next : α → Build β} {between : Builder} {value : α}
    (h : step before = .ok value between) : (step >>= next) before = next value between := by
  change EStateM.bind step next before = _
  rw [EStateM.bind, h]

theorem bind_of_error {step : Build α} {next : α → Build β} {error : Error}
    (h : step before = .error error after) :
    (step >>= next) before = .error error after := by
  change EStateM.bind step next before = _
  rw [EStateM.bind, h]

theorem pure_eq_ok {value result : α} :
    (pure value : Build α) before = .ok result after ↔ value = result ∧ before = after := by
  change EStateM.Result.ok value before = _ ↔ _
  simp

theorem throw_eq_ok {error : Error} {result : α} :
    (throw error : Build α) before = .ok result after ↔ False := by
  change EStateM.Result.error error before = _ ↔ _
  simp

theorem ofExcept_eq_ok {value : Except Error α} {result : α} :
    (ofExcept value : Build α) before = .ok result after ↔ value = .ok result ∧ before = after := by
  cases value with
  | error e => simp [ofExcept, throw_eq_ok]
  | ok a => simp [ofExcept, pure_eq_ok]

theorem freshLabel_eq_ok {label : Label} :
    freshLabel before = .ok label after ↔
      before.freshLabel = label ∧ before.afterLabel = after := by
  change EStateM.Result.ok _ _ = _ ↔ _
  simp [Builder.freshLabel, Builder.afterLabel]

theorem freshTemp_eq_ok {temp : Temp} :
    freshTemp before = .ok temp after ↔ before.freshTemp = temp ∧ before.afterTemp = after := by
  change EStateM.Result.ok _ _ = _ ↔ _
  simp [Builder.freshTemp, Builder.afterTemp]

theorem emit_eq_ok {instr : Instr} {result : Unit} :
    emit instr before = .ok result after ↔ before.emit instr = after := by
  change EStateM.Result.ok _ _ = _ ↔ _
  simp

theorem mark_eq_ok {label : Label} {result : Unit} :
    mark label before = .ok result after ↔ before.mark label = after := by
  change EStateM.Result.ok _ _ = _ ↔ _
  simp

theorem withExit_eq_ok {continuation : Continuation} {step : Label → Build α} {result : α} :
    withExit continuation step before = .ok result after ↔
      ∃ between, step (before.exitLabel continuation) (before.openExit continuation) =
          .ok result between ∧
        between.closeExit continuation (before.exitLabel continuation) = after := by
  cases continuation with
  | label exit => simp [withExit, Builder.exitLabel, Builder.openExit, Builder.closeExit]
  | fall =>
    simp only [withExit, bind_eq_ok, freshLabel_eq_ok, mark_eq_ok, pure_eq_ok]
    constructor
    · rintro ⟨_, _, ⟨rfl, rfl⟩, _, between, hstep, _, _, rfl, rfl, rfl⟩
      exact ⟨between, hstep, rfl⟩
    · rintro ⟨between, hstep, rfl⟩
      exact ⟨_, _, ⟨rfl, rfl⟩, _, between, hstep, (), _, rfl, rfl, rfl⟩

theorem breakTarget_eq_ok {exit : Label} :
    breakTarget before = .ok exit after ↔
      ∃ labels outer, before.switches = labels :: outer ∧ labels.exit = exit ∧ before = after := by
  have hget : (get : Build Builder) before = .ok before before := rfl
  simp only [breakTarget, bind_eq_ok, hget, EStateM.Result.ok.injEq]
  cases hswitch : before.switches with
  | nil =>
    constructor
    · rintro ⟨_, _, ⟨rfl, rfl⟩, h⟩
      simp only [hswitch, throw_eq_ok] at h
    · rintro ⟨_, _, h, _⟩
      cases h
  | cons labels outer =>
    constructor
    · rintro ⟨_, _, ⟨rfl, rfl⟩, h⟩
      simp only [hswitch, pure_eq_ok] at h
      exact ⟨labels, outer, rfl, h⟩
    · rintro ⟨_, _, h, rfl, rfl⟩
      cases h
      exact ⟨_, _, ⟨rfl, rfl⟩, by simp only [hswitch, pure_eq_ok, and_self]⟩

/-- Outside of every `switch` there is nowhere to break to. -/
theorem breakTarget_eq_error (h : before.switches = []) :
    breakTarget before = .error .strayBreak before := by
  have hget : (get : Build Builder) before = .ok before before := rfl
  rw [breakTarget, bind_of_ok hget, h]
  rfl

theorem nextCaseLabel_eq_ok {label : Label} :
    nextCaseLabel before = .ok label after ↔
      ∃ exit pending outer, before.switches = ⟨exit, label :: pending⟩ :: outer ∧
        { before with switches := ⟨exit, pending⟩ :: outer } = after := by
  have hget : (get : Build Builder) before = .ok before before := rfl
  simp only [nextCaseLabel, bind_eq_ok, hget, EStateM.Result.ok.injEq]
  constructor
  · rintro ⟨_, _, ⟨rfl, rfl⟩, h⟩
    cases hswitch : before.switches with
    | nil => simp only [hswitch, throw_eq_ok] at h
    | cons labels outer =>
      obtain ⟨exit, pending⟩ := labels
      cases pending with
      | nil => simp only [hswitch, SwitchLabels.next?, throw_eq_ok] at h
      | cons first pending =>
        simp only [hswitch, SwitchLabels.next?, bind_eq_ok, pure_eq_ok] at h
        obtain ⟨_, _, hmodify, rfl, rfl⟩ := h
        cases hmodify
        exact ⟨exit, pending, outer, rfl, rfl⟩
  · rintro ⟨exit, pending, outer, hswitch, rfl⟩
    refine ⟨_, _, ⟨rfl, rfl⟩, ?_⟩
    simp only [hswitch, SwitchLabels.next?, bind_eq_ok, pure_eq_ok]
    exact ⟨(), _, rfl, trivial, rfl⟩

theorem inSwitch_eq_ok {labels : SwitchLabels} {step : Build Unit} {result : Unit} :
    inSwitch labels step before = .ok result after ↔
      ∃ between, step (before.pushSwitch labels) = .ok () between ∧
        between.switches.head?.any SwitchLabels.isResolved ∧ between.popSwitch = after := by
  have hpush : { before with switches := labels :: before.switches } =
    before.pushSwitch labels := rfl
  unfold inSwitch
  rw [hpush]
  cases step (before.pushSwitch labels) with
  | error e between => simp
  | ok value between =>
    by_cases hresolved : between.switches.head?.any SwitchLabels.isResolved
    · simp [hresolved, Builder.popSwitch]
    · simp [hresolved]

/-- A step that fails in a `switch` leaves the `switch`. -/
theorem inSwitch_of_error {labels : SwitchLabels} {step : Build Unit} {error : Error}
    (h : step (before.pushSwitch labels) = .error error after) :
    inSwitch labels step before = .error error after.popSwitch := by
  rw [Builder.pushSwitch] at h
  rw [inSwitch, h, Builder.popSwitch]

end Build

end ThreeAddress
