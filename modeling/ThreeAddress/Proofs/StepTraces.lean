import Mathlib.Data.List.Nodup
import ThreeAddress.Proofs.LabelAccounts
import ThreeAddress.Proofs.StepJudgements

/-!
Steps that may fail. Whatever is done with a builder is composed of a few steps,
and `Traced` follows a run through them to its end, or to the failure that stops
it, with the labels and temporaries handed out on the way. Code that was written
stays, no label or temporary is handed out twice, and a `switch` that was opened
is closed again, however the run ends. Every step that is judged is composed in
this way, and so is all of lowering.
-/

namespace ThreeAddress

/-- The labels on record are exactly those that the code jumps to. -/
def Builder.RecordsTargets (builder : Builder) : Prop :=
  ∀ label : Label, label.number ∈ builder.referenced ↔ label ∈ builder.targets

/-- All that a step can do to a builder. The labels and temporaries it hands out
are the next ones in order. Only a step that is `placing` the cases of the
innermost open `switch` may take labels of that `switch`. -/
structure Builder.Advances (placing : Bool) (before : Builder) (labels : List Label)
    (temps : List Temp) (after : Builder) : Prop where
  code : before.code.toList <+: after.code.toList
  records : before.RecordsTargets → after.RecordsTargets
  labels_eq : labels.map Label.number = List.range' before.labels labels.length
  labels_count : after.labels = before.labels + labels.length
  temps_eq : temps.map Temp.number = List.range' before.temps temps.length
  temps_count : after.temps = before.temps + temps.length
  outer : after.switches.tail = before.switches.tail
  switches : placing = false → after.switches = before.switches

namespace Builder.Advances

variable {placing : Bool} {before between after : Builder} {labels : List Label}
  {temps : List Temp}

theorem refl (builder : Builder) : builder.Advances placing [] [] builder where
  code := List.prefix_rfl
  records := id
  labels_eq := rfl
  labels_count := rfl
  temps_eq := rfl
  temps_count := rfl
  outer := rfl
  switches _ := rfl

theorem trans {moreLabels : List Label} {moreTemps : List Temp}
    (hfirst : before.Advances placing labels temps between)
    (hsecond : between.Advances placing moreLabels moreTemps after) :
    before.Advances placing (labels ++ moreLabels) (temps ++ moreTemps) after where
  code := hfirst.code.trans hsecond.code
  records h := hsecond.records (hfirst.records h)
  labels_eq := by
    rw [List.map_append, hfirst.labels_eq, hsecond.labels_eq, hfirst.labels_count,
      List.length_append, List.range'_append_1]
  labels_count := by
    rw [hsecond.labels_count, hfirst.labels_count, List.length_append, Nat.add_assoc]
  temps_eq := by
    rw [List.map_append, hfirst.temps_eq, hsecond.temps_eq, hfirst.temps_count,
      List.length_append, List.range'_append_1]
  temps_count := by
    rw [hsecond.temps_count, hfirst.temps_count, List.length_append, Nat.add_assoc]
  outer := hsecond.outer.trans hfirst.outer
  switches h := (hsecond.switches h).trans (hfirst.switches h)

theorem label (builder : Builder) :
    builder.Advances placing [builder.freshLabel] [] builder.afterLabel :=
  { refl builder with
    labels_eq := rfl
    labels_count := rfl }

theorem temp (builder : Builder) :
    builder.Advances placing [] [builder.freshTemp] builder.afterTemp :=
  { refl builder with
    temps_eq := rfl
    temps_count := rfl }

theorem emit (builder : Builder) (instr : Instr) :
    builder.Advances placing [] [] (builder.emit instr) :=
  { refl builder with
    code := by simp
    records := by
      intro h label
      rw [mem_emit_referenced, h label, targets_emit]
      simp [eq_comm] }

theorem mark (builder : Builder) (label : Label) :
    builder.Advances placing [] [] (builder.mark label) := by
  by_cases hmem : label.number ∈ builder.referenced
  · rw [mark_of_referenced hmem]
    exact emit builder _
  · rw [mark_of_not_referenced hmem]
    exact refl builder

/-- Taking a case label touches the innermost `switch` alone. -/
theorem takeCase {labels : SwitchLabels} {outer : List SwitchLabels}
    (h : before.switches = labels :: outer) (rest : SwitchLabels) :
    before.Advances true [] [] { before with switches := rest :: outer } :=
  { @refl true before with
    outer := by rw [h]; rfl
    switches := by simp }

/-- A `switch` that was opened for a step and closed after it leaves no trace on
the others. -/
theorem closeSwitch {opened : SwitchLabels}
    (h : (before.pushSwitch opened).Advances true labels temps after) :
    before.Advances placing labels temps after.popSwitch :=
  { h with
    outer := congrArg List.tail h.outer
    switches := fun _ => h.outer }

theorem labels_nodup (h : before.Advances placing labels temps after) : labels.Nodup := by
  apply List.Nodup.of_map Label.number
  rw [h.labels_eq]
  exact List.nodup_range'

theorem temps_nodup (h : before.Advances placing labels temps after) : temps.Nodup := by
  apply List.Nodup.of_map Temp.number
  rw [h.temps_eq]
  exact List.nodup_range'

end Builder.Advances

namespace Build

variable {α β : Type}

/-- Runs a step and goes on however it ends. -/
def attempt (step : Build α) : Build (Except Error α) := fun before =>
  match step before with
  | .ok value after => .ok (.ok value) after
  | .error e after => .ok (.error e) after

/-- The builder that a run leaves, also when it fails. -/
def builderOf : EStateM.Result Error Builder α → Builder
  | .ok _ after => after
  | .error _ after => after

/-- The run of a step that is composed of the steps of a builder, with the labels
and the temporaries that these handed out, in order. A failure ends the run at
once, except inside of an `attempt`. -/
inductive Traced : Bool → {α : Type} → Build α → Builder → List Label → List Temp →
    EStateM.Result Error Builder α → Prop
  | pure {placing : Bool} {α : Type} (value : α) (before : Builder) :
      Traced placing (pure value) before [] [] (.ok value before)
  | throw {placing : Bool} {α : Type} (error : Error) (before : Builder) :
      Traced placing (throw error : Build α) before [] [] (.error error before)
  | freshLabel {placing : Bool} {before after : Builder} {label : Label}
      (h : freshLabel before = .ok label after) :
      Traced placing freshLabel before [label] [] (.ok label after)
  | freshTemp {placing : Bool} {before after : Builder} {temp : Temp}
      (h : freshTemp before = .ok temp after) :
      Traced placing freshTemp before [] [temp] (.ok temp after)
  | emit {placing : Bool} (instr : Instr) (before : Builder) :
      Traced placing (emit instr) before [] [] (emit instr before)
  | mark {placing : Bool} (label : Label) (before : Builder) :
      Traced placing (mark label) before [] [] (mark label before)
  | breakTarget {placing : Bool} (before : Builder) :
      Traced placing breakTarget before [] [] (breakTarget before)
  | nextCaseLabel (before : Builder) :
      Traced true nextCaseLabel before [] [] (nextCaseLabel before)
  | bind {placing : Bool} {α β : Type} {step : Build α} {next : α → Build β}
      {before between : Builder} {value : α} {labels moreLabels : List Label}
      {temps moreTemps : List Temp} {result : EStateM.Result Error Builder β}
      (hstep : Traced placing step before labels temps (.ok value between))
      (hnext : Traced placing (next value) between moreLabels moreTemps result) :
      Traced placing (step >>= next) before (labels ++ moreLabels) (temps ++ moreTemps) result
  | bindError {placing : Bool} {α β : Type} {step : Build α} {next : α → Build β}
      {before after : Builder} {error : Error} {labels : List Label} {temps : List Temp}
      (hstep : Traced placing step before labels temps (.error error after)) :
      Traced placing (step >>= next) before labels temps (.error error after)
  | attempt {placing : Bool} {α : Type} {step : Build α} {before : Builder}
      {labels : List Label} {temps : List Temp} {result : EStateM.Result Error Builder α}
      (hstep : Traced placing step before labels temps result) :
      Traced placing (attempt step) before labels temps (attempt step before)
  | inSwitch {placing : Bool} {step : Build Unit} {opened : SwitchLabels} {before : Builder}
      {labels : List Label} {temps : List Temp} {result : EStateM.Result Error Builder Unit}
      (hstep : Traced true step (before.pushSwitch opened) labels temps result) :
      Traced placing (inSwitch opened step) before labels temps (inSwitch opened step before)

theorem builderOf_breakTarget (before : Builder) : builderOf (breakTarget before) = before := by
  cases hswitches : before.switches with
  | nil => rw [breakTarget_eq_error hswitches, builderOf]
  | cons labels outer =>
    rw [breakTarget_eq_ok.mpr ⟨labels, outer, hswitches, rfl, rfl⟩, builderOf]

theorem nextCaseLabel_eq_error {before : Builder}
    (h : ∀ labels outer, before.switches = labels :: outer → labels.pending = []) :
    nextCaseLabel before = .error .unplacedCases before := by
  have hget : (get : Build Builder) before = .ok before before := rfl
  rw [nextCaseLabel, bind_of_ok hget]
  cases hswitches : before.switches with
  | nil => rfl
  | cons labels outer =>
    have hpending := h labels outer hswitches
    simp only [SwitchLabels.next?, hpending]
    rfl

theorem builderOf_attempt (step : Build α) (before : Builder) :
    builderOf (attempt step before) = builderOf (step before) := by
  unfold attempt
  cases step before <;> rfl

theorem builderOf_inSwitch (opened : SwitchLabels) (step : Build Unit) (before : Builder) :
    builderOf (inSwitch opened step before) =
      (builderOf (step (before.pushSwitch opened))).popSwitch := by
  cases hrun : step (before.pushSwitch opened) with
  | error e after => rw [inSwitch_of_error hrun, builderOf, builderOf]
  | ok value after =>
    rw [Builder.pushSwitch] at hrun
    unfold inSwitch
    rw [hrun]
    by_cases hresolved : after.switches.head?.any SwitchLabels.isResolved
    · simp [hresolved, builderOf, Builder.popSwitch]
    · simp [hresolved, builderOf, Builder.popSwitch]

theorem advances_nextCaseLabel (before : Builder) :
    before.Advances true [] [] (builderOf (nextCaseLabel before)) := by
  by_cases hnone : ∀ labels outer, before.switches = labels :: outer → labels.pending = []
  · rw [nextCaseLabel_eq_error hnone]
    exact .refl before
  · simp only [not_forall] at hnone
    obtain ⟨⟨exit, pending⟩, outer, hswitches, hpending⟩ := hnone
    obtain ⟨label, pending, rfl⟩ := List.exists_cons_of_ne_nil hpending
    rw [nextCaseLabel_eq_ok.mpr ⟨exit, pending, outer, hswitches, rfl⟩]
    exact .takeCase hswitches _

namespace Traced

variable {placing : Bool} {step : Build α} {before : Builder} {labels : List Label}
  {temps : List Temp} {result : EStateM.Result Error Builder α}

/-- A traced run is what running the step gives. -/
theorem run_eq (h : Traced placing step before labels temps result) : step before = result := by
  induction h with
  | pure | throw | emit | mark | breakTarget | nextCaseLabel | attempt | inSwitch => rfl
  | freshLabel h | freshTemp h => exact h
  | bind _ _ ihstep ihnext => exact (bind_of_ok ihstep).trans ihnext
  | bindError _ ih => exact bind_of_error ih

theorem advances (h : Traced placing step before labels temps result) :
    before.Advances placing labels temps (builderOf result) := by
  induction h with
  | pure value before | throw error before => exact .refl before
  | freshLabel h =>
    obtain ⟨rfl, rfl⟩ := freshLabel_eq_ok.mp h
    exact .label _
  | freshTemp h =>
    obtain ⟨rfl, rfl⟩ := freshTemp_eq_ok.mp h
    exact .temp _
  | emit instr before => exact .emit before instr
  | mark label before => exact .mark before label
  | breakTarget before =>
    rw [builderOf_breakTarget]
    exact .refl before
  | nextCaseLabel before => exact advances_nextCaseLabel before
  | bind _ _ ihstep ihnext => exact ihstep.trans ihnext
  | bindError _ ih => exact ih
  | attempt hstep ih =>
    rw [builderOf_attempt, hstep.run_eq]
    exact ih
  | inSwitch hstep ih =>
    rw [builderOf_inSwitch, hstep.run_eq]
    exact ih.closeSwitch

end Traced

/-- A step is composed of the steps of a builder: each of its runs can be traced. -/
def Composed (placing : Bool) (step : Build α) : Prop :=
  ∀ before, ∃ labels temps, Traced placing step before labels temps (step before)

namespace Composed

variable {placing : Bool} {step : Build α} {next : α → Build β}

theorem pure (value : α) : Composed placing (pure value : Build α) :=
  fun before => ⟨[], [], .pure value before⟩

theorem throw (error : Error) : Composed placing (throw error : Build α) :=
  fun before => ⟨[], [], .throw error before⟩

theorem freshLabel : Composed placing freshLabel :=
  fun before => ⟨[before.freshLabel], [], .freshLabel rfl⟩

theorem freshTemp : Composed placing freshTemp :=
  fun before => ⟨[], [before.freshTemp], .freshTemp rfl⟩

theorem emit (instr : Instr) : Composed placing (emit instr) :=
  fun before => ⟨[], [], .emit instr before⟩

theorem mark (label : Label) : Composed placing (mark label) :=
  fun before => ⟨[], [], .mark label before⟩

theorem breakTarget : Composed placing breakTarget :=
  fun before => ⟨[], [], .breakTarget before⟩

theorem nextCaseLabel : Composed true nextCaseLabel :=
  fun before => ⟨[], [], .nextCaseLabel before⟩

/-- The second of two steps matters only for what the first one can return. -/
theorem bindReturned (hstep : Composed placing step)
    (hnext : ∀ value before after, step before = .ok value after → Composed placing (next value)) :
    Composed placing (step >>= next) := by
  intro before
  obtain ⟨labels, temps, htraced⟩ := hstep before
  cases hrun : step before with
  | ok value between =>
    rw [hrun] at htraced
    obtain ⟨moreLabels, moreTemps, hrest⟩ := hnext value before between hrun between
    rw [bind_of_ok hrun]
    exact ⟨_, _, .bind htraced hrest⟩
  | error e after =>
    rw [hrun] at htraced
    rw [bind_of_error hrun]
    exact ⟨_, _, .bindError htraced⟩

theorem bind (hstep : Composed placing step) (hnext : ∀ value, Composed placing (next value)) :
    Composed placing (step >>= next) :=
  hstep.bindReturned fun value _ _ _ => hnext value

theorem attempt (hstep : Composed placing step) : Composed placing (attempt step) := by
  intro before
  obtain ⟨labels, temps, htraced⟩ := hstep before
  exact ⟨labels, temps, .attempt htraced⟩

theorem inSwitch {step : Build Unit} (hstep : Composed true step) (opened : SwitchLabels) :
    Composed placing (inSwitch opened step) := by
  intro before
  obtain ⟨labels, temps, htraced⟩ := hstep (before.pushSwitch opened)
  exact ⟨labels, temps, .inSwitch htraced⟩

theorem withExit (continuation : Continuation) {step : Label → Build α}
    (hstep : ∀ exit, Composed placing (step exit)) :
    Composed placing (withExit continuation step) := by
  cases continuation with
  | label exit => exact hstep exit
  | fall =>
    exact freshLabel.bind fun exit => (hstep exit).bind fun _ => (mark exit).bind fun _ => pure _

end Composed

/-- Whatever is judged is composed in this way. Only a step that takes case labels is
`placing` cases. -/
theorem Judged.composed {symbols : Symbols} {sure accepted : Prop} {inCase placing : Bool}
    {takes : Nat} {step : Build α} (h : Judged symbols sure inCase takes accepted step)
    (hplacing : takes ≠ 0 → placing = true) : Composed placing step := by
  induction h generalizing placing with
  | pure value => exact .pure value
  | throw => exact .throw _
  | freshLabel => exact .freshLabel
  | freshTemp => exact .freshTemp
  | emit instr => exact .emit instr
  | mark label => exact .mark label
  | breakTarget => exact .breakTarget
  | nextCaseLabel =>
    obtain rfl := hplacing Nat.one_ne_zero
    exact .nextCaseLabel
  | bind hstep hnext ihstep ihnext =>
    refine (ihstep fun htakes => hplacing (by omega)).bindReturned ?_
    intro value before after hrun
    exact ihnext value before after hrun fun hmore => hplacing (by omega)
  | inSwitch _ ih => exact (ih fun _ => rfl).inSwitch _
  | congr _ _ ih => exact ih hplacing

/-- A step that takes no case labels may be run anywhere. -/
theorem Judged.composed_of_zero {symbols : Symbols} {sure accepted : Prop} {inCase placing : Bool}
    {step : Build α} (h : Judged symbols sure inCase 0 accepted step) : Composed placing step :=
  h.composed fun htakes => absurd rfl htakes

end Build

end ThreeAddress
