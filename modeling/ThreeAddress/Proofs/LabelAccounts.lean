import ThreeAddress.Code.Semantics
import ThreeAddress.Proofs.BuilderGrowth

/-!
The label accounts of a builder. Labels are handed out long before they are
placed, and some are placed only if something jumps there. The invariant
`Balanced` says that every label that is jumped to is placed or still owed, that
no label is placed twice, and that every label that is placed is jumped to, loop
heads alone being placed on credit. Every step of a builder keeps the account.
-/

namespace ThreeAddress

/-- The label an instruction places. -/
def Instr.mark? : Instr → Option Label
  | .label place => some place
  | .assign .. | .binary .. | .branch .. | .jump _ => none

namespace Code

def marks (code : Code) : List Label := code.filterMap Instr.mark?

def targets (code : Code) : List Label := code.filterMap Instr.target?

theorem mem_marks {code : Code} {label : Label} : label ∈ code.marks ↔ .label label ∈ code := by
  simp only [marks, List.mem_filterMap]
  constructor
  · rintro ⟨instr, hmem, hmark⟩
    cases instr with
    | label place =>
      cases hmark
      exact hmem
    | assign | binary | branch | jump => cases hmark
  · intro hmem
    exact ⟨.label label, hmem, rfl⟩

theorem mem_targets {code : Code} {label : Label} :
    label ∈ code.targets ↔ ∃ instr ∈ code, instr.target? = some label := by
  simp [targets, List.mem_filterMap]

/-- Every label of the code is marked once and jumped to, and every jump goes to
a label of the code. -/
structure WellLabelled (code : Code) : Prop where
  nodup : code.marks.Nodup
  marked_iff : ∀ label, label ∈ code.marks ↔ label ∈ code.targets

/-- Where a label is marked only once, that place is its position. -/
theorem position?_eq_some {code : Code} (hnodup : code.marks.Nodup) {label : Label}
    {position : Nat} (h : code[position]? = some (.label label)) :
    code.position? label = some position := by
  induction code generalizing position with
  | nil => simp at h
  | cons instr rest ih =>
    cases position with
    | zero =>
      simp only [List.getElem?_cons_zero, Option.some.injEq] at h
      simp [position?, List.findIdx?_cons, h]
    | succ position =>
      simp only [List.getElem?_cons_succ] at h
      have hrest : (marks rest).Nodup := by
        apply List.Nodup.sublist _ hnodup
        exact List.Sublist.filterMap _ (List.sublist_cons_self instr rest)
      have hne : instr ≠ .label label := by
        rintro rfl
        have hmem : label ∈ marks rest := mem_marks.mpr (List.mem_of_getElem? h)
        exact (List.nodup_cons.mp hnodup).1 hmem
      have hfound := ih hrest h
      simp only [position?] at hfound ⊢
      simp [List.findIdx?_cons, hne, hfound]

end Code

namespace Builder

def marks (builder : Builder) : List Label := Code.marks builder.code.toList

def targets (builder : Builder) : List Label := Code.targets builder.code.toList

/-- The labels of cases whose bodies are not placed yet, in all open switches. -/
def waiting (builder : Builder) : List Label :=
  builder.switches.flatMap SwitchLabels.pending

/-- The label accounts of a builder. The labels in `owed` and the waiting case
labels are not placed yet, and the loop heads in `heads` are placed although
nothing may jump to them yet. -/
structure Balanced (builder : Builder) (owed heads : List Label) : Prop where
  nodup : (builder.waiting ++ owed ++ builder.marks).Nodup
  below : ∀ label ∈ builder.waiting ++ owed ++ builder.marks, label.number < builder.labels
  placed : ∀ label ∈ builder.targets, label ∈ builder.waiting ++ owed ++ builder.marks
  used : ∀ label ∈ builder.marks, label ∈ builder.targets ∨ label ∈ heads
  referenced : ∀ label : Label, label.number ∈ builder.referenced ↔ label ∈ builder.targets

/-- A jump to the label is in order: it is placed already, or owed. -/
def Knows (builder : Builder) (owed : List Label) (label : Label) : Prop :=
  label ∈ owed ∨ label ∈ builder.marks

variable {builder : Builder} {owed heads : List Label} {label : Label}

theorem marks_emit (instr : Instr) :
    (builder.emit instr).marks = builder.marks ++ instr.mark?.toList := by
  simp only [marks, Code.marks, emit_code, Array.toList_push, List.filterMap_append]
  cases hmark : instr.mark? <;> simp [hmark]

theorem targets_emit (instr : Instr) :
    (builder.emit instr).targets = builder.targets ++ instr.target?.toList := by
  simp only [targets, Code.targets, emit_code, Array.toList_push, List.filterMap_append]
  cases htarget : instr.target? <;> simp [htarget]

@[simp] theorem waiting_emit (instr : Instr) : (builder.emit instr).waiting = builder.waiting := rfl

theorem Extends.marks_subset {before after : Builder} (h : before.Extends after)
    (hmem : label ∈ before.marks) : label ∈ after.marks :=
  Code.mem_marks.mpr (h.code.subset (Code.mem_marks.mp hmem))

theorem Knows.extends {before after : Builder} (hknows : before.Knows owed label)
    (h : before.Extends after) : after.Knows owed label :=
  hknows.imp id h.marks_subset

theorem Knows.cons (hknows : builder.Knows owed label) (other : Label) :
    builder.Knows (other :: owed) label :=
  hknows.imp_left (List.mem_cons_of_mem other)

namespace Balanced

theorem empty : Builder.empty.Balanced [] [] where
  nodup := List.nodup_nil
  below := by simp [Builder.empty, waiting, Builder.marks, Code.marks]
  placed := by simp [Builder.empty, Builder.targets, Code.targets]
  used := by simp [Builder.empty, Builder.marks, Code.marks]
  referenced := by simp [Builder.empty, Builder.targets, Code.targets]

/-- A fresh label is owed. -/
theorem afterLabel (h : builder.Balanced owed heads) :
    builder.afterLabel.Balanced (builder.freshLabel :: owed) heads := by
  have hfresh : builder.freshLabel ∉ builder.waiting ++ owed ++ builder.marks := by
    intro hmem
    exact Nat.lt_irrefl _ (h.below _ hmem)
  have hperm : (builder.waiting ++ builder.freshLabel :: owed ++ builder.marks).Perm
      (builder.freshLabel :: (builder.waiting ++ owed ++ builder.marks)) := by
    simp
  refine ⟨?_, ?_, ?_, h.used, h.referenced⟩
  · exact hperm.nodup_iff.mpr (List.nodup_cons.mpr ⟨hfresh, h.nodup⟩)
  · intro other hmem
    obtain rfl | hmem := List.mem_cons.mp (hperm.mem_iff.mp hmem)
    · exact Nat.lt_succ_self _
    · exact Nat.lt_succ_of_lt (h.below other hmem)
  · intro other hmem
    exact hperm.mem_iff.mpr (List.mem_cons_of_mem _ (h.placed other hmem))

/-- Temporaries do not touch the accounts. -/
theorem afterTemp (h : builder.Balanced owed heads) : builder.afterTemp.Balanced owed heads :=
  ⟨h.nodup, h.below, h.placed, h.used, h.referenced⟩

/-- An instruction that marks nothing and jumps at most to a known label. -/
theorem emit (h : builder.Balanced owed heads) {instr : Instr} (hmark : instr.mark? = none)
    (htarget : ∀ target, instr.target? = some target → builder.Knows owed target) :
    (builder.emit instr).Balanced owed heads := by
  have hmarks : (builder.emit instr).marks = builder.marks := by simp [marks_emit, hmark]
  refine ⟨by simpa [hmarks] using h.nodup, by simpa [hmarks] using h.below, ?_, ?_, ?_⟩
  · intro label hmem
    rw [targets_emit, List.mem_append, Option.mem_toList] at hmem
    rw [hmarks, waiting_emit]
    obtain hmem | hmem := hmem
    · exact h.placed label hmem
    · simp only [List.mem_append]
      obtain howed | hmarked := htarget label hmem
      · exact .inl (.inr howed)
      · exact .inr hmarked
  · intro label hmem
    rw [hmarks] at hmem
    rw [targets_emit, List.mem_append]
    exact (h.used label hmem).imp_left .inl
  · intro label
    rw [mem_emit_referenced, targets_emit, List.mem_append, Option.mem_toList, h.referenced]

/-- An instruction that neither marks a label nor jumps. -/
theorem emitPlain (h : builder.Balanced owed heads) {instr : Instr} (hmark : instr.mark? = none)
    (htarget : instr.target? = none) : (builder.emit instr).Balanced owed heads :=
  h.emit hmark (by simp [htarget])

/-- A label that is owed may be placed, whether anything jumps there or not. -/
theorem emitLabel (h : builder.Balanced (label :: owed) heads) :
    (builder.emit (.label label)).Balanced owed (label :: heads) := by
  have hmarks : (builder.emit (.label label)).marks = builder.marks ++ [label] := marks_emit _
  have htargets : (builder.emit (.label label)).targets = builder.targets := by
    simp [targets_emit, Instr.target?]
  have hperm : (builder.waiting ++ owed ++ (builder.marks ++ [label])).Perm
      (builder.waiting ++ label :: owed ++ builder.marks) := by
    rw [← List.append_assoc]
    refine (List.perm_append_singleton label _).trans ?_
    simpa using List.perm_middle.symm
  refine ⟨?_, ?_, ?_, ?_, ?_⟩
  · rw [hmarks]
    exact hperm.nodup_iff.mpr h.nodup
  · intro other hmem
    rw [hmarks] at hmem
    exact h.below other (hperm.mem_iff.mp hmem)
  · intro other hmem
    rw [htargets] at hmem
    rw [hmarks]
    exact hperm.mem_iff.mpr (h.placed other hmem)
  · intro other hmem
    rw [hmarks, List.mem_append, List.mem_singleton] at hmem
    rw [htargets, List.mem_cons]
    obtain hmem | rfl := hmem
    · exact (h.used other hmem).imp_right .inr
    · exact .inr (.inl rfl)
  · intro other
    rw [mem_emit_referenced, htargets, ← h.referenced]
    simp [Instr.target?]

/-- A loop head is no longer on credit once something jumps to it. -/
theorem settle (h : builder.Balanced owed (label :: heads)) (htarget : label ∈ builder.targets) :
    builder.Balanced owed heads := by
  refine ⟨h.nodup, h.below, h.placed, ?_, h.referenced⟩
  intro other hmem
  obtain hused | hhead := h.used other hmem
  · exact .inl hused
  · obtain rfl | hhead := List.mem_cons.mp hhead
    · exact .inl htarget
    · exact .inr hhead

theorem emitJump (h : builder.Balanced owed heads) (hknows : builder.Knows owed label) :
    (builder.emit (.jump label)).Balanced owed heads := by
  apply h.emit rfl
  rintro target ⟨⟩
  exact hknows

theorem emitBranch (h : builder.Balanced owed heads) (hknows : builder.Knows owed label)
    (left right : Value) (op : RelOp) (sense : Bool) :
    (builder.emit (.branch left op right label sense)).Balanced owed heads := by
  apply h.emit rfl
  rintro target ⟨⟩
  exact hknows

/-- The jump back to a loop head. -/
theorem emitBack (h : builder.Balanced owed (label :: heads)) (hmarked : label ∈ builder.marks) :
    (builder.emit (.jump label)).Balanced owed heads := by
  apply (h.emitJump (.inr hmarked)).settle
  simp [targets_emit, Instr.target?]

/-- Placing an owed label settles it: if nothing jumps there it is left out. -/
theorem mark (h : builder.Balanced (label :: owed) heads) :
    (builder.mark label).Balanced owed heads := by
  by_cases hmem : label.number ∈ builder.referenced
  · rw [mark_of_referenced hmem]
    apply h.emitLabel.settle
    rw [targets_emit, List.mem_append]
    exact .inl ((h.referenced label).mp hmem)
  · rw [mark_of_not_referenced hmem]
    have hsub : (builder.waiting ++ owed ++ builder.marks).Sublist
        (builder.waiting ++ label :: owed ++ builder.marks) := by
      simp
    refine ⟨h.nodup.sublist hsub, fun other hother => h.below other (hsub.subset hother), ?_,
      h.used, h.referenced⟩
    intro other htarget
    have hne : other ≠ label := by
      rintro rfl
      exact hmem ((h.referenced other).mpr htarget)
    simpa [hne] using h.placed other htarget

/-- Case labels that wait and labels that are owed may change places: only
together do they count. -/
theorem reassign (h : builder.Balanced owed heads) {switches : List SwitchLabels}
    {others : List Label}
    (hperm : (switches.flatMap SwitchLabels.pending ++ others).Perm (builder.waiting ++ owed)) :
    { builder with switches }.Balanced others heads := by
  have hall : (switches.flatMap SwitchLabels.pending ++ others ++ builder.marks).Perm
      (builder.waiting ++ owed ++ builder.marks) := hperm.append_right _
  refine ⟨hall.nodup_iff.mpr h.nodup, ?_, ?_, h.used, h.referenced⟩
  · intro label hmem
    exact h.below label (hall.mem_iff.mp hmem)
  · intro label hmem
    exact hall.mem_iff.mpr (h.placed label hmem)

end Balanced

/-- What is owed while a construct is open: also its exit, if that is a fresh
label. -/
def owing (continuation : Continuation) (exit : Label) (owed : List Label) : List Label :=
  match continuation with
  | .fall => exit :: owed
  | .label _ => owed

theorem owing_cons (continuation : Continuation) (exit label : Label) (owed : List Label) :
    (label :: owing continuation exit owed).Perm (owing continuation exit (label :: owed)) := by
  cases continuation with
  | label _ => exact .refl _
  | fall => exact .swap _ _ _

theorem Balanced.openExit (h : builder.Balanced owed heads) (continuation : Continuation) :
    (builder.openExit continuation).Balanced
      (owing continuation (builder.exitLabel continuation) owed) heads := by
  cases continuation with
  | label exit => exact h
  | fall => exact h.afterLabel

theorem Balanced.closeExit {continuation : Continuation} {exit : Label}
    (h : builder.Balanced (owing continuation exit owed) heads) :
    (builder.closeExit continuation exit).Balanced owed heads := by
  cases continuation with
  | label _ => exact h
  | fall => exact h.mark

theorem Knows.owing (hknows : builder.Knows owed label) (continuation : Continuation)
    (exit : Label) : builder.Knows (owing continuation exit owed) label := by
  cases continuation with
  | label _ => exact hknows
  | fall => exact hknows.cons exit

/-- The continuation is a label that may be jumped to, or no label at all. -/
def Admits (builder : Builder) (owed : List Label) (continuation : Continuation) : Prop :=
  ∀ target, continuation = .label target → builder.Knows owed target

theorem Admits.extends {before after : Builder} {continuation : Continuation}
    (hadmits : before.Admits owed continuation) (h : before.Extends after) :
    after.Admits owed continuation :=
  fun target htarget => (hadmits target htarget).extends h

theorem Admits.owing {continuation : Continuation} (hadmits : builder.Admits owed continuation)
    (other : Continuation) (exit : Label) :
    builder.Admits (owing other exit owed) continuation :=
  fun target htarget => (hadmits target htarget).owing other exit

theorem Admits.cons {continuation : Continuation} (hadmits : builder.Admits owed continuation)
    (other : Label) : builder.Admits (other :: owed) continuation :=
  fun target htarget => (hadmits target htarget).cons other

/-- The exit of a construct may be jumped to while the construct is open. -/
theorem Admits.knows_exit {continuation : Continuation}
    (hadmits : builder.Admits owed continuation) :
    (builder.openExit continuation).Knows
      (Builder.owing continuation (builder.exitLabel continuation) owed)
      (builder.exitLabel continuation) := by
  cases continuation with
  | label exit => exact hadmits exit rfl
  | fall => exact .inl List.mem_cons_self

theorem admits_fall : builder.Admits owed .fall := by
  rintro target ⟨⟩

theorem Knows.admits (hknows : builder.Knows owed label) : builder.Admits owed (.label label) := by
  rintro target ⟨⟩
  exact hknows

/-- Breaks out of every open switch are in order. -/
def AdmitsBreaks (builder : Builder) (owed : List Label) : Prop :=
  ∀ exit ∈ builder.exits, builder.Knows owed exit

theorem AdmitsBreaks.extends {before after : Builder} (hadmits : before.AdmitsBreaks owed)
    (h : before.Extends after) (hexits : after.exits = before.exits) :
    after.AdmitsBreaks owed := by
  intro exit hmem
  rw [hexits] at hmem
  exact (hadmits exit hmem).extends h

namespace AdmitsBreaks

theorem emit (hadmits : builder.AdmitsBreaks owed) (instr : Instr) :
    (builder.emit instr).AdmitsBreaks owed :=
  hadmits.extends ((Extends.refl builder).emit instr) rfl

theorem mark (hadmits : builder.AdmitsBreaks owed) (label : Label) :
    (builder.mark label).AdmitsBreaks owed :=
  hadmits.extends ((Extends.refl builder).mark label) (by simp [exits])

theorem afterLabel (hadmits : builder.AdmitsBreaks owed) : builder.afterLabel.AdmitsBreaks owed :=
  hadmits.extends (Extends.refl builder).afterLabel rfl

theorem openExit (hadmits : builder.AdmitsBreaks owed) (continuation : Continuation) :
    (builder.openExit continuation).AdmitsBreaks owed :=
  hadmits.extends ((Extends.refl builder).openExit continuation) (by simp [exits])

theorem owing (hadmits : builder.AdmitsBreaks owed) (continuation : Continuation) (exit : Label) :
    builder.AdmitsBreaks (owing continuation exit owed) :=
  fun other hmem => (hadmits other hmem).owing continuation exit

theorem cons (hadmits : builder.AdmitsBreaks owed) (label : Label) :
    builder.AdmitsBreaks (label :: owed) :=
  fun other hmem => (hadmits other hmem).cons label

end AdmitsBreaks

end Builder

end ThreeAddress
