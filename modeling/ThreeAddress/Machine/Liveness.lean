import ThreeAddress.Machine.Line

/-!
Liveness of names in a straight-line program. A name is live where its present
value may still be read, by a later line or as an output. The sets are computed
from the last line backwards.
-/

namespace ThreeAddress.Machine

/-- The names live just before a line, from those live just after it. -/
def Line.liveBefore (line : Line) (after : NameSet) : NameSet :=
  (after \ line.defs) ∪ line.refs

@[simp] theorem Line.mem_liveBefore (line : Line) (after : NameSet) (name : String) :
    name ∈ line.liveBefore after ↔
      name ∈ line.refs ∨ (name ∈ after ∧ name ∉ line.defs) := by
  simp [Line.liveBefore, or_comm]

/-- The names live on either side of one line. -/
structure LiveSpan where
  before : NameSet
  after : NameSet

/-- The names live before the first of some lines, with the outputs live after
the last. -/
def liveAt (outputs : NameSet) (lines : List Line) : NameSet :=
  lines.foldr Line.liveBefore outputs

/-- The live names around every line. Each set is computed once, from the one
behind it. -/
def liveness (outputs : NameSet) : List Line → List LiveSpan
  | [] => []
  | line :: rest =>
      let spans := liveness outputs rest
      let after := (spans.head?.map LiveSpan.before).getD outputs
      ⟨line.liveBefore after, after⟩ :: spans

@[simp] theorem liveness_length (outputs : NameSet) (lines : List Line) :
    (liveness outputs lines).length = lines.length := by
  induction lines with
  | nil => rfl
  | cons line rest ih => simp [liveness, ih]

/-- The span of a line holds the live sets of the lines from it on and of those
behind it. -/
theorem liveness_getElem? (outputs : NameSet) (lines : List Line) (i : Nat) :
    (liveness outputs lines)[i]? =
      if i < lines.length then
        some ⟨liveAt outputs (lines.drop i), liveAt outputs (lines.drop (i + 1))⟩
      else none := by
  have first (lines : List Line) :
      ((liveness outputs lines).head?.map LiveSpan.before).getD outputs =
        liveAt outputs lines := by
    induction lines with
    | nil => rfl
    | cons line rest ih => simp [liveness, liveAt, ih]
  induction lines generalizing i with
  | nil => simp [liveness]
  | cons line rest ih =>
      cases i with
      | zero => simp [liveness, first, liveAt]
      | succ i => simp [liveness, ih]

/-- Whether a name is live behind the line at this index. Behind a line that
does not exist nothing is. -/
def isLiveAfter (spans : List LiveSpan) (index : Nat) (name : String) : Bool :=
  spans[index]?.any (name ∈ ·.after)

end ThreeAddress.Machine
