import Std.Data.ExtTreeMap
import ThreeAddress.Machine.Line

/-!
Next uses. For every name this analysis keeps the indices of the lines that
still read its present value, in increasing order. A name without such a line is
not kept at all.
-/

namespace ThreeAddress.Machine

structure NextUse where
  byName : Std.ExtTreeMap String (List Nat)
  deriving DecidableEq

namespace NextUse

def empty : NextUse := ⟨∅⟩

def uses (next : NextUse) (name : String) : List Nat :=
  next.byName.getD name []

def first? (next : NextUse) (name : String) : Option Nat :=
  (next.uses name).head?

def isEmpty (next : NextUse) : Bool :=
  next.byName.isEmpty

/-- Forgets the uses of every name that is written. -/
def forget (next : NextUse) (names : NameSet) : NextUse :=
  ⟨next.byName.filter fun name _ => name ∉ names⟩

/-- Puts a line in front of the uses of a name. -/
def prepend (next : NextUse) (index : Nat) (name : String) : NextUse :=
  ⟨next.byName.insert name (index :: next.uses name)⟩

@[simp] theorem uses_empty (name : String) : empty.uses name = [] := by
  simp [empty, uses]

@[simp] theorem uses_forget (next : NextUse) (names : NameSet) (name : String) :
    (next.forget names).uses name = if name ∈ names then [] else next.uses name := by
  unfold forget uses
  rw [Std.ExtTreeMap.getD_filter']
  rw [Std.ExtTreeMap.getD_eq_getD_getElem?]
  by_cases h : name ∈ names <;> cases next.byName[name]? <;> simp [h, Option.filter]

@[simp] theorem uses_prepend (next : NextUse) (index : Nat) (written name : String) :
    (next.prepend index written).uses name =
      if name = written then index :: next.uses name else next.uses name := by
  by_cases h : name = written
  · subst h
    simp [prepend, uses]
  · simp [prepend, uses, Std.ExtTreeMap.getD_insert, h, Ne.symm h]

/-- For instance `a:[0, 2], b:[1]`, in the order of the names. -/
def text (next : NextUse) : String :=
  ", ".intercalate <| next.byName.toList.map fun (name, uses) =>
    name ++ ":[" ++ ", ".intercalate (uses.map Nat.repr) ++ "]"

end NextUse

/-- The next uses just before the line at an index, from those just after it.
What the line itself reads comes first, also of a name that it writes. -/
def Line.nextBefore (line : Line) (index : Nat) (after : NextUse) : NextUse :=
  line.refs.toList.foldl (·.prepend index) (after.forget line.defs)

theorem uses_foldl_prepend (names : List String) (distinct : names.Nodup) (next : NextUse)
    (index : Nat) (name : String) :
    (names.foldl (·.prepend index) next).uses name =
      if name ∈ names then index :: next.uses name else next.uses name := by
  induction names generalizing next with
  | nil => simp
  | cons first rest ih =>
      obtain ⟨hfirst, hrest⟩ := List.nodup_cons.mp distinct
      rw [List.foldl_cons, ih hrest, NextUse.uses_prepend]
      by_cases h : name = first
      · subst h
        simp [hfirst]
      · simp [h]

@[simp] theorem Line.uses_nextBefore (line : Line) (index : Nat) (after : NextUse) (name : String) :
    (line.nextBefore index after).uses name =
      (if name ∈ line.refs then [index] else []) ++
        if name ∈ line.defs then [] else after.uses name := by
  have distinct : line.refs.toList.Nodup :=
    Std.ExtTreeSet.distinct_toList.imp (by simp)
  rw [Line.nextBefore, uses_foldl_prepend _ distinct, NextUse.uses_forget]
  by_cases h : name ∈ line.refs <;> simp [h]

/-- The next uses on either side of one line. -/
structure NextSpan where
  before : NextUse
  after : NextUse

/-- The next uses before the first of some lines, the first having the given
index. -/
def nextAt (index : Nat) : List Line → NextUse
  | [] => .empty
  | line :: rest => line.nextBefore index (nextAt (index + 1) rest)

/-- The next uses around every line, the first line having the given index. -/
def nextUsesFrom (index : Nat) : List Line → List NextSpan
  | [] => []
  | line :: rest =>
      let spans := nextUsesFrom (index + 1) rest
      let after := (spans.head?.map NextSpan.before).getD .empty
      ⟨line.nextBefore index after, after⟩ :: spans

def nextUses (lines : List Line) : List NextSpan :=
  nextUsesFrom 0 lines

@[simp] theorem nextUsesFrom_length (index : Nat) (lines : List Line) :
    (nextUsesFrom index lines).length = lines.length := by
  induction lines generalizing index with
  | nil => rfl
  | cons line rest ih => simp [nextUsesFrom, ih]

/-- The span of a line holds the next uses of the lines from it on and of those
behind it. -/
theorem nextUsesFrom_getElem? (index : Nat) (lines : List Line) (i : Nat) :
    (nextUsesFrom index lines)[i]? =
      if i < lines.length then
        some ⟨nextAt (index + i) (lines.drop i), nextAt (index + i + 1) (lines.drop (i + 1))⟩
      else none := by
  have first (index : Nat) (lines : List Line) :
      ((nextUsesFrom index lines).head?.map NextSpan.before).getD .empty =
        nextAt index lines := by
    induction lines generalizing index with
    | nil => rfl
    | cons line rest ih => simp [nextUsesFrom, nextAt, ih]
  induction lines generalizing index i with
  | nil => simp [nextUsesFrom]
  | cons line rest ih =>
      cases i with
      | zero => simp [nextUsesFrom, first, nextAt]
      | succ i => simp [nextUsesFrom, ih, Nat.add_comm, Nat.add_left_comm]

end ThreeAddress.Machine
