import Mathlib.Data.Finset.Card
import ThreeAddress.Proofs.AllocationCorrect

/-!
The names in registers, as a set. How many loads a program takes depends on which
names are held at each line, and not on the registers they are in. A held name is
due by a line if that line or an earlier one reads its present value, and the number
of due names is what one way to give up names can have ahead of another. Giving up
the name that is needed last keeps this number as large as the registers allow.
-/

namespace ThreeAddress.Machine

/-- How the held names change when one more is wanted. Nothing changes if it is held
already, a free register takes it if there is one, and else it takes the place of a
name that may be given up. -/
inductive BringsIn (capacity : Nat) (mayGo : Finset String → String → Prop)
    (held : Finset String) (name : String) : Finset String → Prop
  | held (hname : name ∈ held) : BringsIn capacity mayGo held name held
  | free (hname : name ∉ held) (hfree : held.card < capacity) :
      BringsIn capacity mayGo held name (insert name held)
  | swap {old : String} (hname : name ∉ held) (hfull : held.card = capacity) (hold : old ∈ held)
      (hgo : mayGo held old) : BringsIn capacity mayGo held name (insert name (held.erase old))

/-- Some names are brought in one after the other, and those not held are loaded. -/
inductive BringsAll (capacity : Nat) (mayGo : Finset String → String → Prop) :
    Finset String → List String → Nat → Finset String → Prop
  | nil (held : Finset String) : BringsAll capacity mayGo held [] 0 held
  | cons {held between after : Finset String} {name : String} {names : List String} {loads : Nat}
      (hname : BringsIn capacity mayGo held name between)
      (hnames : BringsAll capacity mayGo between names loads after) :
      BringsAll capacity mayGo held (name :: names) ((if name ∈ held then 0 else 1) + loads) after

/-- The variables that a line reads, in the order of its operands. -/
def Line.reads (line : Line) : List String :=
  line.left.var?.toList ++ line.right.var?.toList

/-- A line is run through with some number of loads: it brings in what it reads and
then its destination. What it reads is held together, unless the registers are too
few and only names of the line itself are left behind it. -/
inductive Line.Passes (line : Line) (capacity : Nat)
    (mayGo mayGoBehind : Finset String → String → Prop) (held : Finset String) :
    Nat → Finset String → Prop
  | intro {loads : Nat} {fetched after : Finset String}
      (hreads : BringsAll capacity mayGo held line.reads loads fetched)
      (hdst : BringsIn capacity mayGoBehind fetched line.dst after)
      (hkept : line.reads.toFinset ⊆ fetched ∨ after ⊆ insert line.dst line.reads.toFinset) :
      Passes line capacity mayGo mayGoBehind held loads after

/-- Lines are run through with some number of loads. What may be given up can depend
on the next uses, before a line for its operands and behind it for its destination. -/
inductive LoadsIn (capacity : Nat) (mayGo : NextUse → Finset String → String → Prop) :
    Nat → List Line → Finset String → Nat → Prop
  | nil (index : Nat) (held : Finset String) : LoadsIn capacity mayGo index [] held 0
  | cons {index loads more : Nat} {line : Line} {rest : List Line} {held after : Finset String}
      (hline : line.Passes capacity (mayGo (nextAt index (line :: rest)))
        (mayGo (nextAt (index + 1) rest)) held loads after)
      (hrest : LoadsIn capacity mayGo (index + 1) rest after more) :
      LoadsIn capacity mayGo index (line :: rest) held (loads + more)

namespace NextUse

/-- The present value of a name is read by the line at the horizon or before it. -/
def due (next : NextUse) (horizon : Nat) (name : String) : Bool :=
  (next.first? name).any (· ≤ horizon)

def dueCount (next : NextUse) (horizon : Nat) (held : Finset String) : Nat :=
  (held.filter fun name => next.due horizon name).card

/-- A name that is needed last: it is not used again, or all held names are used no
later. -/
def Farthest (next : NextUse) (held : Finset String) (old : String) : Prop :=
  ∀ use, next.first? old = some use →
    ∀ other ∈ held, ∃ earlier, next.first? other = some earlier ∧ earlier ≤ use

variable {next : NextUse} {horizon : Nat} {held other : Finset String} {name old : String}

theorem due_iff : next.due horizon name ↔ ∃ use, next.first? name = some use ∧ use ≤ horizon := by
  simp [due, Option.any_eq_true]

theorem dueCount_mono (h : held ⊆ other) :
    next.dueCount horizon held ≤ next.dueCount horizon other :=
  Finset.card_le_card (Finset.filter_subset_filter _ h)

theorem dueCount_le_card : next.dueCount horizon held ≤ held.card :=
  Finset.card_filter_le _ _

theorem dueCount_insert (hname : name ∉ held) :
    next.dueCount horizon (insert name held) =
      next.dueCount horizon held + if next.due horizon name then 1 else 0 := by
  unfold dueCount
  rw [Finset.filter_insert]
  split
  · rw [Finset.card_insert_of_notMem (by simp [hname])]
  · rfl

theorem dueCount_insert_of_due (hdue : next.due horizon name) :
    next.dueCount horizon (insert name held) =
      next.dueCount horizon held + if name ∈ held then 0 else 1 := by
  split
  next hmem => rw [Finset.insert_eq_of_mem hmem, Nat.add_zero]
  next hmem => rw [dueCount_insert hmem, if_pos hdue]

/-- A name that is not due makes the count fall short of the number of names. -/
theorem dueCount_add_le_card (hname : name ∈ held) :
    next.dueCount horizon held + (if next.due horizon name then 0 else 1) ≤ held.card := by
  split
  · exact dueCount_le_card
  next hdue =>
    apply Finset.card_lt_card
    refine ⟨Finset.filter_subset _ _, ?_⟩
    intro hall
    exact hdue (Finset.mem_filter.mp (hall hname)).2

theorem dueCount_erase_of_not_due (hold : ¬ next.due horizon old) :
    next.dueCount horizon (held.erase old) = next.dueCount horizon held := by
  unfold dueCount
  rw [Finset.filter_erase, Finset.erase_eq_of_notMem (by simp [hold])]

/-- If the name that is needed last is due, all are. -/
theorem Farthest.due_all (h : next.Farthest held old) (hold : next.due horizon old) :
    ∀ other ∈ held, next.due horizon other := by
  intro other hother
  obtain ⟨use, huse, hle⟩ := due_iff.mp hold
  obtain ⟨earlier, hearlier, hbefore⟩ := h use huse other hother
  exact due_iff.mpr ⟨earlier, hearlier, hbefore.trans hle⟩

end NextUse

namespace BringsIn

variable {capacity horizon : Nat} {mayGo : Finset String → String → Prop}
  {held after : Finset String} {name : String} {next : NextUse}

theorem mono {allowed : Finset String → String → Prop}
    (h : BringsIn capacity mayGo held name after)
    (hallowed : ∀ held old, mayGo held old → allowed held old) :
    BringsIn capacity allowed held name after := by
  cases h with
  | held hname => exact .held hname
  | free hname hfree => exact .free hname hfree
  | swap hname hfull hold hgo => exact .swap hname hfull hold (hallowed held _ hgo)

theorem mem (h : BringsIn capacity mayGo held name after) : name ∈ after := by
  cases h with
  | held hname => exact hname
  | free | swap => exact Finset.mem_insert_self _ _

theorem subset_insert (h : BringsIn capacity mayGo held name after) : after ⊆ insert name held := by
  cases h with
  | held hname => exact Finset.subset_insert _ _
  | free => exact Finset.Subset.refl _
  | swap => exact Finset.insert_subset_insert _ (Finset.erase_subset _ _)

theorem card_le (h : BringsIn capacity mayGo held name after) (hheld : held.card ≤ capacity) :
    after.card ≤ capacity := by
  cases h with
  | held hname => exact hheld
  | free hname hfree =>
    rw [Finset.card_insert_of_notMem hname]
    exact hfree
  | swap hname hfull hold hgo =>
    rw [Finset.card_insert_of_notMem (mt Finset.mem_of_mem_erase hname),
      Finset.card_erase_add_one hold]
    exact hheld

/-- A name that is never given up stays. -/
theorem mem_of_held {kept : String} (h : BringsIn capacity mayGo held name after)
    (hkept : ∀ held, ¬ mayGo held kept) (hheld : kept ∈ held) : kept ∈ after := by
  cases h with
  | held => exact hheld
  | free => exact Finset.mem_insert_of_mem hheld
  | swap _ _ _ hgo =>
    apply Finset.mem_insert_of_mem
    refine Finset.mem_erase.mpr ⟨?_, hheld⟩
    rintro rfl
    exact hkept held hgo

/-- Whatever is given up, a name adds itself to the due names and nothing else. -/
theorem dueCount_le (h : BringsIn capacity mayGo held name after) (hname : next.due horizon name) :
    next.dueCount horizon after ≤
      next.dueCount horizon held + if name ∈ held then 0 else 1 := by
  rw [← NextUse.dueCount_insert_of_due hname]
  exact NextUse.dueCount_mono h.subset_insert

/-- Giving up the name that is needed last costs a due name only if all names are
due. -/
theorem dueCount_ge (h : BringsIn capacity next.Farthest held name after) (horizon : Nat) :
    next.dueCount horizon (insert name held) ≤ next.dueCount horizon after ∨
      capacity ≤ next.dueCount horizon after + if next.due horizon name then 0 else 1 := by
  cases h with
  | held hname =>
    left
    rw [Finset.insert_eq_of_mem hname]
  | free => exact .inl (Nat.le_refl _)
  | @swap old hname hfull hold hgo =>
    have hkept : name ∉ held.erase old := mt Finset.mem_of_mem_erase hname
    rw [NextUse.dueCount_insert hkept]
    by_cases hdue : next.due horizon old
    · right
      have hall : next.dueCount horizon (held.erase old) = (held.erase old).card := by
        unfold NextUse.dueCount
        rw [Finset.filter_true_of_mem fun other hother =>
          hgo.due_all hdue other (Finset.mem_of_mem_erase hother)]
      have hcard := Finset.card_erase_add_one hold
      rw [hall]
      split <;> omega
    · left
      rw [NextUse.dueCount_insert hname, NextUse.dueCount_erase_of_not_due hdue]

/-- If there is room for all names that are due first, none of them is given up for
another. -/
theorem spares {wanted : Finset String} (h : BringsIn capacity next.Farthest held name after)
    (hwanted : ∀ other, next.due horizon other ↔ other ∈ wanted) (hname : name ∈ wanted)
    (hroom : wanted.card ≤ capacity) {other : String} (hother : other ∈ wanted)
    (hheld : other ∈ held) : other ∈ after := by
  cases h with
  | held => exact hheld
  | free => exact Finset.mem_insert_of_mem hheld
  | @swap old hmissing hfull hold hgo =>
    apply Finset.mem_insert_of_mem
    refine Finset.mem_erase.mpr ⟨?_, hheld⟩
    rintro rfl
    have hall : held ⊆ wanted.erase name := by
      intro kept hkept
      have hdue := hgo.due_all ((hwanted other).mpr hother) kept hkept
      refine Finset.mem_erase.mpr ⟨?_, (hwanted kept).mp hdue⟩
      rintro rfl
      exact hmissing hkept
    have hcard := Finset.card_le_card hall
    have herase := Finset.card_erase_add_one hname
    omega

end BringsIn

namespace BringsAll

variable {capacity horizon loads : Nat} {mayGo : Finset String → String → Prop}
  {held after : Finset String} {names : List String} {next : NextUse}

theorem mono {allowed : Finset String → String → Prop}
    (h : BringsAll capacity mayGo held names loads after)
    (hallowed : ∀ held old, mayGo held old → allowed held old) :
    BringsAll capacity allowed held names loads after := by
  induction h with
  | nil held => exact .nil held
  | cons hname _ ih => exact .cons (hname.mono hallowed) ih

theorem append {between : Finset String} {more : List String} {moreLoads : Nat}
    (hfirst : BringsAll capacity mayGo held names loads between)
    (hsecond : BringsAll capacity mayGo between more moreLoads after) :
    BringsAll capacity mayGo held (names ++ more) (loads + moreLoads) after := by
  induction hfirst with
  | nil =>
    rw [Nat.zero_add]
    exact hsecond
  | cons hname _ ih =>
    rw [Nat.add_assoc]
    exact .cons hname (ih hsecond)

theorem mem_of_held {kept : String} (h : BringsAll capacity mayGo held names loads after)
    (hkept : ∀ held, ¬ mayGo held kept) (hheld : kept ∈ held) : kept ∈ after := by
  induction h with
  | nil => exact hheld
  | cons hname _ ih => exact ih (hname.mem_of_held hkept hheld)

theorem mem_of_toList {wanted : Option String} {name : String}
    (h : BringsAll capacity mayGo held wanted.toList loads after) (hname : name ∈ wanted.toList) :
    name ∈ after := by
  obtain rfl := Option.mem_toList.mp hname
  cases h with
  | cons hfirst hothers =>
    cases hothers
    exact hfirst.mem

theorem card_le (h : BringsAll capacity mayGo held names loads after)
    (hheld : held.card ≤ capacity) : after.card ≤ capacity := by
  induction h with
  | nil => exact hheld
  | cons hname _ ih => exact ih (hname.card_le hheld)

/-- Every name that was not held is loaded. -/
theorem missing_le (h : BringsAll capacity mayGo held names loads after) :
    (names.toFinset \ held).card ≤ loads := by
  induction h with
  | nil => simp
  | @cons held between after name names loads hname _ ih =>
    have hothers : (name :: names).toFinset \ held ⊆ insert name (names.toFinset \ between) := by
      intro other hother
      have hbetween : other ∈ between → other ∈ insert name held :=
        fun hmem => hname.subset_insert hmem
      simp only [List.toFinset_cons] at hother
      grind
    split
    next hmem =>
      have hkept : name ∉ (name :: names).toFinset \ held := by simp [hmem]
      rw [Nat.zero_add]
      exact (Finset.card_le_card ((Finset.subset_insert_iff_of_notMem hkept).mp hothers)).trans ih
    next =>
      have hcard := (Finset.card_le_card hothers).trans (Finset.card_insert_le _ _)
      omega

theorem dueCount_le (h : BringsAll capacity mayGo held names loads after)
    (hnames : ∀ name ∈ names, next.due horizon name) :
    next.dueCount horizon after ≤ next.dueCount horizon held + loads := by
  induction h with
  | nil => exact Nat.le_refl _
  | cons hname _ ih =>
    obtain ⟨hdue, hdues⟩ := List.forall_mem_cons.mp hnames
    have hfirst := hname.dueCount_le hdue
    have hothers := ih hdues
    omega

theorem dueCount_ge (h : BringsAll capacity next.Farthest held names loads after) (horizon : Nat)
    (hnames : ∀ name ∈ names, next.due horizon name) :
    next.dueCount horizon held + loads ≤ next.dueCount horizon after ∨
      capacity ≤ next.dueCount horizon after := by
  induction h with
  | nil => exact .inl (Nat.le_refl _)
  | @cons held between after name names loads hname hothers ih =>
    obtain ⟨hdue, hdues⟩ := List.forall_mem_cons.mp hnames
    have hfirst := hname.dueCount_ge horizon
    rw [NextUse.dueCount_insert_of_due hdue, if_pos hdue] at hfirst
    have hrest := ih hdues
    omega

section Wanted

variable {wanted : Finset String} (hwanted : ∀ name, next.due horizon name ↔ name ∈ wanted)
  (hnames : ∀ name ∈ names, name ∈ wanted) (hroom : wanted.card ≤ capacity)

include hwanted hnames hroom

theorem spares (h : BringsAll capacity next.Farthest held names loads after) {name : String}
    (hname : name ∈ wanted) (hheld : name ∈ held) : name ∈ after := by
  induction h with
  | nil => exact hheld
  | cons hfirst _ ih =>
    obtain ⟨hmem, hmems⟩ := List.forall_mem_cons.mp hnames
    exact ih hmems (hfirst.spares hwanted hmem hroom hname hheld)

/-- With room for all names that are due first, they are held together. -/
theorem toFinset_subset (h : BringsAll capacity next.Farthest held names loads after) :
    names.toFinset ⊆ after := by
  induction h with
  | nil => simp
  | cons hfirst hothers ih =>
    obtain ⟨hmem, hmems⟩ := List.forall_mem_cons.mp hnames
    rw [List.toFinset_cons]
    exact Finset.insert_subset (hothers.spares hwanted hmems hroom hmem hfirst.mem) (ih hmems)

/-- With room for all names that are due first, none of them is loaded twice. -/
theorem dueCount_add_loads_le (h : BringsAll capacity next.Farthest held names loads after) :
    next.dueCount horizon held + loads ≤ wanted.card := by
  induction h with
  | nil held =>
    apply Finset.card_le_card
    intro name hname
    exact (hwanted name).mp (Finset.mem_filter.mp hname).2
  | @cons held between after name names loads hfirst _ ih =>
    obtain ⟨hmem, hmems⟩ := List.forall_mem_cons.mp hnames
    have hkept : next.dueCount horizon (insert name held) ≤ next.dueCount horizon between := by
      apply Finset.card_le_card
      intro other hother
      obtain ⟨hinsert, hdue⟩ := Finset.mem_filter.mp hother
      refine Finset.mem_filter.mpr ⟨?_, hdue⟩
      obtain rfl | hheld := Finset.mem_insert.mp hinsert
      · exact hfirst.mem
      · exact hfirst.spares hwanted hmem hroom ((hwanted other).mp hdue) hheld
    have hrest := ih hmems
    rw [NextUse.dueCount_insert_of_due ((hwanted name).mpr hmem)] at hkept
    omega

end Wanted

end BringsAll

variable {line : Line} {rest : List Line} {index horizon : Nat} {name : String}
  {held : Finset String}

namespace Line

theorem reads_card_le (line : Line) : line.reads.toFinset.card ≤ 2 := by
  refine (List.toFinset_card_le _).trans ?_
  unfold reads
  cases line.left.var? <;> cases line.right.var? <;> simp

theorem IsBuilt.mem_refs_iff (hline : line.IsBuilt) : name ∈ line.refs ↔ name ∈ line.reads := by
  have hvar (operand : Operand) : operand.var? = some name ↔ operand = .var name := by
    cases operand <;> simp [Operand.var?]
  simp [hline.mem_refs, reads, hvar]

/-- What a line reads is used by the line, what it only writes has no use before it,
and all else is used next behind it. -/
theorem IsBuilt.first?_nextAt (hline : line.IsBuilt) :
    (nextAt index (line :: rest)).first? name =
      if name ∈ line.reads then some index
      else if name = line.dst then none
      else (nextAt (index + 1) rest).first? name := by
  rw [NextUse.first?, NextUse.first?, nextAt, Line.uses_nextBefore]
  simp only [hline.mem_refs_iff, hline.mem_defs, eq_comm (a := name)]
  split
  · rfl
  · split <;> rfl

theorem IsBuilt.due_nextAt_of_mem_reads (hline : line.IsBuilt) (hname : name ∈ line.reads)
    (hle : index ≤ horizon) : (nextAt index (line :: rest)).due horizon name := by
  rw [NextUse.due_iff, hline.first?_nextAt, if_pos hname]
  exact ⟨index, rfl, hle⟩

/-- Just what a line reads is due by the line itself. -/
theorem IsBuilt.due_nextAt_iff (hline : line.IsBuilt) :
    (nextAt index (line :: rest)).due index name ↔ name ∈ line.reads.toFinset := by
  rw [List.mem_toFinset]
  constructor
  · intro hdue
    by_contra hname
    obtain ⟨use, huse, hle⟩ := NextUse.due_iff.mp hdue
    have hlater := lt_of_first?_nextAt (mt hline.mem_refs_iff.mp hname) huse
    omega
  · intro hname
    exact hline.due_nextAt_of_mem_reads hname (Nat.le_refl index)

/-- Passing a line changes the number of due names by the same amount for all held
names that include what the line reads. -/
theorem IsBuilt.dueCount_pass (hline : line.IsBuilt) (rest : List Line)
    (hheld : line.reads.toFinset ⊆ held) (hle : index ≤ horizon) :
    (nextAt (index + 1) rest).dueCount horizon (insert line.dst held) + line.reads.toFinset.card =
      (nextAt index (line :: rest)).dueCount horizon held +
        (nextAt (index + 1) rest).dueCount horizon (insert line.dst line.reads.toFinset) := by
  have hdue (other : String) : (nextAt index (line :: rest)).due horizon other ↔
      other ∈ line.reads ∨ (other ≠ line.dst ∧ (nextAt (index + 1) rest).due horizon other) := by
    rw [NextUse.due_iff, NextUse.due_iff, hline.first?_nextAt]
    split
    next hread => simp [hread, hle]
    next hread =>
      split
      next hdst => simp [hdst ▸ hread, hdst]
      next hdst => simp [hread, hdst]
  -- the names that the line neither reads nor writes are due before it and behind it alike
  let others := (held \ insert line.dst line.reads.toFinset).filter fun other =>
    (nextAt (index + 1) rest).due horizon other
  have hbefore : (held.filter fun other => (nextAt index (line :: rest)).due horizon other) =
      line.reads.toFinset ∪ others := by
    ext other
    have hmem : other ∈ line.reads → other ∈ held := fun h => hheld (List.mem_toFinset.mpr h)
    simp only [others, Finset.mem_filter, hdue, Finset.mem_union, Finset.mem_sdiff,
      Finset.mem_insert, List.mem_toFinset]
    tauto
  have hbehind : ((insert line.dst held).filter fun other =>
        (nextAt (index + 1) rest).due horizon other) =
      ((insert line.dst line.reads.toFinset).filter fun other =>
        (nextAt (index + 1) rest).due horizon other) ∪ others := by
    ext other
    have hmem : other ∈ line.reads → other ∈ held := fun h => hheld (List.mem_toFinset.mpr h)
    simp only [others, Finset.mem_filter, Finset.mem_union, Finset.mem_sdiff, Finset.mem_insert,
      List.mem_toFinset]
    tauto
  have hapart : Disjoint line.reads.toFinset others := by
    rw [Finset.disjoint_left]
    intro other hread
    simp only [others, Finset.mem_filter, Finset.mem_sdiff, Finset.mem_insert]
    tauto
  have hapart' : Disjoint ((insert line.dst line.reads.toFinset).filter fun other =>
      (nextAt (index + 1) rest).due horizon other) others := by
    rw [Finset.disjoint_left]
    intro other hread
    simp only [others, Finset.mem_filter, Finset.mem_sdiff] at hread ⊢
    tauto
  unfold NextUse.dueCount
  rw [hbefore, hbehind, Finset.card_union_of_disjoint hapart, Finset.card_union_of_disjoint hapart']
  omega

end Line

end ThreeAddress.Machine
