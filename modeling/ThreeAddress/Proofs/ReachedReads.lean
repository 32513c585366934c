import Mathlib.Data.Nat.Init
import ThreeAddress.Proofs.AllocationCorrect

/-!
What the analyses of straight-line code find. The value that a name has before a line
reaches the lines from there on, up to the first that writes the name. A name is live
where its value reaches a read, or the end of the program as an output, and its next
uses are the reads that its value reaches. Both hold whatever sets of names the lines
carry, and are proved from the last line backwards, as the analyses go.
-/

namespace ThreeAddress.Machine

/-- The line at an index reads a name. Behind the last line nothing is read. -/
def ReadsAt (lines : List Line) (index : Nat) (name : String) : Prop :=
  ∃ line ∈ lines[index]?, name ∈ line.refs

def WritesAt (lines : List Line) (index : Nat) (name : String) : Prop :=
  ∃ line ∈ lines[index]?, name ∈ line.defs

/-- A name has one value before the lines at `start` and `stop`: no line writes it from
the first of them on and before the second. -/
def KeptBetween (lines : List Line) (name : String) (start stop : Nat) : Prop :=
  ∀ index < stop, start ≤ index → ¬ WritesAt lines index name

/-- The line at `index` reads the value that a name has before the line at `start`. -/
def ReachesRead (lines : List Line) (name : String) (start index : Nat) : Prop :=
  start ≤ index ∧ ReadsAt lines index name ∧ KeptBetween lines name start index

/-- The value that a name has before the line at `start` is read, or is an output that
no line replaces. -/
def Wanted (outputs : NameSet) (lines : List Line) (start : Nat) (name : String) : Prop :=
  (∃ index < lines.length, ReachesRead lines name start index) ∨
    (name ∈ outputs ∧ KeptBetween lines name start lines.length)

section Decidability

variable (outputs : NameSet) (lines : List Line) (name : String) (start index : Nat)

instance : Decidable (ReadsAt lines index name) :=
  inferInstanceAs (Decidable (∃ line ∈ lines[index]?, name ∈ line.refs))

instance : Decidable (WritesAt lines index name) :=
  inferInstanceAs (Decidable (∃ line ∈ lines[index]?, name ∈ line.defs))

instance : Decidable (KeptBetween lines name start index) :=
  inferInstanceAs (Decidable (∀ between < index, start ≤ between → ¬ WritesAt lines between name))

instance : Decidable (ReachesRead lines name start index) :=
  inferInstanceAs (Decidable (_ ∧ _))

instance : Decidable (Wanted outputs lines start name) :=
  inferInstanceAs (Decidable (_ ∨ _))

end Decidability

variable {outputs : NameSet} {lines : List Line} {name : String} {start stop index : Nat}

theorem readsAt_iff (h : index < lines.length) :
    ReadsAt lines index name ↔ name ∈ lines[index].refs := by
  simp [ReadsAt, h]

theorem writesAt_iff (h : index < lines.length) :
    WritesAt lines index name ↔ name ∈ lines[index].defs := by
  simp [WritesAt, h]

theorem ReadsAt.lt_length (h : ReadsAt lines index name) : index < lines.length := by
  obtain ⟨line, hline, _⟩ := h
  exact (List.getElem?_eq_some_iff.mp hline).1

theorem keptBetween_self : KeptBetween lines name start start := by
  intro index hlt hle
  omega

theorem keptBetween_iff (h : start < stop) :
    KeptBetween lines name start stop ↔
      ¬ WritesAt lines start name ∧ KeptBetween lines name (start + 1) stop := by
  constructor
  · intro hkept
    exact ⟨hkept start h (Nat.le_refl start), fun index hlt hle => hkept index hlt (by omega)⟩
  · rintro ⟨hfirst, hrest⟩ index hlt hle
    by_cases heq : index = start
    · rw [heq]
      exact hfirst
    · apply hrest index hlt
      omega

/-- A value reaches a read by its own line, or passes that line. -/
theorem reachesRead_iff :
    ReachesRead lines name start index ↔
      (ReadsAt lines start name ∧ index = start) ∨
        (¬ WritesAt lines start name ∧ ReachesRead lines name (start + 1) index) := by
  constructor
  · rintro ⟨hle, hreads, hkept⟩
    by_cases heq : index = start
    · subst heq
      exact .inl ⟨hreads, rfl⟩
    · have hlt : start < index := by omega
      obtain ⟨hfirst, hrest⟩ := (keptBetween_iff hlt).mp hkept
      exact .inr ⟨hfirst, hlt, hreads, hrest⟩
  · rintro (⟨hreads, rfl⟩ | ⟨hfirst, hlt, hreads, hrest⟩)
    · exact ⟨Nat.le_refl _, hreads, keptBetween_self⟩
    · exact ⟨by omega, hreads, (keptBetween_iff hlt).mpr ⟨hfirst, hrest⟩⟩

theorem not_reachesRead_of_length_le (h : lines.length ≤ start) :
    ¬ ReachesRead lines name start index := by
  rintro ⟨hle, hreads, _⟩
  have hlt := hreads.lt_length
  omega

/-- A name is wanted before a line that reads it, and before one that does not write
it if it is wanted behind. -/
theorem wanted_iff (hstart : start < lines.length) :
    Wanted outputs lines start name ↔
      ReadsAt lines start name ∨
        (Wanted outputs lines (start + 1) name ∧ ¬ WritesAt lines start name) := by
  constructor
  · rintro (⟨index, hlt, hread⟩ | ⟨houtput, hkept⟩)
    · rcases reachesRead_iff.mp hread with ⟨hreads, rfl⟩ | ⟨hfirst, hlater⟩
      · exact .inl hreads
      · exact .inr ⟨.inl ⟨index, hlt, hlater⟩, hfirst⟩
    · obtain ⟨hfirst, hrest⟩ := (keptBetween_iff hstart).mp hkept
      exact .inr ⟨.inr ⟨houtput, hrest⟩, hfirst⟩
  · rintro (hreads | ⟨⟨index, hlt, hread⟩ | ⟨houtput, hrest⟩, hfirst⟩)
    · exact .inl ⟨start, hstart, reachesRead_iff.mpr (.inl ⟨hreads, rfl⟩)⟩
    · exact .inl ⟨index, hlt, reachesRead_iff.mpr (.inr ⟨hfirst, hread⟩)⟩
    · exact .inr ⟨houtput, (keptBetween_iff hstart).mpr ⟨hfirst, hrest⟩⟩

theorem wanted_length : Wanted outputs lines lines.length name ↔ name ∈ outputs := by
  constructor
  · rintro (⟨index, _, hread⟩ | ⟨houtput, _⟩)
    · exact absurd hread (not_reachesRead_of_length_le (Nat.le_refl _))
    · exact houtput
  · intro houtput
    exact .inr ⟨houtput, keptBetween_self⟩

/-- The live names before a line are the wanted ones. -/
theorem mem_liveAt_drop (hstart : start ≤ lines.length) :
    name ∈ liveAt outputs (lines.drop start) ↔ Wanted outputs lines start name := by
  -- the analysis starts behind the last line, with the outputs
  induction hstart using Nat.decreasingInduction with
  | self =>
    rw [List.drop_length, wanted_length]
    exact Iff.rfl
  | of_succ start hstart ih =>
    rw [List.drop_eq_getElem_cons hstart, liveAt_cons, Line.mem_liveBefore, ih,
      wanted_iff hstart, readsAt_iff hstart, writesAt_iff hstart]

/-- The next uses before a line are the reads that a value reaches from there. -/
theorem mem_uses_nextAt_drop (hstart : start ≤ lines.length) :
    index ∈ (nextAt start (lines.drop start)).uses name ↔ ReachesRead lines name start index := by
  induction hstart using Nat.decreasingInduction with
  | self =>
    rw [List.drop_length]
    simpa [nextAt] using not_reachesRead_of_length_le (Nat.le_refl lines.length)
  | of_succ start hstart ih =>
    rw [List.drop_eq_getElem_cons hstart, mem_uses_nextAt_cons, reachesRead_iff, ← ih,
      readsAt_iff hstart, writesAt_iff hstart]

theorem uses_nextAt_increasing (index : Nat) (lines : List Line) (name : String) :
    ((nextAt index lines).uses name).Pairwise (· < ·) := by
  induction lines generalizing index with
  | nil => simp [nextAt]
  | cons line rest ih =>
    rw [nextAt, Line.uses_nextBefore, List.pairwise_append]
    refine ⟨?_, ?_, ?_⟩
    · split <;> simp
    · split
      · exact List.Pairwise.nil
      · exact ih (index + 1)
    · intro own hown later hlater
      have howned := List.mem_singleton.mp (List.mem_ite_nil_right.mp hown).2
      have hle := le_of_mem_uses_nextAt (List.mem_ite_nil_left.mp hlater).2
      omega

namespace NextUse

/-- Every name that is kept has a use. -/
def Tight (next : NextUse) : Prop :=
  ∀ name ∈ next.byName, next.uses name ≠ []

theorem tight_empty : empty.Tight := by
  simp [Tight, empty]

theorem Tight.forget {next : NextUse} (h : next.Tight) (names : NameSet) :
    (next.forget names).Tight := by
  intro name hname
  obtain ⟨hmem, hkept⟩ := Std.ExtTreeMap.mem_filter.mp hname
  have hunwritten : name ∉ names := by simpa using hkept
  rw [uses_forget, if_neg hunwritten]
  exact h name hmem

theorem Tight.prepend {next : NextUse} (h : next.Tight) (index : Nat) (written : String) :
    (next.prepend index written).Tight := by
  intro name hname
  rw [uses_prepend]
  split
  next => exact List.cons_ne_nil _ _
  next hne =>
    rcases Std.ExtTreeMap.mem_insert.mp hname with heq | hmem
    · exact absurd (Std.LawfulEqCmp.eq_of_compare heq).symm hne
    · exact h name hmem

theorem Tight.foldl_prepend {next : NextUse} (h : next.Tight) (names : List String)
    (index : Nat) : (names.foldl (·.prepend index) next).Tight := by
  induction names generalizing next with
  | nil => exact h
  | cons name names ih => exact ih (h.prepend index name)

/-- So nothing is kept exactly if no name has a use. -/
theorem Tight.isEmpty_iff {next : NextUse} (h : next.Tight) :
    next.isEmpty ↔ ∀ name, next.uses name = [] := by
  rw [isEmpty, Std.ExtTreeMap.isEmpty_iff]
  constructor
  · intro hempty name
    simp [uses, hempty]
  · intro hnone
    apply Std.ExtTreeMap.eq_empty_iff_forall_not_mem.mpr
    intro name hmem
    exact h name hmem (hnone name)

/-- What is known before the line at `start`: for every name the lines that read the
value it has there, in order, and which of them is the first. -/
structure Records (next : NextUse) (lines : List Line) (start : Nat) : Prop where
  mem_uses : ∀ name index, index ∈ next.uses name ↔ ReachesRead lines name start index
  increasing : ∀ name, (next.uses name).Pairwise (· < ·)
  first_eq : ∀ name, next.first? name = (next.uses name).min?
  isEmpty_iff : next.isEmpty ↔ ∀ name, next.uses name = []

end NextUse

theorem Line.tight_nextBefore (line : Line) (index : Nat) {after : NextUse} (h : after.Tight) :
    (line.nextBefore index after).Tight :=
  (h.forget line.defs).foldl_prepend line.refs.toList index

theorem tight_nextAt (index : Nat) (lines : List Line) : (nextAt index lines).Tight := by
  induction lines generalizing index with
  | nil => exact NextUse.tight_empty
  | cons line rest ih => exact line.tight_nextBefore index (ih (index + 1))

/-- The first of some increasing numbers is the least. -/
theorem head?_eq_min? {numbers : List Nat} (h : numbers.Pairwise (· < ·)) :
    numbers.head? = numbers.min? := by
  cases numbers with
  | nil => rfl
  | cons first rest =>
    have hleast : ∀ other ∈ first :: rest, first ≤ other := by
      intro other hother
      rcases List.mem_cons.mp hother with rfl | hrest
      · exact Nat.le_refl _
      · exact Nat.le_of_lt (List.rel_of_pairwise_cons h hrest)
    exact (List.min?_eq_some_iff.mpr ⟨List.mem_cons_self, hleast⟩).symm

theorem records_nextAt_drop (hstart : start ≤ lines.length) :
    (nextAt start (lines.drop start)).Records lines start where
  mem_uses _ _ := mem_uses_nextAt_drop hstart
  increasing name := uses_nextAt_increasing start (lines.drop start) name
  first_eq name := head?_eq_min? (uses_nextAt_increasing start (lines.drop start) name)
  isEmpty_iff := (tight_nextAt start (lines.drop start)).isEmpty_iff

/-- Around every line exactly the names are live whose value is read later before it is
written, or is an output in the end. -/
theorem liveness_exact (outputs : NameSet) {lines : List Line} {index : Nat}
    (hindex : index < lines.length) :
    ∃ span, (liveness outputs lines)[index]? = some span ∧
      ∀ name, (name ∈ span.before ↔ Wanted outputs lines index name) ∧
        (name ∈ span.after ↔ Wanted outputs lines (index + 1) name) := by
  refine ⟨_, (liveness_getElem? outputs lines index).trans (if_pos hindex), ?_⟩
  intro name
  exact ⟨mem_liveAt_drop (Nat.le_of_lt hindex), mem_liveAt_drop hindex⟩

/-- The second line reads what it writes. The third declares other names than it has. -/
def rewriting : List Line :=
  [.new .add "a" (.var "b") (.var "c"), .new .mul "a" (.var "a") (.imm 2),
    { Line.copy "d" (.var "a") with refs := .ofList ["a", "e"], defs := .ofList ["b", "d"] }]

-- Of the outputs only `b` is not live there, since the third line replaces it.
theorem liveness_exact_rewriting :
    1 < rewriting.length ∧ ¬ Wanted (.ofList ["a", "b", "c"]) rewriting 1 "b" ∧
    ∃ span, (liveness (.ofList ["a", "b", "c"]) rewriting)[1]? = some span ∧
      span.before.toList = ["a", "c", "e"] ∧
      ∀ name, (name ∈ span.before ↔ Wanted (.ofList ["a", "b", "c"]) rewriting 1 name) ∧
        (name ∈ span.after ↔ Wanted (.ofList ["a", "b", "c"]) rewriting 2 name) := by
  have hlive : (liveness (.ofList ["a", "b", "c"]) rewriting)[1]?.map (·.before.toList) =
      some ["a", "c", "e"] := by
    decide +kernel
  obtain ⟨span, hspan, hexact⟩ :=
    @liveness_exact (.ofList ["a", "b", "c"]) rewriting 1 (by decide)
  rw [hspan] at hlive
  exact ⟨by decide, by decide +kernel, span, hspan, Option.some.inj hlive, hexact⟩

/-- Around every line the uses of a name are exactly the reads that its value reaches,
in order. -/
theorem nextUses_exact {lines : List Line} {index : Nat} (hindex : index < lines.length) :
    ∃ span, (nextUses lines)[index]? = some span ∧
      span.before.Records lines index ∧ span.after.Records lines (index + 1) := by
  have hspan := (nextUsesFrom_getElem? 0 lines index).trans (if_pos hindex)
  rw [Nat.zero_add] at hspan
  exact ⟨_, hspan, records_nextAt_drop (Nat.le_of_lt hindex), records_nextAt_drop hindex⟩

theorem nextUses_exact_rewriting :
    1 < rewriting.length ∧
    ∃ span, (nextUses rewriting)[1]? = some span ∧
      span.before.uses "a" = [1] ∧ span.after.uses "a" = [2] ∧
      span.before.Records rewriting 1 ∧ span.after.Records rewriting 2 := by
  have huses : (nextUses rewriting)[1]?.map
      (fun span => (span.before.uses "a", span.after.uses "a")) = some ([1], [2]) := by
    decide +kernel
  obtain ⟨span, hspan, hbefore, hafter⟩ := @nextUses_exact rewriting 1 (by decide)
  rw [hspan] at huses
  obtain ⟨hfirst, hsecond⟩ := Prod.mk.inj (Option.some.inj huses)
  exact ⟨by decide, span, hspan, hfirst, hsecond, hbefore, hafter⟩

end ThreeAddress.Machine
