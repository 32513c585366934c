import ThreeAddress.Proofs.HeldNames

/-!
Two ways to run through the same lines, side by side. One gives up the name that is
needed last, and the other whatever it likes, with no more registers than the
first. At every line the first has had no more loads than its rival, and for every
horizon it has as many names due by then, except for those that it makes up for by
loads it has saved. So it needs the fewest loads, and more registers never cost any.
-/

namespace ThreeAddress.Machine

variable {capacity room index horizon loads : Nat} {line : Line}
  {mayGo mayGoBehind : Finset String → String → Prop} {held after : Finset String}

namespace Line.Passes

theorem card_le (h : line.Passes capacity mayGo mayGoBehind held loads after)
    (hheld : held.card ≤ capacity) : after.card ≤ capacity := by
  cases h with
  | intro hreads hdst => exact hdst.card_le (hreads.card_le hheld)

theorem dst_mem (h : line.Passes capacity mayGo mayGoBehind held loads after) :
    line.dst ∈ after := by
  cases h with
  | intro _ hdst => exact hdst.mem

/-- What a line reads is held before it or loaded. -/
theorem card_reads_le (h : line.Passes capacity mayGo mayGoBehind held loads after)
    (hline : line.IsBuilt) (rest : List Line) (hhorizon : index ≤ horizon) :
    line.reads.toFinset.card ≤ (nextAt index (line :: rest)).dueCount horizon held + loads := by
  have hheld : (line.reads.toFinset ∩ held).card ≤
      (nextAt index (line :: rest)).dueCount horizon held := by
    apply Finset.card_le_card
    intro name hname
    obtain ⟨hread, hmem⟩ := Finset.mem_inter.mp hname
    exact Finset.mem_filter.mpr
      ⟨hmem, hline.due_nextAt_of_mem_reads (List.mem_toFinset.mp hread) hhorizon⟩
  cases h with
  | intro hreads =>
    have hmissing := hreads.missing_le
    have hparts := Finset.card_inter_add_card_sdiff line.reads.toFinset held
    omega

/-- However names are given up, at most this many are due behind a line. -/
theorem dueCount_behind_le (h : line.Passes capacity mayGo mayGoBehind held loads after)
    (hline : line.IsBuilt) (rest : List Line) (hhorizon : index ≤ horizon)
    (hheld : held.card ≤ capacity) (hcapacity : capacity ≤ room) (htwo : 2 ≤ room) :
    (nextAt (index + 1) rest).dueCount horizon after + line.reads.toFinset.card ≤
      min ((nextAt index (line :: rest)).dueCount horizon held + loads) room +
        (nextAt (index + 1) rest).dueCount horizon (insert line.dst line.reads.toFinset) := by
  have hread := h.card_reads_le hline rest hhorizon
  cases h with
  | @intro fetched _ hreads hdst hkept =>
  rcases hkept with hkept | hleft
  · have hpass := hline.dueCount_pass rest hkept hhorizon
    have hbehind : (nextAt (index + 1) rest).dueCount horizon after ≤
        (nextAt (index + 1) rest).dueCount horizon (insert line.dst fetched) :=
      NextUse.dueCount_mono hdst.subset_insert
    have hloads : (nextAt index (line :: rest)).dueCount horizon fetched ≤
        (nextAt index (line :: rest)).dueCount horizon held + loads :=
      hreads.dueCount_le fun name hname => hline.due_nextAt_of_mem_reads hname hhorizon
    have hcard : (nextAt index (line :: rest)).dueCount horizon fetched ≤ fetched.card :=
      NextUse.dueCount_le_card
    have hfetched := hreads.card_le hheld
    omega
  · have hbehind : (nextAt (index + 1) rest).dueCount horizon after ≤
        (nextAt (index + 1) rest).dueCount horizon (insert line.dst line.reads.toFinset) :=
      NextUse.dueCount_mono hleft
    have htwoReads := line.reads_card_le
    omega

section Farthest

variable {rest : List Line}

/-- With two registers, no name that a line reads is loaded if it is held. -/
theorem dueCount_add_loads_le (h : line.Passes room (nextAt index (line :: rest)).Farthest
      mayGoBehind held loads after) (hline : line.IsBuilt) (htwo : 2 ≤ room) :
    (nextAt index (line :: rest)).dueCount index held + loads ≤ line.reads.toFinset.card := by
  cases h with
  | intro hreads =>
    exact hreads.dueCount_add_loads_le (fun _ => hline.due_nextAt_iff)
      (fun _ => List.mem_toFinset.mpr) (line.reads_card_le.trans htwo)

/-- If the name that is needed last is given up, so many are due, unless all held
names but the destination are. -/
theorem le_dueCount_behind (h : line.Passes room (nextAt index (line :: rest)).Farthest
      (nextAt (index + 1) rest).Farthest held loads after) (hline : line.IsBuilt)
    (hhorizon : index ≤ horizon) (htwo : 2 ≤ room) :
    min ((nextAt index (line :: rest)).dueCount horizon held + loads) room +
        (nextAt (index + 1) rest).dueCount horizon (insert line.dst line.reads.toFinset) ≤
        (nextAt (index + 1) rest).dueCount horizon after + line.reads.toFinset.card ∨
      room ≤ (nextAt (index + 1) rest).dueCount horizon after +
        if (nextAt (index + 1) rest).due horizon line.dst then 0 else 1 := by
  cases h with
  | @intro fetched _ hreads hdst =>
    have hkept : line.reads.toFinset ⊆ fetched :=
      hreads.toFinset_subset (fun _ => hline.due_nextAt_iff)
        (fun _ => List.mem_toFinset.mpr) (line.reads_card_le.trans htwo)
    have hpass := hline.dueCount_pass rest hkept hhorizon
    have hbehind := hdst.dueCount_ge horizon
    have hloads := hreads.dueCount_ge horizon
      fun name hname => hline.due_nextAt_of_mem_reads hname hhorizon
    omega

end Farthest

end Line.Passes

/-- Giving up the name that is needed last takes no more loads than any other way to
give up names, also if the other way has fewer registers. -/
theorem LoadsIn.le_of_farthest {mayGo : NextUse → Finset String → String → Prop}
    {lines : List Line} {held rival : Finset String} {loads rivalLoads spent rivalSpent : Nat}
    (hown : LoadsIn room NextUse.Farthest index lines held loads)
    (hrival : LoadsIn capacity mayGo index lines rival rivalLoads)
    (hlines : ∀ line ∈ lines, line.IsBuilt) (hcapacity : capacity ≤ room) (htwo : 2 ≤ room)
    (hcard : rival.card ≤ capacity) (hspent : spent ≤ rivalSpent)
    (hahead : ∀ horizon, index ≤ horizon →
      (nextAt index lines).dueCount horizon rival + spent ≤
        (nextAt index lines).dueCount horizon held + rivalSpent) :
    spent + loads ≤ rivalSpent + rivalLoads := by
  induction lines generalizing index held rival loads rivalLoads spent rivalSpent with
  | nil =>
    cases hown
    cases hrival
    exact hspent
  | cons line rest ih =>
    cases hown with
    | @cons _ loads more _ _ _ after hown hrest =>
    cases hrival with
    | @cons _ rivalLoads rivalMore _ _ _ rivalAfter hrival hrivalRest =>
    obtain ⟨hline, hothers⟩ := List.forall_mem_cons.mp hlines
    -- the names due by this very line are those it reads, held or loaded on both sides
    have hsaved : spent + loads ≤ rivalSpent + rivalLoads := by
      have hdue := hahead index (Nat.le_refl index)
      have hrivalReads := hrival.card_reads_le hline rest (Nat.le_refl index)
      have hreads := hown.dueCount_add_loads_le hline htwo
      omega
    have hbehind : ∀ horizon, index + 1 ≤ horizon →
        (nextAt (index + 1) rest).dueCount horizon rivalAfter + (spent + loads) ≤
          (nextAt (index + 1) rest).dueCount horizon after + (rivalSpent + rivalLoads) := by
      intro horizon hhorizon
      have hearlier : index ≤ horizon := Nat.le_of_succ_le hhorizon
      have hdue := hahead horizon hearlier
      have hmost := hrival.dueCount_behind_le hline rest hearlier hcard hcapacity htwo
      have hshort : (nextAt (index + 1) rest).dueCount horizon rivalAfter +
          (if (nextAt (index + 1) rest).due horizon line.dst then 0 else 1) ≤ rivalAfter.card :=
        NextUse.dueCount_add_le_card hrival.dst_mem
      have hrivalCard := hrival.card_le hcard
      have hfewest := hown.le_dueCount_behind hline hearlier htwo
      omega
    have hrest := ih hrest hrivalRest hothers (hrival.card_le hcard) hsaved hbehind
    omega

end ThreeAddress.Machine
