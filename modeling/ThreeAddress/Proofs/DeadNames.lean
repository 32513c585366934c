import ThreeAddress.Proofs.AllocationCorrect

/-!
Dead names make no difference. Whether lines complete, and what they leave in the
outputs, depends only on the names that are live before them, whatever the operations
mean. This is why the value of a register may be dropped when its name is dead. None
of the live names is there in vain: under some meaning of the operations its value
does make a difference.
-/

namespace ThreeAddress.Machine

def Memory.AgreeOn (names : NameSet) (one other : Memory) : Prop :=
  ∀ name ∈ names, one name = other name

/-- The values of some names determine whether lines complete, and what the outputs are
if they do. -/
def Determines (names outputs : NameSet) (lines : List Line) : Prop :=
  ∀ (arithmetic : Arithmetic) (one other : Memory), Memory.AgreeOn names one other →
    Option.Rel (Memory.AgreeOn outputs) (runLines arithmetic one lines)
      (runLines arithmetic other lines)

/-- Names that determine this, of which none can be left out. -/
structure LeastDetermining (names outputs : NameSet) (lines : List Line) : Prop where
  determines : Determines names outputs lines
  least : ∀ others, Determines others outputs lines → ∀ name ∈ names, name ∈ others

variable {arithmetic : Arithmetic} {outputs after : NameSet} {line : Line} {lines : List Line}
  {one other : Memory} {name : String}

theorem Operand.eval_congr {operand : Operand}
    (h : ∀ name, operand = .var name → one name = other name) :
    operand.eval one = operand.eval other := by
  cases operand with
  | imm value => rfl
  | var name => exact h name rfl

theorem Memory.agreeOn_set {names : NameSet} {written : String}
    (h : ∀ name ∈ names, name ≠ written → one name = other name) (value : Int) :
    AgreeOn names (one.set written value) (other.set written value) := by
  intro name hname
  by_cases hwritten : name = written
  · simp [Memory.set, hwritten]
  · simpa [Memory.set, hwritten] using h name hname hwritten

/-- A line takes memories that agree on what is live before it to memories that agree
on what is live behind it, and completes on both or on neither. -/
theorem Line.IsBuilt.rel_run (h : line.IsBuilt)
    (hagree : Memory.AgreeOn (line.liveBefore after) one other) :
    Option.Rel (Memory.AgreeOn after) (line.run arithmetic one) (line.run arithmetic other) := by
  have hrefs : ∀ name ∈ line.refs, one name = other name := by
    intro name hname
    apply hagree
    exact (line.mem_liveBefore after name).mpr (.inl hname)
  have hleft : line.left.eval one = line.left.eval other :=
    Operand.eval_congr fun name hname => hrefs name (h.mem_refs.mpr (.inl hname))
  have hright : line.right.eval one = line.right.eval other :=
    Operand.eval_congr fun name hname => hrefs name (h.mem_refs.mpr (.inr hname))
  rw [Line.run, Line.run, hleft, hright]
  cases arithmetic line.op (line.left.eval other) (line.right.eval other) with
  | none => exact .none
  | some value =>
    apply Option.Rel.some
    apply Memory.agreeOn_set
    intro name hname hne
    apply hagree
    rw [Line.mem_liveBefore, h.mem_defs]
    exact .inr ⟨hname, hne.symm⟩

theorem determines_liveAt (hlines : ∀ line ∈ lines, line.IsBuilt) (outputs : NameSet) :
    Determines (liveAt outputs lines) outputs lines := by
  intro arithmetic
  induction lines with
  | nil =>
    intro one other hagree
    exact .some hagree
  | cons line rest ih =>
    intro one other hagree
    obtain ⟨hline, hrest⟩ := List.forall_mem_cons.mp hlines
    exact rel_bind (hline.rel_run hagree) fun next further => ih hrest next further

/-- A value that no constant of a line has. -/
def poison : Int := UInt64.size

/-- Operations that have no result for poison and are zero otherwise. -/
def poisonStops : Arithmetic :=
  fun _ left right => if left = poison ∨ right = poison then none else some 0

/-- A memory with poison in one place. -/
def poisoned (name : String) : Memory :=
  Memory.set (fun _ => 0) name poison

theorem Operand.eval_eq_poison {operand : Operand} {memory : Memory} :
    operand.eval memory = poison ↔ ∃ name, operand = .var name ∧ memory name = poison := by
  cases operand with
  | imm value =>
    have hlt := value.toInt_lt
    simp only [Operand.eval, poison, UInt64.size, reduceCtorEq, false_and, exists_false, iff_false]
    omega
  | var name => simp [Operand.eval]

/-- A line completes exactly if it reads no poison, and leaves a zero. -/
theorem Line.IsBuilt.run_poisonStops (h : line.IsBuilt) {memory next : Memory} :
    line.run poisonStops memory = some next ↔
      (∀ name ∈ line.refs, memory name ≠ poison) ∧ memory.set line.dst 0 = next := by
  have hread : (line.left.eval memory = poison ∨ line.right.eval memory = poison) ↔
      ¬ ∀ name ∈ line.refs, memory name ≠ poison := by
    simp only [Operand.eval_eq_poison, h.mem_refs]
    grind
  by_cases hpoison : line.left.eval memory = poison ∨ line.right.eval memory = poison
  · simp [Line.run, poisonStops, hpoison, hread.mp hpoison]
  · have hclean := not_not.mp (mt hread.mpr hpoison)
    rw [and_iff_right hclean]
    simp [Line.run, poisonStops, hpoison]

theorem runLines_zero (hlines : ∀ line ∈ lines, line.IsBuilt) :
    runLines poisonStops (fun _ => 0) lines = some fun _ => 0 := by
  induction lines with
  | nil => rfl
  | cons line rest ih =>
    obtain ⟨hline, hrest⟩ := List.forall_mem_cons.mp hlines
    have hclean : ∀ name ∈ line.refs, (0 : Int) ≠ poison := by
      intro _ _ hpoison
      cases hpoison
    have hsame : Memory.set (fun _ => 0) line.dst 0 = fun _ => 0 := by
      funext other
      exact ite_self 0
    rw [runLines, List.foldlM_cons, hline.run_poisonStops.mpr ⟨hclean, hsame⟩]
    exact ih hrest

/-- If lines complete with poison in a live name, it is in an output in the end. -/
theorem exists_poisoned_output (hlines : ∀ line ∈ lines, line.IsBuilt)
    (hname : name ∈ liveAt outputs lines) {last : Memory}
    (hrun : runLines poisonStops (poisoned name) lines = some last) :
    ∃ output ∈ outputs, last output = poison := by
  induction lines with
  | nil =>
    obtain rfl : poisoned name = last := Option.some.inj hrun
    exact ⟨name, hname, if_pos rfl⟩
  | cons line rest ih =>
    obtain ⟨hline, hrest⟩ := List.forall_mem_cons.mp hlines
    obtain ⟨between, hfirst, hlast⟩ := Option.bind_eq_some_iff.mp hrun
    obtain ⟨hclean, hbetween⟩ := hline.run_poisonStops.mp hfirst
    have hunread : name ∉ line.refs := fun hmem => hclean name hmem (if_pos rfl)
    rw [liveAt_cons, Line.mem_liveBefore, hline.mem_defs] at hname
    obtain ⟨hlater, hne⟩ := hname.resolve_left hunread
    -- the line puts a zero where one was already
    have hsame : (poisoned name).set line.dst 0 = poisoned name := by
      funext other
      simp only [Memory.set, poisoned]
      split
      next heq => rw [heq, if_neg hne]
      next => rfl
    rw [hsame] at hbetween
    subst hbetween
    exact ih hrest hlater hlast

/-- Without a live name the others do not determine the outputs. -/
theorem mem_of_determines (hlines : ∀ line ∈ lines, line.IsBuilt)
    (hname : name ∈ liveAt outputs lines) {names : NameSet}
    (hnames : Determines names outputs lines) : name ∈ names := by
  by_contra hmissing
  -- then a memory of zeros and the poisoned one should make no difference
  have hagree : Memory.AgreeOn names (fun _ => 0) (poisoned name) := by
    intro other hother
    have hne : other ≠ name := by
      rintro rfl
      exact hmissing hother
    simp [poisoned, Memory.set, hne]
  have hrel := hnames poisonStops _ _ hagree
  rw [runLines_zero hlines] at hrel
  generalize hlast : runLines poisonStops (poisoned name) lines = last at hrel
  cases hrel with
  | some hsame =>
    obtain ⟨output, houtput, hpoison⟩ := exists_poisoned_output hlines hname hlast
    have hzero : 0 = poison := (hsame output houtput).trans hpoison
    cases hzero

theorem leastDetermining_liveAt (hlines : ∀ line ∈ lines, line.IsBuilt) (outputs : NameSet) :
    LeastDetermining (liveAt outputs lines) outputs lines where
  determines := determines_liveAt hlines outputs
  least _ hothers _ hname := mem_of_determines hlines hname hothers

/-- From every line on, and behind every line, the live names are the least that
determine whether the rest completes and what the outputs are then. -/
theorem live_names_determine {lines : List Line} (hlines : ∀ line ∈ lines, line.IsBuilt)
    (outputs : NameSet) {index : Nat} (hindex : index < lines.length) :
    ∃ span, (liveness outputs lines)[index]? = some span ∧
      LeastDetermining span.before outputs (lines.drop index) ∧
      LeastDetermining span.after outputs (lines.drop (index + 1)) := by
  have hrest (start : Nat) : ∀ line ∈ lines.drop start, line.IsBuilt :=
    fun line hmem => hlines line (List.mem_of_mem_drop hmem)
  exact ⟨_, (liveness_getElem? outputs lines index).trans (if_pos hindex),
    leastDetermining_liveAt (hrest index) outputs,
    leastDetermining_liveAt (hrest (index + 1)) outputs⟩

/-- The value of `a` is dead once it is in the product, and is then replaced. -/
def replacing : List Line :=
  [.new .mul "t" (.var "a") (.var "b"), .negate "a" (.var "t"),
    .new .div "u" (.var "a") (.var "c")]

-- The division may have no result, but this is decided by `c` and not by `a`.
theorem live_names_determine_replacing :
    (∀ line ∈ replacing, line.IsBuilt) ∧ 1 < replacing.length ∧
    (∃ span, (liveness (.ofList ["u"]) replacing)[1]? = some span ∧
      LeastDetermining span.before (.ofList ["u"]) (replacing.drop 1) ∧
      LeastDetermining span.after (.ofList ["u"]) (replacing.drop 2)) ∧
    ∀ (arithmetic : Arithmetic) (one other : Memory),
      one "c" = other "c" → one "t" = other "t" →
      Option.Rel (Memory.AgreeOn (.ofList ["u"])) (runLines arithmetic one (replacing.drop 1))
        (runLines arithmetic other (replacing.drop 1)) := by
  have hlines : ∀ line ∈ replacing, line.IsBuilt := by
    simp [replacing]
  have hlive : (liveness (.ofList ["u"]) replacing)[1]?.map (·.before) =
      some (.ofList ["c", "t"]) := by
    decide +kernel
  obtain ⟨span, hspan, hbefore, hafter⟩ :=
    @live_names_determine replacing hlines (.ofList ["u"]) 1 (by decide)
  refine ⟨hlines, by decide, ⟨span, hspan, hbefore, hafter⟩, ?_⟩
  intro arithmetic one other hc ht
  rw [hspan] at hlive
  have hnames : span.before = .ofList ["c", "t"] := Option.some.inj hlive
  apply hbefore.determines
  intro name hname
  simp only [hnames, NameSet.ofList, Std.ExtTreeSet.mem_ofList, List.contains_iff_mem,
    List.mem_cons, List.not_mem_nil, or_false] at hname
  rcases hname with rfl | rfl
  · exact hc
  · exact ht

end ThreeAddress.Machine
