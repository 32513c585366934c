import ThreeAddress.Proofs.AssemblyCorrect

/-!
The registers of a line's operands. Two different variables that one line reads
are in two registers when its operation runs, and each register has the value of
its own variable, as long as there are two registers at all. A single register is
accepted for such a line too, and then the operation reads the right operand twice.
-/

namespace ThreeAddress.Machine

variable {file : RegisterFile}

theorem RegisterFile.Supplies.exists_register {name : String} {source : Source}
    (h : file.Supplies (.var name) source) :
    ∃ register, source = .reg register ∧ file.Holds register name := by
  cases source with
  | reg register => exact ⟨register, rfl, h⟩
  | imm value => exact h.elim

/-- In a file of one register there is nothing to choose. -/
theorem RegisterFile.Holds.register_eq_of_capacity_le_one {other : RegisterFile}
    {left right : Register} {x y : String} (hleft : file.Holds left x) (hfile : file.WellFormed)
    (hright : other.Holds right y) (hother : other.WellFormed)
    (hcapacity : file.capacity ≤ 1) (hsame : other.capacity = file.capacity) : left = right := by
  have hleftIndex := hleft.index_lt hfile
  have hrightIndex := hright.index_lt hother
  have hindex : left.index = right.index := by omega
  cases left
  cases right
  exact congrArg Register.mk hindex

/-- A line that reads two different variables ends with an operation on their
registers. These differ exactly if there are two registers, and then each has the
value of its variable when the operation runs. -/
theorem Line.exists_operation {line : Line} (rest : List Line) (hline : line.IsBuilt)
    (hfile : file.WellFormed) (outputs : NameSet) (index : Nat) {x y : String}
    (hleft : line.left = .var x) (hright : line.right = .var y) (hne : x ≠ y) :
    ∃ setup dst left right after,
      line.assemble ⟨liveAt outputs (line :: rest), liveAt outputs rest⟩
        ⟨nextAt index (line :: rest), nextAt (index + 1) rest⟩ file =
          .ok (setup ++ [.op line.op dst (.reg left) (.reg right)], after) ∧
      (left ≠ right ↔ 2 ≤ file.capacity) ∧
      (2 ≤ file.capacity → ∀ arithmetic assigned original state memory,
        Tracks assigned original file (liveAt outputs (line :: rest)) state memory →
        ∃ reached, runInstrs arithmetic state setup = some reached ∧
          reached.registers left = memory x ∧ reached.registers right = memory y) := by
  obtain ⟨leftSource, rightSource, loads, fetched, dst, stores, placed, hfetches, hallocates,
    hassemble⟩ := Line.exists_fetches rest hline hfile outputs index
  obtain ⟨between, hbetween, hcapacity, hleftSupplied⟩ := hfetches.left_supplied
  have hrightSupplied := hfetches.right_supplied
  rw [hleft] at hleftSupplied
  rw [hright] at hrightSupplied
  obtain ⟨left, rfl, hleftHeld⟩ := hleftSupplied.exists_register
  obtain ⟨right, rfl, hrightHeld⟩ := hrightSupplied.exists_register
  have hkept (htwo : 2 ≤ file.capacity) : fetched.Holds left x := by
    have hsupplied := hfetches.left_kept (.inl htwo)
    rwa [hleft] at hsupplied
  refine ⟨loads ++ stores, dst, left, right, placed.markDirty line.dst, ?_, ?_, ?_⟩
  · rw [hassemble]
    simp [Op.compute]
  · constructor
    · intro hdiffer
      by_contra hone
      apply hdiffer
      exact hleftHeld.register_eq_of_capacity_le_one hbetween hrightHeld hfetches.wellFormed
        (by omega) (hfetches.capacity_eq.trans hcapacity.symm)
    · rintro htwo rfl
      exact hne ((hkept htwo).name_unique hrightHeld)
  · intro htwo arithmetic assigned original state memory htracks
    have hloads := hfetches.carries arithmetic assigned htracks
    rw [runInstrs_append]
    generalize runInstrs arithmetic state loads = loaded at hloads ⊢
    cases hloads with
    | some hfetched =>
      -- the stores that make room for the destination leave all registers alone
      obtain ⟨middle, hrun, hregisters, _⟩ := hfetched.allocates hfetches.wellFormed hallocates
        fun _ => hline.mem_liveAt_of_ne
      refine ⟨middle, hrun, ?_, ?_⟩
      · rw [hregisters]
        exact (hfetched.located x).held left (hkept htwo)
      · rw [hregisters]
        exact (hfetched.located y).held right hrightHeld

/-- Every line of a program is assembled at its own step, from a register file that
the lines before it leave. With two registers that file stands for the memory of
these lines. -/
theorem exists_step_of_line {lines : List Line} (hlines : ∀ line ∈ lines, line.IsBuilt)
    (hfile : file.WellFormed) (outputs : NameSet) (index : Nat) :
    ∃ steps after, assembleFrom index file
        (lines.zip ((liveness outputs lines).zip (nextUsesFrom index lines))) = .ok (steps, after) ∧
      ∀ before line rest, lines = before ++ line :: rest →
        ∃ step reached left, steps[before.length]? = some step ∧ step.line = line ∧
          reached.WellFormed ∧ reached.capacity = file.capacity ∧
          line.assemble ⟨liveAt outputs (line :: rest), liveAt outputs rest⟩
            ⟨nextAt (index + before.length) (line :: rest),
              nextAt (index + before.length + 1) rest⟩ reached = .ok (step.instrs, left) ∧
          (2 ≤ file.capacity → ∀ arithmetic : Arithmetic,
            (∀ value, arithmetic .add 0 value = some value) →
            Carries arithmetic (fun _ => True) ((steps.take before.length).flatMap Step.instrs)
              file (liveAt outputs lines) reached (liveAt outputs (line :: rest))
              (runLines arithmetic · before)) := by
  induction lines generalizing file index with
  | nil =>
    refine ⟨[], file, rfl, ?_⟩
    intro before line rest hsplit
    simp at hsplit
  | cons first others ih =>
    obtain ⟨instrs, between, hassemble, hbetween, hcapacity, hcarries⟩ :=
      Line.exists_assemble others (hlines first List.mem_cons_self) hfile outputs index
    obtain ⟨steps, after, hothers, hsteps⟩ :=
      ih (fun line hmem => hlines line (List.mem_cons_of_mem first hmem)) hbetween (index + 1)
    refine ⟨_, after, assembleFrom_cons hassemble hothers, ?_⟩
    intro before line rest hsplit
    cases before with
    | nil =>
      obtain ⟨rfl, rfl⟩ := List.cons.inj hsplit
      exact ⟨_, file, between, rfl, rfl, hfile, rfl, hassemble,
        fun _ arithmetic _ => Carries.refl file _⟩
    | cons head before =>
      obtain ⟨rfl, rfl⟩ := List.cons.inj hsplit
      obtain ⟨step, reached, left, hstep, hline, hreached, hkept, hrun, hbefore⟩ :=
        hsteps before line rest rfl
      have hindex : index + (first :: before).length = index + 1 + before.length := by
        rw [List.length_cons]
        omega
      refine ⟨step, reached, left, hstep, hline, hreached, hkept.trans hcapacity, ?_, ?_⟩
      · rw [hindex]
        exact hrun
      · intro htwo arithmetic hzero
        have hfirst := hcarries (.inl htwo) arithmetic hzero (fun _ => True) trivial
        exact hfirst.append (hbefore (by omega) arithmetic hzero)

namespace Program

variable {program : Program} {registers : Nat}

/-- Every program is assembled with any number of registers but none. Where a line
reads two different variables, its step ends with an operation on two registers.
These differ exactly if there are two registers at all, and then each has the value
that its variable has after the lines before. -/
theorem operand_registers_ne_iff (hlines : ∀ line ∈ program.lines, line.IsBuilt)
    (hregisters : 0 < registers) :
    ∃ assembly, program.assemble registers = .ok assembly ∧
      ∀ before line rest x y, program.lines = before ++ line :: rest →
        line.left = .var x → line.right = .var y → x ≠ y →
        ∃ step setup dst left right, assembly.steps[before.length]? = some step ∧
          step.line = line ∧
          step.instrs = setup ++ [.op line.op dst (.reg left) (.reg right)] ∧
          (left ≠ right ↔ 2 ≤ registers) ∧
          (2 ≤ registers → ∀ arithmetic : Arithmetic,
            (∀ value, arithmetic .add 0 value = some value) →
            ∀ initial memory, runLines arithmetic initial.memory before = some memory →
            ∃ state, runInstrs arithmetic initial
                ((assembly.steps.take before.length).flatMap Step.instrs ++ setup) = some state ∧
              state.registers left = memory x ∧ state.registers right = memory y) := by
  have hfile := RegisterFile.wellFormed_new hregisters
  obtain ⟨steps, file, hassemble, hsteps⟩ := exists_step_of_line hlines hfile program.outputs 0
  refine ⟨⟨steps, file.flush program.outputs⟩, ?_, ?_⟩
  · simp only [assemble, RegisterFile.new_of_pos hregisters, ok_bind, annotated, nextUses,
      hassemble]
    rfl
  · intro before line rest x y hsplit hleft hright hne
    have hline : line.IsBuilt := hlines line (by simp [hsplit])
    obtain ⟨step, reached, after, hstep, hstepLine, hreached, hcapacity, hrun, hbefore⟩ :=
      hsteps before line rest hsplit
    obtain ⟨setup, dst, left, right, _, hoperation, hdiffer, hvalues⟩ :=
      Line.exists_operation rest hline hreached program.outputs (0 + before.length) hleft hright hne
    have hinstrs : step.instrs = setup ++ [.op line.op dst (.reg left) (.reg right)] :=
      congrArg Prod.fst (Except.ok.inj (hrun.symm.trans hoperation))
    rw [hcapacity] at hdiffer hvalues
    refine ⟨step, setup, dst, left, right, hstep, hstepLine, hinstrs, hdiffer, ?_⟩
    intro htwo arithmetic hzero initial memory hmemory
    have hinitial : Tracks (fun _ => True) initial.memory ⟨registers, [], ∅⟩
        (liveAt program.outputs program.lines) initial initial.memory := by
      refine ⟨?_, by simp, fun _ _ => rfl⟩
      intro name
      exact ⟨by simp [RegisterFile.Holds], fun _ _ => rfl, fun _ _ => rfl⟩
    have hrel : Option.Rel _ _ (runLines arithmetic initial.memory before) :=
      hbefore htwo arithmetic hzero hinitial
    rw [runInstrs_append]
    generalize runInstrs arithmetic initial ((steps.take before.length).flatMap Step.instrs) =
      arrived at hrel ⊢
    rw [hmemory] at hrel
    cases hrel with
    | some htracks => exact hvalues htwo arithmetic _ _ _ _ htracks

/-- Two lines that read two variables each. -/
def product : Program :=
  ⟨[.new .mul "t" (.var "a") (.var "b"), .new .min "u" (.var "c") (.var "t")], .ofList ["u"]⟩

theorem product_isBuilt : ∀ line ∈ product.lines, line.IsBuilt := by
  simp [product]

-- The second line finds `t` in a register and drives `b` out for `c`.
theorem operand_registers_ne_iff_product :
    (∀ line ∈ product.lines, line.IsBuilt) ∧ 0 < 2 ∧
    ∃ assembly, product.assemble 2 = .ok assembly ∧
      ∃ step setup dst left right, assembly.steps[1]? = some step ∧
        step.instrs = setup ++ [.op .min dst (.reg left) (.reg right)] ∧ left ≠ right ∧
        ∀ initial : State, ∃ state,
          runInstrs (fun _ x y => some (x + y)) initial
            ((assembly.steps.take 1).flatMap Step.instrs ++ setup) = some state ∧
          state.registers left = initial.memory "c" ∧
          state.registers right = initial.memory "a" + initial.memory "b" := by
  refine ⟨product_isBuilt, by decide, ?_⟩
  obtain ⟨assembly, hassembly, hoperands⟩ :=
    @operand_registers_ne_iff product 2 product_isBuilt (by decide)
  obtain ⟨step, setup, dst, left, right, hstep, _, hinstrs, hdiffer, hvalues⟩ :=
    hoperands [.new .mul "t" (.var "a") (.var "b")] _ [] "c" "t" rfl rfl rfl (by decide)
  refine ⟨assembly, hassembly, step, setup, dst, left, right, hstep, hinstrs,
    hdiffer.mpr (Nat.le_refl 2), ?_⟩
  intro initial
  exact hvalues (Nat.le_refl 2) (fun _ x y => some (x + y)) (by simp) initial _ rfl

/-- With one register the same program is accepted, and both of its operations read
one register twice. -/
theorem operands_share_register_product :
    (product.assemble 1).toOption.map Assembly.instrs =
        some [.load ⟨0⟩ "a", .load ⟨0⟩ "b", .op .mul ⟨0⟩ (.reg ⟨0⟩) (.reg ⟨0⟩),
          .store "t" ⟨0⟩, .load ⟨0⟩ "c", .load ⟨0⟩ "t", .op .min ⟨0⟩ (.reg ⟨0⟩) (.reg ⟨0⟩),
          .store "u" ⟨0⟩] ∧
      ¬ ∃ assembly, product.assemble 1 = .ok assembly ∧
        ∀ op dst left right, .op op dst (.reg left) (.reg right) ∈ assembly.instrs →
          left ≠ right := by
  have hinstrs : (product.assemble 1).toOption.map Assembly.instrs =
      some [.load ⟨0⟩ "a", .load ⟨0⟩ "b", .op .mul ⟨0⟩ (.reg ⟨0⟩) (.reg ⟨0⟩),
        .store "t" ⟨0⟩, .load ⟨0⟩ "c", .load ⟨0⟩ "t", .op .min ⟨0⟩ (.reg ⟨0⟩) (.reg ⟨0⟩),
        .store "u" ⟨0⟩] := by
    decide +kernel
  refine ⟨hinstrs, ?_⟩
  rintro ⟨assembly, hassembly, hapart⟩
  rw [hassembly] at hinstrs
  have hlist := Option.some.inj hinstrs
  exact hapart .mul ⟨0⟩ ⟨0⟩ ⟨0⟩ (by simp [hlist]) rfl

end Program

end ThreeAddress.Machine
