import ThreeAddress.Proofs.ExprCorrect

/-!
The code of a statement, construct by construct. It leaves the statement behind
its last instruction or at the label it continues at, and a break leaves it at the
exit of the innermost switch. Every construct places its parts so that these
places meet, whatever its parts are.
-/

namespace ThreeAddress

variable {arithmetic : Arithmetic} {symbols : Symbols} {code : Code} {before after : Builder}

namespace Builder

/-- Control is behind the code so far, or where the continuation says. -/
def Lands (builder : Builder) (code : Code) (continuation : Continuation) (position : Nat) : Prop :=
  position = builder.code.size ∨ builder.Goes code continuation position

/-- Where the code of a statement may leave it. -/
def Leaves (builder : Builder) (code : Code) (continuation : Continuation) : Exit → Nat → Prop
  | .normal, position => builder.Lands code continuation position
  | .broken, position =>
      ∃ exit, builder.exits.head? = some exit ∧ builder.JumpsTo code exit position

variable {builder : Builder} {continuation : Continuation} {position : Nat}

/-- Where a construct continues counts as its exit while it is open. -/
theorem Lands.exit (h : builder.Lands code continuation position) (origin : Builder) :
    builder.Lands code (.label (origin.exitLabel continuation)) position := by
  cases continuation with
  | label target => exact h
  | fall => exact .inl (h.elim id id)

theorem Leaves.exit {exit : Exit} (h : builder.Leaves code continuation exit position)
    (origin : Builder) :
    builder.Leaves code (.label (origin.exitLabel continuation)) exit position := by
  cases exit with
  | normal => exact Lands.exit h origin
  | broken => exact h

/-- A break still leaves at the same exit after more code. -/
theorem Leaves.broken_extends {other : Continuation}
    (h : before.Leaves code continuation .broken position) (hextends : before.Extends after)
    (hexits : after.exits = before.exits) : after.Leaves code other .broken position := by
  obtain ⟨exit, hexit, hjumps⟩ := h
  exact ⟨exit, by rw [hexits, hexit], hjumps.extends hextends⟩

/-- A jump to the continuation behind the code brings all normal ends together. -/
theorem Lands.slides_jump {label : Label} {place : Nat}
    (h : builder.Lands code (.label label) position)
    (hcode : (builder.emit (.jump label)).code.toList <+: code)
    (hplace : code.position? label = some place) : Slides arithmetic code position place := by
  obtain rfl | ⟨_, hposition⟩ := h
  · exact .jump (getElem?_of_emit hcode) hplace
  · obtain rfl : position = place := Option.some.inj (hposition.symm.trans hplace)
    exact .refl position

end Builder

/-- Closing a construct leads from its exit to where it continues. -/
theorem Simulates.closeExit {start : Nat} {stmt : Stmt} {builder origin : Builder}
    {continuation : Continuation} (hlabels : code.WellLabelled)
    (hcode : (builder.closeExit continuation
      (origin.exitLabel continuation)).code.toList <+: code)
    (h : Simulates arithmetic symbols code start stmt
      (builder.Leaves code (.label (origin.exitLabel continuation)))) :
    Simulates arithmetic symbols code start stmt
      ((builder.closeExit continuation (origin.exitLabel continuation)).Leaves code
        continuation) := by
  have hextends := (Builder.Extends.refl builder).closeExit continuation
    (origin.exitLabel continuation)
  apply h.then_slide
  intro exit position hleaves
  cases exit with
  | broken =>
    exact ⟨position, .refl position, hleaves.broken_extends hextends (by simp [Builder.exits])⟩
  | normal =>
    cases continuation with
    | label target => exact ⟨position, .refl position, hleaves⟩
    | fall => exact ⟨_, Builder.slides_mark hlabels hcode hleaves, .inl rfl⟩

/-- A jump to the continuation behind a statement brings its normal ends together. -/
theorem Simulates.emitJump {start : Nat} {stmt : Stmt} {exit : Label}
    (hlabels : code.WellLabelled)
    (h : Simulates arithmetic symbols code start stmt (before.Leaves code (.label exit)))
    (hextends : (before.emit (.jump exit)).Extends after) (hcode : after.code.toList <+: code)
    (hexits : after.exits = before.exits) :
    Simulates arithmetic symbols code start stmt (after.Leaves code (.label exit)) := by
  have hjump := hextends.code.trans hcode
  obtain ⟨place, hplace⟩ := hlabels.position_of_target (Builder.getElem?_of_emit hjump) rfl
  apply h.then_slide
  intro way position hleaves
  cases way with
  | broken =>
    exact ⟨position, .refl position,
      hleaves.broken_extends hextends.of_emit hexits⟩
  | normal =>
    refine ⟨place, Builder.Lands.slides_jump hleaves hjump hplace, .inr ?_⟩
    exact (Builder.jumpsTo_of_emit rfl hplace).extends hextends

section Constructs

variable {condition : Expr} {continuation : Continuation} {tested between placed head : Builder}

theorem simulates_assignNumber {target : String} {value : Expr} {source : Value}
    (hkind : symbols.lookup target = some .number ∨ symbols.lookup target = some .enumVar)
    (hvalue : value.LowersValue symbols source before after)
    (hcode : (after.emit (.assign (.named target) source)).code.toList <+: code) :
    Simulates arithmetic symbols code before.code.size (.assign target value)
      ((after.emit (.assign (.named target) source)).Leaves code continuation) := by
  have hafter := Builder.begins_of_emit hcode
  refine .assignNumber hkind ?_ (Builder.getElem?_of_emit hcode) (.inl (by simp))
  intro env store hmatch
  apply (hvalue.computes hafter hmatch).mono
  rintro result last ⟨hposition, hagrees, heval⟩
  exact ⟨hposition, by rwa [hagrees.named_eq], heval⟩

theorem simulates_assignBoolean {target : String} {value : Expr} (hlabels : code.WellLabelled)
    (hkind : symbols.lookup target = some .boolean)
    (hvalue : value.LowersCondition symbols (.falseTo (before.openExit continuation).freshLabel)
      (before.openExit continuation).afterLabel tested)
    (hplaced : placed = ((tested.emit (.assign (.named target) (.imm 1))).emit
      (.jump (before.exitLabel continuation))).mark (before.openExit continuation).freshLabel)
    (hcode : (placed.emit (.assign (.named target) (.imm 0))).code.toList <+: code) :
    Simulates arithmetic symbols code before.code.size (.assign target value)
      ((placed.emit (.assign (.named target) (.imm 0))).Leaves code
        (.label (before.exitLabel continuation))) := by
  have hmark := Builder.begins_of_emit hcode
  have hjumped : ((tested.emit (.assign (.named target) (.imm 1))).emit
      (.jump (before.exitLabel continuation))).Extends placed := by
    rw [hplaced]
    exact (Builder.Extends.refl _).mark _
  have hjump := hjumped.code.trans hmark
  have hone := Builder.begins_of_emit hjump
  have hdecides := hvalue.decides arithmetic hlabels (Builder.begins_of_emit hone)
  simp only [Builder.afterLabel_code, Builder.openExit_code] at hdecides
  refine .assignBoolean hkind hdecides ?_
  intro truth position store hgoes
  cases truth with
  | true =>
    obtain rfl : position = tested.code.size := hgoes
    have hinstr := Builder.getElem?_of_emit hjump
    obtain ⟨place, hplace⟩ := hlabels.position_of_target hinstr rfl
    refine ⟨place, .inr ?_, .step (Code.step?_assign (Builder.getElem?_of_emit hone))
      (.single (Code.step?_jump ?_ hplace))⟩
    · exact (Builder.jumpsTo_of_emit rfl hplace).extends (hjumped.emit _)
    · simpa using hinstr
  | false =>
    have hskipped := (Builder.Extends.refl tested).emit (.assign (.named target) (.imm 1))
    have hjumps := Builder.JumpsTo.extends hgoes
      (hskipped.emit (.jump (before.exitLabel continuation)))
    have hslide : Slides arithmetic code position placed.code.size := by
      rw [hplaced] at hmark ⊢
      exact Builder.slides_mark hlabels hmark (.inr hjumps)
    exact ⟨_, .inl (by simp),
      (hslide store).trans (.single (Code.step?_assign (Builder.getElem?_of_emit hcode)))⟩

theorem simulates_iteNone (hlabels : code.WellLabelled)
    (hcondition : condition.LowersCondition symbols (.falseTo (before.exitLabel continuation))
      (before.openExit continuation) after) (hcode : after.code.toList <+: code) :
    Simulates arithmetic symbols code before.code.size (.ite condition none none)
      (after.Leaves code (.label (before.exitLabel continuation))) := by
  have hdecides := hcondition.decides arithmetic hlabels hcode
  rw [Builder.openExit_code] at hdecides
  refine .ite hdecides ?_ ?_
  · intro truth position branch _ hchosen
    cases truth <;> cases hchosen
  · intro truth position hgoes _
    cases truth with
    | true => exact .inl hgoes
    | false => exact .inr hgoes

theorem simulates_iteThen {thenBranch : Stmt} (hlabels : code.WellLabelled)
    (hcondition : condition.LowersCondition symbols (.falseTo (before.exitLabel continuation))
      (before.openExit continuation) between)
    (hextends : between.Extends after)
    (hthen : Simulates arithmetic symbols code between.code.size thenBranch
      (after.Leaves code continuation)) (hcode : after.code.toList <+: code) :
    Simulates arithmetic symbols code before.code.size (.ite condition (some thenBranch) none)
      (after.Leaves code (.label (before.exitLabel continuation))) := by
  have hdecides := hcondition.decides arithmetic hlabels (hextends.code.trans hcode)
  rw [Builder.openExit_code] at hdecides
  refine .ite hdecides ?_ ?_
  · intro truth position branch hgoes hchosen
    cases truth with
    | false => cases hchosen
    | true =>
      cases hchosen
      obtain rfl : position = between.code.size := hgoes
      exact hthen.mono fun _ _ hleaves => hleaves.exit before
  · intro truth position hgoes hchosen
    cases truth with
    | true => cases hchosen
    | false => exact .inr (Builder.JumpsTo.extends hgoes hextends)

theorem simulates_iteElse {thenBranch elseBranch : Stmt} (hlabels : code.WellLabelled)
    (hcondition : condition.LowersCondition symbols
      (.falseTo (before.openExit continuation).freshLabel)
      (before.openExit continuation).afterLabel tested)
    (htested : tested.Extends between)
    (hthen : Simulates arithmetic symbols code tested.code.size thenBranch
      (between.Leaves code (.label (before.exitLabel continuation))))
    (hplaced : placed = (between.emit (.jump (before.exitLabel continuation))).mark
      (before.openExit continuation).freshLabel)
    (hextends : placed.Extends after) (hexits : after.exits = placed.exits)
    (helse : Simulates arithmetic symbols code placed.code.size elseBranch
      (after.Leaves code continuation)) (hcode : after.code.toList <+: code) :
    Simulates arithmetic symbols code before.code.size
      (.ite condition (some thenBranch) (some elseBranch))
      (after.Leaves code (.label (before.exitLabel continuation))) := by
  have hmark := hextends.code.trans hcode
  have hjumped : (between.emit (.jump (before.exitLabel continuation))).Extends placed := by
    rw [hplaced]
    exact (Builder.Extends.refl _).mark _
  have hbetween := htested.trans hjumped.of_emit
  have hdecides := hcondition.decides arithmetic hlabels (hbetween.code.trans hmark)
  simp only [Builder.afterLabel_code, Builder.openExit_code] at hdecides
  refine .ite hdecides ?_ ?_
  · intro truth position branch hgoes hchosen
    cases truth with
    | true =>
      cases hchosen
      obtain rfl : position = tested.code.size := hgoes
      apply hthen.emitJump hlabels (hjumped.trans hextends) hcode
      rw [hexits, hplaced]
      simp [Builder.exits]
    | false =>
      cases hchosen
      have hjumps := Builder.JumpsTo.extends hgoes
        (htested.emit (.jump (before.exitLabel continuation)))
      have hslide : Slides arithmetic code position placed.code.size := by
        rw [hplaced] at hmark ⊢
        exact Builder.slides_mark hlabels hmark (.inr hjumps)
      exact (helse.mono fun _ _ hleaves => hleaves.exit before).after_slide hslide
  · intro truth position _ hchosen
    cases truth <;> cases hchosen

/-- A loop around any body that ends at the head again. -/
theorem simulates_whileLoop {body : Stmt} {label exit : Label} (hlabels : code.WellLabelled)
    (hhead : head = before.emit (.label label))
    (hcondition : condition.LowersCondition symbols (.falseTo exit) (head.openExit continuation)
      tested)
    (hextends : tested.Extends after)
    (hbody : Simulates arithmetic symbols code tested.code.size body
      (after.Leaves code (.label label)))
    (hcode : (after.emit (.jump label)).code.toList <+: code) :
    Simulates arithmetic symbols code before.code.size (.whileLoop condition body)
      ((after.emit (.jump label)).Leaves code (.label exit)) := by
  have htested := hextends.code.trans (Builder.begins_of_emit hcode)
  have hstart := hcondition.extends.of_openExit.code.trans htested
  have hinstr : code[before.code.size]? = some (.label label) :=
    Builder.getElem?_of_emit (hhead ▸ hstart)
  have hplace := Code.position?_eq_some hlabels.nodup hinstr
  have hdecides := hcondition.decides arithmetic hlabels htested
  rw [Builder.openExit_code, hhead, Builder.emit_code, Array.size_push] at hdecides
  have hround : ∀ position, tested.Goes code ((Targets.falseTo exit).on true) position →
      Simulates arithmetic symbols code position body (after.Leaves code (.label label)) := by
    rintro position rfl
    exact hbody
  refine .whileLoop hinstr hdecides hround ?_ ?_ ?_
  · intro position hleaves
    exact Builder.Lands.slides_jump hleaves hcode hplace
  · intro position hleaves
    exact hleaves.broken_extends ((Builder.Extends.refl after).emit _) rfl
  · intro position hgoes
    exact .inr (Builder.JumpsTo.extends hgoes (hextends.emit _))

/-- A block goes on where the label of its first statement is placed. -/
theorem simulates_blockCons {stmt : Stmt} {rest : List Stmt} {label : Label}
    (hlabels : code.WellLabelled)
    (hstmt : Simulates arithmetic symbols code before.code.size stmt
      (between.Leaves code (.label label)))
    (hextends : (between.mark label).Extends after)
    (hexits : after.exits = (between.mark label).exits)
    (hrest : Simulates arithmetic symbols code (between.mark label).code.size (.block rest)
      (after.Leaves code continuation))
    (hcode : after.code.toList <+: code) :
    Simulates arithmetic symbols code before.code.size (.block (stmt :: rest))
      (after.Leaves code continuation) := by
  refine hstmt.blockCons ?_ ?_ hrest
  · intro position hleaves
    exact Builder.slides_mark hlabels (hextends.code.trans hcode) hleaves
  · intro position hleaves
    apply hleaves.broken_extends hextends.of_mark
    rw [hexits]
    simp [Builder.exits]

/-- A counting loop: the first statement leads to the head, and every round runs
the body and then the update. -/
theorem simulates_forLoop {init update body : Stmt} {started updated : Builder}
    {label bodyEnd exit : Label} (hlabels : code.WellLabelled)
    (hinit : Simulates arithmetic symbols code before.code.size init
      (started.Leaves code (.label label)))
    (hhead : head = started.emit (.label label))
    (hcondition : condition.LowersCondition symbols (.falseTo exit) (head.openExit continuation)
      tested)
    (hbetween : tested.Extends between)
    (hbody : Simulates arithmetic symbols code tested.code.size body
      (between.Leaves code (.label bodyEnd)))
    (hupdated : (between.mark bodyEnd).Extends updated)
    (hexits : updated.exits = (between.mark bodyEnd).exits)
    (hstarted : updated.exits = started.exits)
    (hupdate : Simulates arithmetic symbols code (between.mark bodyEnd).code.size update
      (updated.Leaves code (.label label)))
    (hcode : (updated.emit (.jump label)).code.toList <+: code) :
    Simulates arithmetic symbols code before.code.size (.forLoop init condition update body)
      ((updated.emit (.jump label)).Leaves code (.label exit)) := by
  have htested := (hbetween.mark bodyEnd).trans hupdated
  have hround := simulates_blockCons hlabels hbody hupdated hexits hupdate.blockSingleton
    (Builder.begins_of_emit hcode)
  have hloop := simulates_whileLoop hlabels hhead hcondition htested hround hcode
  have hextends : (started.emit (.label label)).Extends (updated.emit (.jump label)) := by
    rw [← hhead]
    exact (hcondition.extends.of_openExit.trans htested).emit _
  have hplace : code.position? label = some started.code.size :=
    Code.position?_eq_some hlabels.nodup (Builder.getElem?_of_emit (hextends.code.trans hcode))
  refine (hinit.blockCons ?_ ?_ hloop.blockSingleton).congr fun _ _ _ => Stmt.runs_forLoop
  · rintro position (rfl | ⟨_, hposition⟩)
    · exact .refl _
    · obtain rfl : position = started.code.size := Option.some.inj (hposition.symm.trans hplace)
      exact .refl _
  · intro position hleaves
    exact hleaves.broken_extends hextends.of_emit hstarted

end Constructs

end ThreeAddress
