import ThreeAddress.Proofs.StmtCorrect

/-!
Lowering preserves meaning. The bodies of a `switch` run into each other, so
their code is entered at any case and goes on from there. With that, the code of
every piece does what the piece does, and the code of a whole program ends where
the program ends.
-/

namespace ThreeAddress

variable {arithmetic : Arithmetic} {symbols : Symbols} {code : Code} {before after : Builder}

/-- Control is about to run the bodies of a `switch` from this case on: it is
behind the code so far and the case is the first, or it is at the label of the
case. -/
def Builder.Enters (builder : Builder) (code : Code) (cases : List Case) (index position : Nat) :
    Prop :=
  (index = 0 ∧ position = builder.code.size) ∨
    ∃ labels label, builder.switches.head? = some labels ∧ labels.pending[index]? = some label ∧
      index < cases.length ∧ builder.JumpsTo code label position

/-- What the code of a piece does. The bodies of a `switch` can be entered at
each case, and the ones behind it follow. -/
def Piece.Simulated (arithmetic : Arithmetic) (symbols : Symbols) (code : Code)
    (before after : Builder) : Piece → Prop
  | .stmt single continuation =>
      Simulates arithmetic symbols code before.code.size single (after.Leaves code continuation)
  | .block body continuation =>
      Simulates arithmetic symbols code before.code.size (.block body)
        (after.Leaves code continuation)
  | .cases branches exit => ∀ index position, before.Enters code branches index position →
      Simulates arithmetic symbols code position (.block ((branches.drop index).flatMap Case.body))
        (after.Leaves code (.label exit))

/-- The body of a case followed by the bodies behind it. It runs on into them
only if it may: the last case has nothing behind it, and a case that ends with a
break never comes that far. -/
theorem simulates_fallThrough {branch : Case} {rest : List Case} {exit : Label}
    {between : Builder} (hrest : Lowers symbols (.cases rest exit) between after)
    (hbody : Simulates arithmetic symbols code before.code.size (.block branch.body)
      (between.Leaves code (caseContinuation branch rest exit)))
    (hothers : Piece.Simulated arithmetic symbols code between after (.cases rest exit)) :
    Simulates arithmetic symbols code before.code.size
      (.block (branch.body ++ rest.flatMap Case.body)) (after.Leaves code (.label exit)) := by
  have hnext := hothers 0 between.code.size (.inl ⟨rfl, rfl⟩)
  have hbroken {continuation : Continuation} {position : Nat}
      (h : between.Leaves code continuation .broken position) :
      after.Leaves code (.label exit) .broken position :=
    h.broken_extends hrest.extends hrest.exits_eq
  by_cases hbreak : branch.endsWithBreak
  · refine (hbody.never_normal ?_).blockAppend ?_ ?_ hnext
    · intro env env' hrun
      exact Case.not_runs_normal hbreak hrun
    · rintro position ⟨hnormal, _⟩
      cases hnormal
    · rintro position ⟨_, hleaves⟩
      exact hbroken hleaves
  · cases rest with
    | nil =>
      cases hrest
      simpa [caseContinuation] using hbody
    | cons next others =>
      have hfall : caseContinuation branch (next :: others) exit = .fall := by
        simp [caseContinuation, hbreak]
      rw [hfall] at hbody
      refine hbody.blockAppend ?_ ?_ hnext
      · rintro position (rfl | rfl) <;> exact .refl _
      · intro position hleaves
        exact hbroken hleaves

theorem simulates_casesCons {branch : Case} {rest : List Case} {exit switchExit label : Label}
    {pending : List Label} {outer : List SwitchLabels} {placed between : Builder}
    (hlabels : code.WellLabelled)
    (hswitch : before.switches = ⟨switchExit, label :: pending⟩ :: outer)
    (hplaced : placed = { before with switches := ⟨switchExit, pending⟩ :: outer }.mark label)
    (hbody : Lowers symbols (.block branch.body (caseContinuation branch rest exit))
      placed between)
    (hrest : Lowers symbols (.cases rest exit) between after)
    (hsimulated : Piece.Simulated arithmetic symbols code placed between
      (.block branch.body (caseContinuation branch rest exit)))
    (hothers : Piece.Simulated arithmetic symbols code between after (.cases rest exit))
    (hcode : after.code.toList <+: code) :
    Piece.Simulated arithmetic symbols code before after (.cases (branch :: rest) exit) := by
  have hmark := (hbody.extends.trans hrest.extends).code.trans hcode
  have hextends : before.Extends between := by
    rw [hplaced] at hbody
    exact (((Builder.Extends.refl before).withSwitches _).mark label).trans hbody.extends
  have hswitches : between.switches = ⟨switchExit, pending⟩ :: outer := by
    rw [hbody.switches_eq, hplaced]
    simp [Piece.remaining]
  intro index position henters
  cases index with
  | zero =>
    have hstart : position = before.code.size ∨ before.JumpsTo code label position := by
      obtain ⟨_, hposition⟩ | ⟨labels, first, hhead, hfirst, _, hjumps⟩ := henters
      · exact .inl hposition
      · rw [hswitch] at hhead
        cases hhead
        cases hfirst
        exact .inr hjumps
    have hslide : Slides arithmetic code position placed.code.size := by
      rw [hplaced] at hmark ⊢
      exact Builder.slides_mark hlabels hmark hstart
    exact (simulates_fallThrough hrest hsimulated hothers).after_slide hslide
  | succ index =>
    obtain ⟨hzero, _⟩ | ⟨labels, later, hhead, hlater, hlt, hjumps⟩ := henters
    · cases hzero
    · rw [hswitch] at hhead
      cases hhead
      exact hothers index position (.inr ⟨_, later, by rw [hswitches]; rfl, hlater,
        Nat.lt_of_succ_lt_succ hlt, hjumps.extends hextends⟩)

theorem simulates_switch {selector : Expr} {cases : List Case} {continuation : Continuation}
    {value : Value} {labels : List Label} {selected tested inside : Builder}
    (hlabels : code.WellLabelled)
    (hselector : selector.LowersValue symbols value (before.openExit continuation) selected)
    (htests : LowersTests symbols value cases labels selected tested)
    (hinside : inside = (tested.emit (.jump (before.exitLabel continuation))).pushSwitch
      ⟨before.exitLabel continuation, labels⟩)
    (hbodies : Lowers symbols (.cases cases (before.exitLabel continuation)) inside after)
    (hsimulated : Piece.Simulated arithmetic symbols code inside after
      (.cases cases (before.exitLabel continuation)))
    (hcode : after.code.toList <+: code) :
    Simulates arithmetic symbols code before.code.size (.switch selector cases)
      (after.popSwitch.Leaves code (.label (before.exitLabel continuation))) := by
  have hpushed : (tested.emit (.jump (before.exitLabel continuation))).Extends inside := by
    rw [hinside]
    exact (Builder.Extends.refl _).withSwitches _
  have hjumped := hpushed.trans hbodies.extends
  have hjump := hjumped.code.trans hcode
  have htested := Builder.begins_of_emit hjump
  have hexits : after.exits.head? = some (before.exitLabel continuation) := by
    rw [hbodies.exits_eq, hinside]
    rfl
  have hselect : ∀ env store, env.Matches symbols store.named →
      Code.Computes arithmetic code ⟨before.code.size, store⟩
        ((selector.evalValue arithmetic symbols env).bind fun result =>
          enteredCases arithmetic symbols env result cases)
        fun entered last => env.Matches symbols last.store.named ∧
          tested.Selects code cases labels entered last.position := by
    intro env store hmatch
    rw [← before.openExit_code continuation]
    apply (hselector.computes (htests.extends.code.trans htested) hmatch).bind
    rintro _ ⟨_, last⟩ ⟨rfl, hlast, rfl⟩
    exact htests.computes hlabels htested hselector.value_below (by rwa [hlast.named_eq])
  have hentered : ∀ entered position, tested.Selects code cases labels entered position →
      Simulates arithmetic symbols code position (.block (entered.flatMap Case.body))
        (after.Leaves code (.label (before.exitLabel continuation))) := by
    rintro entered position (⟨rfl, rfl⟩ | ⟨index, label, hlabel, rfl, hjumps⟩)
    · have hinstr := Builder.getElem?_of_emit hjump
      obtain ⟨place, hplace⟩ := hlabels.position_of_target hinstr rfl
      refine Simulates.after_slide (.jump hinstr hplace) (.blockNil (.inr ?_))
      exact (Builder.jumpsTo_of_emit rfl hplace).extends hjumped
    · obtain ⟨hlt, _⟩ := List.getElem?_eq_some_iff.mp hlabel
      rw [htests.length_eq] at hlt
      refine hsimulated index position (.inr ⟨_, label, by rw [hinside]; rfl, hlabel, hlt, ?_⟩)
      exact hjumps.extends hpushed.of_emit
  refine .switch hselect hentered ?_
  intro way position hleaves
  cases way with
  | normal => exact hleaves
  | broken =>
    obtain ⟨exit, hexit, hjumps⟩ := hleaves
    rw [hexits] at hexit
    cases hexit
    exact .inr hjumps

/-- The code of every piece does what the piece does, inside any code that is
well labelled. -/
theorem Lowers.simulated {piece : Piece} (h : Lowers symbols piece before after)
    (arithmetic : Arithmetic) (hlabels : code.WellLabelled) (hcode : after.code.toList <+: code) :
    piece.Simulated arithmetic symbols code before after := by
  induction h with
  | declare | declareEnum =>
    refine Simulates.skip ?_ (.inl rfl)
    intro env env' exit
    constructor
    · rintro ⟨⟩
      exact ⟨rfl, rfl⟩
    · rintro ⟨rfl, rfl⟩
      constructor
  | block _ ih => exact ih hcode
  | blockNil continuation builder => exact Simulates.blockNil (.inl rfl)
  | blockLast _ ih => exact (ih hcode).blockSingleton
  | blockCons _ hrest ihstmt ihrest =>
    have hmark := hrest.extends.code.trans hcode
    exact simulates_blockCons hlabels (ihstmt (Builder.begins_of_mark hmark))
      hrest.extends hrest.exits_eq (ihrest hcode) hcode
  | assignNumber hkind hvalue => exact simulates_assignNumber hkind hvalue hcode
  | assignBoolean hkind hvalue hplaced =>
    exact Simulates.closeExit hlabels hcode (simulates_assignBoolean hlabels hkind hvalue hplaced
      (Builder.begins_of_closeExit hcode))
  | iteNone hcondition =>
    exact Simulates.closeExit hlabels hcode (simulates_iteNone hlabels hcondition
      (Builder.begins_of_closeExit hcode))
  | iteThen hcondition hthen ih =>
    have hafter := Builder.begins_of_closeExit hcode
    exact Simulates.closeExit hlabels hcode
      (simulates_iteThen hlabels hcondition hthen.extends (ih hafter) hafter)
  | iteElse hcondition hthen hplaced helse ihthen ihelse =>
    have hafter := Builder.begins_of_closeExit hcode
    have hbetween := hplaced ▸ helse.extends.code.trans hafter
    have hthenCode := Builder.begins_of_emit (Builder.begins_of_mark hbetween)
    exact Simulates.closeExit hlabels hcode (simulates_iteElse hlabels hcondition hthen.extends
      (ihthen hthenCode) hplaced helse.extends helse.exits_eq (ihelse hafter) hafter)
  | @whileLoop _ _ _ before _ _ _ hhead hcondition hbody ih =>
    have hafter := Builder.begins_of_closeExit hcode
    have hbodyCode := Builder.begins_of_emit hafter
    apply Simulates.closeExit hlabels hcode
    rw [← before.afterLabel_code]
    exact simulates_whileLoop hlabels hhead hcondition hbody.extends (ih hbodyCode) hafter
  | @forLoop _ _ _ _ _ _ started head _ between after hinit hhead hcondition hbody hupdate ihinit
      ihbody ihupdate =>
    have hafter := Builder.begins_of_closeExit hcode
    have hupdateCode := Builder.begins_of_emit hafter
    have hbodyCode := hupdate.extends.of_mark.code.trans hupdateCode
    have hround : head.Extends between := hcondition.extends.of_openExit.trans hbody.extends
    have hinitCode : started.code.toList <+: code := by
      rw [hhead] at hround
      exact hround.of_emit.code.trans hbodyCode
    have hexits : after.exits = started.exits := by
      rw [hupdate.exits_eq]
      simp [Builder.exits, hbody.switches_eq, hcondition.switches_eq, hhead, Piece.remaining]
    exact Simulates.closeExit hlabels hcode (simulates_forLoop hlabels (ihinit hinitCode) hhead
      hcondition hbody.extends (ihbody hbodyCode) hupdate.extends hupdate.exits_eq hexits
      (ihupdate hupdateCode) hafter)
  | switch _ hselector htests hinside hbodies _ ih =>
    have hafter := Builder.begins_of_closeExit hcode
    exact Simulates.closeExit hlabels hcode
      (simulates_switch hlabels hselector htests hinside hbodies (ih hafter) hafter)
  | breakSwitch hswitch =>
    have hinstr := Builder.getElem?_of_emit hcode
    obtain ⟨place, hplace⟩ := hlabels.position_of_target hinstr rfl
    refine Simulates.breakSwitch (.jump hinstr hplace) ⟨_, ?_, Builder.jumpsTo_of_emit rfl hplace⟩
    simp [Builder.exits, hswitch]
  | casesNil exit builder =>
    rintro index position (⟨rfl, rfl⟩ | ⟨_, _, _, _, hlt, _⟩)
    · exact Simulates.blockNil (.inl rfl)
    · cases hlt
  | casesCons hswitch hplaced hbody hrest ihbody ihrest =>
    exact simulates_casesCons hlabels hswitch hplaced hbody hrest
      (ihbody (hrest.extends.code.trans hcode)) (ihrest hcode) hcode

namespace Program

variable {program : Program}

/-- The code of a program does what the program does and ends behind its last
instruction. -/
theorem toCode_simulates (h : program.toCode symbols = .ok code) (arithmetic : Arithmetic) :
    Simulates arithmetic symbols code 0 (.block program.body)
      fun exit position => exit = .normal ∧ position = code.length := by
  have hlabels := toCode_wellLabelled h
  obtain ⟨after, hbody, rfl⟩ := toCode_eq_ok.mp h
  have hextends := (Builder.Extends.refl after).mark Builder.empty.freshLabel
  have hexits : after.exits = [] := by
    rw [hbody.exits_eq]
    rfl
  apply Simulates.then_slide (hbody.simulated arithmetic hlabels hextends.code)
  intro exit position hleaves
  cases exit with
  | normal => exact ⟨_, Builder.slides_mark hlabels List.prefix_rfl hleaves, rfl, by simp⟩
  | broken =>
    obtain ⟨exit, hexit, _⟩ := hleaves
    simp [hexits] at hexit

theorem Runs.code_runs {env after : Environment} {store : Store}
    (hrun : program.Runs arithmetic symbols env after) (h : program.toCode symbols = .ok code)
    (hmatch : env.Matches symbols store.named) :
    ∃ last, code.Runs arithmetic store last ∧ after.Matches symbols last.named := by
  obtain ⟨⟨position, last⟩, hreaches, hlast, _, rfl⟩ :=
    (toCode_simulates h arithmetic).run hrun hmatch
  exact ⟨last, hreaches, hlast⟩

theorem runs_of_code_runs {env : Environment} {store last : Store}
    (hrun : code.Runs arithmetic store last) (h : program.toCode symbols = .ok code)
    (hmatch : env.Matches symbols store.named) :
    ∃ after, program.Runs arithmetic symbols env after := by
  have hsimulates := toCode_simulates h arithmetic
  obtain ⟨after, exit, hbody⟩ := hsimulates.finish hmatch (Code.halts_of_reaches_end hrun)
  obtain ⟨_, _, _, hnormal, _⟩ := hsimulates.run hbody hmatch
  rw [hnormal] at hbody
  exact ⟨after, hbody⟩

/-- A program finishes exactly if its code runs to its end, and their stores then
agree again, whatever the arithmetic operators mean. -/
theorem toCode_preserves_meaning (h : program.toCode symbols = .ok code)
    (arithmetic : Arithmetic) {env : Environment} {store : Store}
    (hmatch : env.Matches symbols store.named) :
    ((∃ after, program.Runs arithmetic symbols env after) ↔
      ∃ last, code.Runs arithmetic store last) ∧
    ∀ after last, program.Runs arithmetic symbols env after → code.Runs arithmetic store last →
      after.Matches symbols last.named := by
  refine ⟨⟨?_, ?_⟩, ?_⟩
  · rintro ⟨after, hrun⟩
    obtain ⟨last, hcode, _⟩ := hrun.code_runs h hmatch
    exact ⟨last, hcode⟩
  · rintro ⟨last, hcode⟩
    exact runs_of_code_runs hcode h hmatch
  · intro after last hrun hcode
    obtain ⟨other, hother, hafter⟩ := hrun.code_runs h hmatch
    rw [hcode.end_unique hother]
    exact hafter

/-- A loop around a `switch` whose first case runs on into the second, which breaks
out of the `switch` from a loop of its own. -/
def nested : Program :=
  ⟨[.declare "i" .number, .declare "b" .boolean,
    .forLoop (.assign "i" (.int 0)) (.compare .lt (.ident "i") (.int 3))
      (.assign "i" (.arith .add (.ident "i") (.int 1)))
      (.switch (.ident "i")
        [⟨.int 0, [.assign "b" (.and (.bool true) (.compare .eq (.ident "i") (.int 0)))]⟩,
          ⟨.int 1, [.whileLoop (.ident "b") .breakSwitch]⟩,
          ⟨.int 2, []⟩])]⟩

theorem toCode_preserves_meaning_nested : ∃ code,
    nested.toCode (.ofProgram nested) = .ok code ∧
    Environment.Matches (.ofProgram nested) ⟨fun _ => 0, fun _ => false⟩ (Store.named fun _ => 0) ∧
    ∀ arithmetic : Arithmetic,
      ((∃ after, nested.Runs arithmetic (.ofProgram nested) ⟨fun _ => 0, fun _ => false⟩ after) ↔
        ∃ last, code.Runs arithmetic (fun _ => 0) last) ∧
      ∀ after last,
        nested.Runs arithmetic (.ofProgram nested) ⟨fun _ => 0, fun _ => false⟩ after →
        code.Runs arithmetic (fun _ => 0) last → after.Matches (.ofProgram nested) last.named := by
  have hmatch : Environment.Matches (.ofProgram nested) ⟨fun _ => 0, fun _ => false⟩
      (Store.named fun _ => 0) := by
    intro name value hcell
    unfold Environment.cell? at hcell
    split at hcell <;> simp_all [Store.named]
  have hcode : (nested.toCode (.ofProgram nested)).isOk := by decide +kernel
  cases h : nested.toCode (.ofProgram nested) with
  | error e => simp [h, Except.isOk, Except.toBool] at hcode
  | ok code =>
    exact ⟨code, rfl, hmatch, fun arithmetic => toCode_preserves_meaning h arithmetic hmatch⟩

end Program

end ThreeAddress
