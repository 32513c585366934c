import ThreeAddress.Proofs.CodeRuns
import ThreeAddress.Proofs.SourceRuns

/-!
When a place in code stands for a condition or a statement. `Decides` says it of
conditions and `Simulates` of statements, in both directions: what the source
does the code does, and if the code halts the source had a run. The lemmas build
places for statements from smaller ones, one for each construct, and know nothing
of how the code was made.
-/

namespace ThreeAddress

section

variable (arithmetic : Arithmetic) (symbols : Symbols) (code : Code)

/-- Control passes from one position to another and nothing else happens. -/
def Slides (first last : Nat) : Prop :=
  ∀ store, Code.Reaches arithmetic code ⟨first, store⟩ ⟨last, store⟩

/-- Entered at `start`, the code evaluates the condition and goes where the
outcome says. -/
def Decides (start : Nat) (condition : Expr) (goes : Bool → Nat → Prop) : Prop :=
  ∀ env store, env.Matches symbols store.named →
    Code.Computes arithmetic code ⟨start, store⟩ (condition.evalCondition arithmetic symbols env)
      fun truth last => env.Matches symbols last.store.named ∧ goes truth last.position

/-- Entered at `start`, the code runs the statement and leaves where the way the
statement ends says. -/
structure Simulates (start : Nat) (stmt : Stmt) (leaves : Exit → Nat → Prop) : Prop where
  run : ∀ {before after exit store}, stmt.Runs arithmetic symbols before after exit →
    before.Matches symbols store.named →
    ∃ last, Code.Reaches arithmetic code ⟨start, store⟩ last ∧
      after.Matches symbols last.store.named ∧ leaves exit last.position
  finish : ∀ {before store}, before.Matches symbols store.named →
    Code.Halts arithmetic code ⟨start, store⟩ →
    ∃ after exit, stmt.Runs arithmetic symbols before after exit

end

variable {arithmetic : Arithmetic} {symbols : Symbols} {code : Code}

namespace Slides

theorem refl (position : Nat) : Slides arithmetic code position position :=
  fun store => .refl ⟨position, store⟩

theorem label {position : Nat} {place : Label} (h : code[position]? = some (.label place)) :
    Slides arithmetic code position (position + 1) :=
  fun _ => .single (Code.step?_label h)

theorem jump {position place : Nat} {target : Label} (h : code[position]? = some (.jump target))
    (hplace : code.position? target = some place) : Slides arithmetic code position place :=
  fun _ => .single (Code.step?_jump h hplace)

end Slides

namespace Decides

variable {start : Nat} {condition : Expr} {goes : Bool → Nat → Prop}

/-- A condition that is being tested in a run that halts has a truth value. -/
theorem finish (h : Decides arithmetic symbols code start condition goes) {env : Environment}
    {store : Store} (hmatch : env.Matches symbols store.named)
    (hhalts : Code.Halts arithmetic code ⟨start, store⟩) :
    ∃ truth last, condition.evalCondition arithmetic symbols env = some truth ∧
      Code.Reaches arithmetic code ⟨start, store⟩ last ∧
      env.Matches symbols last.store.named ∧ goes truth last.position := by
  have hcomputes := h env store hmatch
  obtain ⟨truth, htruth⟩ := hcomputes.isSome hhalts
  rw [htruth] at hcomputes
  obtain ⟨last, hreaches, hlast, hgoes⟩ := hcomputes
  exact ⟨truth, last, htruth, hreaches, hlast, hgoes⟩

theorem run (h : Decides arithmetic symbols code start condition goes) {env : Environment}
    {store : Store} {truth : Bool} (hmatch : env.Matches symbols store.named)
    (htruth : condition.evalCondition arithmetic symbols env = some truth) :
    ∃ last, Code.Reaches arithmetic code ⟨start, store⟩ last ∧
      env.Matches symbols last.store.named ∧ goes truth last.position := by
  have hcomputes := h env store hmatch
  rw [htruth] at hcomputes
  exact hcomputes

end Decides

namespace Simulates

variable {start : Nat} {stmt : Stmt} {leaves : Exit → Nat → Prop}

/-- A place from which control slides to a statement stands for it too. -/
theorem after_slide {first : Nat} (hslide : Slides arithmetic code first start)
    (h : Simulates arithmetic symbols code start stmt leaves) :
    Simulates arithmetic symbols code first stmt leaves where
  run hrun hmatch := by
    obtain ⟨last, hreaches, hlast⟩ := h.run hrun hmatch
    exact ⟨last, (hslide _).trans hreaches, hlast⟩
  finish hmatch hhalts := h.finish hmatch (hhalts.of_reaches (hslide _))

/-- Where a statement leaves, control may slide on. -/
theorem then_slide {further : Exit → Nat → Prop}
    (h : Simulates arithmetic symbols code start stmt leaves)
    (hslide : ∀ exit position, leaves exit position →
      ∃ place, Slides arithmetic code position place ∧ further exit place) :
    Simulates arithmetic symbols code start stmt further where
  run hrun hmatch := by
    obtain ⟨⟨position, store⟩, hreaches, hlast, hleaves⟩ := h.run hrun hmatch
    obtain ⟨place, hplace, hfurther⟩ := hslide _ position hleaves
    exact ⟨⟨place, store⟩, hreaches.trans (hplace store), hlast, hfurther⟩
  finish := h.finish

theorem mono {further : Exit → Nat → Prop}
    (h : Simulates arithmetic symbols code start stmt leaves)
    (hfurther : ∀ exit position, leaves exit position → further exit position) :
    Simulates arithmetic symbols code start stmt further :=
  h.then_slide fun exit position hleaves => ⟨position, .refl position, hfurther exit position hleaves⟩

/-- Two statements with the same runs are simulated by the same code. -/
theorem congr {other : Stmt} (h : Simulates arithmetic symbols code start stmt leaves)
    (hruns : ∀ before after exit, other.Runs arithmetic symbols before after exit ↔
      stmt.Runs arithmetic symbols before after exit) :
    Simulates arithmetic symbols code start other leaves where
  run hrun hmatch := h.run ((hruns _ _ _).mp hrun) hmatch
  finish hmatch hhalts := by
    obtain ⟨after, exit, hrun⟩ := h.finish hmatch hhalts
    exact ⟨after, exit, (hruns _ _ _).mpr hrun⟩

/-- A statement that does nothing needs no code. -/
theorem skip (hruns : ∀ before after exit, stmt.Runs arithmetic symbols before after exit ↔
      after = before ∧ exit = .normal) (hleaves : leaves .normal start) :
    Simulates arithmetic symbols code start stmt leaves where
  run hrun hmatch := by
    obtain ⟨rfl, rfl⟩ := (hruns _ _ _).mp hrun
    exact ⟨_, .refl _, hmatch, hleaves⟩
  finish _ _ := ⟨_, .normal, (hruns _ _ _).mpr ⟨rfl, rfl⟩⟩

theorem blockNil (hleaves : leaves .normal start) :
    Simulates arithmetic symbols code start (.block []) leaves := by
  refine skip ?_ hleaves
  intro before after exit
  constructor
  · rintro ⟨⟩
    exact ⟨rfl, rfl⟩
  · rintro ⟨rfl, rfl⟩
    exact .blockNil _

theorem breakSwitch {place : Nat} (hslide : Slides arithmetic code start place)
    (hleaves : leaves .broken place) :
    Simulates arithmetic symbols code start .breakSwitch leaves where
  run hrun hmatch := by
    cases hrun
    exact ⟨_, hslide _, hmatch, hleaves⟩
  finish _ _ := ⟨_, .broken, .breakSwitch _⟩

/-- A block: its first statement leaves where the others start, or breaks. -/
theorem blockCons {rest : List Stmt} {middle : Nat} {between : Exit → Nat → Prop}
    (hfirst : Simulates arithmetic symbols code start stmt between)
    (hnormal : ∀ position, between .normal position → Slides arithmetic code position middle)
    (hbroken : ∀ position, between .broken position → leaves .broken position)
    (hrest : Simulates arithmetic symbols code middle (.block rest) leaves) :
    Simulates arithmetic symbols code start (.block (stmt :: rest)) leaves where
  run hrun hmatch := by
    cases hrun with
    | blockCons first others =>
      obtain ⟨⟨position, store⟩, hreaches, hlast, hleaves⟩ := hfirst.run first hmatch
      obtain ⟨last, hothers, hend⟩ := hrest.run others hlast
      exact ⟨last, (hreaches.trans (hnormal position hleaves store)).trans hothers, hend⟩
    | blockBroken first =>
      obtain ⟨last, hreaches, hlast, hleaves⟩ := hfirst.run first hmatch
      exact ⟨last, hreaches, hlast, hbroken _ hleaves⟩
  finish hmatch hhalts := by
    obtain ⟨between, exit, first⟩ := hfirst.finish hmatch hhalts
    cases exit with
    | broken => exact ⟨between, .broken, .blockBroken first⟩
    | normal =>
      obtain ⟨⟨position, store⟩, hreaches, hlast, hleaves⟩ := hfirst.run first hmatch
      have hmiddle := hhalts.of_reaches (hreaches.trans (hnormal position hleaves store))
      obtain ⟨after, exit, others⟩ := hrest.finish hlast hmiddle
      exact ⟨after, exit, .blockCons first others⟩

/-- Two blocks in a row. -/
theorem blockAppend {first rest : List Stmt} {middle : Nat} {between : Exit → Nat → Prop}
    (hfirst : Simulates arithmetic symbols code start (.block first) between)
    (hnormal : ∀ position, between .normal position → Slides arithmetic code position middle)
    (hbroken : ∀ position, between .broken position → leaves .broken position)
    (hrest : Simulates arithmetic symbols code middle (.block rest) leaves) :
    Simulates arithmetic symbols code start (.block (first ++ rest)) leaves :=
  (hfirst.blockCons hnormal hbroken hrest).congr fun _ _ _ => Stmt.runs_block_append

theorem blockSingleton (h : Simulates arithmetic symbols code start stmt leaves) :
    Simulates arithmetic symbols code start (.block [stmt]) leaves :=
  h.congr fun _ _ _ => Stmt.runs_block_singleton

/-- What never ends normally need not leave normally anywhere. -/
theorem never_normal (h : Simulates arithmetic symbols code start stmt leaves)
    (hnever : ∀ before after, ¬ stmt.Runs arithmetic symbols before after .normal) :
    Simulates arithmetic symbols code start stmt
      fun exit position => exit = .broken ∧ leaves .broken position where
  run {before after exit store} hrun hmatch := by
    cases exit with
    | normal => exact absurd hrun (hnever before after)
    | broken =>
      obtain ⟨last, hreaches, hlast, hleaves⟩ := h.run hrun hmatch
      exact ⟨last, hreaches, hlast, rfl, hleaves⟩
  finish := h.finish

/-- A conditional: wherever its condition goes stands for the chosen branch. -/
theorem ite {condition : Expr} {thenBranch elseBranch : Option Stmt} {goes : Bool → Nat → Prop}
    (hcondition : Decides arithmetic symbols code start condition goes)
    (hsome : ∀ truth position branch, goes truth position →
      (if truth then thenBranch else elseBranch) = some branch →
      Simulates arithmetic symbols code position branch leaves)
    (hnone : ∀ truth position, goes truth position →
      (if truth then thenBranch else elseBranch) = none → leaves .normal position) :
    Simulates arithmetic symbols code start (.ite condition thenBranch elseBranch) leaves where
  run hrun hmatch := by
    cases hrun with
    | ite eval chosen run =>
      obtain ⟨⟨position, store⟩, hreaches, hlast, hgoes⟩ := hcondition.run hmatch eval
      obtain ⟨last, hbranch, hend⟩ := (hsome _ position _ hgoes chosen).run run hlast
      exact ⟨last, hreaches.trans hbranch, hend⟩
    | iteSkip eval chosen =>
      obtain ⟨last, hreaches, hlast, hgoes⟩ := hcondition.run hmatch eval
      exact ⟨last, hreaches, hlast, hnone _ _ hgoes chosen⟩
  finish hmatch hhalts := by
    obtain ⟨truth, ⟨position, store⟩, eval, hreaches, hlast, hgoes⟩ :=
      hcondition.finish hmatch hhalts
    cases chosen : (if truth then thenBranch else elseBranch) with
    | none => exact ⟨_, .normal, .iteSkip eval chosen⟩
    | some branch =>
      obtain ⟨after, exit, run⟩ :=
        (hsome truth position branch hgoes chosen).finish hlast (hhalts.of_reaches hreaches)
      exact ⟨after, exit, .ite eval chosen run⟩

/-- A loop: its head tests the condition, and every normal end of the body leads
back to the head. Halting is by strong induction on the number of steps, since
each round passes the mark of the head. -/
theorem whileLoop {condition : Expr} {body : Stmt} {place : Label} {goes : Bool → Nat → Prop}
    {round : Exit → Nat → Prop} (hhead : code[start]? = some (.label place))
    (hcondition : Decides arithmetic symbols code (start + 1) condition goes)
    (hbody : ∀ position, goes true position →
      Simulates arithmetic symbols code position body round)
    (hback : ∀ position, round .normal position → Slides arithmetic code position start)
    (hbroken : ∀ position, round .broken position → leaves .broken position)
    (hdone : ∀ position, goes false position → leaves .normal position) :
    Simulates arithmetic symbols code start (.whileLoop condition body) leaves where
  run {before after exit store} hrun hmatch := by
    generalize hloop : Stmt.whileLoop condition body = stmt at hrun
    induction hrun generalizing store with
    | whileDone eval =>
      cases hloop
      obtain ⟨last, hreaches, hlast, hgoes⟩ := hcondition.run hmatch eval
      exact ⟨last, (Slides.label hhead store).trans hreaches, hlast, hdone _ hgoes⟩
    | whileNext eval once again _ ih =>
      cases hloop
      obtain ⟨⟨inside, store'⟩, htest, hinside, hgoes⟩ := hcondition.run hmatch eval
      obtain ⟨⟨position, store''⟩, hround, hlast, hleaves⟩ := (hbody inside hgoes).run once hinside
      obtain ⟨last, hrest, hend⟩ := ih hlast rfl
      have hstart := (Slides.label hhead store).trans (htest.trans hround)
      exact ⟨last, (hstart.trans (hback position hleaves store'')).trans hrest, hend⟩
    | whileBroken eval once =>
      cases hloop
      obtain ⟨⟨inside, store'⟩, htest, hinside, hgoes⟩ := hcondition.run hmatch eval
      obtain ⟨last, hround, hlast, hleaves⟩ := (hbody inside hgoes).run once hinside
      exact ⟨last, (Slides.label hhead store).trans (htest.trans hround), hlast,
        hbroken _ hleaves⟩
    | declare | declareEnum | blockNil | blockCons | blockBroken | assignNumber | assignBoolean
    | ite | iteSkip | forLoop | switch | breakSwitch => cases hloop
  finish {before store} hmatch hhalts := by
    obtain ⟨steps, hsteps⟩ := hhalts
    induction steps using Nat.strongRecOn generalizing before store with
    | ind steps ih =>
      obtain ⟨fewer, hfewer, htest⟩ := hsteps.of_step (Code.step?_label hhead)
      obtain ⟨truth, ⟨inside, store'⟩, eval, hreaches, hinside, hgoes⟩ :=
        hcondition.finish hmatch ⟨fewer, htest⟩
      cases truth with
      | false => exact ⟨before, .normal, .whileDone eval⟩
      | true =>
        obtain ⟨left, hleft, hbodyHalts⟩ := htest.of_reaches hreaches
        obtain ⟨between, exit, once⟩ := (hbody inside hgoes).finish hinside ⟨left, hbodyHalts⟩
        cases exit with
        | broken => exact ⟨between, .broken, .whileBroken eval once⟩
        | normal =>
          obtain ⟨⟨position, store''⟩, hround, hlast, hleaves⟩ :=
            (hbody inside hgoes).run once hinside
          obtain ⟨again, hagain, hheadHalts⟩ :=
            hbodyHalts.of_reaches (hround.trans (hback position hleaves store''))
          obtain ⟨after, exit, rest⟩ := ih again (by omega) hlast hheadHalts
          exact ⟨after, exit, .whileNext eval once rest⟩

/-- A numeric assignment: the code computes the value and stores it. -/
theorem assignNumber {target : String} {value : Expr} {source : Value} {position : Nat}
    (hkind : symbols.lookup target = some .number ∨ symbols.lookup target = some .enumVar)
    (hvalue : ∀ env store, env.Matches symbols store.named →
      Code.Computes arithmetic code ⟨start, store⟩ (value.evalValue arithmetic symbols env)
        fun result last => last.position = position ∧ env.Matches symbols last.store.named ∧
          source.eval last.store = result)
    (hinstr : code[position]? = some (.assign (.named target) source))
    (hleaves : leaves .normal (position + 1)) :
    Simulates arithmetic symbols code start (.assign target value) leaves where
  run {before after exit store} hrun hmatch := by
    have hcomputes := hvalue before store hmatch
    cases hrun with
    | assignNumber _ eval =>
      rw [eval] at hcomputes
      obtain ⟨⟨_, store'⟩, hreaches, rfl, hlast, rfl⟩ := hcomputes
      refine ⟨_, hreaches.trans (.single (Code.step?_assign hinstr)), ?_, hleaves⟩
      rw [Store.named_set_named]
      exact hlast.setNumber _ hkind
    | assignBoolean kind _ => simp [kind] at hkind
  finish hmatch hhalts := by
    obtain ⟨result, eval⟩ := (hvalue _ _ hmatch).isSome hhalts
    exact ⟨_, .normal, .assignNumber hkind eval⟩

/-- A Boolean assignment: the code decides the condition, and stores one or zero
wherever it then is. -/
theorem assignBoolean {target : String} {value : Expr} {goes : Bool → Nat → Prop}
    (hkind : symbols.lookup target = some .boolean)
    (hvalue : Decides arithmetic symbols code start value goes)
    (hstore : ∀ truth position store, goes truth position →
      ∃ place, leaves .normal place ∧ Code.Reaches arithmetic code ⟨position, store⟩
        ⟨place, store.set (.named target) (if truth then 1 else 0)⟩) :
    Simulates arithmetic symbols code start (.assign target value) leaves where
  run hrun hmatch := by
    cases hrun with
    | assignNumber kind _ => simp [hkind] at kind
    | assignBoolean _ eval =>
      obtain ⟨⟨position, store⟩, hreaches, hlast, hgoes⟩ := hvalue.run hmatch eval
      obtain ⟨place, hleaves, hset⟩ := hstore _ position store hgoes
      refine ⟨_, hreaches.trans hset, ?_, hleaves⟩
      rw [Store.named_set_named]
      exact hlast.setBoolean _ hkind
  finish hmatch hhalts := by
    obtain ⟨truth, last, eval, _⟩ := hvalue.finish hmatch hhalts
    exact ⟨_, .normal, .assignBoolean hkind eval⟩

/-- A `switch`: the code selects the cases to run through, and wherever it then
is stands for their bodies in a row. Both ways to end them end the `switch`. -/
theorem switch {selector : Expr} {cases : List Case} {goes : List Case → Nat → Prop}
    {inner : Exit → Nat → Prop}
    (hselect : ∀ env store, env.Matches symbols store.named →
      Code.Computes arithmetic code ⟨start, store⟩
        ((selector.evalValue arithmetic symbols env).bind fun value =>
          enteredCases arithmetic symbols env value cases)
        fun entered last => env.Matches symbols last.store.named ∧ goes entered last.position)
    (hbodies : ∀ entered position, goes entered position →
      Simulates arithmetic symbols code position (.block (entered.flatMap Case.body)) inner)
    (hleaves : ∀ exit position, inner exit position → leaves .normal position) :
    Simulates arithmetic symbols code start (.switch selector cases) leaves where
  run {before after exit store} hrun hmatch := by
    have hcomputes := hselect before store hmatch
    cases hrun with
    | switch eval enter run =>
      rw [eval, Option.bind_some, enter] at hcomputes
      obtain ⟨⟨position, store'⟩, hreaches, hinside, hgoes⟩ := hcomputes
      obtain ⟨last, hbody, hlast, hinner⟩ := (hbodies _ position hgoes).run run hinside
      exact ⟨last, hreaches.trans hbody, hlast, hleaves _ _ hinner⟩
  finish {before store} hmatch hhalts := by
    have hcomputes := hselect before store hmatch
    obtain ⟨entered, hentered⟩ := hcomputes.isSome hhalts
    rw [hentered] at hcomputes
    obtain ⟨⟨position, store'⟩, hreaches, hinside, hgoes⟩ := hcomputes
    obtain ⟨value, eval, enter⟩ := Option.bind_eq_some_iff.mp hentered
    obtain ⟨after, exit, run⟩ :=
      (hbodies entered position hgoes).finish hinside (hhalts.of_reaches hreaches)
    exact ⟨after, .normal, .switch eval enter run⟩

end Simulates

end ThreeAddress
