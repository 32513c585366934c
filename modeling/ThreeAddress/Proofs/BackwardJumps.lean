import ThreeAddress.Proofs.ExprCorrect
import ThreeAddress.Proofs.ForwardRuns
import ThreeAddress.Proofs.InstructionCounts

/-!
Only loops jump backwards. Every label but the head of a loop is placed behind all
jumps to it, so a jump to a label that stands in front of it goes to the head of a
loop, and it was written for that loop or for a statement inside of it. Without loops
every jump goes forward, and then a run passes each instruction at most once and comes
to the end of the code, unless an operation has no result.
-/

namespace ThreeAddress

/-- The label is marked behind the position. -/
def Code.MarksBehind (code : Code) (position : Nat) (label : Label) : Prop :=
  ∃ place, position < place ∧ code[place]? = some (.label label)

/-- A statement that goes round. -/
def Stmt.isLoop : Stmt → Bool
  | .whileLoop .. | .forLoop .. => true
  | _ => false

/-- The head of a loop is the first label that the loop is handed. -/
def Stmt.head? (stmt : Stmt) (start : Builder) : Option Label :=
  if stmt.isLoop then some start.freshLabel else none

/-- One lowering was done as a part of another. -/
inductive Lowers.PartOf {symbols : Symbols} {part : Piece} {start stop : Builder}
    (hpart : Lowers symbols part start stop) :
    {whole : Piece} → {before after : Builder} → Lowers symbols whole before after → Prop
  | self : PartOf hpart hpart
  | block {hbody} (h : PartOf hpart hbody) : PartOf hpart (.block hbody)
  | thenOnly (hcondition : _) {hthen} (h : PartOf hpart hthen) :
      PartOf hpart (.iteThen hcondition hthen)
  | thenBranch (hcondition : _) {hthen} (hplaced : _) (helse : _) (h : PartOf hpart hthen) :
      PartOf hpart (.iteElse hcondition hthen hplaced helse)
  | elseBranch (hcondition : _) (hthen : _) (hplaced : _) {helse} (h : PartOf hpart helse) :
      PartOf hpart (.iteElse hcondition hthen hplaced helse)
  | whileBody (hhead : _) (hcondition : _) {hbody} (h : PartOf hpart hbody) :
      PartOf hpart (.whileLoop hhead hcondition hbody)
  | forInit {hinit} (hhead : _) (hcondition : _) (hbody : _) (hupdate : _)
      (h : PartOf hpart hinit) : PartOf hpart (.forLoop hinit hhead hcondition hbody hupdate)
  | forBody (hinit : _) (hhead : _) (hcondition : _) {hbody} (hupdate : _)
      (h : PartOf hpart hbody) : PartOf hpart (.forLoop hinit hhead hcondition hbody hupdate)
  | forUpdate (hinit : _) (hhead : _) (hcondition : _) (hbody : _) {hupdate}
      (h : PartOf hpart hupdate) : PartOf hpart (.forLoop hinit hhead hcondition hbody hupdate)
  | switchBodies (hcases : _) (hselector : _) (htests : _) (hinside : _) {hbodies}
      (hresolved : _) (h : PartOf hpart hbodies) :
      PartOf hpart (.switch hcases hselector htests hinside hbodies hresolved)
  | blockLast {hlast} (h : PartOf hpart hlast) : PartOf hpart (.blockLast hlast)
  | blockFirst {hstmt} (hrest : _) (h : PartOf hpart hstmt) : PartOf hpart (.blockCons hstmt hrest)
  | blockRest (hstmt : _) {hrest} (h : PartOf hpart hrest) : PartOf hpart (.blockCons hstmt hrest)
  | caseBody (hswitch : _) (hplaced : _) {hbody} (hrest : _) (h : PartOf hpart hbody) :
      PartOf hpart (.casesCons hswitch hplaced hbody hrest)
  | caseRest (hswitch : _) (hplaced : _) (hbody : _) {hrest} (h : PartOf hpart hrest) :
      PartOf hpart (.casesCons hswitch hplaced hbody hrest)

/-- The position is in the code of a loop with this head, which was lowered as a part. -/
def Lowers.LoopsBack {symbols : Symbols} {piece : Piece} {before after : Builder}
    (h : Lowers symbols piece before after) (position : Nat) (label : Label) : Prop :=
  ∃ (loop : Stmt) (continuation : Continuation) (start stop : Builder)
    (hloop : Lowers symbols (.stmt loop continuation) start stop), hloop.PartOf h ∧
      loop.head? start = some label ∧ start.code.size ≤ position ∧ position < stop.code.size

namespace Builder

variable {code : Code} {heads : Label → Prop} {allowed : Nat → Label → Prop}
  {before between after builder : Builder} {label : Label} {continuation : Continuation}

/-- If anything jumps to the label by now, it is marked in the finished code behind
what is there now. -/
def Ahead (builder : Builder) (code : Code) (label : Label) : Prop :=
  label.number ∈ builder.referenced →
    ∃ place, builder.code.size ≤ place ∧ code[place]? = some (.label label)

/-- Every jump that was written between two builders goes forward or is allowed. -/
def Directs (code : Code) (allowed : Nat → Label → Prop) (before after : Builder) : Prop :=
  ∀ position label, before.code.size ≤ position → position < after.code.size →
    code.CanJump position label → code.MarksBehind position label ∨ allowed position label

/-- The continuation is no label, or one that is a head or ahead. -/
def Aims (builder : Builder) (code : Code) (heads : Label → Prop) (continuation : Continuation) :
    Prop :=
  ∀ label, continuation = .label label → heads label ∨ builder.Ahead code label

/-- Every break goes to a head or ahead. -/
def AimsBreaks (builder : Builder) (code : Code) (heads : Label → Prop) (exits : List Label) :
    Prop :=
  ∀ exit ∈ exits, builder.Aims code heads (.label exit)

theorem Ahead.of_extends (h : after.Ahead code label) (hextends : before.Extends after) :
    before.Ahead code label := by
  intro hreferenced
  obtain ⟨place, hplace, hmark⟩ := h (hextends.referenced label hreferenced)
  have hsize : before.code.size ≤ after.code.size := hextends.code.length_le
  exact ⟨place, Nat.le_trans hsize hplace, hmark⟩

/-- A label that is about to be placed is ahead. -/
theorem ahead_of_mark (hcode : (builder.mark label).code.toList <+: code) :
    builder.Ahead code label := by
  intro hreferenced
  rw [mark_of_referenced hreferenced] at hcode
  exact ⟨builder.code.size, Nat.le_refl _, getElem?_of_emit hcode⟩

theorem ahead_of_emit (hcode : (builder.emit (.label label)).code.toList <+: code) :
    builder.Ahead code label :=
  fun _ => ⟨builder.code.size, Nat.le_refl _, getElem?_of_emit hcode⟩

theorem Aims.of_extends (h : after.Aims code heads continuation) (hextends : before.Extends after) :
    before.Aims code heads continuation :=
  fun label hlabel => (h label hlabel).imp_right (·.of_extends hextends)

theorem AimsBreaks.of_extends {exits : List Label} (h : after.AimsBreaks code heads exits)
    (hextends : before.Extends after) : before.AimsBreaks code heads exits :=
  fun exit hmem => (h exit hmem).of_extends hextends

theorem Aims.mono {more : Label → Prop} (h : builder.Aims code heads continuation)
    (hmore : ∀ label, heads label → more label) : builder.Aims code more continuation :=
  fun label hlabel => (h label hlabel).imp_left (hmore label)

theorem AimsBreaks.mono {exits : List Label} {more : Label → Prop}
    (h : builder.AimsBreaks code heads exits) (hmore : ∀ label, heads label → more label) :
    builder.AimsBreaks code more exits :=
  fun exit hmem => (h exit hmem).mono hmore

theorem aims_head (h : heads label) : builder.Aims code heads (.label label) := by
  rintro _ ⟨⟩
  exact .inl h

theorem aims_ahead (h : builder.Ahead code label) : builder.Aims code heads (.label label) := by
  rintro _ ⟨⟩
  exact .inr h

theorem aims_fall : builder.Aims code heads .fall := by
  rintro label ⟨⟩

/-- The exit of a construct is a head or ahead while the construct is open. -/
theorem Aims.exit {opened : Builder}
    (h : (builder.closeExit continuation (opened.exitLabel continuation)).Aims code heads continuation)
    (hcode : (builder.closeExit continuation (opened.exitLabel continuation)).code.toList <+: code) :
    builder.Aims code heads (.label (opened.exitLabel continuation)) := by
  rintro label ⟨⟩
  cases continuation with
  | label exit => exact h exit rfl
  | fall => exact .inr (ahead_of_mark hcode)

namespace Directs

theorem refl (builder : Builder) : Directs code allowed builder builder := by
  intro position label hfirst hlast
  omega

theorem trans (hfirst : Directs code allowed before between)
    (hsecond : Directs code allowed between after) : Directs code allowed before after := by
  intro position label hstart hend hjump
  by_cases hposition : position < between.code.size
  · exact hfirst position label hstart hposition hjump
  · exact hsecond position label (Nat.le_of_not_lt hposition) hend hjump

theorem mono {more : Nat → Label → Prop} (h : Directs code allowed before after)
    (hmore : ∀ position label, before.code.size ≤ position → position < after.code.size →
      allowed position label → more position label) : Directs code more before after :=
  fun position label hstart hend hjump =>
    (h position label hstart hend hjump).imp_right (hmore position label hstart hend)

theorem emit (h : Directs code allowed before after) {instr : Instr}
    (hcode : (after.emit instr).code.toList <+: code)
    (htarget : ∀ label, instr.target? = some label →
      allowed after.code.size label ∨ (after.emit instr).Ahead code label) :
    Directs code allowed before (after.emit instr) := by
  refine h.trans ?_
  intro position label hstart hend hjump
  simp only [emit_code, Array.size_push] at hend
  obtain rfl : position = after.code.size := by omega
  obtain ⟨_, hinstr, hjump⟩ := hjump
  rw [getElem?_of_emit hcode] at hinstr
  cases hinstr
  rcases htarget label hjump with hallowed | hahead
  · exact .inr hallowed
  · obtain ⟨place, hplace, hmark⟩ := hahead ((mem_emit_referenced after).mpr (.inr hjump))
    rw [emit_code, Array.size_push] at hplace
    exact .inl ⟨place, hplace, hmark⟩

theorem emitPlain (h : Directs code allowed before after) {instr : Instr}
    (hcode : (after.emit instr).code.toList <+: code) (htarget : instr.target? = none) :
    Directs code allowed before (after.emit instr) :=
  h.emit hcode (by simp [htarget])

theorem emitJump (h : Directs code allowed before after)
    (hheads : ∀ position label, heads label → allowed position label)
    (hcode : (after.emit (.jump label)).code.toList <+: code)
    (hlabel : (after.emit (.jump label)).Aims code heads (.label label)) :
    Directs code allowed before (after.emit (.jump label)) := by
  refine h.emit hcode ?_
  rintro label ⟨⟩
  exact (hlabel label rfl).imp_left (hheads _ label)

theorem mark (h : Directs code allowed before after)
    (hcode : (after.mark label).code.toList <+: code) :
    Directs code allowed before (after.mark label) := by
  by_cases hmem : label.number ∈ after.referenced
  · rw [mark_of_referenced hmem] at hcode ⊢
    exact h.emitPlain hcode rfl
  · rwa [mark_of_not_referenced hmem]

theorem closeExit {exit : Label} (h : Directs code allowed before after)
    (hcode : (after.closeExit continuation exit).code.toList <+: code) :
    Directs code allowed before (after.closeExit continuation exit) := by
  cases continuation with
  | label _ => exact h
  | fall => exact h.mark hcode

theorem of_afterLabel (h : Directs code allowed before.afterLabel after) :
    Directs code allowed before after := h

theorem of_openExit (h : Directs code allowed (before.openExit continuation) after) :
    Directs code allowed before after := by
  cases continuation <;> exact h

end Directs

end Builder

variable {symbols : Symbols} {before after : Builder} {code : Code} {heads : Label → Prop}

open Builder (Directs)

/-- The code of a value has no jumps. -/
theorem Expr.LowersValue.directs {expr : Expr} {value : Value}
    (h : expr.LowersValue symbols value before after) (hcode : after.code.toList <+: code)
    {allowed : Nat → Label → Prop} : Directs code allowed before after := by
  induction h with
  | int | bool | «variable» | variant => exact .refl _
  | neg _ ih => exact (ih (Builder.begins_of_emit hcode)).emitPlain hcode rfl
  | arith _ hright ihl ihr =>
    have hoperands := Builder.begins_of_emit hcode
    exact ((ihl (hright.extends.code.trans hoperands)).trans (ihr hoperands)).emitPlain hcode rfl

theorem LowersBranch.directs {left right : Value} {op : RelOp} {targets : Targets}
    (h : LowersBranch left op right targets before after) (hcode : after.code.toList <+: code)
    (htrue : after.Aims code heads targets.onTrue) (hfalse : after.Aims code heads targets.onFalse) :
    Directs code (fun _ => heads) before after := by
  cases h with
  | both onTrue onFalse =>
    have hjump := (Builder.Extends.refl (before.emit (.branch left op right onTrue true))).emit
      (.jump onFalse)
    refine ((Directs.refl before).emit (Builder.begins_of_emit hcode) ?_).emit hcode ?_
    · rintro label ⟨⟩
      exact htrue.of_extends hjump onTrue rfl
    · rintro label ⟨⟩
      exact hfalse onFalse rfl
  | onTrue target =>
    refine (Directs.refl before).emit hcode ?_
    rintro label ⟨⟩
    exact htrue target rfl
  | onFalse target =>
    refine (Directs.refl before).emit hcode ?_
    rintro label ⟨⟩
    exact hfalse target rfl

/-- Where the targets of a condition are heads or ahead, all its jumps go forward or to
heads. -/
theorem Expr.LowersCondition.directs {expr : Expr} {targets : Targets}
    (h : expr.LowersCondition symbols targets before after) (hcode : after.code.toList <+: code)
    (htrue : after.Aims code heads targets.onTrue) (hfalse : after.Aims code heads targets.onFalse) :
    Directs code (fun _ => heads) before after := by
  induction h with
  | @and _ _ targets before between after _ hright ihl ihr =>
    have hclose := (Builder.Extends.refl after).closeExit targets.onFalse
      (before.exitLabel targets.onFalse)
    have hinner := Builder.begins_of_closeExit hcode
    have hleft := ihl (hright.extends.code.trans hinner) Builder.aims_fall
      ((hfalse.exit hcode).of_extends hright.extends)
    have hright := ihr hinner (htrue.of_extends hclose) (hfalse.of_extends hclose)
    exact (hleft.of_openExit.trans hright).closeExit hcode
  | @or _ _ targets before between after _ hright ihl ihr =>
    have hclose := (Builder.Extends.refl after).closeExit targets.onTrue
      (before.exitLabel targets.onTrue)
    have hinner := Builder.begins_of_closeExit hcode
    have hleft := ihl (hright.extends.code.trans hinner)
      ((htrue.exit hcode).of_extends hright.extends) Builder.aims_fall
    have hright := ihr hinner (htrue.of_extends hclose) (hfalse.of_extends hclose)
    exact (hleft.of_openExit.trans hright).closeExit hcode
  | not _ ih => exact ih hcode hfalse htrue
  | compare hleft hright hbranch =>
    have hevaluated := hbranch.extends.code.trans hcode
    exact ((hleft.directs (hright.extends.code.trans hevaluated)).trans
      (hright.directs hevaluated)).trans (hbranch.directs hcode htrue hfalse)
  | ident _ hbranch => exact hbranch.directs hcode htrue hfalse
  | @boolJump value targets target builder htarget =>
    refine (Directs.refl builder).emit hcode ?_
    rintro label ⟨⟩
    cases value with
    | true => exact htrue target htarget
    | false => exact hfalse target htarget
  | boolFall => exact .refl _

/-- The tests of a `switch` go forward to the bodies. -/
theorem LowersTests.directs {selector : Value} {cases : List Case} {labels : List Label}
    (h : LowersTests symbols selector cases labels before after)
    (hcode : after.code.toList <+: code) (hlabels : ∀ label ∈ labels, after.Ahead code label)
    {allowed : Nat → Label → Prop} : Directs code allowed before after := by
  induction h with
  | nil builder => exact .refl builder
  | @cons _ _ _ constant _ before between after hvalue hrest ih =>
    obtain ⟨hlabel, hlabels⟩ := List.forall_mem_cons.mp hlabels
    have hbranch := hrest.extends.code.trans hcode
    have hvalue : Directs code allowed before between.afterLabel :=
      hvalue.directs (Builder.begins_of_emit hbranch)
    refine (hvalue.emit hbranch ?_).trans (ih hcode hlabels)
    rintro label ⟨⟩
    exact .inr (hlabel.of_extends hrest.extends)

namespace Lowers

/-- Where there is a body for every waiting label, the labels are ahead. -/
theorem ahead_of_cases {branches : List Case} {exit switchExit : Label} {pending : List Label}
    {outer : List SwitchLabels} (h : Lowers symbols (.cases branches exit) before after)
    (hcode : after.code.toList <+: code)
    (hswitch : before.switches = ⟨switchExit, pending⟩ :: outer)
    (hlength : pending.length ≤ branches.length) :
    ∀ label ∈ pending, before.Ahead code label := by
  induction branches generalizing before pending with
  | nil => simp [List.length_eq_zero_iff.mp (Nat.le_zero.mp hlength)]
  | cons branch rest ih =>
    cases h with
    | @casesCons _ _ _ _ _ taken _ _ _ _ _ hopen hplaced hbody hrest =>
      subst hplaced
      rw [hswitch] at hopen
      cases hopen
      have hplaced := hbody.extends.code.trans (hrest.extends.code.trans hcode)
      have htaken := (Builder.Extends.refl before).withSwitches (⟨switchExit, taken⟩ :: outer)
      refine List.forall_mem_cons.mpr ⟨(Builder.ahead_of_mark hplaced).of_extends htaken, ?_⟩
      intro label hmem
      have hremaining := ih hrest (by simp [hbody.switches_eq, Piece.remaining])
        (Nat.le_of_succ_le_succ hlength) label hmem
      exact hremaining.of_extends (htaken.trans hbody.extends.of_mark)

/-- A jump to its head in the code of a loop goes back to that loop. -/
theorem loopsBack_head {loop : Stmt} {continuation : Continuation} {position : Nat}
    (h : Lowers symbols (.stmt loop continuation) before after) (hloop : loop.isLoop)
    (hfirst : before.code.size ≤ position) (hlast : position < after.code.size) :
    h.LoopsBack position before.freshLabel :=
  ⟨loop, continuation, before, after, h, .self, by simp [Stmt.head?, hloop], hfirst, hlast⟩

end Lowers

/-- Every jump that was written between two builders goes forward, to one of the heads,
or back to the head of a loop in the piece. -/
abbrev Lowers.Directs {piece : Piece} (h : Lowers symbols piece before after) (code : Code)
    (heads : Label → Prop) (start stop : Builder) : Prop :=
  Builder.Directs code (fun position label => heads label ∨ h.LoopsBack position label) start stop

namespace Lowers.Directs

variable {piece : Piece} {h : Lowers symbols piece before after} {start stop : Builder}

theorem of_heads (hdirects : Builder.Directs code (fun _ => heads) start stop) :
    h.Directs code heads start stop :=
  hdirects.mono fun _ _ _ _ => Or.inl

/-- What a part of a lowering does, the whole does. -/
theorem within {part : Piece} {first last : Builder} {hpart : Lowers symbols part first last}
    (hdirects : hpart.Directs code heads start stop)
    (hinner : ∀ {inner : Piece} {first last : Builder} {hinner : Lowers symbols inner first last},
      hinner.PartOf hpart → hinner.PartOf h) :
    h.Directs code heads start stop := by
  refine hdirects.mono ?_
  rintro position label _ _ (hhead | ⟨loop, continuation, first, last, hloop, hin, hrange⟩)
  · exact .inl hhead
  · exact .inr ⟨loop, continuation, first, last, hloop, hinner hin, hrange⟩

/-- A loop is entered, goes round with its own head as one more head, and jumps back. -/
theorem closeLoop {loop : Stmt} {continuation : Continuation} {exit : Label}
    {h : Lowers symbols (.stmt loop continuation) before
      ((stop.emit (.jump before.freshLabel)).closeExit continuation exit)} (hloop : loop.isLoop)
    (hcode : ((stop.emit (.jump before.freshLabel)).closeExit continuation exit).code.toList <+: code)
    (hstart : before.Extends start) (hentry : h.Directs code heads before start)
    (hround : h.Directs code (fun label => heads label ∨ label = before.freshLabel) start stop) :
    h.Directs code heads before
      ((stop.emit (.jump before.freshLabel)).closeExit continuation exit) := by
  have hback := hround.emitJump (fun _ _ => .inl) (Builder.begins_of_closeExit hcode)
    (Builder.aims_head (.inr rfl))
  have hclose := (Builder.Extends.refl (stop.emit (.jump before.freshLabel))).closeExit
    continuation exit
  refine Builder.Directs.closeExit (hentry.trans (hback.mono ?_)) hcode
  rintro position label hfirst hlast ((hhead | rfl) | hback)
  · exact .inl hhead
  · have hbefore : before.code.size ≤ start.code.size := hstart.code.length_le
    have hafter := hclose.code.length_le
    simp only [Array.length_toList] at hafter
    exact .inr (h.loopsBack_head hloop (by omega) (by omega))
  · exact .inr hback

end Lowers.Directs

/-- A jump that was written for a piece goes forward, to one of the heads around the
piece, or back to the head of a loop in the piece that the jump belongs to. -/
theorem Lowers.directs {piece : Piece} (h : Lowers symbols piece before after)
    (hcode : after.code.toList <+: code) (hcontinuation : after.Aims code heads piece.continuation)
    (hexits : after.AimsBreaks code heads before.exits) : h.Directs code heads before after := by
  -- The heads are general because a loop adds its own for what is inside of it.
  induction h generalizing heads with
  | declare | declareEnum | blockNil | casesNil => exact .refl _
  | block _ ih => exact (ih hcode hcontinuation hexits).within .block
  | blockLast _ ih => exact (ih hcode hcontinuation hexits).within .blockLast
  | assignNumber _ hvalue =>
    exact (hvalue.directs (Builder.begins_of_emit hcode)).emitPlain hcode rfl
  | @assignBoolean target _ continuation before tested _ _ hvalue hplaced =>
    subst hplaced
    have hzero := Builder.begins_of_closeExit hcode
    have hplaced := Builder.begins_of_emit hzero
    have hjump := Builder.begins_of_mark hplaced
    have hone := Builder.begins_of_emit hjump
    have hfalse := (Builder.ahead_of_mark hplaced).of_extends
      (((Builder.Extends.refl tested).emit _).emit _)
    have hexit := (hcontinuation.exit hcode).of_extends
      (((Builder.Extends.refl _).mark (before.openExit continuation).freshLabel).emit _)
    have hcondition : Builder.Directs code (fun _ => heads) _ tested :=
      hvalue.directs (Builder.begins_of_emit hone) Builder.aims_fall (Builder.aims_ahead hfalse)
    have htrue := hcondition.of_afterLabel.of_openExit.emitPlain hone rfl
    exact .of_heads ((((htrue.emitJump (fun _ _ => id) hjump hexit).mark hplaced).emitPlain
      hzero rfl).closeExit hcode)
  | iteNone hcondition =>
    have htested := hcondition.directs (Builder.begins_of_closeExit hcode) Builder.aims_fall
      (hcontinuation.exit hcode)
    exact .of_heads (htested.of_openExit.closeExit hcode)
  | @iteThen _ _ continuation before between after hcondition hthen ih =>
    have hclose := (Builder.Extends.refl after).closeExit continuation (before.exitLabel continuation)
    have hafter := Builder.begins_of_closeExit hcode
    have hopen : between.exits = before.exits := by simp [Builder.exits, hcondition.switches_eq]
    have htest := hcondition.directs (hthen.extends.code.trans hafter) Builder.aims_fall
      ((hcontinuation.exit hcode).of_extends hthen.extends)
    have hbranch := ih hafter (hcontinuation.of_extends hclose) (hopen ▸ hexits.of_extends hclose)
    refine Builder.Directs.closeExit ?_ hcode
    exact (Directs.of_heads htest.of_openExit).trans (hbranch.within (.thenOnly hcondition))
  | @iteElse _ _ _ continuation before tested between placed after hcondition hthen hplaced helse
      ihthen ihelse =>
    have hclose := (Builder.Extends.refl after).closeExit continuation (before.exitLabel continuation)
    have hafter := Builder.begins_of_closeExit hcode
    have hmark := hplaced ▸ helse.extends.code.trans hafter
    have hjump := Builder.begins_of_mark hmark
    have hbetween := Builder.begins_of_emit hjump
    have hskip : between.Extends placed :=
      hplaced ▸ ((Builder.Extends.refl between).emit _).mark _
    have hexit := (hcontinuation.exit hcode).of_extends helse.extends
    have hfalse := (Builder.ahead_of_mark hmark).of_extends ((Builder.Extends.refl between).emit _)
    have hopen : tested.exits = before.exits := by simp [Builder.exits, hcondition.switches_eq]
    have hopenElse : placed.exits = before.exits := by
      simp [Builder.exits, hplaced, hthen.switches_eq, hcondition.switches_eq, Piece.remaining]
    have htest : Builder.Directs code (fun _ => heads) _ tested :=
      hcondition.directs (hthen.extends.code.trans hbetween) Builder.aims_fall
        (Builder.aims_ahead (hfalse.of_extends hthen.extends))
    have hfirst := ihthen hbetween (hexit.of_extends hskip)
      (hopen ▸ hexits.of_extends ((hskip.trans helse.extends).trans hclose))
    have hsecond := ihelse hafter (hcontinuation.of_extends hclose)
      (hopenElse ▸ hexits.of_extends hclose)
    refine Builder.Directs.closeExit (Builder.Directs.trans ?_
      (hsecond.within (.elseBranch hcondition hthen hplaced))) hcode
    have hboth := (Directs.of_heads htest.of_afterLabel.of_openExit).trans
      (hfirst.within (.thenBranch hcondition hplaced helse))
    subst hplaced
    exact (hboth.emitJump (fun _ _ => .inl) hjump
      (hexit.of_extends ((Builder.Extends.refl _).mark _))).mark hmark
  | @whileLoop _ _ continuation before head tested after hhead hcondition hbody ih =>
    have hjump := Builder.begins_of_closeExit hcode
    have hafter := Builder.begins_of_emit hjump
    have hback := (Builder.Extends.refl after).emit (.jump before.freshLabel)
    have hclose := (Builder.Extends.refl (after.emit (.jump before.freshLabel))).closeExit
      continuation (head.exitLabel continuation)
    have htested := hbody.extends.code.trans hafter
    have hlabel := hhead ▸ hcondition.extends.of_openExit.code.trans htested
    have hstart : before.Extends tested :=
      (hhead ▸ hcondition.extends.of_openExit).of_emit.of_afterLabel
    have hopen : tested.exits = before.exits := by
      simp [Builder.exits, hcondition.switches_eq, hhead]
    have htest := hcondition.directs htested Builder.aims_fall
      ((hcontinuation.exit hcode).of_extends (hbody.extends.trans hback))
    have hround : hbody.Directs code (fun label => heads label ∨ label = before.freshLabel) _ _ :=
      ih hafter (Builder.aims_head (.inr rfl))
        (hopen ▸ (hexits.of_extends (hback.trans hclose)).mono fun _ => .inl)
    have hplaced : Builder.Directs code (fun _ => heads) before.afterLabel _ :=
      (Builder.Directs.refl _).emitPlain hlabel rfl
    have hentry := hplaced.of_afterLabel.trans (hhead ▸ htest.of_openExit)
    exact Directs.closeLoop rfl hcode hstart (.of_heads hentry)
      (hround.within (.whileBody hhead hcondition))
  | @forLoop _ _ _ _ continuation before started head tested between after hinit hhead hcondition
      hbody hupdate ihinit ihbody ihupdate =>
    have hjump := Builder.begins_of_closeExit hcode
    have hafter := Builder.begins_of_emit hjump
    have hback := (Builder.Extends.refl after).emit (.jump before.freshLabel)
    have hclose := (Builder.Extends.refl (after.emit (.jump before.freshLabel))).closeExit
      continuation (head.exitLabel continuation)
    have hmark := hupdate.extends.code.trans hafter
    have hbetween := Builder.begins_of_mark hmark
    have hrest := hupdate.extends.of_mark.trans hback
    have htested := hbody.extends.code.trans hbetween
    have hlabel := hhead ▸ hcondition.extends.of_openExit.code.trans htested
    have hloop : started.Extends tested := (hhead ▸ hcondition.extends.of_openExit).of_emit
    have hstart := (hinit.extends.trans hloop).of_afterLabel.of_afterLabel
    have hopen : tested.exits = before.exits := by
      simp [Builder.exits, hcondition.switches_eq, hhead, hinit.switches_eq, Piece.remaining]
    have hopenUpdate : (between.mark before.afterLabel.freshLabel).exits = before.exits := by
      rw [← hopen]
      simp [Builder.exits, hbody.switches_eq, Piece.remaining]
    -- The jumps of the initialisation still go forward to the head.
    have hfirst : hinit.Directs code heads _ _ := ihinit (Builder.begins_of_emit hlabel)
      (Builder.aims_ahead (Builder.ahead_of_emit hlabel))
      (hexits.of_extends (((hloop.trans hbody.extends).trans hrest).trans hclose))
    have htest := hcondition.directs htested Builder.aims_fall
      ((hcontinuation.exit hcode).of_extends (hbody.extends.trans hrest))
    have hround : hbody.Directs code (fun label => heads label ∨ label = before.freshLabel) _ _ :=
      ihbody hbetween (Builder.aims_ahead (Builder.ahead_of_mark hmark))
        (hopen ▸ (hexits.of_extends (hrest.trans hclose)).mono fun _ => .inl)
    have hnext : hupdate.Directs code (fun label => heads label ∨ label = before.freshLabel) _ _ :=
      ihupdate hafter (Builder.aims_head (.inr rfl))
        (hopenUpdate ▸ (hexits.of_extends (hback.trans hclose)).mono fun _ => .inl)
    have hplaced := (hfirst.within (.forInit hhead hcondition hbody hupdate)).emitPlain hlabel rfl
    have hentry := hplaced.of_afterLabel.of_afterLabel.trans
      (Directs.of_heads (hhead ▸ htest.of_openExit))
    exact Directs.closeLoop rfl hcode hstart hentry
      (((hround.within (.forBody hinit hhead hcondition hupdate)).mark hmark).trans
        (hnext.within (.forUpdate hinit hhead hcondition hbody)))
  | @switch _ _ continuation _ labels before selected tested inside after hcases hselector htests
      hinside hbodies hresolved ih =>
    have hpop := (Builder.Extends.refl after).withSwitches after.popSwitch.switches
    have hclose := hpop.closeExit continuation (before.exitLabel continuation)
    have hafter := hclose.code.trans hcode
    have hinsideCode := hbodies.extends.code.trans hafter
    have hskip : (tested.emit (.jump (before.exitLabel continuation))).Extends inside :=
      hinside ▸ (Builder.Extends.refl _).withSwitches _
    have hjump := hskip.code.trans hinsideCode
    have htested := Builder.begins_of_emit hjump
    have hexit := (hcontinuation.exit hcode).of_extends hpop
    have hopen : inside.exits = before.exitLabel continuation :: before.exits := by
      simp [Builder.exits, hinside, Builder.pushSwitch, htests.switches_eq, hselector.switches_eq]
    have hlabels := hbodies.ahead_of_cases hafter (congrArg Builder.switches hinside)
      htests.length_eq.le
    have hselect : Builder.Directs code (fun _ => heads) _ selected :=
      hselector.directs (htests.extends.code.trans htested)
    have htest := hselect.trans
      (htests.directs htested fun label hmem => (hlabels label hmem).of_extends hskip.of_emit)
    have hchoice := htest.of_openExit.emitJump (fun _ _ => id) hjump
      (hexit.of_extends (hskip.trans hbodies.extends))
    have hbranches := ih hafter hexit
      (hopen ▸ List.forall_mem_cons.mpr ⟨hexit, hexits.of_extends hclose⟩)
    refine Builder.Directs.closeExit (Builder.Directs.trans ?_
      (hbranches.within (.switchBodies hcases hselector htests hinside hresolved))) hcode
    subst hinside
    exact Directs.of_heads hchoice
  | breakSwitch hswitch =>
    refine Builder.Directs.emitJump (.refl _) (fun _ _ => .inl) hcode (hexits _ ?_)
    simp [Builder.exits, hswitch]
  | @blockCons _ _ _ _ before between after hstmt hrest ihstmt ihrest =>
    have hmark := hrest.extends.code.trans hcode
    have hopen : (between.mark before.freshLabel).exits = before.exits := by
      simp [Builder.exits, hstmt.switches_eq, Piece.remaining]
    have hfirst := ihstmt (Builder.begins_of_mark hmark)
      (Builder.aims_ahead (Builder.ahead_of_mark hmark)) (hexits.of_extends hrest.extends.of_mark)
    have hothers := ihrest hcode hcontinuation (hopen ▸ hexits)
    exact ((hfirst.within (.blockFirst hrest)).of_afterLabel.mark hmark).trans
      (hothers.within (.blockRest hstmt))
  | @casesCons branch rest exit _ label pending outer before placed between after hswitch hplaced
      hbody hrest ihbody ihrest =>
    have hbetween := hrest.extends.code.trans hcode
    have hmark := hbody.extends.code.trans hbetween
    have hopen : placed.exits = before.exits := by simp [Builder.exits, hplaced, hswitch]
    have hnext : between.Aims code heads (caseContinuation branch rest exit) := by
      unfold caseContinuation
      split
      · exact hcontinuation.of_extends hrest.extends
      · exact Builder.aims_fall
    have hfirst := ihbody hbetween hnext (hopen ▸ hexits.of_extends hrest.extends)
    have hothers := ihrest hcode hcontinuation (hbody.exits_eq.trans hopen ▸ hexits)
    refine Builder.Directs.trans ?_ ((hfirst.within (.caseBody hswitch hplaced hrest)).trans
      (hothers.within (.caseRest hswitch hplaced hbody)))
    subst hplaced
    exact Builder.Directs.mark (.refl before) hmark

/-- Only statements of a piece are lowered as parts of it. -/
theorem Lowers.PartOf.mem_parts {stmt : Stmt} {continuation : Continuation} {whole : Piece}
    {start stop : Builder} {hpart : Lowers symbols (.stmt stmt continuation) start stop}
    {hwhole : Lowers symbols whole before after} (h : hpart.PartOf hwhole) :
    stmt ∈ whole.parts := by
  induction h with
  | self => cases stmt <;> simp [Piece.parts, Stmt.parts]
  | block _ ih | whileBody _ _ _ ih | switchBodies _ _ _ _ _ _ ih =>
    exact List.mem_cons_of_mem _ ih
  | thenOnly _ _ ih | thenBranch _ _ _ _ ih =>
    exact List.mem_cons_of_mem _ (List.mem_append_left _ ih)
  | elseBranch _ _ _ _ ih | forBody _ _ _ _ _ ih =>
    exact List.mem_cons_of_mem _ (List.mem_append_right _ ih)
  | forInit _ _ _ _ _ ih =>
    exact List.mem_cons_of_mem _ (List.mem_append_left _ (List.mem_append_left _ ih))
  | forUpdate _ _ _ _ _ ih =>
    exact List.mem_cons_of_mem _ (List.mem_append_left _ (List.mem_append_right _ ih))
  | blockLast _ ih | blockFirst _ _ ih => exact List.mem_append_left _ ih
  | blockRest _ _ ih => exact List.mem_append_right _ ih
  | caseBody _ _ _ _ ih =>
    rw [Piece.parts, caseParts_cons]
    exact List.mem_append_left _ ih
  | caseRest _ _ _ _ ih =>
    rw [Piece.parts, caseParts_cons]
    exact List.mem_append_right _ ih

namespace Program

/-- The position is in the code of a loop of the program with this head. -/
def LoopsBack (program : Program) (symbols : Symbols) (code : Code) (position : Nat)
    (label : Label) : Prop :=
  ∃ (after : Builder) (h : Lowers symbols (.block program.body (.label Builder.empty.freshLabel))
      Builder.empty.afterLabel after),
    (after.mark Builder.empty.freshLabel).code.toList = code ∧ h.LoopsBack position label

/-- Every jump of a program goes forward or back to a loop around it. -/
theorem marksBehind_or_loopsBack {program : Program} {position : Nat} {label : Label}
    (h : program.toCode symbols = .ok code) (hjump : code.CanJump position label) :
    code.MarksBehind position label ∨ program.LoopsBack symbols code position label := by
  obtain ⟨after, hbody, rfl⟩ := toCode_eq_ok.mp h
  have hend : after.Aims _ (fun _ => False) (.label Builder.empty.freshLabel) :=
    Builder.aims_ahead (Builder.ahead_of_mark List.prefix_rfl)
  have hdirects := (hbody.directs (Builder.begins_of_mark List.prefix_rfl) hend
    (by rintro exit ⟨⟩)).mark List.prefix_rfl
  obtain ⟨instr, hinstr, _⟩ := id hjump
  have hposition := (List.getElem?_eq_some_iff.mp hinstr).1
  refine (hdirects position label (Nat.zero_le _) hposition hjump).imp_right ?_
  rintro (⟨⟨⟩⟩ | hback)
  exact ⟨after, hbody, rfl, hback⟩

/-- A loop that is gone back to is a statement of the program. -/
theorem LoopsBack.exists_loop {program : Program} {position : Nat} {label : Label}
    (h : program.LoopsBack symbols code position label) :
    ∃ stmt ∈ program.statements, stmt.isLoop := by
  obtain ⟨_, _, _, loop, _, start, _, _, hpart, hhead, _⟩ := h
  refine ⟨loop, hpart.mem_parts, ?_⟩
  by_contra hloop
  simp [Stmt.head?, hloop] at hhead

/-- A jump to a label that is marked in front of it goes to the head of a loop, and it
stands in the code of that loop. The code of a program without loops has only jumps that
go forward. A run of it passes no instruction twice, and it can always be carried on
until it is at the end or at an operation without a result. -/
theorem toCode_backward_jumps {program : Program} (h : program.toCode symbols = .ok code) :
    (∀ position place label, code.CanJump position label →
      code[place]? = some (.label label) → place < position →
      program.LoopsBack symbols code position label) ∧
    ((∀ stmt ∈ program.statements, stmt.isLoop = false) →
      (∀ position label, code.CanJump position label →
        ∃ place, position < place ∧ code.position? label = some place) ∧
      ∀ (arithmetic : Arithmetic) (store : Store) (run : List Code.Config),
        code.IsRun arithmetic (⟨0, store⟩ :: run) →
        ((⟨0, store⟩ :: run).map Code.Config.position).Pairwise (· < ·) ∧
        ∃ more last, code.IsRun arithmetic (⟨0, store⟩ :: (run ++ more)) ∧
          (⟨0, store⟩ :: (run ++ more)).getLast? = some last ∧
          (last.position = code.length ∨
            ∃ operation, Code.FailsAt arithmetic code last operation)) := by
  have hnodup := (toCode_wellLabelled h).nodup
  refine ⟨?_, ?_⟩
  · intro position place label hjump hmark hplace
    refine (marksBehind_or_loopsBack h hjump).resolve_left ?_
    rintro ⟨behind, hbehind, hmark'⟩
    have hsame := Code.position?_eq_some hnodup hmark
    rw [Code.position?_eq_some hnodup hmark', Option.some.injEq] at hsame
    omega
  · intro hloops
    have hforward : code.Forward := by
      intro position label hjump
      obtain ⟨place, hplace, hmark⟩ := (marksBehind_or_loopsBack h hjump).resolve_right
        fun hback => by
          obtain ⟨stmt, hmem, hloop⟩ := hback.exists_loop
          simp [hloops stmt hmem] at hloop
      exact ⟨place, hplace, Code.position?_eq_some hnodup hmark⟩
    refine ⟨hforward, ?_⟩
    intro arithmetic store run hrun
    exact ⟨hforward.pairwise hrun, hforward.exists_end hrun (Nat.zero_le _)⟩

/-- A choice that divides in one of its branches. -/
def dividing : Program :=
  ⟨[.declare "n" .number,
    .ite (.compare .eq (.ident "n") (.int 0)) (some (.assign "n" (.int 1)))
      (some (.assign "n" (.arith .div (.int 60) (.ident "n"))))]⟩

theorem toCode_backward_jumps_searching :
    (∃ code, searching.toCode (.ofProgram searching) = .ok code ∧ code.CanJump 22 ⟨3⟩ ∧
      code[2]? = some (.label ⟨3⟩) ∧ searching.LoopsBack (.ofProgram searching) code 22 ⟨3⟩) ∧
    ∃ code, dividing.toCode (.ofProgram dividing) = .ok code ∧ code.CanJump 2 ⟨0⟩ ∧ code.Forward := by
  constructor
  · have hcode : (searching.toCode (.ofProgram searching)).toOption.any (fun code =>
        code[22]? = some (.jump ⟨3⟩) ∧ code[2]? = some (.label ⟨3⟩)) := by decide +kernel
    cases h : searching.toCode (.ofProgram searching) with
    | error e => simp [h, Except.toOption] at hcode
    | ok code =>
      obtain ⟨hjump, hmark⟩ : code[22]? = some (.jump ⟨3⟩) ∧ code[2]? = some (.label ⟨3⟩) := by
        simpa [h, Except.toOption] using hcode
      have hcan : code.CanJump 22 ⟨3⟩ := ⟨_, hjump, rfl⟩
      exact ⟨code, rfl, hcan, hmark, (toCode_backward_jumps h).1 22 2 ⟨3⟩ hcan hmark (by decide)⟩
  · have hcode : (dividing.toCode (.ofProgram dividing)).toOption.any (fun code =>
        code[2]? = some (.jump ⟨0⟩)) := by decide +kernel
    have hloops : ∀ stmt ∈ dividing.statements, stmt.isLoop = false := by decide +kernel
    cases h : dividing.toCode (.ofProgram dividing) with
    | error e => simp [h, Except.toOption] at hcode
    | ok code =>
      have hjump : code[2]? = some (.jump ⟨0⟩) := by simpa [h, Except.toOption] using hcode
      exact ⟨code, rfl, ⟨_, hjump, rfl⟩, ((toCode_backward_jumps h).2 hloops).1⟩

end Program

end ThreeAddress
