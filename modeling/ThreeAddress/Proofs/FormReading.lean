import ThreeAddress.Proofs.WrittenForms

/-!
Reading takes exactly the forms that `IsForm` describes. What is read is a form of
the result, at whatever depth reading stops, and a form is read as soon as reading may
go as deep as the form does.
-/

namespace ThreeAddress

namespace Json

theorem depth_le_itemsDepth {item : Json} {items : List Json} (h : item ∈ items) :
    item.depth ≤ itemsDepth items := by
  induction items with
  | nil => cases h
  | cons first rest ih =>
    rw [itemsDepth]
    rcases List.mem_cons.mp h with rfl | hrest
    · omega
    · have hle := ih hrest
      omega

theorem depth_le_membersDepth {name : String} {value : Json} {members : List (String × Json)}
    (h : (name, value) ∈ members) : value.depth ≤ membersDepth members := by
  induction members with
  | nil => cases h
  | cons first rest ih =>
    obtain ⟨_, other⟩ := first
    rw [membersDepth]
    rcases List.mem_cons.mp h with heq | hrest
    · cases heq
      omega
    · have hle := ih hrest
      omega

/-- The fields of a record are nested less deep than the record. -/
theorem IsRecord.depth_lt {json value : Json} {name : String} {fields : List (String × Option Json)}
    (h : json.IsRecord fields) (hfield : (name, some value) ∈ fields) :
    value.depth < json.depth := by
  rcases h with ⟨items, rfl, hitems⟩ | ⟨members, rfl, hmembers⟩
  · have hmem : some value ∈ items.map some := by
      rw [← hitems]
      exact List.mem_map.mpr ⟨_, hfield, rfl⟩
    obtain ⟨item, hitem, heq⟩ := List.mem_map.mp hmem
    have hle := depth_le_itemsDepth (Option.some.inj heq ▸ hitem)
    rw [depth]
    omega
  · have hfilter := hmembers name (some value) hfield
    have hfound : (name, value) ∈ members.filter (·.1 == name) := by
      rw [hfilter]
      exact List.mem_singleton_self _
    have hmem : (name, value) ∈ members := (List.mem_filter.mp hfound).1
    have hle := depth_le_membersDepth hmem
    rw [depth]
    omega

theorem member?_eq_some {members : List (String × Json)} {name : String} {value : Option Json} :
    member? members name = some value ↔
      members.filter (·.1 == name) = (value.map (Prod.mk name)).toList := by
  have hnames : ∀ member ∈ members.filter (·.1 == name), member.1 = name := by
    intro member hmem
    simpa using (List.mem_filter.mp hmem).2
  unfold member?
  generalize members.filter (·.1 == name) = found at hnames ⊢
  rcases found with _ | ⟨member, _ | ⟨second, rest⟩⟩
  · cases value <;> simp
  · have hname := hnames member List.mem_cons_self
    obtain ⟨_, content⟩ := member
    subst hname
    cases value <;> simp
  · cases value <;> simp

/-- A list is read item by item. -/
theorem mapM_eq_some_iff {α β : Type} {read : α → Option β} {items : List α} {results : List β} :
    items.mapM read = some results ↔
      List.Forall₂ (fun result item => read item = some result) results items := by
  induction items generalizing results with
  | nil => simp [eq_comm]
  | cons item rest ih =>
    simp only [List.mapM_cons, Option.bind_eq_bind, Option.bind_eq_some_iff, ih, Option.pure_def,
      Option.some.injEq, List.forall₂_cons_right_iff]
    constructor
    · rintro ⟨result, hitem, others, hrest, rfl⟩
      exact ⟨result, others, hitem, hrest, rfl⟩
    · rintro ⟨result, others, hitem, hrest, rfl⟩
      exact ⟨result, hitem, others, hrest, rfl⟩

theorem mapM_member?_eq_some {members : List (String × Json)}
    {fields : List (String × Option Json)} :
    (fields.map Prod.fst).mapM (member? members) = some (fields.map Prod.snd) ↔
      ∀ name value, (name, value) ∈ fields →
        members.filter (·.1 == name) = (value.map (Prod.mk name)).toList := by
  rw [mapM_eq_some_iff, List.forall₂_map_left_iff, List.forall₂_map_right_iff, List.forall₂_same]
  simp only [member?_eq_some, Prod.forall]

/-- Records are read as they may be written. -/
theorem record?_eq_some (json : Json) (fields : List (String × Option Json)) :
    json.record? (fields.map Prod.fst) fields.length = some (fields.map Prod.snd) ↔
      json.IsRecord fields := by
  cases json with
  | obj members =>
    rw [record?, mapM_member?_eq_some]
    simp [IsRecord]
  | arr items =>
    by_cases hlength : items.length = fields.length
    · simp [record?, IsRecord, hlength, eq_comm]
    · have hwrong : fields.map Prod.snd ≠ items.map some := by
        intro heq
        have hlengths := congrArg List.length heq
        simp only [List.length_map] at hlengths
        omega
      have hrange : ¬ (fields.length ≤ items.length ∧ items.length ≤ fields.length) := by omega
      simp [record?, IsRecord, hwrong, hrange]
  | null | bool | int | real | str | unreadable => simp [record?, IsRecord]

variable {json payload : Json} {tag : String} {depth : Nat}

theorem str?_eq_some {text : String} : json.str? = some text ↔ json = .str text := by
  cases json <;> simp [str?]

theorem bool?_eq_some {value : Bool} : json.bool? = some value ↔ json = .bool value := by
  cases json <;> simp [bool?]

theorem int64?_eq_some {value : Int64} : json.int64? = some value ↔ json = .int value.toInt := by
  cases json with
  | int number =>
    simp only [int64?, Option.ite_none_right_eq_some, Option.some.injEq, int.injEq]
    constructor
    · rintro ⟨⟨hmin, hmax⟩, rfl⟩
      exact (Int64.toInt_ofInt_of_le hmin (Int.lt_of_le_of_lt hmax (by decide))).symm
    · rintro rfl
      exact ⟨⟨value.minValue_le_toInt, value.toInt_le⟩, Int64.ofInt_toInt value⟩
  | _ => simp [int64?]

theorem isBare_of_bareTag? (h : json.bareTag? depth = some tag) : json.IsBare tag := by
  unfold bareTag? at h
  split at h
  · cases h
    exact .inl rfl
  · cases h
    exact .inr rfl
  · cases h

theorem IsBare.bareTag? (h : json.IsBare tag) (hdepth : json.depth ≤ depth) :
    json.bareTag? depth = some tag := by
  rcases h with rfl | rfl
  · rw [Json.bareTag?]
  · cases depth with
    | zero => simp [Json.depth] at hdepth
    | succ depth => rw [Json.bareTag?]

/-- A value made of two parts is read when both parts are. -/
theorem read_two_eq_some {α β γ : Type} {first : Option α} {second : Option β} {make : α → β → γ}
    {result : γ} :
    (do return make (← first) (← second)) = some result ↔
      ∃ a b, first = some a ∧ second = some b ∧ make a b = result := by
  simp [Option.bind_eq_some_iff]

theorem read_three_eq_some {α β γ δ : Type} {first : Option α} {second : Option β}
    {third : Option γ} {make : α → β → γ → δ} {result : δ} :
    (do return make (← first) (← second) (← third)) = some result ↔
      ∃ a b c, first = some a ∧ second = some b ∧ third = some c ∧ make a b c = result := by
  simp [Option.bind_eq_some_iff]

section

variable {α : Type} {ofTag? : String → Option α} {tagOf : α → String} {value : α}
  (htags : ∀ tag value, ofTag? tag = some value ↔ tag = tagOf value)

include htags

/-- What is read from its tag alone is written as one. -/
theorem isBare_of_bind (h : (json.bareTag? depth).bind ofTag? = some value) :
    json.IsBare (tagOf value) := by
  obtain ⟨tag, htag, hvalue⟩ := Option.bind_eq_some_iff.mp h
  rw [htags] at hvalue
  subst hvalue
  exact isBare_of_bareTag? htag

theorem IsBare.bind_eq (h : json.IsBare (tagOf value)) (hdepth : json.depth ≤ depth) :
    (json.bareTag? depth).bind ofTag? = some value := by
  rw [h.bareTag? hdepth]
  exact (htags _ value).mpr rfl

end

/-- What stands under a tag is nested less deep. -/
theorem exists_depth_of_tagged (hdepth : (obj [(tag, payload)]).depth ≤ depth) :
    ∃ inner, depth = inner + 1 ∧ payload.depth ≤ inner := by
  simp only [Json.depth, membersDepth] at hdepth
  exact ⟨depth - 1, by omega, by omega⟩

/-- So are the fields of a record. -/
theorem IsRecord.exists_depth {fields : List (String × Option Json)} (h : json.IsRecord fields)
    (hdepth : json.depth ≤ depth) :
    ∃ inner, depth = inner + 1 ∧
      ∀ name value, (name, some value) ∈ fields → value.depth ≤ inner := by
  have hpositive : 0 < json.depth := by
    rcases h with ⟨_, rfl, _⟩ | ⟨_, rfl, _⟩ <;> simp [Json.depth]
  refine ⟨depth - 1, by omega, ?_⟩
  intro name value hfield
  have hlt := h.depth_lt hfield
  omega

theorem IsRecord.exists_depth_of_tagged {fields : List (String × Option Json)}
    (h : payload.IsRecord fields) (hdepth : (obj [(tag, payload)]).depth ≤ depth) :
    ∃ inner, depth = inner + 2 ∧
      ∀ name value, (name, some value) ∈ fields → value.depth ≤ inner := by
  obtain ⟨outer, rfl, houter⟩ := Json.exists_depth_of_tagged hdepth
  obtain ⟨inner, rfl, hfields⟩ := h.exists_depth houter
  exact ⟨inner, rfl, hfields⟩

theorem exists_depth_of_pair {left right : Json}
    (hdepth : (obj [(tag, arr [left, right])]).depth ≤ depth) :
    ∃ inner, depth = inner + 2 ∧ left.depth ≤ inner ∧ right.depth ≤ inner := by
  simp only [Json.depth, membersDepth, itemsDepth] at hdepth
  exact ⟨depth - 2, by omega, by omega, by omega⟩

theorem eq_of_strings? {texts : List String} (h : json.strings? depth = some texts) :
    json = .arr (texts.map .str) := by
  unfold strings? at h
  split at h
  · rw [mapM_eq_some_iff] at h
    have heq : List.Forall₂ (fun text item => str text = item) texts _ :=
      h.imp fun _ _ hitem => (str?_eq_some.mp hitem).symm
    rw [← List.forall₂_map_left_iff, List.forall₂_eq_eq_eq] at heq
    rw [heq]
  · cases h

theorem strings?_eq_some (texts : List String) (depth : Nat) :
    (arr (texts.map str)).strings? (depth + 1) = some texts := by
  rw [strings?, mapM_eq_some_iff, List.forall₂_map_right_iff, List.forall₂_same]
  intro text _
  rfl

/-- No item of a list is nested deeper than the list allows. -/
theorem forall₂_of_depth {α : Type} {R S : α → Json → Prop} {results : List α} {items : List Json}
    (h : List.Forall₂ R results items) (hdepth : itemsDepth items ≤ depth)
    (himp : ∀ result item, R result item → item.depth ≤ depth → S result item) :
    List.Forall₂ S results items := by
  induction h with
  | nil => exact .nil
  | cons hfirst _ ih =>
    rw [itemsDepth] at hdepth
    exact .cons (himp _ _ hfirst (by omega)) (ih (by omega))

end Json

theorem ArithOp.ofTag?_eq_some (tag : String) (op : ArithOp) :
    ofTag? tag = some op ↔ tag = op.tag := by
  constructor
  · intro h
    unfold ofTag? at h
    split at h <;> cases h <;> rfl
  · rintro rfl
    cases op <;> rfl

theorem RelOp.ofTag?_eq_some (tag : String) (op : RelOp) :
    ofTag? tag = some op ↔ tag = op.tag := by
  constructor
  · intro h
    unfold ofTag? at h
    split at h <;> cases h <;> rfl
  · rintro rfl
    cases op <;> rfl

theorem ArithOp.IsForm.ofJson?_eq {depth : Nat} {json : Json} {op : ArithOp} (h : op.IsForm json)
    (hdepth : json.depth ≤ depth) : ArithOp.ofJson? depth json = some op :=
  Json.IsBare.bind_eq ofTag?_eq_some h hdepth

theorem RelOp.IsForm.ofJson?_eq {depth : Nat} {json : Json} {op : RelOp} (h : op.IsForm json)
    (hdepth : json.depth ≤ depth) : RelOp.ofJson? depth json = some op :=
  Json.IsBare.bind_eq ofTag?_eq_some h hdepth

theorem DeclType.isForm_of_ofJson? {depth : Nat} {json : Json} {type : DeclType}
    (h : ofJson? depth json = some type) : type.IsForm json := by
  unfold ofJson? at h
  split at h
  · obtain ⟨name, hname, rfl⟩ := Option.map_eq_some_iff.mp h
    rw [Json.str?_eq_some.mp hname]
    rfl
  · split at h
    · cases h
      exact Json.isBare_of_bareTag? ‹_›
    · cases h
      exact Json.isBare_of_bareTag? ‹_›
    · cases h

theorem DeclType.IsForm.ofJson?_eq {depth : Nat} {json : Json} {type : DeclType}
    (h : type.IsForm json) (hdepth : json.depth ≤ depth) :
    DeclType.ofJson? depth json = some type := by
  cases type with
  | enumeration name =>
    subst h
    obtain ⟨inner, rfl, -⟩ := Json.exists_depth_of_tagged hdepth
    rfl
  | number | boolean =>
    have htag := Json.IsBare.bareTag? h hdepth
    rcases h with rfl | rfl
    · simp [ofJson?, htag]
    · obtain ⟨inner, rfl, -⟩ := Json.exists_depth_of_tagged hdepth
      simp [ofJson?, htag]

/-- What an expression is read from is a form of it. -/
theorem Expr.isForm_of_ofJson? {depth : Nat} {json : Json} {expr : Expr}
    (h : ofJson? depth json = some expr) : expr.IsForm json := by
  fun_induction ofJson? depth json generalizing expr with
  | case1 =>
    obtain ⟨value, hvalue, rfl⟩ := Option.map_eq_some_iff.mp h
    rw [Json.int64?_eq_some.mp hvalue]
    rfl
  | case2 =>
    obtain ⟨value, hvalue, rfl⟩ := Option.map_eq_some_iff.mp h
    rw [Json.bool?_eq_some.mp hvalue]
    rfl
  | case3 =>
    obtain ⟨name, hname, rfl⟩ := Option.map_eq_some_iff.mp h
    rw [Json.str?_eq_some.mp hname]
    rfl
  | case4 _ _ ih | case5 _ _ ih =>
    obtain ⟨operand, hoperand, rfl⟩ := Option.map_eq_some_iff.mp h
    exact ⟨_, rfl, ih hoperand⟩
  | case6 payload inner op left right hrecord ihl ihr =>
    obtain ⟨_, _, _, hop, hleft, hright, rfl⟩ := Json.read_three_eq_some.mp h
    exact ⟨_, _, _, _, rfl, (Json.record?_eq_some payload _).mp hrecord,
      Json.isBare_of_bind ArithOp.ofTag?_eq_some hop, ihl hleft, ihr hright⟩
  | case8 payload inner op left right hrecord ihl ihr =>
    obtain ⟨_, _, _, hop, hleft, hright, rfl⟩ := Json.read_three_eq_some.mp h
    exact ⟨_, _, _, _, rfl, (Json.record?_eq_some payload _).mp hrecord,
      Json.isBare_of_bind RelOp.ofTag?_eq_some hop, ihl hleft, ihr hright⟩
  | case10 inner left right ihl ihr | case12 inner left right ihl ihr =>
    obtain ⟨_, _, hleft, hright, rfl⟩ := Json.read_two_eq_some.mp h
    exact ⟨_, _, rfl, ihl hleft, ihr hright⟩
  | case7 | case9 | case11 | case13 | case14 | case15 => cases h

/-- Every form of an expression is read, given enough depth. -/
theorem Expr.IsForm.ofJson?_eq {depth : Nat} {json : Json} {expr : Expr} (h : expr.IsForm json)
    (hdepth : json.depth ≤ depth) : ofJson? depth json = some expr := by
  induction expr generalizing json depth with
  | int value =>
    subst h
    obtain ⟨inner, rfl, -⟩ := Json.exists_depth_of_tagged hdepth
    simp [ofJson?, Json.int64?_eq_some]
  | bool | ident =>
    subst h
    obtain ⟨inner, rfl, -⟩ := Json.exists_depth_of_tagged hdepth
    rfl
  | neg operand ih | not operand ih =>
    obtain ⟨form, rfl, hform⟩ := h
    obtain ⟨inner, rfl, hinner⟩ := Json.exists_depth_of_tagged hdepth
    simp only [ofJson?, ih hform hinner, Option.map_some]
  | arith op left right ihl ihr | compare op left right ihl ihr =>
    obtain ⟨record, opForm, leftForm, rightForm, rfl, hrecord, hop, hleft, hright⟩ := h
    obtain ⟨inner, rfl, hfields⟩ := hrecord.exists_depth_of_tagged hdepth
    have hread : record.record? ["op", "left", "right"] 3 =
        some [some opForm, some leftForm, some rightForm] :=
      (Json.record?_eq_some record _).mpr hrecord
    have hop := hop.ofJson?_eq (hfields "op" opForm (by simp))
    have hleft := ihl hleft (hfields "left" leftForm (by simp))
    have hright := ihr hright (hfields "right" rightForm (by simp))
    simp [ofJson?, hread, hop, hleft, hright]
  | and left right ihl ihr | or left right ihl ihr =>
    obtain ⟨leftForm, rightForm, rfl, hleft, hright⟩ := h
    obtain ⟨inner, rfl, hforms⟩ := Json.exists_depth_of_pair hdepth
    simp [ofJson?, ihl hleft hforms.1, ihr hright hforms.2]

theorem isBranchForm_of_mapM {read : Json → Option Stmt} {form : Option Json}
    {branch : Option Stmt} (hread : ∀ {json stmt}, read json = some stmt → stmt.IsForm json)
    (h : (Json.present? form).mapM read = some branch) : IsBranchForm branch form := by
  unfold Json.present? at h
  split at h
  · cases h
    exact .inl rfl
  · cases h
    exact .inr rfl
  · obtain ⟨stmt, hstmt, heq⟩ := Option.map_eq_some_iff.mp h
    cases heq
    exact ⟨_, rfl, hread hstmt⟩

section

variable {depth : Nat} {json : Json}
  (hstmts : ∀ inner < depth, ∀ {json stmt}, Stmt.ofJson? inner json = some stmt → stmt.IsForm json)

include hstmts

theorem isBlockForm_of_ofJson? {body : List Stmt} (h : blockOfJson? depth json = some body) :
    ∃ items, json = .arr items ∧ IsBlockForm body items := by
  revert h
  fun_cases blockOfJson? depth json with
  | case1 inner items =>
    intro h
    refine ⟨items, rfl, isBlockForm_iff.mpr ?_⟩
    exact (Json.mapM_eq_some_iff.mp h).imp fun _ _ => hstmts inner (Nat.lt_succ_self _)
  | case2 =>
    intro h
    cases h

theorem Case.isForm_of_ofJson? {branch : Case} (h : Case.ofJson? depth json = some branch) :
    branch.IsForm json := by
  revert h
  fun_cases Case.ofJson? depth json with
  | case1 inner json value body hrecord =>
    intro h
    obtain ⟨_, _, hvalue, hbody, rfl⟩ := Json.read_two_eq_some.mp h
    obtain ⟨items, rfl, hitems⟩ :=
      isBlockForm_of_ofJson? (fun lower hlt => hstmts lower (Nat.lt_succ_of_lt hlt)) hbody
    exact ⟨_, _, (Json.record?_eq_some json _).mp hrecord, Expr.isForm_of_ofJson? hvalue, hitems⟩
  | case2 | case3 =>
    intro h
    cases h

theorem isCasesForm_of_ofJson? {cases : List Case} (h : casesOfJson? depth json = some cases) :
    ∃ items, json = .arr items ∧ IsCasesForm cases items := by
  revert h
  fun_cases casesOfJson? depth json with
  | case1 inner items =>
    intro h
    refine ⟨items, rfl, isCasesForm_iff.mpr ?_⟩
    exact (Json.mapM_eq_some_iff.mp h).imp fun _ _ =>
      Case.isForm_of_ofJson? fun lower hlt => hstmts lower (Nat.lt_succ_of_lt hlt)
  | case2 =>
    intro h
    cases h

end

/-- What a statement is read from is a form of it. -/
theorem Stmt.isForm_of_ofJson? {depth : Nat} {json : Json} {stmt : Stmt}
    (h : ofJson? depth json = some stmt) : stmt.IsForm json := by
  -- The induction is on the depth: the induction of the function says nothing about
  -- the items of a list.
  induction depth using Nat.strongRecOn generalizing json stmt with
  | ind depth ih =>
    revert h
    fun_cases ofJson? depth json with
    | case1 =>
      intro h
      cases h
      exact .inl rfl
    | case3 =>
      intro h
      cases h
      exact .inr rfl
    | case5 =>
      intro h
      obtain ⟨body, hbody, rfl⟩ := Option.map_eq_some_iff.mp h
      obtain ⟨items, rfl, hitems⟩ :=
        isBlockForm_of_ofJson? (fun lower hlt => ih lower (Nat.lt_succ_of_lt hlt)) hbody
      exact ⟨_, rfl, hitems⟩
    | case6 payload inner name type hrecord =>
      intro h
      obtain ⟨_, _, hname, htype, rfl⟩ := Json.read_two_eq_some.mp h
      rw [Json.str?_eq_some] at hname
      subst hname
      exact ⟨_, _, rfl, (Json.record?_eq_some payload _).mp hrecord,
        DeclType.isForm_of_ofJson? htype⟩
    | case8 payload inner name variants hrecord =>
      intro h
      obtain ⟨_, _, hname, hvariants, rfl⟩ := Json.read_two_eq_some.mp h
      rw [Json.str?_eq_some] at hname
      subst hname
      rw [Json.eq_of_strings? hvariants] at hrecord
      exact ⟨_, rfl, (Json.record?_eq_some payload _).mp hrecord⟩
    | case10 payload inner target value hrecord =>
      intro h
      obtain ⟨_, _, htarget, hvalue, rfl⟩ := Json.read_two_eq_some.mp h
      rw [Json.str?_eq_some] at htarget
      subst htarget
      exact ⟨_, _, rfl, (Json.record?_eq_some payload _).mp hrecord, Expr.isForm_of_ofJson? hvalue⟩
    | case12 payload inner condition thenForm elseForm hrecord =>
      intro h
      obtain ⟨_, _, _, hcondition, hthen, helse, rfl⟩ := Json.read_three_eq_some.mp h
      exact ⟨_, _, _, _, rfl, (Json.record?_eq_some payload _).mp hrecord,
        Expr.isForm_of_ofJson? hcondition, isBranchForm_of_mapM (ih inner (by omega)) hthen,
        isBranchForm_of_mapM (ih inner (by omega)) helse⟩
    | case14 payload inner condition body hrecord =>
      intro h
      obtain ⟨_, _, hcondition, hbody, rfl⟩ := Json.read_two_eq_some.mp h
      exact ⟨_, _, _, rfl, (Json.record?_eq_some payload _).mp hrecord,
        Expr.isForm_of_ofJson? hcondition, ih inner (by omega) hbody⟩
    | case16 payload inner init condition update body hrecord =>
      simp only [Option.bind_eq_bind, Option.bind_eq_some_iff, Option.pure_def, Option.some.injEq]
      rintro ⟨_, hinit, _, hcondition, _, hupdate, _, hbody, rfl⟩
      exact ⟨_, _, _, _, _, rfl, (Json.record?_eq_some payload _).mp hrecord,
        ih inner (by omega) hinit, Expr.isForm_of_ofJson? hcondition,
        ih inner (by omega) hupdate, ih inner (by omega) hbody⟩
    | case18 payload inner selector cases hrecord =>
      intro h
      obtain ⟨_, _, hselector, hcases, rfl⟩ := Json.read_two_eq_some.mp h
      obtain ⟨items, rfl, hitems⟩ :=
        isCasesForm_of_ofJson? (fun lower hlt => ih lower (by omega)) hcases
      exact ⟨_, _, _, rfl, (Json.record?_eq_some payload _).mp hrecord,
        Expr.isForm_of_ofJson? hselector, hitems⟩
    | case2 | case4 | case7 | case9 | case11 | case13 | case15 | case17 | case19 | case20
    | case21 =>
      intro h
      cases h

theorem IsBranchForm.mapM_eq {read : Json → Option Stmt} {form : Option Json}
    {branch : Option Stmt} (h : IsBranchForm branch form)
    (hread : ∀ json stmt, form = some json → stmt.IsForm json → read json = some stmt) :
    (Json.present? form).mapM read = some branch := by
  cases branch with
  | none => rcases h with rfl | rfl <;> rfl
  | some stmt =>
    obtain ⟨json, rfl, hjson⟩ := h
    -- No statement is written as `null`, so a branch is never taken for a missing one.
    have hpresent : Json.present? (some json) = some json := by
      cases json with
      | null => cases stmt <;> simp [Stmt.IsForm, Json.IsBare] at hjson
      | _ => rfl
    rw [hpresent, Option.mapM_some, hread json stmt rfl hjson]
    rfl

section

variable {depth : Nat} {json : Json} {items : List Json}
  (hstmts : ∀ inner < depth, ∀ {json stmt}, Stmt.IsForm stmt json → json.depth ≤ inner →
    Stmt.ofJson? inner json = some stmt)

include hstmts

theorem IsBlockForm.ofJson?_eq {body : List Stmt} (h : IsBlockForm body items)
    (hdepth : (Json.arr items).depth ≤ depth) : blockOfJson? depth (.arr items) = some body := by
  rw [Json.depth] at hdepth
  obtain ⟨inner, rfl⟩ : ∃ inner, depth = inner + 1 := ⟨depth - 1, by omega⟩
  rw [blockOfJson?, Json.mapM_eq_some_iff]
  exact Json.forall₂_of_depth (isBlockForm_iff.mp h) (by omega)
    fun _ _ => hstmts inner (Nat.lt_succ_self inner)

theorem Case.IsForm.ofJson?_eq {branch : Case} (h : branch.IsForm json)
    (hdepth : json.depth ≤ depth) : Case.ofJson? depth json = some branch := by
  obtain ⟨value, body⟩ := branch
  obtain ⟨valueForm, items, hrecord, hvalue, hbody⟩ := h
  obtain ⟨inner, rfl, hfields⟩ := hrecord.exists_depth hdepth
  have hread : json.record? ["value", "body"] 2 = some [some valueForm, some (.arr items)] :=
    (Json.record?_eq_some json _).mpr hrecord
  have hvalue := hvalue.ofJson?_eq (hfields "value" valueForm (by simp))
  have hbody := hbody.ofJson?_eq (fun lower hlower => hstmts lower (Nat.lt_succ_of_lt hlower))
    (hfields "body" (.arr items) (by simp))
  simp [Case.ofJson?, hread, hvalue, hbody]

theorem IsCasesForm.ofJson?_eq {cases : List Case} (h : IsCasesForm cases items)
    (hdepth : (Json.arr items).depth ≤ depth) : casesOfJson? depth (.arr items) = some cases := by
  rw [Json.depth] at hdepth
  obtain ⟨inner, rfl⟩ : ∃ inner, depth = inner + 1 := ⟨depth - 1, by omega⟩
  rw [casesOfJson?, Json.mapM_eq_some_iff]
  exact Json.forall₂_of_depth (isCasesForm_iff.mp h) (by omega) fun _ _ hbranch =>
    hbranch.ofJson?_eq fun lower hlower => hstmts lower (Nat.lt_succ_of_lt hlower)

end

/-- Every form of a statement is read, given enough depth. -/
theorem Stmt.IsForm.ofJson?_eq {depth : Nat} {json : Json} {stmt : Stmt} (h : stmt.IsForm json)
    (hdepth : json.depth ≤ depth) : Stmt.ofJson? depth json = some stmt := by
  induction depth using Nat.strongRecOn generalizing json stmt with
  | ind depth ih =>
    cases stmt with
    | breakSwitch =>
      rcases h with rfl | rfl
      · simp [Stmt.ofJson?]
      · obtain ⟨inner, rfl, -⟩ := Json.exists_depth_of_tagged hdepth
        rfl
    | block body =>
      obtain ⟨items, rfl, hbody⟩ := h
      obtain ⟨inner, rfl, hinner⟩ := Json.exists_depth_of_tagged hdepth
      have hbody := hbody.ofJson?_eq (fun lower hlt => ih lower (Nat.lt_succ_of_lt hlt)) hinner
      simp [Stmt.ofJson?, hbody]
    | declare name type =>
      obtain ⟨record, typeForm, rfl, hrecord, htype⟩ := h
      obtain ⟨inner, rfl, hfields⟩ := hrecord.exists_depth_of_tagged hdepth
      have hread : record.record? ["name", "ty"] 2 = some [some (.str name), some typeForm] :=
        (Json.record?_eq_some record _).mpr hrecord
      have htype := htype.ofJson?_eq (hfields "ty" typeForm (by simp))
      simp [Stmt.ofJson?, hread, Json.str?, htype]
    | declareEnum name variants =>
      obtain ⟨record, rfl, hrecord⟩ := h
      obtain ⟨inner, rfl, hfields⟩ := hrecord.exists_depth_of_tagged hdepth
      have hread : record.record? ["name", "variants"] 2 =
          some [some (.str name), some (.arr (variants.map .str))] :=
        (Json.record?_eq_some record _).mpr hrecord
      have hvariants := hfields "variants" (.arr (variants.map .str)) (by simp)
      rw [Json.depth] at hvariants
      obtain ⟨lower, rfl⟩ : ∃ lower, inner = lower + 1 := ⟨inner - 1, by omega⟩
      simp [Stmt.ofJson?, hread, Json.str?, Json.strings?_eq_some]
    | assign target value =>
      obtain ⟨record, valueForm, rfl, hrecord, hvalue⟩ := h
      obtain ⟨inner, rfl, hfields⟩ := hrecord.exists_depth_of_tagged hdepth
      have hread : record.record? ["target", "value"] 2 =
          some [some (.str target), some valueForm] :=
        (Json.record?_eq_some record _).mpr hrecord
      have hvalue := hvalue.ofJson?_eq (hfields "value" valueForm (by simp))
      simp [Stmt.ofJson?, hread, Json.str?, hvalue]
    | ite condition thenBranch elseBranch =>
      obtain ⟨record, conditionForm, thenForm, elseForm, rfl, hrecord, hcondition, hthen,
        helse⟩ := h
      obtain ⟨inner, rfl, hfields⟩ := hrecord.exists_depth_of_tagged hdepth
      have hread : record.record? ["condition", "then_branch", "else_branch"] 3 =
          some [some conditionForm, thenForm, elseForm] :=
        (Json.record?_eq_some record _).mpr hrecord
      have hcondition := hcondition.ofJson?_eq (hfields "condition" conditionForm (by simp))
      have hthen := hthen.mapM_eq fun json stmt hjson hstmt =>
        ih inner (by omega) hstmt (hfields "then_branch" json (by simp [hjson]))
      have helse := helse.mapM_eq fun json stmt hjson hstmt =>
        ih inner (by omega) hstmt (hfields "else_branch" json (by simp [hjson]))
      simp [Stmt.ofJson?, hread, hcondition, hthen, helse]
    | whileLoop condition body =>
      obtain ⟨record, conditionForm, bodyForm, rfl, hrecord, hcondition, hbody⟩ := h
      obtain ⟨inner, rfl, hfields⟩ := hrecord.exists_depth_of_tagged hdepth
      have hread : record.record? ["condition", "body"] 2 =
          some [some conditionForm, some bodyForm] :=
        (Json.record?_eq_some record _).mpr hrecord
      have hcondition := hcondition.ofJson?_eq (hfields "condition" conditionForm (by simp))
      have hbody := ih inner (by omega) hbody (hfields "body" bodyForm (by simp))
      simp [Stmt.ofJson?, hread, hcondition, hbody]
    | forLoop init condition update body =>
      obtain ⟨record, initForm, conditionForm, updateForm, bodyForm, rfl, hrecord, hinit,
        hcondition, hupdate, hbody⟩ := h
      obtain ⟨inner, rfl, hfields⟩ := hrecord.exists_depth_of_tagged hdepth
      have hread : record.record? ["init", "condition", "update", "body"] 4 =
          some [some initForm, some conditionForm, some updateForm, some bodyForm] :=
        (Json.record?_eq_some record _).mpr hrecord
      have hinit := ih inner (by omega) hinit (hfields "init" initForm (by simp))
      have hcondition := hcondition.ofJson?_eq (hfields "condition" conditionForm (by simp))
      have hupdate := ih inner (by omega) hupdate (hfields "update" updateForm (by simp))
      have hbody := ih inner (by omega) hbody (hfields "body" bodyForm (by simp))
      simp [Stmt.ofJson?, hread, hinit, hcondition, hupdate, hbody]
    | switch selector cases =>
      obtain ⟨record, selectorForm, items, rfl, hrecord, hselector, hcases⟩ := h
      obtain ⟨inner, rfl, hfields⟩ := hrecord.exists_depth_of_tagged hdepth
      have hread : record.record? ["selector", "cases"] 2 =
          some [some selectorForm, some (.arr items)] :=
        (Json.record?_eq_some record _).mpr hrecord
      have hselector := hselector.ofJson?_eq (hfields "selector" selectorForm (by simp))
      have hcases := hcases.ofJson?_eq (fun lower hlt => ih lower (by omega))
        (hfields "cases" (.arr items) (by simp))
      simp [Stmt.ofJson?, hread, hselector, hcases]

namespace Program

theorem isForm_of_ofJson? {json : Json} {program : Program} (h : ofJson? json = some program) :
    program.IsForm json := by
  unfold ofJson? ofJsonWithin? at h
  split at h
  · split at h
    · rename_i body hrecord
      obtain ⟨stmts, hstmts, rfl⟩ := Option.map_eq_some_iff.mp h
      obtain ⟨items, rfl, hitems⟩ :=
        isBlockForm_of_ofJson? (fun _ _ _ _ => Stmt.isForm_of_ofJson?) hstmts
      exact ⟨items, (Json.record?_eq_some _ _).mp hrecord, hitems⟩
    · cases h
  · cases h

theorem IsForm.ofJson?_eq {json : Json} {program : Program} (h : program.IsForm json) :
    ofJson? json = some program := by
  obtain ⟨items, hrecord, hbody⟩ := h
  obtain ⟨inner, hinner, hfields⟩ := hrecord.exists_depth (Nat.le_refl json.depth)
  have hread : json.record? ["body"] 1 = some [some (.arr items)] :=
    (Json.record?_eq_some json _).mpr hrecord
  have hbody := hbody.ofJson?_eq (fun _ _ _ _ => Stmt.IsForm.ofJson?_eq)
    (hfields "body" (.arr items) (by simp))
  simp [ofJson?, hinner, ofJsonWithin?, hread, hbody]

/-- Reading takes exactly the forms of programs, and what is written is one of them.
So a program that is written is read back, and writing what was read gives the one
form that is written again, whatever form was read. -/
theorem reading_inverts_writing :
    (∀ program : Program, ofJson? program.toJson = some program) ∧
      (∀ json program, ofJson? json = some program ↔ program.IsForm json) ∧
      ∀ json canonical, (ofJson? json).map toJson = some canonical →
        ofJson? canonical = ofJson? json ∧ (ofJson? canonical).map toJson = some canonical := by
  have hback : ∀ program : Program, ofJson? program.toJson = some program :=
    fun program => program.isForm_toJson.ofJson?_eq
  refine ⟨hback, fun json program => ⟨isForm_of_ofJson?, IsForm.ofJson?_eq⟩, ?_⟩
  intro json canonical h
  obtain ⟨program, hread, rfl⟩ := Option.map_eq_some_iff.mp h
  rw [hback, hread]
  exact ⟨rfl, rfl⟩

example : ofJson? (.arr [.arr [.obj [("Break", .null)],
      .obj [("If", .obj [("condition", .obj [("Bool", .bool true)]), ("line", .real)])]]]) =
    some ⟨[.breakSwitch, .ite (.bool true) none none]⟩ := by
  rfl

end Program

end ThreeAddress
