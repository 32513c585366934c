import Mathlib.Data.List.Induction
import ThreeAddress.Proofs.Acceptance
import ThreeAddress.Proofs.InstructionCounts

/-!
What a name is declared as. A program declares names in many places and may declare
one name more than once, each time as something else. Its symbol table goes by the
last declaration of a name in reading order, and the kind and the ordinal that it has
for the name are those of this one declaration. So a name that is declared anywhere is
never found undeclared when the program is lowered.
-/

namespace ThreeAddress

/-- What a declaration says of its name. -/
inductive Meaning where
  | ofType (type : DeclType)
  | enumeration
  | variant (ordinal : Nat)
  deriving DecidableEq, Repr

def Meaning.kind : Meaning → SymbolKind
  | .ofType type => type.kind
  | .enumeration => .enumType
  | .variant _ => .enumVariant

structure Declaration where
  name : String
  meaning : Meaning
  deriving DecidableEq, Repr

/-- The declarations that a statement itself makes. An enumeration comes before its
variants, and these are numbered from zero as they are listed. -/
def Stmt.declarations : Stmt → List Declaration
  | .declare name type => [⟨name, .ofType type⟩]
  | .declareEnum name variants =>
      ⟨name, .enumeration⟩ ::
        variants.zipIdx.map fun (variant, ordinal) => ⟨variant, .variant ordinal⟩
  | _ => []

/-- All declarations of a program, at any depth, in reading order. -/
def Program.declarations (program : Program) : List Declaration :=
  program.statements.flatMap Stmt.declarations

/-- The last declaration of a name. -/
def lastDeclaration? (declarations : List Declaration) (name : String) : Option Declaration :=
  (declarations.filter (·.name = name)).getLast?

theorem lastDeclaration?_concat (declarations : List Declaration) (declaration : Declaration)
    (name : String) :
    lastDeclaration? (declarations ++ [declaration]) name =
      if declaration.name = name then some declaration
      else lastDeclaration? declarations name := by
  by_cases h : declaration.name = name <;> simp [lastDeclaration?, h]

theorem name_of_lastDeclaration? {declarations : List Declaration} {declaration : Declaration}
    {name : String} (h : lastDeclaration? declarations name = some declaration) :
    declaration.name = name := by
  have hmem := List.mem_of_getLast? h
  simpa using (List.mem_filter.mp hmem).2

theorem lastDeclaration?_eq_none {declarations : List Declaration} {name : String} :
    lastDeclaration? declarations name = none ↔
      ∀ declaration ∈ declarations, declaration.name ≠ name := by
  simp [lastDeclaration?]

namespace Symbols

/-- The table with one more declaration. -/
def add (symbols : Symbols) (declaration : Declaration) : Symbols :=
  match declaration.meaning with
  | .variant ordinal => symbols.declareVariant declaration.name (Int64.ofNat ordinal)
  | meaning => symbols.declare declaration.name meaning.kind

theorem lookup_add (symbols : Symbols) (declaration : Declaration) (name : String) :
    (symbols.add declaration).lookup name =
      if declaration.name = name then some declaration.meaning.kind else symbols.lookup name := by
  obtain ⟨declared, meaning⟩ := declaration
  cases meaning <;>
    simp [add, declare, declareVariant, lookup, Meaning.kind, Std.ExtTreeMap.getElem?_insert]

theorem ordinal?_add_variant (symbols : Symbols) (name : String) (ordinal : Nat) :
    (symbols.add ⟨name, .variant ordinal⟩).ordinal? name = some (Int64.ofNat ordinal) := by
  simp [add, declareVariant, ordinal?]

/-- Declaring another name leaves an ordinal as it is. -/
theorem ordinal?_add_of_ne (symbols : Symbols) {declaration : Declaration} {name : String}
    (h : declaration.name ≠ name) :
    (symbols.add declaration).ordinal? name = symbols.ordinal? name := by
  obtain ⟨declared, meaning⟩ := declaration
  cases meaning <;>
    simp_all [add, declare, declareVariant, ordinal?, Std.ExtTreeMap.getElem?_insert]

theorem declareVariants_eq (symbols : Symbols) (first : Nat) (variants : List String) :
    symbols.declareVariants first variants =
      ((variants.zipIdx first).map fun (variant, ordinal) =>
        (⟨variant, .variant ordinal⟩ : Declaration)).foldl add symbols := by
  induction variants generalizing symbols first with
  | nil => rfl
  | cons variant rest ih =>
    rw [declareVariants, ih, List.zipIdx_cons, List.map_cons, List.foldl_cons]
    rfl

/-- The table is filled by adding the declarations in reading order. Each construct walks
its parts in the order in which `Stmt.parts` lists them. -/
theorem add_walk :
    (∀ symbols stmt,
      addStmt symbols stmt = (stmt.parts.flatMap Stmt.declarations).foldl add symbols) ∧
    (∀ symbols cases,
      addCases symbols cases = ((caseParts cases).flatMap Stmt.declarations).foldl add symbols) ∧
    (∀ symbols body,
      addBlock symbols body = ((blockParts body).flatMap Stmt.declarations).foldl add symbols) ∧
    (∀ symbols branch,
      addBranch symbols branch =
        ((branchParts branch).flatMap Stmt.declarations).foldl add symbols) := by
  refine addStmt.mutual_induct _ _ _ _ ?declare ?declareEnum ?block ?ite ?whileLoop ?forLoop
    ?switch ?assign ?breakSwitch ?blockNil ?blockCons ?branchNone ?branchSome ?casesNil ?casesCons
  case declare =>
    intro symbols name type
    rfl
  case declareEnum =>
    intro symbols name variants
    rw [addStmt, declareVariants_eq]
    simp only [Stmt.parts, List.flatMap_singleton, Stmt.declarations, List.foldl_cons]
    rfl
  case block =>
    intro symbols body ih
    simpa [addStmt, Stmt.parts, Stmt.declarations] using ih
  case ite =>
    intro symbols condition thenBranch elseBranch ihthen ihelse
    rw [addStmt, ihelse, ihthen]
    simp [Stmt.parts, Stmt.declarations]
  case whileLoop =>
    intro symbols condition body ih
    simpa [addStmt, Stmt.parts, Stmt.declarations] using ih
  case forLoop =>
    intro symbols init condition update body ihinit ihupdate ihbody
    rw [addStmt, ihbody, ihupdate, ihinit]
    simp [Stmt.parts, Stmt.declarations]
  case switch =>
    intro symbols selector cases ih
    simpa [addStmt, Stmt.parts, Stmt.declarations] using ih
  case assign =>
    intro symbols target value
    rfl
  case breakSwitch =>
    intro symbols
    rfl
  case blockNil =>
    intro symbols
    rfl
  case blockCons =>
    intro symbols stmt rest ihstmt ihrest
    rw [addBlock, ihrest, ihstmt]
    simp [blockParts]
  case branchNone =>
    intro symbols
    rfl
  case branchSome =>
    intro symbols branch ih
    rw [addBranch, ih, branchParts]
  case casesNil =>
    intro symbols
    rfl
  case casesCons =>
    intro symbols value body rest ihbody ihrest
    rw [addCases, ihrest, ihbody]
    simp [caseParts]

theorem ofProgram_eq (program : Program) :
    ofProgram program = program.declarations.foldl add empty := by
  obtain ⟨_, _, hblock, _⟩ := add_walk
  exact hblock empty program.body

/-- A table knows a name by one declaration, or does not know it. -/
structure Knows (symbols : Symbols) (name : String) (declaration? : Option Declaration) :
    Prop where
  kind : symbols.lookup name = declaration?.map (·.meaning.kind)
  ordinal : ∀ ordinal, declaration?.map Declaration.meaning = some (.variant ordinal) →
    symbols.ordinal? name = some (Int64.ofNat ordinal)

/-- A new declaration is what its name is known by from then on, and the kind and the
ordinal change together. -/
theorem Knows.add {symbols : Symbols} {name : String} {declaration? : Option Declaration}
    (h : symbols.Knows name declaration?) (declaration : Declaration) :
    (symbols.add declaration).Knows name
      (if declaration.name = name then some declaration else declaration?) := by
  by_cases hname : declaration.name = name
  · subst hname
    refine ⟨by simp [lookup_add], ?_⟩
    intro ordinal hmeaning
    obtain ⟨declared, meaning⟩ := declaration
    obtain rfl : meaning = .variant ordinal := by simpa using hmeaning
    exact ordinal?_add_variant symbols declared ordinal
  · rw [if_neg hname]
    refine ⟨by rw [lookup_add, if_neg hname, h.kind], ?_⟩
    intro ordinal hmeaning
    rw [ordinal?_add_of_ne symbols hname]
    exact h.ordinal ordinal hmeaning

theorem knows_foldl_add (declarations : List Declaration) (name : String) :
    (declarations.foldl add empty).Knows name (lastDeclaration? declarations name) := by
  induction declarations using List.reverseRecOn with
  | nil => exact ⟨by simp [empty, lookup, lastDeclaration?], by simp [lastDeclaration?]⟩
  | append_singleton declarations declaration ih =>
    rw [List.foldl_append, lastDeclaration?_concat]
    exact ih.add declaration

theorem ofProgram_knows (program : Program) (name : String) :
    (ofProgram program).Knows name (lastDeclaration? program.declarations name) := by
  rw [ofProgram_eq]
  exact knows_foldl_add program.declarations name

/-- A name that is known as a variant is known with its ordinal. -/
theorem Knows.variant {symbols : Symbols} {name : String} {declaration? : Option Declaration}
    (h : symbols.Knows name declaration?) (hkind : symbols.lookup name = some .enumVariant) :
    ∃ ordinal, declaration?.map Declaration.meaning = some (.variant ordinal) ∧
      symbols.ordinal? name = some (Int64.ofNat ordinal) := by
  rw [h.kind] at hkind
  obtain ⟨⟨declared, meaning⟩, rfl, hmeaning⟩ := Option.map_eq_some_iff.mp hkind
  cases meaning with
  | variant ordinal => exact ⟨ordinal, rfl, h.ordinal ordinal rfl⟩
  | enumeration => cases hmeaning
  | ofType type => cases type <;> cases hmeaning

end Symbols

/-- A name is resolved to its last declaration. Its kind is the one that this declaration
gives it, a variant has the ordinal of this declaration, and only names without any
declaration are not found. So lowering a program with its own table never calls a name
undeclared that the program declares somewhere. -/
theorem Symbols.ofProgram_last_declaration (program : Program) (name : String) :
    (ofProgram program).lookup name =
      (lastDeclaration? program.declarations name).map (·.meaning.kind) ∧
    ((ofProgram program).lookup name = none ↔
      ∀ declaration ∈ program.declarations, declaration.name ≠ name) ∧
    ((ofProgram program).lookup name = some .enumVariant →
      ∃ ordinal, lastDeclaration? program.declarations name = some ⟨name, .variant ordinal⟩ ∧
        (ofProgram program).resolveOrdinal name = .ok (Int64.ofNat ordinal)) ∧
    ((∃ declaration ∈ program.declarations, declaration.name = name) →
      program.toCode (ofProgram program) ≠ .error (.undeclared name)) := by
  have hknows := ofProgram_knows program name
  have hnone : (ofProgram program).lookup name = none ↔
      ∀ declaration ∈ program.declarations, declaration.name ≠ name := by
    rw [hknows.kind, Option.map_eq_none_iff, lastDeclaration?_eq_none]
  refine ⟨hknows.kind, hnone, ?_, ?_⟩
  · intro hkind
    obtain ⟨ordinal, hlast, hordinal⟩ := hknows.variant hkind
    obtain ⟨⟨declared, meaning⟩, hlast, hmeaning⟩ := Option.map_eq_some_iff.mp hlast
    obtain rfl : declared = name := name_of_lastDeclaration? hlast
    obtain rfl : meaning = .variant ordinal := hmeaning
    exact ⟨ordinal, hlast, by rw [resolveOrdinal, hordinal]⟩
  · rintro ⟨declaration, hmem, hname⟩ hfails
    rcases Program.faults_of_toCode hfails with hlookup | ⟨hkind, hlost⟩
    · exact hnone.mp hlookup declaration hmem hname
    · obtain ⟨ordinal, _, hordinal⟩ := hknows.variant hkind
      rw [hlost] at hordinal
      cases hordinal

-- A name that is declared three times, the last time inside of a loop.
example : lastDeclaration? (Program.declarations ⟨[.declare "b" .number, .declareEnum "e" ["b"],
    .whileLoop (.bool true) (.block [.declareEnum "f" ["a", "b"]])]⟩) "b" =
      some ⟨"b", .variant 1⟩ := by decide

end ThreeAddress
