import Std.Data.ExtTreeMap
import ThreeAddress.Error

/-!
The symbol table. A name has one kind, the one it was given last, and an
enumeration variant also has an ordinal. The table is filled by one walk over
the whole program, so a declaration counts everywhere, before and after the
place where it stands.
-/

namespace ThreeAddress

/-- Kinds and ordinals are kept apart: giving a name a new kind leaves an
ordinal it had before in place. -/
structure Symbols where
  kinds : Std.ExtTreeMap String SymbolKind
  ordinals : Std.ExtTreeMap String Int64

namespace Symbols

def empty : Symbols := ⟨∅, ∅⟩

instance : EmptyCollection Symbols := ⟨empty⟩

def declare (symbols : Symbols) (name : String) (kind : SymbolKind) : Symbols :=
  { symbols with kinds := symbols.kinds.insert name kind }

def declareVariant (symbols : Symbols) (name : String) (ordinal : Int64) : Symbols :=
  { kinds := symbols.kinds.insert name .enumVariant
    ordinals := symbols.ordinals.insert name ordinal }

def lookup (symbols : Symbols) (name : String) : Option SymbolKind :=
  symbols.kinds[name]?

/-- The ordinal last recorded for the name, whatever its kind is now. -/
def ordinal? (symbols : Symbols) (name : String) : Option Int64 :=
  symbols.ordinals[name]?

/-- The kind of a name that must be declared. -/
def resolve (symbols : Symbols) (name : String) : Except Error SymbolKind :=
  match symbols.lookup name with
  | some kind => .ok kind
  | none => .error (.undeclared name)

def resolveOrdinal (symbols : Symbols) (name : String) : Except Error Int64 :=
  match symbols.ordinal? name with
  | some ordinal => .ok ordinal
  | none => .error (.undeclared name)

/-- Declares variants with consecutive ordinals, the first one as given. -/
def declareVariants (symbols : Symbols) (first : Nat) : List String → Symbols
  | [] => symbols
  | name :: rest =>
      (symbols.declareVariant name (Int64.ofNat first)).declareVariants (first + 1) rest

mutual

/-- Adds every declaration of one statement, in reading order. The conditions
and values of a statement declare nothing. -/
def addStmt (symbols : Symbols) : Stmt → Symbols
  | .declare name type => symbols.declare name type.kind
  | .declareEnum name variants => (symbols.declare name .enumType).declareVariants 0 variants
  | .block body => symbols.addBlock body
  | .ite _ thenBranch elseBranch => (symbols.addBranch thenBranch).addBranch elseBranch
  | .whileLoop _ body => symbols.addStmt body
  | .forLoop init _ update body => ((symbols.addStmt init).addStmt update).addStmt body
  | .switch _ cases => symbols.addCases cases
  | .assign .. | .breakSwitch => symbols

def addBranch (symbols : Symbols) : Option Stmt → Symbols
  | none => symbols
  | some branch => symbols.addStmt branch

def addBlock (symbols : Symbols) : List Stmt → Symbols
  | [] => symbols
  | stmt :: rest => (symbols.addStmt stmt).addBlock rest

def addCases (symbols : Symbols) : List Case → Symbols
  | [] => symbols
  | ⟨_, body⟩ :: rest => (symbols.addBlock body).addCases rest

end

/-- The table of all declarations of a program. -/
def ofProgram (program : Program) : Symbols :=
  empty.addBlock program.body

end Symbols

end ThreeAddress
