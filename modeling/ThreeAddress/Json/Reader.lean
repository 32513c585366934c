import ThreeAddress.Json.Token

/-!
JSON text as a value. The reader goes through the tokens once and keeps the
arrays and objects that are still open, so nesting costs it nothing but memory.
-/

namespace ThreeAddress.Json

/-- An array or object that is not closed yet, its contents last first. A
`member` is an object whose next value is being read. A name is `none` when it is
not readable text. -/
inductive Opened where
  | array (items : List Json)
  | object (members : List (Option String × Json))
  | member (members : List (Option String × Json)) (name : Option String)

/-- What the next token may be. -/
inductive Expected where
  | value
  | itemOrClose
  | name
  | nameOrClose
  | colon (name : Option String)
  | commaOrClose
  | nothing (value : Json)

structure Reader where
  expected : Expected
  opened : List Opened

namespace Reader

/-- A closed object. It is readable if all of its names are. -/
def closeObject (members : List (Option String × Json)) : Json :=
  match members.reverse.mapM fun (name, value) => name.map (·, value) with
  | some members => .obj members
  | none => .unreadable

/-- Puts a finished value where it belongs. -/
def add (value : Json) : List Opened → Option Reader
  | [] => some ⟨.nothing value, []⟩
  | .array items :: outer => some ⟨.commaOrClose, .array (value :: items) :: outer⟩
  | .member members name :: outer =>
      some ⟨.commaOrClose, .object ((name, value) :: members) :: outer⟩
  | .object _ :: _ => none

/-- Reads the first token of a value. -/
def start (opened : List Opened) : Token → Option Reader
  | .atom value => add value opened
  | .string text => add (text.elim .unreadable .str) opened
  | .openBracket => some ⟨.itemOrClose, .array [] :: opened⟩
  | .openBrace => some ⟨.nameOrClose, .object [] :: opened⟩
  | _ => none

def step (reader : Reader) (token : Token) : Option Reader :=
  match reader.expected, reader.opened, token with
  | .itemOrClose, .array items :: outer, .closeBracket => add (.arr items.reverse) outer
  | .commaOrClose, .array items :: outer, .closeBracket => add (.arr items.reverse) outer
  | .nameOrClose, .object members :: outer, .closeBrace => add (closeObject members) outer
  | .commaOrClose, .object members :: outer, .closeBrace => add (closeObject members) outer
  | .commaOrClose, .array items :: outer, .comma => some ⟨.value, .array items :: outer⟩
  | .commaOrClose, .object members :: outer, .comma => some ⟨.name, .object members :: outer⟩
  | .name, opened, .string text => some ⟨.colon text, opened⟩
  | .nameOrClose, opened, .string text => some ⟨.colon text, opened⟩
  | .colon name, .object members :: outer, .colon => some ⟨.value, .member members name :: outer⟩
  | .value, opened, token => start opened token
  | .itemOrClose, opened, token => start opened token
  | _, _, _ => none

end Reader

/-- The value that a text is written for. Nothing but blanks may stand around
it. -/
def parse? (text : String) : Option Json := do
  let tokens ← Token.scan text
  let reader ← tokens.foldlM Reader.step ⟨.value, []⟩
  match reader.expected with
  | .nothing value => some value
  | _ => none

end ThreeAddress.Json
