import ThreeAddress.Json.Basic

/-!
JSON text as tokens. The text is read once, character by character, and what has
been read of an unfinished token is the mode of the scanner. Between tokens only
blanks, tabs and line ends may stand.
-/

namespace ThreeAddress.Json

inductive Token where
  | openBrace
  | closeBrace
  | openBracket
  | closeBracket
  | colon
  | comma
  | atom (value : Json)
  | string (text : Option String)

namespace Token

/-- A part of a string: a character, or a sixteen-bit unit written in
hexadecimal digits. -/
inductive Piece where
  | char (c : Char)
  | unit (code : Nat)

def isHighSurrogate (code : Nat) : Bool :=
  0xD800 ≤ code && code < 0xDC00

def isLowSurrogate (code : Nat) : Bool :=
  0xDC00 ≤ code && code < 0xE000

/-- The characters that the parts of a string stand for. Two units make one
character when they are a pair of surrogates, and a surrogate without its partner
makes none. -/
def characters? : List Piece → Option (List Char)
  | [] => some []
  | .char c :: rest => (characters? rest).map (c :: ·)
  | [.unit code] =>
      if isHighSurrogate code || isLowSurrogate code then none else some [Char.ofNat code]
  | .unit code :: .char c :: rest =>
      if isHighSurrogate code || isLowSurrogate code then none
      else (characters? rest).map (Char.ofNat code :: c :: ·)
  | .unit code :: .unit next :: rest =>
      if isHighSurrogate code && isLowSurrogate next then
        let paired := 0x10000 + (code - 0xD800) * 0x400 + (next - 0xDC00)
        (characters? rest).map (Char.ofNat paired :: ·)
      else if isHighSurrogate code || isLowSurrogate code then none
      else (characters? (.unit next :: rest)).map (Char.ofNat code :: ·)

def hexDigit? (c : Char) : Option Nat :=
  if '0' ≤ c ∧ c ≤ '9' then some (c.toNat - '0'.toNat)
  else if 'a' ≤ c ∧ c ≤ 'f' then some (c.toNat - 'a'.toNat + 10)
  else if 'A' ≤ c ∧ c ≤ 'F' then some (c.toNat - 'A'.toNat + 10)
  else none

/-- What a character behind a backslash stands for. -/
def escaped? : Char → Option Char
  | '"' => some '"'
  | '\\' => some '\\'
  | '/' => some '/'
  | 'b' => some '\x08'
  | 'f' => some '\x0c'
  | 'n' => some '\n'
  | 'r' => some '\r'
  | 't' => some '\t'
  | _ => none

def decimal (digits : List Char) : Nat :=
  digits.foldl (fun value c => 10 * value + (c.toNat - '0'.toNat)) 0

def isDigits (text : List Char) : Bool :=
  !text.isEmpty && text.all Char.isDigit

/-- Whether this may follow the digits of a number as its exponent. -/
def isExponent : List Char → Bool
  | [] => true
  | mark :: rest =>
      (mark == 'e' || mark == 'E') &&
        match rest with
        | '+' :: digits | '-' :: digits => isDigits digits
        | digits => isDigits digits

/-- A number. Its digits before the point have no leading zero. -/
def number? (text : List Char) : Option Json :=
  let (negative, unsigned) :=
    match text with
    | '-' :: rest => (true, rest)
    | _ => (false, text)
  let digits := unsigned.takeWhile Char.isDigit
  let tail := unsigned.dropWhile Char.isDigit
  if digits.isEmpty || (digits.head? == some '0' && digits.length != 1) then none
  else
    match tail with
    | [] =>
        let value := decimal digits
        if negative then
          some (if value = 0 then .real else .int (-(value : Int)))
        else some (.int value)
    | '.' :: rest =>
        if rest.head?.any Char.isDigit && isExponent (rest.dropWhile Char.isDigit) then some .real
        else none
    | _ => if isExponent tail then some .real else none

/-- What the scanner has read of the token it is in. The parts of strings and
the characters of numbers are kept last first. -/
inductive Mode where
  | between
  | word (expected : List Char) (value : Json)
  | number (read : List Char)
  | string (read : List Piece)
  | escape (read : List Piece)
  | unit (read : List Piece) (digits : Nat) (code : Nat)

/-- The mode and the finished tokens, last first. -/
structure Scanner where
  mode : Mode
  tokens : List Token

namespace Scanner

def add (scanner : Scanner) (token : Token) : Scanner :=
  ⟨.between, token :: scanner.tokens⟩

/-- Reads a character that is not inside a token. -/
def start (tokens : List Token) (c : Char) : Option Scanner :=
  match c with
  | ' ' | '\t' | '\n' | '\r' => some ⟨.between, tokens⟩
  | '\x7b' => some ⟨.between, .openBrace :: tokens⟩
  | '\x7d' => some ⟨.between, .closeBrace :: tokens⟩
  | '[' => some ⟨.between, .openBracket :: tokens⟩
  | ']' => some ⟨.between, .closeBracket :: tokens⟩
  | ':' => some ⟨.between, .colon :: tokens⟩
  | ',' => some ⟨.between, .comma :: tokens⟩
  | '"' => some ⟨.string [], tokens⟩
  | 'n' => some ⟨.word ['u', 'l', 'l'] .null, tokens⟩
  | 't' => some ⟨.word ['r', 'u', 'e'] (.bool true), tokens⟩
  | 'f' => some ⟨.word ['a', 'l', 's', 'e'] (.bool false), tokens⟩
  | _ => if c == '-' || c.isDigit then some ⟨.number [c], tokens⟩ else none

/-- A number goes on for as long as its characters can be part of one. -/
def isNumberPart (c : Char) : Bool :=
  c.isDigit || c == '+' || c == '-' || c == '.' || c == 'e' || c == 'E'

def step (scanner : Scanner) (c : Char) : Option Scanner :=
  match scanner.mode with
  | .between => start scanner.tokens c
  | .word [] _ => none
  | .word [last] value => if c = last then some (scanner.add (.atom value)) else none
  | .word (next :: rest) value =>
      if c = next then some { scanner with mode := .word rest value } else none
  | .number read =>
      if isNumberPart c then some { scanner with mode := .number (c :: read) }
      else do
        let value ← number? read.reverse
        start (.atom value :: scanner.tokens) c
  | .string read =>
      if c = '"' then
        some (scanner.add (.string ((characters? read.reverse).map String.ofList)))
      else if c = '\\' then some { scanner with mode := .escape read }
      else if c.toNat < 0x20 then none
      else some { scanner with mode := .string (.char c :: read) }
  | .escape read =>
      if c = 'u' then some { scanner with mode := .unit read 0 0 }
      else do
        let meant ← escaped? c
        some { scanner with mode := .string (.char meant :: read) }
  | .unit read digits code => do
      let digit ← hexDigit? c
      let code := 16 * code + digit
      some { scanner with
        mode := if digits = 3 then .string (.unit code :: read) else .unit read (digits + 1) code }

/-- The tokens in their order, when the text may end here. -/
def finish (scanner : Scanner) : Option (List Token) :=
  match scanner.mode with
  | .between => some scanner.tokens.reverse
  | .number read => do
      let value ← number? read.reverse
      some (.atom value :: scanner.tokens).reverse
  | _ => none

end Scanner

/-- All tokens of a text. -/
def scan (text : String) : Option (List Token) := do
  let scanner ← text.toList.foldlM Scanner.step ⟨.between, []⟩
  scanner.finish

end Token

end ThreeAddress.Json
