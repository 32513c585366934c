/-!
The command line. Words that start with two hyphens are options, until a word
of two hyphens and nothing else ends them. Exactly one other word is given, the
path of the input. Only `--output` may be given more than once.
-/

namespace ThreeAddress.Command

/-- What the command line asks for. -/
structure Settings where
  ir : Bool
  asm : Bool
  both : Bool
  registers : Option Nat
  irOut : Option String
  asmOut : Option String
  outputs : List String
  deriving DecidableEq, Repr

namespace Settings

def default : Settings := ⟨false, false, false, none, none, none, []⟩

/-- Code is wanted also when nothing is asked for. -/
def wantsCode (settings : Settings) : Bool :=
  settings.ir || settings.both || !settings.asm

def wantsAssembly (settings : Settings) : Bool :=
  settings.asm || settings.both

/-- A number in decimal digits, below 2⁶⁴. A plus sign and leading zeros do not
matter. -/
def registerCount? (text : String) : Option Nat :=
  let digits :=
    match text.toList with
    | '+' :: rest => rest
    | all => all
  let count := digits.foldl (fun value c => 10 * value + (c.toNat - '0'.toNat)) 0
  if !digits.isEmpty && digits.all Char.isDigit && count < UInt64.size then some count else none

/-- A path, which is never empty. -/
def path? (text : String) : Option String :=
  if text.isEmpty then none else some text

/-- Takes an option without a value. -/
def addFlag? (settings : Settings) : String → Option Settings
  | "ir" => if settings.ir then none else some { settings with ir := true }
  | "asm" => if settings.asm then none else some { settings with asm := true }
  | "both" => if settings.both then none else some { settings with both := true }
  | _ => none

def takesValue : String → Bool
  | "registers" | "ir-out" | "asm-out" | "output" => true
  | _ => false

/-- Takes an option with its value. -/
def addValue? (settings : Settings) (name value : String) : Option Settings :=
  match name with
  | "registers" =>
      if settings.registers.isSome then none
      else (registerCount? value).map fun count => { settings with registers := some count }
  | "ir-out" =>
      if settings.irOut.isSome then none
      else (path? value).map fun path => { settings with irOut := some path }
  | "asm-out" =>
      if settings.asmOut.isSome then none
      else (path? value).map fun path => { settings with asmOut := some path }
  | "output" => some { settings with outputs := settings.outputs ++ [value] }
  | _ => none

end Settings

/-- What a word of the command line looks like. -/
inductive Word where
  | endOfOptions
  | option (name : String) (value : Option String)
  | cluster
  | plain
  deriving DecidableEq, Repr

/-- A single hyphen is a plain word. -/
def Word.ofString (word : String) : Word :=
  match word.toList with
  | ['-', '-'] => .endOfOptions
  | '-' :: '-' :: body =>
      let name := String.ofList (body.takeWhile (· != '='))
      match body.dropWhile (· != '=') with
      | [] => .option name none
      | _ :: value => .option name (some (String.ofList value))
  | '-' :: _ :: _ => .cluster
  | _ => .plain

/-- The path of the input and the settings. -/
structure Arguments where
  input : String
  settings : Settings
  deriving DecidableEq, Repr

namespace Arguments

/-- Reads the words that are left, with the input if it was given already. The
value of an option is either part of its word or the next word, which then must
be a plain one. -/
def parseFrom? (input : Option String) (settings : Settings) : List String → Option Arguments
  | [] => input.map (⟨·, settings⟩)
  | word :: rest =>
      match Word.ofString word with
      | .plain =>
          if input.isSome then none
          else (Settings.path? word).bind fun path => parseFrom? (some path) settings rest
      | .cluster => none
      | .endOfOptions =>
          match input, rest with
          | some path, [] => some ⟨path, settings⟩
          | none, [path] => (Settings.path? path).map (⟨·, settings⟩)
          | _, _ => none
      | .option name (some value) =>
          (settings.addValue? name value).bind fun settings => parseFrom? input settings rest
      | .option name none =>
          if Settings.takesValue name then
            match rest with
            | [] => none
            | value :: rest =>
                if Word.ofString value = .plain then
                  (settings.addValue? name value).bind fun settings =>
                    parseFrom? input settings rest
                else none
          else
            (settings.addFlag? name).bind fun settings => parseFrom? input settings rest

def parse? (words : List String) : Option Arguments :=
  parseFrom? none .default words

end Arguments

end ThreeAddress.Command
