/-!
JSON values, as far as programs are written in them. Numbers are integers, and
every other number is only known to be one. The readers below take a value apart
and fail with `none` when it has another shape.
-/

namespace ThreeAddress

/-- A JSON value. `real` is a number that is not written as an integer, and
`-0` is one of these. `unreadable` is correct JSON whose text is not: a string
with an unpaired surrogate, or an object with such a name. The members of an
object are kept in order, repeated names included. -/
inductive Json where
  | null
  | bool (value : Bool)
  | int (value : Int)
  | real
  | str (value : String)
  | arr (items : List Json)
  | obj (members : List (String × Json))
  | unreadable

namespace Json

def bool? : Json → Option Bool
  | .bool value => some value
  | _ => none

def str? : Json → Option String
  | .str value => some value
  | _ => none

/-- An integer that fits a signed machine word. -/
def int64? : Json → Option Int64
  | .int value =>
      if Int64.minValue.toInt ≤ value ∧ value ≤ Int64.maxValue.toInt then
        some (Int64.ofInt value)
      else none
  | _ => none

/-- A natural number below a bound. -/
def nat? (bound : Nat) : Json → Option Nat
  | .int value => if 0 ≤ value ∧ value < bound then some value.toNat else none
  | _ => none

/-- A value that may be left out or written `null`. -/
def present? : Option Json → Option Json
  | none | some .null => none
  | some value => some value

/-- The only member with this name. `some none` is an object without one, and
an object with several has no answer. -/
def member? (members : List (String × Json)) (name : String) : Option (Option Json) :=
  match members.filter (·.1 == name) with
  | [] => some none
  | [member] => some (some member.2)
  | _ => none

/-- The fields of a record, in the order of their names. A record is written as
an object, where other members do not matter, or as an array of its fields, which
may leave out fields at the end as long as it has `least` of them. -/
def record? (names : List String) (least : Nat) : Json → Option (List (Option Json))
  | .obj members => names.mapM (member? members)
  | .arr items =>
      if least ≤ items.length ∧ items.length ≤ names.length then
        some (items.map some ++ List.replicate (names.length - items.length) none)
      else none
  | _ => none

mutual

/-- How deep arrays and objects are nested. -/
def depth : Json → Nat
  | .arr items => itemsDepth items + 1
  | .obj members => membersDepth members + 1
  | _ => 0

def itemsDepth : List Json → Nat
  | [] => 0
  | item :: rest => max item.depth (itemsDepth rest)

def membersDepth : List (String × Json) → Nat
  | [] => 0
  | (_, value) :: rest => max value.depth (membersDepth rest)

end

end Json

end ThreeAddress
