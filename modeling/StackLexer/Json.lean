import StackLexer.Bytes

/-!
# JSON values

Grammars and options are read from JSON documents. Whole numbers are kept apart from other
numbers, because some fields ask for one; both are exact. The members of an object are in byte
order of their names, each name once.
-/

namespace StackLexer

/-- A JSON value. -/
inductive Json where
  /-- `null` -/
  | null
  /-- `true` or `false` -/
  | bool (b : Bool)
  /-- a whole number that a 64-bit word can hold -/
  | int (n : Int)
  /-- any other number -/
  | real (q : Rat)
  /-- a string, as its UTF-8 bytes -/
  | str (s : Bytes)
  /-- an array -/
  | arr (items : List Json)
  /-- an object, its members sorted by name -/
  | obj (members : List (Bytes × Json))

namespace Json

/-- What kind of value it is, in words. -/
def kind : Json → Bytes
  | .null => bytes "null"
  | .bool _ => bytes "boolean"
  | .int _ => bytes "number"
  | .real _ => bytes "number"
  | .str _ => bytes "string"
  | .arr _ => bytes "array"
  | .obj _ => bytes "object"

/-- The value of a number. -/
def number? : Json → Option Rat
  | .int n => some n
  | .real q => some q
  | _ => none

/-- The member of an object under a name. -/
def member? (j : Json) (name : Bytes) : Option Json :=
  match j with
  | .obj members => members.lookup name
  | _ => none

end Json

end StackLexer
