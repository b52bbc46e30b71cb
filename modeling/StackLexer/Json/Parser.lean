import StackLexer.ByteMap
import StackLexer.Json
import StackLexer.Utf8

/-!
# Reading JSON

A strict reader: one value with nothing but blanks around it, no trailing commas, no comments, no
raw control bytes in strings, no lone surrogates, and UTF-8 throughout. Of members with one name
the last counts. A number without fraction and exponent is whole if it fits a signed or an
unsigned 64-bit word; all others are real, and one too large for a double is refused.

Readers take the text from some place on and give what they read and the text behind it. They
count down `rounds`; a value, an item or a member takes at least one byte for every two rounds, so
`Json.parse?` provides enough of them. The rounds of a string are counted off against the bytes
from its start on.
-/

namespace StackLexer.Json

/-- Space, tab, newline and carriage return. -/
def isBlank (b : UInt8) : Bool := b == 32 || b == 9 || b == 10 || b == 13

/-- The text from the next byte on that is not blank. -/
def skipBlanks (s : Bytes) : Bytes := s.dropWhile isBlank

/-! ## Strings -/

/-- The value of a hexadecimal digit. -/
def hexDigit? (b : UInt8) : Option Nat :=
  if 48 ≤ b ∧ b ≤ 57 then some (b.toNat - 48)
  else if 97 ≤ b ∧ b ≤ 102 then some (b.toNat - 87)
  else if 65 ≤ b ∧ b ≤ 70 then some (b.toNat - 55)
  else none

/-- Four hexadecimal digits. -/
def hex4 : Bytes → Option (Nat × Bytes)
  | a :: b :: c :: d :: rest => do
    let a ← hexDigit? a
    let b ← hexDigit? b
    let c ← hexDigit? c
    let d ← hexDigit? d
    return (((a * 16 + b) * 16 + c) * 16 + d, rest)
  | _ => none

/-- A code point after `\u`: four digits, or two surrogates with a second `\u` between them. -/
def codepoint (s : Bytes) : Option (Nat × Bytes) := do
  let (high, rest) ← hex4 s
  if 0xD800 ≤ high ∧ high ≤ 0xDBFF then
    match rest with
    | 92 :: 117 :: rest => do
      let (low, rest) ← hex4 rest
      if 0xDC00 ≤ low ∧ low ≤ 0xDFFF then
        return (0x10000 + (high - 0xD800) * 0x400 + (low - 0xDC00), rest)
      else none
    | _ => none
  else if 0xDC00 ≤ high ∧ high ≤ 0xDFFF then none
  else return (high, rest)

/-- What an escape after its backslash stands for. -/
def escape : Bytes → Option (Bytes × Bytes)
  | [] => none
  | b :: rest =>
    if b = 34 ∨ b = 92 ∨ b = 47 then some ([b], rest)
    else if b = 98 then some ([8], rest)
    else if b = 102 then some ([12], rest)
    else if b = 110 then some ([10], rest)
    else if b = 114 then some ([13], rest)
    else if b = 116 then some ([9], rest)
    else if b = 117 then (codepoint rest).map fun (c, rest) => (Utf8.encode c, rest)
    else none

/-- A string after its opening quote, up to the closing one. Every round takes at least one byte,
and `rounds` has one byte for each of them. -/
def string : Bytes → Bytes → Option (Bytes × Bytes)
  | [], _ => none
  | _ :: _, [] => none
  | _ :: rounds, b :: rest =>
    if b = 34 then some ([], rest)
    else if b = 92 then do
      let (front, rest) ← escape rest
      let (more, rest) ← string rounds rest
      return (front ++ more, rest)
    else if b < 32 then none
    else do
      let (more, rest) ← string rounds rest
      return (b :: more, rest)

/-! ## Numbers -/

/-- A number as written: its sign, and its digits before the point, behind it and in the exponent,
the exponent with a sign of its own. -/
structure Numeral where
  /-- a minus sign in front -/
  negative : Bool
  /-- the digits before the point -/
  whole : Bytes
  /-- the digits behind the point, if there is one -/
  fraction : Option Bytes
  /-- the exponent, if there is one -/
  exponent : Option Int

/-- An optional sign; `true` for a minus. -/
def sign : Bytes → Bool × Bytes
  | 45 :: rest => (true, rest)
  | 43 :: rest => (false, rest)
  | rest => (false, rest)

/-- One digit or more. -/
def digits (s : Bytes) : Option (Bytes × Bytes) :=
  if (s.takeWhile isDigit).isEmpty then none else some (s.takeWhile isDigit, s.dropWhile isDigit)

/-- The digits behind a point, if there is one. -/
def fraction : Bytes → Option (Option Bytes × Bytes)
  | 46 :: rest => (digits rest).map fun (ds, rest) => (some ds, rest)
  | rest => some (none, rest)

/-- An exponent, if there is one. -/
def exponent : Bytes → Option (Option Int × Bytes)
  | [] => some (none, [])
  | b :: rest =>
    if b = 101 ∨ b = 69 then
      let (negative, rest) := sign rest
      (digits rest).map fun (ds, rest) =>
        (some (if negative then -(ds.toNat : Int) else ds.toNat), rest)
    else some (none, b :: rest)

/-- A number as written, without a leading zero before further digits. -/
def numeral (s : Bytes) : Option (Numeral × Bytes) := do
  let (negative, s) := match s with
    | 45 :: rest => (true, rest)
    | _ => (false, s)
  let (whole, s) ← digits s
  if whole.head? = some 48 ∧ 1 < whole.length then none
  else
    let (fraction, s) ← fraction s
    let (exponent, s) ← exponent s
    return (⟨negative, whole, fraction, exponent⟩, s)

/-- From here on, a whole number is too large for a double. -/
def maxReal : Nat := Nat.pow 2 1024 - Nat.pow 2 970

/-- The value of a numeral that is not whole. Exponents far outside those of doubles are not
carried out: the value is nothing, or there is none. -/
def Numeral.real? (n : Numeral) : Option Rat :=
  let places : Bytes := n.fraction.getD []
  let mantissa : Nat := Bytes.toNat (n.whole ++ places)
  let scale : Int := n.exponent.getD 0 - places.length
  let size : Int := (Nat.toDigits 10 mantissa).length + scale
  if mantissa = 0 ∨ size < -400 then some 0
  else if 400 < size then none
  else
    let numerator : Nat := if scale < 0 then mantissa else mantissa * Nat.pow 10 scale.toNat
    let denominator : Nat := if scale < 0 then Nat.pow 10 (-scale).toNat else 1
    if numerator < maxReal * denominator then
      some (mkRat (if n.negative then -(numerator : Int) else numerator) denominator)
    else none

/-- The value of a numeral. -/
def Numeral.value? (n : Numeral) : Option Json :=
  let magnitude : Nat := n.whole.toNat
  let isWhole := n.fraction.isNone && n.exponent.isNone
  if isWhole && n.negative && decide (2 * magnitude ≤ wordSize) then
    some (.int (-(magnitude : Int)))
  else if isWhole && !n.negative && decide (magnitude < wordSize) then some (.int magnitude)
  else n.real?.map .real

/-- A number. -/
def number (s : Bytes) : Option (Json × Bytes) := do
  let (n, rest) ← numeral s
  let value ← n.value?
  return (value, rest)

/-! ## Values -/

/-- A fixed word with its value. -/
def word (w : Bytes) (value : Json) (s : Bytes) : Option (Json × Bytes) :=
  if w.isPrefixOf s then some (value, s.drop w.length) else none

mutual

/-- A value, with blanks before it. -/
def value : Nat → Bytes → Option (Json × Bytes)
  | 0, _ => none
  | rounds + 1, s =>
    match skipBlanks s with
    | [] => none
    | b :: rest =>
      if b = 123 then
        match skipBlanks rest with
        | 125 :: rest => some (.obj [], rest)
        | rest => (members rounds rest []).map fun (ms, rest) => (.obj ms, rest)
      else if b = 91 then
        match skipBlanks rest with
        | 93 :: rest => some (.arr [], rest)
        | rest => (items rounds rest).map fun (js, rest) => (.arr js, rest)
      else if b = 34 then (string rest rest).map fun (t, rest) => (.str t, rest)
      else if b = 116 then word (bytes "true") (.bool true) (b :: rest)
      else if b = 102 then word (bytes "false") (.bool false) (b :: rest)
      else if b = 110 then word (bytes "null") .null (b :: rest)
      else number (b :: rest)

/-- The items of an array, one at least, with its closing bracket. -/
def items : Nat → Bytes → Option (List Json × Bytes)
  | 0, _ => none
  | rounds + 1, s =>
    match value rounds s with
    | none => none
    | some (j, rest) =>
      match skipBlanks rest with
      | 93 :: rest => some ([j], rest)
      | 44 :: rest => (items rounds rest).map fun (js, rest) => (j :: js, rest)
      | _ => none

/-- The members of an object, one at least, with its closing brace; they join those in `known`. -/
def members : Nat → Bytes → List (Bytes × Json) → Option (List (Bytes × Json) × Bytes)
  | 0, _, _ => none
  | rounds + 1, s, known =>
    match skipBlanks s with
    | 34 :: rest =>
      match string rest rest with
      | none => none
      | some (name, rest) =>
        match skipBlanks rest with
        | 58 :: rest =>
          match value rounds rest with
          | none => none
          | some (j, rest) =>
            match skipBlanks rest with
            | 125 :: rest => some (insertEntry name j known, rest)
            | 44 :: rest => members rounds rest (insertEntry name j known)
            | _ => none
        | _ => none
    | _ => none

end

/-- Read a whole document. -/
def parse? (text : Bytes) : Option Json :=
  if Utf8.isValid text then
    match value (2 * text.length + 2) text with
    | some (j, rest) => if (skipBlanks rest).isEmpty then some j else none
    | none => none
  else none

/-- What is said about a text that is not JSON. -/
def refusal : Bytes := bytes "<json error>"

end StackLexer.Json
