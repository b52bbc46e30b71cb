import StackLexer.TokenType.Standard

/-!
# Tokens

A token is an excerpt of a text with a type: where it starts (in bytes), what it is and the exact
bytes. The printed forms are for debugging; `dump` is the listing of a whole token list.
-/

namespace StackLexer

/-- A typed excerpt of a text. -/
structure Token where
  /-- where the excerpt starts, in bytes -/
  offset : Nat
  /-- what it is -/
  type : TokenType
  /-- the exact bytes -/
  value : Bytes
  deriving DecidableEq, Repr

namespace Token

/-- The offset just after the excerpt. Offsets are 64-bit words, so after the last of them comes
zero. -/
def stop (t : Token) : Nat := (t.offset + t.value.length) % wordSize

/-- In a text whose offsets all fit, the end of a token is where its excerpt ends. -/
theorem stop_eq {t : Token} (h : t.offset + t.value.length < wordSize) :
    t.stop = t.offset + t.value.length := Nat.mod_eq_of_lt h

/-- The same excerpt, found in a text that starts `n` bytes later. -/
def shift (n : Nat) (t : Token) : Token := { t with offset := t.offset + n }

/-- Tokens agree in offset, type and bytes, types being compared by path. -/
def same (a b : Token) : Bool := a.offset == b.offset && a.type.same b.type && a.value == b.value

/-- Offset, type and value in brackets. -/
def debugText (t : Token) : Bytes :=
  Bytes.ofNat t.offset ++ bytes " " ++ t.type.text ++ bytes " [" ++ t.value ++ bytes "]"

/-- Offset, type and value as a tuple. -/
def tupleText (t : Token) : Bytes :=
  bytes "(" ++ Bytes.ofNat t.offset ++ bytes ", " ++ t.type.text ++ bytes ", \"" ++ t.value
    ++ bytes "\")"

/-- Newline, tab, carriage return and the single quote are written as escapes. -/
def escapeByte (b : UInt8) : Bytes :=
  if b = 10 then bytes "\\n"
  else if b = 9 then bytes "\\t"
  else if b = 13 then bytes "\\r"
  else if b = 39 then bytes "\\'"
  else [b]

/-- One line of a dump. -/
def dumpLine (index : Nat) (t : Token) : Bytes :=
  let short := t.type.shortName
  Bytes.ofNat index ++ bytes ": " ++ t.type.text
    ++ (if short.isEmpty then [] else bytes " (" ++ short ++ bytes ")")
    ++ bytes " value='" ++ t.value.flatMap escapeByte ++ bytes "' offset=" ++ Bytes.ofNat t.offset
    ++ bytes "\n"

/-- The listing of a token list, one token per line between a head and a foot. -/
def dump (tokens : List Token) : Bytes :=
  bytes "---- TOKEN DUMP (" ++ Bytes.ofNat tokens.length ++ bytes " tokens) ----\n"
    ++ (tokens.zipIdx.flatMap fun (t, i) => t.dumpLine i)
    ++ bytes "---- END TOKEN DUMP ----\n"

end Token

end StackLexer
