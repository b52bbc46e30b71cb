/-!
# Byte strings

Texts, patterns, state names and messages are all byte strings: the lexer never needs to know
characters, except where it recovers from an unmatched one (see `StackLexer.Utf8`). A byte string
is a list, so everything the list library says about `take`, `drop`, `++` and `<` applies; the
order is the lexicographic one on unsigned bytes.

* `bytes` — the bytes of a literal;
* `Bytes.lower` — ASCII case folding, the only folding the library knows;
* `Bytes.pieces` — cutting at a separator, empty pieces kept;
* `Bytes.ofNat`, `Bytes.ofInt` — decimal numerals.
-/

namespace StackLexer

/-- A byte string. -/
abbrev Bytes := List UInt8

/-- The UTF-8 bytes of a string, used for literals. -/
def bytes (s : String) : Bytes := s.toUTF8.data.toList

/-! ## ASCII letters -/

/-- `A` to `Z` become `a` to `z`; every other byte is kept. -/
def lowerByte (b : UInt8) : UInt8 := if 65 ≤ b ∧ b ≤ 90 then b + 32 else b

/-- The other case of an ASCII letter; every other byte is kept. -/
def swapCase (b : UInt8) : UInt8 :=
  if 65 ≤ b ∧ b ≤ 90 then b + 32
  else if 97 ≤ b ∧ b ≤ 122 then b - 32
  else b

/-- A decimal digit. -/
def isDigit (b : UInt8) : Bool := 48 ≤ b && b ≤ 57

/-- ASCII case folding, byte by byte. -/
def Bytes.lower (s : Bytes) : Bytes := s.map lowerByte

/-! ## Cutting -/

/-- The pieces of a byte string between the occurrences of `sep`, empty ones included: there is
always one piece more than there are separators. -/
def Bytes.pieces (sep : UInt8) : Bytes → List Bytes
  | [] => [[]]
  | b :: rest =>
    if b = sep then [] :: Bytes.pieces sep rest
    else
      match Bytes.pieces sep rest with
      | [] => [[b]]
      | piece :: more => (b :: piece) :: more

/-- A byte string has at least one piece. -/
theorem Bytes.pieces_ne_nil (sep : UInt8) (s : Bytes) : Bytes.pieces sep s ≠ [] := by
  cases s with
  | nil => simp [Bytes.pieces]
  | cons b rest =>
    rw [Bytes.pieces]
    split
    · simp
    · split <;> simp

/-! ## Numerals -/

/-- The decimal numeral of a natural number. -/
def Bytes.ofNat (n : Nat) : Bytes := (Nat.toDigits 10 n).map fun c => c.toNat.toUInt8

/-- The decimal numeral of an integer, with a leading `-` when it is negative. -/
def Bytes.ofInt : Int → Bytes
  | .ofNat n => Bytes.ofNat n
  | .negSucc n => 45 :: Bytes.ofNat (n + 1)

/-- How many values a 64-bit word has. -/
def wordSize : Nat := 18446744073709551616

/-- The number a digit string stands for, most significant digit first. -/
def Bytes.toNat (digits : Bytes) : Nat :=
  digits.foldl (fun value d => value * 10 + (d.toNat - 48)) 0

end StackLexer
