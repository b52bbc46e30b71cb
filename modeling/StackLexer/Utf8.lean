import StackLexer.Bytes

/-!
# UTF-8

The library lexes bytes, but it recovers, decodes and repairs by characters. Everything rests on
one question about the front of a byte string: how long is the well-formed sequence it starts
with?

* `Utf8.leading` — that length, `0` when the front is ill-formed (overlong forms, surrogates and
  values above U+10FFFF are ill-formed);
* `Utf8.cut` — a byte string cut greedily from the left into well-formed sequences and single
  ill-formed bytes; validation, repair and the offset of the first fault are views of it;
* `Utf8.encode` — the bytes of a code point, the other side of `Utf8.leading`.
-/

namespace StackLexer.Utf8

/-- The bytes `80` to `BF`, which continue a sequence. -/
def isContinuation (b : UInt8) : Bool := 0x80 ≤ b && b ≤ 0xBF

/-- The length of the well-formed sequence at the front, `0` when there is none. -/
def leading : Bytes → Nat
  | [] => 0
  | b0 :: rest =>
    if b0 < 0x80 then 1
    else if 0xC2 ≤ b0 && b0 ≤ 0xDF then
      match rest with
      | b1 :: _ => if isContinuation b1 then 2 else 0
      | _ => 0
    else if 0xE0 ≤ b0 && b0 ≤ 0xEF then
      match rest with
      | b1 :: b2 :: _ =>
        if !isContinuation b1 || !isContinuation b2 then 0
        else if b0 == 0xE0 && b1 < 0xA0 then 0
        else if b0 == 0xED && 0xA0 ≤ b1 then 0
        else 3
      | _ => 0
    else if 0xF0 ≤ b0 && b0 ≤ 0xF4 then
      match rest with
      | b1 :: b2 :: b3 :: _ =>
        if !isContinuation b1 || !isContinuation b2 || !isContinuation b3 then 0
        else if b0 == 0xF0 && b1 < 0x90 then 0
        else if b0 == 0xF4 && 0x8F < b1 then 0
        else 4
      | _ => 0
    else 0

/-- The length of the character at the front: that of the well-formed sequence, one byte when the
front is ill-formed, nothing at the end. -/
def sequenceLength : Bytes → Nat
  | [] => 0
  | b :: rest => if leading (b :: rest) = 0 then 1 else leading (b :: rest)

/-- There is always a character to step over before the end. -/
theorem sequenceLength_pos {s : Bytes} (h : s ≠ []) : 0 < sequenceLength s := by
  cases s with
  | nil => exact absurd rfl h
  | cons b rest =>
    rw [sequenceLength]
    split <;> omega

/-- A character takes no more bytes than there are. -/
theorem sequenceLength_le (s : Bytes) : sequenceLength s ≤ s.length := by
  have hleading : leading s ≤ s.length := by
    fun_cases leading s <;> simp
  fun_cases sequenceLength s
  · exact Nat.le_refl 0
  · rw [List.length_cons]
    omega
  · exact hleading

/-! ## The greedy cut -/

/-- What a byte string is cut into. -/
inductive Piece where
  /-- a well-formed sequence -/
  | sequence (encoded : Bytes)
  /-- one byte that starts no well-formed sequence -/
  | stray (b : UInt8)
  deriving DecidableEq, Repr

/-- The bytes of a piece. -/
def Piece.bytes : Piece → Bytes
  | .sequence encoded => encoded
  | .stray b => [b]

/-- Whether a piece is an ill-formed byte. -/
def Piece.isStray : Piece → Bool
  | .sequence _ => false
  | .stray _ => true

/-- Cut greedily from the left: a well-formed sequence where there is one, else a single byte. -/
def cut : Bytes → List Piece
  | [] => []
  | b :: rest =>
    match leading (b :: rest) with
    | 0 => .stray b :: cut rest
    | n + 1 => .sequence (b :: rest.take n) :: cut (rest.drop n)
termination_by s => s.length
decreasing_by
  · exact Nat.lt_succ_self _
  · rw [List.length_cons, List.length_drop]
    omega

@[simp] theorem cut_nil : cut [] = [] := by rw [cut]

theorem cut_cons (b : UInt8) (rest : Bytes) :
    cut (b :: rest) =
      match leading (b :: rest) with
      | 0 => .stray b :: cut rest
      | n + 1 => .sequence (b :: rest.take n) :: cut (rest.drop n) := by
  rw [cut]

/-! ## Validation and repair -/

/-- The offset of the first ill-formed byte. -/
def firstFault? (s : Bytes) : Option Nat :=
  let pieces := cut s
  if pieces.any Piece.isStray then
    some ((pieces.takeWhile fun p => !p.isStray).flatMap Piece.bytes).length
  else none

/-- Whether a byte string is well-formed throughout. -/
def isValid (s : Bytes) : Bool := (cut s).all fun p => !p.isStray

/-- U+FFFD, which stands in for what cannot be decoded. -/
def replacement : Bytes := [0xEF, 0xBF, 0xBD]

/-- A repaired text, and how many bytes had to be replaced. -/
structure Repair where
  /-- the text after the repair -/
  text : Bytes
  /-- how many bytes were replaced -/
  replaced : Nat
  deriving DecidableEq, Repr

/-- Go through the pieces and replace the ill-formed bytes. -/
def replaceStrays (s : Bytes) : Repair where
  text := (cut s).flatMap fun
    | .sequence encoded => encoded
    | .stray _ => replacement
  replaced := (cut s).countP Piece.isStray

/-- Replace every ill-formed byte. A text without any is returned as it is. -/
def sanitize (s : Bytes) : Repair :=
  if isValid s then ⟨s, 0⟩ else replaceStrays s

/-- Replace every byte outside ASCII, whatever it is part of. -/
def sanitizeAscii (s : Bytes) : Repair where
  text := s.flatMap fun b => if b < 0x80 then [b] else replacement
  replaced := s.countP fun b => !(b < 0x80)

/-! ## Encoding -/

/-- The bytes of a code point. Beyond U+10FFFF the form still has four bytes, and the first one
keeps only its low eight bits. -/
def encode (codepoint : Nat) : Bytes :=
  if codepoint ≤ 0x7F then [codepoint.toUInt8]
  else if codepoint ≤ 0x7FF then
    [(0xC0 + codepoint / 64).toUInt8, (0x80 + codepoint % 64).toUInt8]
  else if codepoint ≤ 0xFFFF then
    [(0xE0 + codepoint / 4096).toUInt8, (0x80 + codepoint / 64 % 64).toUInt8,
      (0x80 + codepoint % 64).toUInt8]
  else
    [(0xF0 ||| codepoint / 262144).toUInt8, (0x80 + codepoint / 4096 % 64).toUInt8,
      (0x80 + codepoint / 64 % 64).toUInt8, (0x80 + codepoint % 64).toUInt8]

/-- Read every byte as the code point of the same number. -/
def ofLatin1 (s : Bytes) : Bytes := s.flatMap fun b => encode b.toNat

/-- The byte order mark, U+FEFF. -/
def byteOrderMark : Bytes := [0xEF, 0xBB, 0xBF]

/-- Whether a text starts with the byte order mark. -/
def hasByteOrderMark (s : Bytes) : Bool := byteOrderMark.isPrefixOf s

end StackLexer.Utf8
