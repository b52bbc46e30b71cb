import StackLexer.Bytes

/-!
# Small regular expressions

Byte-wise regular expressions with captures, greedy and lazy repetition, lookahead and the line
and word assertions. A pattern is read by `StackLexer.Regex.Parser` and matched by
`StackLexer.Regex.Matcher`; this file only has their common tree. `StackLexer.Regex.Engine` makes a
library of them.
-/

namespace StackLexer

/-- A set of bytes, as ranges with both ends included. -/
structure ByteSet where
  /-- the ranges whose union is meant -/
  ranges : List (UInt8 × UInt8)
  /-- the complement is meant instead -/
  negated : Bool
  /-- a letter counts as in a range when its other case is -/
  anyCase : Bool
  deriving DecidableEq, Repr

namespace ByteSet

/-- Whether a byte lies in one of the ranges. -/
def inRanges (s : ByteSet) (b : UInt8) : Bool := s.ranges.any fun (lo, hi) => lo ≤ b && b ≤ hi

/-- Whether a byte is in the set. Case is ignored before the complement is taken. -/
def contains (s : ByteSet) (b : UInt8) : Bool :=
  (s.inRanges b || (s.anyCase && s.inRanges (swapCase b))) != s.negated

end ByteSet

/-- A regular expression over bytes. -/
inductive Regex where
  /-- the empty text -/
  | empty
  /-- one byte of a set -/
  | one (set : ByteSet)
  /-- one expression after the other -/
  | seq (first second : Regex)
  /-- the first expression, or else the second -/
  | alt (first second : Regex)
  /-- an expression whose span is remembered under a number -/
  | capture (index : Nat) (inner : Regex)
  /-- an expression `least` times and then up to `extra` times more (any number without a limit),
  as often as possible or as seldom as possible -/
  | repeated (inner : Regex) (least : Nat) (extra : Option Nat) (greedy : Bool)
  /-- what follows matches (`positive`) or does not match the expression; nothing is consumed -/
  | lookahead (positive : Bool) (inner : Regex)
  /-- the start of a line -/
  | lineStart
  /-- the end of a line -/
  | lineEnd
  /-- the edge of a word (`atEdge`), or any place that is none -/
  | wordEdge (atEdge : Bool)
  deriving DecidableEq, Repr

/-- A regular expression together with the number of its capturing groups, which are numbered from
one. -/
structure Pattern where
  /-- the expression -/
  body : Regex
  /-- how many capturing groups it has -/
  groups : Nat
  deriving DecidableEq, Repr

end StackLexer
