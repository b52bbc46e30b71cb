import StackLexer.Expression
import StackLexer.Regex.Lexeme

/-!
# Matching

Backtracking search with a continuation: `Regex.run` takes an expression, a place in the text and
what has to match afterwards, and gives the first way through, trying alternatives in order, more
repetitions first when greedy and fewer first when lazy.

* Captures are remembered in the thread that made them, so a failed attempt leaves none behind.
  A capture made twice is the later one; a lookahead keeps the captures of its success.
* A round of a repetition that consumed nothing is the last one. So a loop without a limit has at
  most as many rounds as there are bytes left, plus one, and `Regex.unlimited` counts them off
  against the bytes.
* The byte before the starting place is visible to the line and word assertions, when there is
  one.
-/

namespace StackLexer

namespace Regex

/-- A place in the text reached by the search, with the captures made on the way. -/
structure Thread where
  /-- the byte before this place, if there is one -/
  before : Option UInt8
  /-- how many bytes were taken since the match started -/
  offset : Nat
  /-- the bytes from this place on -/
  rest : Bytes
  /-- the captures by group number, latest first -/
  captures : List (Nat × Span)
  deriving DecidableEq, Repr

namespace Thread

/-- The start of a line: the start of the text, or after a separator, but not inside `\r\n`. -/
def atLineStart (t : Thread) : Bool :=
  match t.before with
  | none => true
  | some b => isSeparator b && !(b == 13 && t.rest.head? == some 10)

/-- The end of a line: the end of the text, or before a separator, but not inside `\r\n`. -/
def atLineEnd (t : Thread) : Bool :=
  match t.rest with
  | [] => true
  | c :: _ => isSeparator c && !(c == 10 && t.before == some 13)

/-- Whether an optional byte is part of a word. -/
def isWord : Option UInt8 → Bool
  | none => false
  | some b => (ByteSet.mk wordRanges false false).contains b

/-- The edge of a word: exactly one of the two neighbouring bytes is part of one. -/
def atWordEdge (t : Thread) : Bool := isWord t.before != isWord t.rest.head?

/-- Remember the stretch from `start` to here under a group number. -/
def capture (t : Thread) (index start : Nat) : Thread :=
  { t with captures := (index, ⟨start, t.offset - start⟩) :: t.captures }

end Thread

/-- A way to go on from a place: the final thread of the first success. -/
abbrev Continuation := Thread → Option Thread

/-- A way to match something and then go on. -/
abbrev Matcher := Thread → Continuation → Option Thread

/-- Exactly `n` rounds. -/
def exactly (m : Matcher) : Nat → Matcher
  | 0, t, k => k t
  | n + 1, t, k => m t fun u => exactly m n u k

/-- One round more and then as `more` says, or no further round: the round first when greedy, and
last when lazy. A round that consumes nothing is the last. -/
def oneMore (m : Matcher) (greedy : Bool) (more : Matcher) : Matcher := fun t k =>
  if greedy then
    (m t fun u => if u.offset = t.offset then k u else more u k).orElse fun _ => k t
  else
    (k t).orElse fun _ => m t fun u => if u.offset = t.offset then k u else more u k

/-- Up to `n` rounds. -/
def atMost (m : Matcher) (greedy : Bool) : Nat → Matcher
  | 0 => fun t k => k t
  | n + 1 => oneMore m greedy (atMost m greedy n)

/-- Up to as many rounds as `left` has bytes. -/
def atMostBytes (m : Matcher) (greedy : Bool) : Bytes → Matcher
  | [] => fun t k => k t
  | _ :: left => oneMore m greedy (atMostBytes m greedy left)

/-- Any number of rounds: one for each byte left, and one that consumes nothing. -/
def unlimited (m : Matcher) (greedy : Bool) : Matcher := fun t k =>
  oneMore m greedy (atMostBytes m greedy t.rest) t k

/-- The first way to match an expression here and then go on with `k`. -/
def run : Regex → Matcher
  | .empty, t, k => k t
  | .one set, t, k =>
    match t.rest with
    | [] => none
    | b :: rest =>
      if set.contains b then k { t with before := some b, offset := t.offset + 1, rest := rest }
      else none
  | .seq first second, t, k => run first t fun u => run second u k
  | .alt first second, t, k => (run first t k).orElse fun _ => run second t k
  | .capture index inner, t, k => run inner t fun u => k (u.capture index t.offset)
  | .repeated inner least extra greedy, t, k =>
    exactly (run inner) least t fun u =>
      match extra with
      | some n => atMost (run inner) greedy n u k
      | none => unlimited (run inner) greedy u k
  | .lookahead positive inner, t, k =>
    match run inner t some with
    | some u => if positive then k { t with captures := u.captures } else none
    | none => if positive then none else k t
  | .lineStart, t, k => if t.atLineStart then k t else none
  | .lineEnd, t, k => if t.atLineEnd then k t else none
  | .wordEdge atEdge, t, k => if t.atWordEdge == atEdge then k t else none

end Regex

namespace Pattern

/-- Match at the front of `rest`; `before` is the byte before it, if one is visible. -/
def matchAt (p : Pattern) (before : Option UInt8) (rest : Bytes) : Option Match :=
  (p.body.run ⟨before, 0, rest, []⟩ some).map fun t =>
    ⟨t.offset, (List.range p.groups).map fun i => t.captures.lookup (i + 1)⟩

/-- Whether the pattern matches somewhere in `rest`. -/
def occursFrom (p : Pattern) (before : Option UInt8) : Bytes → Bool
  | [] => (p.matchAt before []).isSome
  | b :: rest => (p.matchAt before (b :: rest)).isSome || p.occursFrom (some b) rest

/-- Whether the pattern matches somewhere in a text. -/
def occursIn (p : Pattern) (text : Bytes) : Bool := p.occursFrom none text

end Pattern

end StackLexer
