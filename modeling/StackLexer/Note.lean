import StackLexer.Bytes

/-!
# Notes

Diagnostics are values: an operation that has something to report returns `Note`s beside its
result, and whoever prints them filters by `Level`. Levels are ranks, so that "at least as
important as" is an order; ranks outside the six named ones are allowed and have no name.
-/

namespace StackLexer

/-- How much a note matters; the lower the rank, the more. -/
structure Level where
  /-- the rank, `0` for "off" -/
  rank : Int
  deriving DecidableEq, Repr

namespace Level

/-- Nothing is shown. -/
def off : Level := ⟨0⟩
/-- Failures. -/
def error : Level := ⟨1⟩
/-- Input or configuration that was mended. -/
def warn : Level := ⟨2⟩
/-- What was loaded. -/
def info : Level := ⟨3⟩
/-- How it was built. -/
def debug : Level := ⟨4⟩
/-- How each step of lexing went. -/
def trace : Level := ⟨5⟩

/-- The levels from the most to the least important, without `off`. -/
def all : List Level := [error, warn, info, debug, trace]

/-- The name of a level. -/
def name (l : Level) : Bytes :=
  if l = off then bytes "off"
  else if l = error then bytes "error"
  else if l = warn then bytes "warn"
  else if l = info then bytes "info"
  else if l = debug then bytes "debug"
  else if l = trace then bytes "trace"
  else bytes "?"

/-- The level of a name in any case; `fallback` for any other name. -/
def parse (name : Bytes) (fallback : Level) : Level :=
  let n := name.lower
  if n = bytes "off" ∨ n = bytes "none" then off
  else if n = bytes "error" then error
  else if n = bytes "warn" ∨ n = bytes "warning" then warn
  else if n = bytes "info" then info
  else if n = bytes "debug" then debug
  else if n = bytes "trace" then trace
  else fallback

/-- Whether notes of level `l` are shown when the level in force is `current`. -/
def shownAt (current l : Level) : Bool := l != off && decide (l.rank ≤ current.rank)

end Level

/-- One diagnostic message. -/
structure Note where
  /-- how much it matters -/
  level : Level
  /-- what it says -/
  message : Bytes
  deriving DecidableEq, Repr

namespace Note

/-- The line of a note. -/
def line (n : Note) : Bytes :=
  bytes "[hilex " ++ n.level.name ++ bytes "] " ++ n.message ++ bytes "\n"

/-- The lines of the notes shown at a level, in order. -/
def lines (current : Level) (notes : List Note) : Bytes :=
  (notes.filter fun n => current.shownAt n.level).flatMap line

end Note

end StackLexer
