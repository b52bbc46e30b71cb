import StackLexer.Transition
import StackLexer.Error

/-!
# Directives

The shorthand in which grammar authors write transitions. A directive is empty (no move), a bare
state name (push it), or a run of parts that each start with `#`:

* `#pop` and `#pop:N` — remove one entry, or `N` of them (`N` from 1 to 1000000);
* `#push` — put the current state on top once more;
* `#push:name` — put a state on top.

Within one directive neighbouring pops are merged, and a push right after a pop takes one entry
off it and becomes a goto, so that `#pop#push:name` is one move.

Merged counts are kept in signed 32-bit words (`Directive.wordCount`). How they are kept is a
parameter of the merging, so that one can also say what it does with exact counts.
-/

namespace StackLexer.Directive

/-- One part of a directive, as written after its `#`. -/
inductive Part where
  /-- `pop` or `pop:N` -/
  | pop (count : Nat)
  /-- `push` -/
  | pushSame
  /-- `push:name` -/
  | push (state : Bytes)
  deriving DecidableEq, Repr

/-- The largest count a single pop may have. -/
def maxCount : Nat := 1000000

/-- A count: decimal digits, leading zeros allowed, of a value from 1 to `maxCount`. -/
def count? (digits : Bytes) : Option Nat :=
  if digits.isEmpty || !digits.all isDigit then none
  else if 1 ≤ digits.toNat ∧ digits.toNat ≤ maxCount then some digits.toNat
  else none

/-- Read one part, without its `#`. -/
def part? (written : Bytes) : Option Part :=
  if written = bytes "pop" then some (.pop 1)
  else if (bytes "pop:").isPrefixOf written then (count? (written.drop 4)).map .pop
  else if written = bytes "push" then some .pushSame
  else if (bytes "push:").isPrefixOf written ∧ 5 < written.length then
    some (.push (written.drop 5))
  else none

/-- A count as a signed 32-bit word keeps it. -/
def wordCount (count : Int) : Int := count.bmod 4294967296

/-- Add a pop after the moves in `done` (latest first), merging it with a pop just before it. -/
def addPop (keep : Int → Int) (count : Int) : List Transition → List Transition
  | .pop before :: done => .pop (keep (before + count)) :: done
  | done => .pop count :: done

/-- Add a push after the moves in `done` (latest first), turning it into a goto when a pop is just
before it. -/
def addPush (keep : Int → Int) (state : Bytes) : List Transition → List Transition
  | .pop before :: done =>
    if before = 1 then .goto state :: done
    else .goto state :: .pop (keep (before - 1)) :: done
  | done => .push state :: done

/-- Add one part after the moves in `done`, latest first. -/
def addPart (keep : Int → Int) (done : List Transition) : Part → List Transition
  | .pop count => addPop keep count done
  | .pushSame => .pushSame :: done
  | .push state => addPush keep state done

/-- The moves of a run of parts. -/
def ofParts (keep : Int → Int) (parts : List Part) : List Transition :=
  (parts.foldl (addPart keep) []).reverse

/-- The parts of a directive that starts with `#`, given without that `#`. -/
def parts? (written : Bytes) : Option (List Part) := (written.pieces 35).mapM part?

/-- The moves of a directive, given how merged counts are kept. -/
def parseWith (keep : Int → Int) (directive : Bytes) : Except LexerError (List Transition) :=
  match directive with
  | [] => .ok []
  | first :: rest =>
    if first = 35 then
      match parts? rest with
      | some parts => .ok (ofParts keep parts)
      | none => .error (.invalidDirective directive)
    else if 35 ∈ rest then .error (.invalidDirective directive)
    else .ok [.push directive]

/-- The moves of several directives, one after the other, given how merged counts are kept; nothing
is merged across directives. -/
def parseAllWith (keep : Int → Int) (directives : List Bytes) :
    Except LexerError (List Transition) :=
  (directives.mapM (parseWith keep)).map List.flatten

/-- The moves of a directive. -/
def parse (directive : Bytes) : Except LexerError (List Transition) :=
  parseWith wordCount directive

/-- The moves of several directives, one after the other. -/
def parseAll (directives : List Bytes) : Except LexerError (List Transition) :=
  parseAllWith wordCount directives

end StackLexer.Directive
