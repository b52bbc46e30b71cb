import StackLexer.Regex.Lexeme

/-!
# Reading a pattern

The lexemes of a pattern are read from left to right with a stack of open groups. A group collects
the alternatives it has finished and the items of the one it is in; the last item waits until it
is known that no quantifier follows it. So a quantifier with nothing to repeat, a parenthesis
without a partner and a group still open at the end are noticed where they stand.

`Pattern.parse?` gives no reason for a refusal.
-/

namespace StackLexer

namespace Regex

/-- A group that is still open, or the whole pattern. -/
structure OpenGroup where
  /-- how the group opened, with its number if it captures; nothing for the whole pattern -/
  kind : Option (GroupKind × Nat)
  /-- the alternatives finished so far, latest first -/
  finished : List Regex
  /-- the items of the current alternative, latest first -/
  items : List Regex
  /-- the last item, while a quantifier may still follow -/
  waiting : Option Regex

namespace OpenGroup

/-- A group just opened. -/
def fresh (kind : Option (GroupKind × Nat)) : OpenGroup := ⟨kind, [], [], none⟩

/-- Items in sequence, given latest first. -/
def sequence (items : List Regex) : Regex := items.foldl (fun after item => .seq item after) .empty

/-- No quantifier follows: the waiting item joins the others. -/
def settle (g : OpenGroup) : OpenGroup :=
  match g.waiting with
  | none => g
  | some item => { g with items := item :: g.items, waiting := none }

/-- An item that a quantifier may repeat. -/
def add (g : OpenGroup) (item : Regex) : OpenGroup := { g.settle with waiting := some item }

/-- An assertion, which no quantifier may repeat. -/
def addFixed (g : OpenGroup) (item : Regex) : OpenGroup :=
  let g := g.settle
  { g with items := item :: g.items }

/-- A bar: the current alternative is finished. -/
def nextAlternative (g : OpenGroup) : OpenGroup :=
  let g := g.settle
  { g with finished := sequence g.items :: g.finished, items := [] }

/-- A quantifier repeats the waiting item. -/
def quantify (g : OpenGroup) (least : Nat) (extra : Option Nat) (greedy : Bool) :
    Option OpenGroup :=
  match g.waiting with
  | none => none
  | some item =>
    some { g with items := .repeated item least extra greedy :: g.items, waiting := none }

/-- Everything in the group: the alternatives in order, the first ones preferred. -/
def body (g : OpenGroup) : Regex :=
  let g := g.settle
  g.finished.foldl (fun after a => .alt a after) (sequence g.items)

/-- The item that a group becomes when it closes. -/
def close (kind : GroupKind) (index : Nat) (inner : Regex) : Regex :=
  match kind with
  | .capturing => .capture index inner
  | .plain => inner
  | .lookahead positive => .lookahead positive inner

end OpenGroup

/-- How far the reading has come: the open groups, innermost first and the whole pattern last, and
the number of capturing groups opened. -/
structure Reading where
  /-- the innermost open group -/
  inner : OpenGroup
  /-- the groups around it, nearest first -/
  outer : List OpenGroup
  /-- how many capturing groups have been opened -/
  groups : Nat

namespace Reading

/-- Before the first lexeme. -/
def start : Reading := ⟨OpenGroup.fresh none, [], 0⟩

/-- Take in one lexeme; `none` where it cannot stand. -/
def step (anyCase : Bool) (r : Reading) : Lexeme → Option Reading
  | .byte b => some { r with inner := r.inner.add (.one ⟨[(b, b)], false, anyCase⟩) }
  | .set ranges negated => some { r with inner := r.inner.add (.one ⟨ranges, negated, anyCase⟩) }
  | .assertion a => some { r with inner := r.inner.addFixed a }
  | .bar => some { r with inner := r.inner.nextAlternative }
  | .quantifier least extra greedy =>
    (r.inner.quantify least extra greedy).map fun inner => { r with inner := inner }
  | .opening kind =>
    let index := if kind = .capturing then r.groups + 1 else r.groups
    some ⟨OpenGroup.fresh (some (kind, index)), r.inner :: r.outer, index⟩
  | .closing =>
    match r.inner.kind, r.outer with
    | some (kind, index), around :: outer =>
      some ⟨around.add (OpenGroup.close kind index r.inner.body), outer, r.groups⟩
    | _, _ => none

/-- Take in lexemes one after the other. -/
def run (anyCase : Bool) (r : Reading) (lexemes : List Lexeme) : Option Reading :=
  lexemes.foldlM (step anyCase) r

end Reading

end Regex

/-- Read a pattern; `anyCase` makes ASCII letters match in either case. -/
def Pattern.parse? (anyCase : Bool) (written : Bytes) : Option Pattern :=
  match Regex.lexemes written with
  | none => none
  | some lexemes =>
    match Regex.Reading.start.run anyCase lexemes with
    | none => none
    | some reading =>
      if reading.outer.isEmpty then some ⟨reading.inner.body, reading.groups⟩ else none

end StackLexer
