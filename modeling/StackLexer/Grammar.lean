import StackLexer.ByteMap
import StackLexer.CompiledGrammar
import StackLexer.Transition.Directive

/-!
# Grammars

A grammar as its author writes it: named states, each a list of entries. An entry is a rule or the
inclusion of another state's entries. `StackLexer.Grammar.Compile` makes it fit to lex with.

Grammars are put together by edits that append one entry to one state. Directives are read when an
edit is made, so an edit can fail; `Grammar.edit` gives the grammar afterwards in either case.
-/

namespace StackLexer

/-- A rule as declared. -/
structure Rule where
  /-- the pattern to match -/
  pattern : Bytes
  /-- what becomes of the match -/
  emission : Emission CompiledGrammar
  /-- what happens to the stack afterwards -/
  transitions : List Transition

/-- One line of a state. -/
inductive Entry where
  /-- a rule -/
  | rule (r : Rule)
  /-- all rules of another state, in this place -/
  | inclusion (state : Bytes)

/-- A grammar as declared. -/
structure Grammar where
  /-- its name -/
  name : Bytes
  /-- other names it goes by -/
  aliases : List Bytes
  /-- whether ASCII letters match in either case -/
  ignoreCase : Bool
  /-- the entries of each state -/
  states : ByteMap (List Entry)
  /-- how it recognises its language, if it does -/
  heuristic : Option Heuristic

/-- The rule that matches nothing and only moves. -/
def Rule.moving (transitions : List Transition) : Rule := ⟨[], .emit none, transitions⟩

/-! ## Edits -/

/-- The transitions of a new rule: as a directive, or as they are. -/
inductive Moves where
  /-- a directive to be read -/
  | written (directive : Bytes)
  /-- the transitions themselves -/
  | given (transitions : List Transition)

/-- The transitions meant. -/
def Moves.read : Moves → Except LexerError (List Transition)
  | .written directive => Directive.parse directive
  | .given transitions => .ok transitions

/-- A change to one state. -/
inductive Edit where
  /-- append a rule -/
  | rule (pattern : Bytes) (emission : Emission CompiledGrammar) (moves : Moves)
  /-- append the inclusion of a state -/
  | inclusion (state : Bytes)
  /-- append the rule that only moves -/
  | moving (directive : Bytes)

namespace Grammar

/-- A grammar without states. -/
def blank (name : Bytes) : Grammar := ⟨name, [], false, .empty, none⟩

/-- Whether a state is declared. -/
def hasState (g : Grammar) (state : Bytes) : Bool := g.states.contains state

/-- The entries of a state, none if it is not declared. -/
def entries (g : Grammar) (state : Bytes) : List Entry := (g.states.find? state).getD []

/-- Declare a state, without changing one that is declared. -/
def declare (g : Grammar) (state : Bytes) : Grammar :=
  { g with states := g.states.insert state (g.entries state) }

/-- Append an entry to a state, declaring it if need be. -/
def append (g : Grammar) (state : Bytes) (entry : Entry) : Grammar :=
  { g with states := g.states.insert state (g.entries state ++ [entry]) }

/-- Make an edit: the grammar afterwards, and the fault if the edit was refused. A rule is refused
before its state is looked at; a rule that only moves declares the state first and is then
refused. -/
def edit (g : Grammar) (state : Bytes) : Edit → Grammar × Option LexerError
  | .rule pattern emission moves =>
    match moves.read with
    | .ok transitions => (g.append state (.rule ⟨pattern, emission, transitions⟩), none)
    | .error e => (g, some e)
  | .inclusion target => (g.append state (.inclusion target), none)
  | .moving directive =>
    match Directive.parse directive with
    | .ok transitions => (g.append state (.rule (.moving transitions)), none)
    | .error e => (g.declare state, some e)

end Grammar

end StackLexer
