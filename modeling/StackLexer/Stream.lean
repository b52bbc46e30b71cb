import StackLexer.CompiledGrammar
import StackLexer.Cursor
import StackLexer.Note
import StackLexer.StateStack
import StackLexer.Token

/-!
# Token streams

A stream lexes one text with one compiled grammar, token by token. It holds the place reached, the
stack of states, the tokens found and not yet handed out, and how long it has gone without
consuming anything.

This file has the state and how it starts; `StackLexer.Stream.Step` has the single step and
`StackLexer.Stream.Pull` the operations that hand out tokens.
-/

namespace StackLexer

/-- The state of lexing a text. -/
structure Stream where
  /-- the grammar lexed with -/
  grammar : CompiledGrammar
  /-- the place reached in the text -/
  cursor : Cursor
  /-- the stack of states -/
  stack : StateStack
  /-- how many matches in a row had length zero -/
  zeroWidthSteps : Nat
  /-- the stack before the first of them -/
  zeroWidthBase : StateStack
  /-- tokens found and not yet handed out -/
  pending : List Token
  /-- what there was to report, latest first -/
  notes : List Note

namespace Stream

/-- How deep delegates may be nested. -/
def maxDelegateDepth : Nat := 64

/-- How many matches of length zero may follow each other. -/
def maxZeroWidthSteps : Nat := 256

/-! ## Starting -/

/-- The position of an initial state. -/
def initialEntry (g : CompiledGrammar) (state : Bytes) : Except LexerError Nat :=
  match g.stateIndex? state with
  | some i => .ok i
  | none =>
    .error (.malformedGrammar (bytes "initial state '" ++ state ++ bytes "' is not defined")
      (Location.ofGrammar g.name))

/-- The stack for a list of state names, bottom first. -/
def initialStack (g : CompiledGrammar) (states : List Bytes) : Except LexerError StateStack := do
  let entries ← states.mapM (initialEntry g)
  match StateStack.ofList? entries with
  | some stack => return stack
  | none =>
    .error (.malformedGrammar (bytes "initial state stack is empty") (Location.ofGrammar g.name))

/-- A stream at the start of a text. A grammar with dangling references is refused, and so is a
stack that is empty or names an undefined state. -/
def start (g : CompiledGrammar) (text : Bytes) (states : List Bytes) :
    Except LexerError Stream :=
  match g.dangling with
  | (state, location) :: _ =>
    .error (.malformedGrammar
      (bytes "state '" ++ state ++ bytes "' is referenced but not defined") location)
  | [] => do
    let stack ← initialStack g states
    return ⟨g, .start text, stack, 0, stack, [], []⟩

/-- A stream on a grammar that may be missing. -/
def startOn (g : Option CompiledGrammar) (text : Bytes) (states : List Bytes) :
    Except LexerError Stream :=
  match g with
  | some g => start g text states
  | none => .error (.malformedGrammar (bytes "no grammar given") Location.nowhere)

/-! ## Looking -/

/-- The text being lexed. -/
def text (s : Stream) : Bytes := s.cursor.text

/-- How many bytes have been consumed. -/
def position (s : Stream) : Nat := s.cursor.position

/-- The text not yet consumed. -/
def rest (s : Stream) : Bytes := s.cursor.rest

/-- The state on top of the stack. -/
def currentState (s : Stream) : CompiledState CompiledGrammar :=
  (s.grammar.states[s.stack.top]?).getD ⟨[], []⟩

/-- The names of the states on the stack, bottom first. -/
def stackNames (s : Stream) : List Bytes :=
  s.stack.toList.map fun i => ((s.grammar.states[i]?).getD ⟨[], []⟩).name

/-- Whether there is nothing left to hand out or to consume. -/
def isDone (s : Stream) : Bool := s.pending.isEmpty && s.rest.isEmpty

/-- How many bytes are left. -/
theorem length_rest (s : Stream) : s.rest.length = s.text.length - s.position :=
  s.cursor.length_rest

/-- Nothing is left exactly when all of the text has been consumed. -/
theorem rest_eq_nil_iff (s : Stream) : s.rest = [] ↔ s.text.length ≤ s.position :=
  s.cursor.rest_eq_nil_iff

end Stream

end StackLexer
