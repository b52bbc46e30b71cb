import StackLexer.Bytes

/-!
# Errors

What can be wrong with a grammar, a document, a directive, an encoding name or a lookup. Content
never raises: a text that no rule matches yields tokens, not errors.

* `Location` — where in a grammar a fault was found;
* `LexerError` — the causes, with `LexerError.message` as the one place that words them. A message
  is a line or two for display and ends before its first zero byte, so a name or a pattern with
  such a byte in it cuts the message short; the cause itself keeps all of its bytes.
-/

namespace StackLexer

/-- Where in a grammar a fault was found. -/
structure Location where
  /-- the name of the grammar, empty for one without a name -/
  grammar : Bytes
  /-- the name of the state, empty when no state is meant -/
  state : Bytes
  /-- the index of the rule within the state, negative when no rule is meant -/
  rule : Int
  deriving DecidableEq, Repr

namespace Location

/-- No location at all. -/
def nowhere : Location := ⟨[], [], -1⟩

/-- A grammar as a whole. -/
def ofGrammar (grammar : Bytes) : Location := ⟨grammar, [], -1⟩

/-- A state as a whole. -/
def ofState (grammar state : Bytes) : Location := ⟨grammar, state, -1⟩

/-- The printed form, `grammar:state#rule` without the parts that are not meant. -/
def text (l : Location) : Bytes :=
  (if l.grammar.isEmpty then bytes "<anonymous>" else l.grammar)
    ++ (if l.state.isEmpty then [] else bytes ":" ++ l.state)
    ++ (if l.rule ≥ 0 then bytes "#" ++ Bytes.ofInt l.rule else [])

end Location

/-- What went wrong. -/
inductive LexerError where
  /-- a rule's regular expression is not one -/
  | invalidPattern (pattern reason : Bytes) (location : Location)
  /-- a transition, an include or a delegate names a state that is not defined, or there is no
  root state -/
  | unknownState (missing : Bytes) (location : Location)
  /-- states include each other; first and last entry of the cycle are the same state -/
  | includeCycle (cycle : List Bytes) (location : Location)
  /-- a state has the name reserved for a combined state -/
  | stateNameClash (state : Bytes) (location : Location)
  /-- a compiled grammar or an initial stack that cannot be lexed with -/
  | malformedGrammar (problem : Bytes) (location : Location)
  /-- a state directive that is not one -/
  | invalidDirective (directive : Bytes)
  /-- a document of the wrong shape; `field` says which part of it -/
  | format (field problem : Bytes)
  /-- an input encoding that is not supported -/
  | unknownEncoding (encoding : Bytes)
  /-- no lexer under a name -/
  | lexerNotFound (name : Bytes)
  deriving DecidableEq, Repr

namespace LexerError

/-- The name of the kind of error, which opens its message. -/
def kind : LexerError → Bytes
  | .invalidPattern .. => bytes "InvalidPatternError"
  | .unknownState .. => bytes "UnknownStateError"
  | .includeCycle .. => bytes "GrammarCycleError"
  | .stateNameClash .. => bytes "StateNameClashError"
  | .malformedGrammar .. => bytes "MalformedCompiledGrammarError"
  | .invalidDirective .. => bytes "InvalidDirectiveError"
  | .format .. => bytes "GrammarFormatError"
  | .unknownEncoding .. => bytes "UnknownEncodingError"
  | .lexerNotFound .. => bytes "LexerNotFoundError"

/-- The location, for the errors that have one. -/
def location? : LexerError → Option Location
  | .invalidPattern _ _ l => some l
  | .unknownState _ l => some l
  | .includeCycle _ l => some l
  | .stateNameClash _ l => some l
  | .malformedGrammar _ l => some l
  | _ => none

/-- What went wrong, in words. -/
def problem : LexerError → Bytes
  | .invalidPattern pattern reason _ =>
    bytes "cannot compile pattern '" ++ pattern ++ bytes "': " ++ reason
  | .unknownState missing _ => bytes "reference to undefined state '" ++ missing ++ bytes "'"
  | .includeCycle cycle _ => bytes "include cycle: " ++ (bytes " -> ").intercalate cycle
  | .stateNameClash state _ =>
    bytes "state '" ++ state ++ bytes "' collides with a combined state of the same name"
  | .malformedGrammar problem _ => problem
  | .invalidDirective directive => bytes "invalid state directive '" ++ directive ++ bytes "'"
  | .format field problem => field ++ bytes ": " ++ problem
  | .unknownEncoding encoding => bytes "unsupported input encoding '" ++ encoding ++ bytes "'"
  | .lexerNotFound name => bytes "no lexer for alias '" ++ name ++ bytes "'"

/-- Kind, location if there is one, and on a line of its own the problem. -/
def fullText (e : LexerError) : Bytes :=
  e.kind
    ++ (match e.location? with
      | some l => bytes " at " ++ l.text
      | none => [])
    ++ bytes "\n" ++ e.problem

/-- The message: the text of the error up to its first zero byte. -/
def message (e : LexerError) : Bytes := e.fullText.takeWhile (· != 0)

end LexerError

end StackLexer
