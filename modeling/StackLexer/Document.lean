import StackLexer.Error
import StackLexer.Json
import StackLexer.Transition.Directive

/-!
# Fields of documents

What the readers of grammar and option documents have in common: ask a value for a string, a
truth value, a list of strings or transitions, and name the field when it is something else.
-/

namespace StackLexer.Document

/-- The name of an item of a field. -/
def item (field : Bytes) (i : Nat) : Bytes := field ++ bytes "[" ++ Bytes.ofNat i ++ bytes "]"

/-- The refusal of a field that should have been something else. -/
def expected (field what : Bytes) (j : Json) : LexerError :=
  .format field (bytes "expected " ++ what ++ bytes ", got " ++ j.kind)

/-- A string. -/
def string (field : Bytes) : Json → Except LexerError Bytes
  | .str s => .ok s
  | j => .error (expected field (bytes "a string") j)

/-- A truth value. -/
def bool (field : Bytes) : Json → Except LexerError Bool
  | .bool b => .ok b
  | j => .error (expected field (bytes "a boolean") j)

/-- A list of strings. -/
def strings (field : Bytes) : Json → Except LexerError (List Bytes)
  | .arr items => items.zipIdx.mapM fun (j, i) => string (item field i) j
  | j => .error (expected field (bytes "an array of strings") j)

/-- A list of strings that is not empty; `problem` says so when it is. -/
def someStrings (field problem : Bytes) (j : Json) : Except LexerError (List Bytes) := do
  let list ← strings field j
  if list.isEmpty then .error (.format field problem) else return list

/-- An optional field: `absent` when it is missing. -/
def optional {α : Type} (read : Bytes → Json → Except LexerError α) (field : Bytes) (absent : α) :
    Option Json → Except LexerError α
  | none => .ok absent
  | some j => read field j

/-- A faulty directive in a document is a fault of the field it stands in. -/
def inField {α : Type} (field : Bytes) : Except LexerError α → Except LexerError α
  | .ok a => .ok a
  | .error e => .error (.format field e.message)

/-- Transitions, as one directive or as a list of directives. -/
def transitions (field : Bytes) : Json → Except LexerError (List Transition)
  | .str directive => inField field (Directive.parse directive)
  | j => do
    let directives ← strings field j
    inField field (Directive.parseAll directives)

end StackLexer.Document
