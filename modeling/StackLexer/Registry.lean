import StackLexer.ByteMap
import StackLexer.Lexer

/-!
# Registries

Lexers by name. A lexer is registered under its name and its aliases, in any case; the empty name
is not registered, and a name that is taken goes to the lexer registered last. Registered lexers
have an identity, because registering the same one again replaces nothing.
-/

namespace StackLexer

/-- A lexer with its identity. -/
structure Registered where
  /-- which lexer it is -/
  id : Nat
  /-- the lexer -/
  lexer : Lexer

/-- The names a lexer is registered under: its own and its aliases. -/
def Registered.keys (r : Registered) : List Bytes := r.lexer.name :: r.lexer.aliases

/-- Lexers by folded name. -/
structure Registry where
  /-- the lexer of each folded name -/
  slots : ByteMap Registered

namespace Registry

/-- The registry without lexers. -/
def empty : Registry := ⟨.empty⟩

/-- Register a lexer under one name. -/
def assign (registry : Registry) (r : Registered) (key : Bytes) : Registry :=
  if key.isEmpty then registry else ⟨registry.slots.insert key.lower r⟩

/-- Register a lexer under all its names. -/
def register (registry : Registry) (r : Registered) : Registry :=
  r.keys.foldl (fun registry key => registry.assign r key) registry

/-- The lexer of a name in any case. -/
def find? (registry : Registry) (name : Bytes) : Option Registered :=
  registry.slots.find? name.lower

/-- The lexer of a name in any case, which has to exist. -/
def get (registry : Registry) (name : Bytes) : Except LexerError Registered :=
  match registry.find? name with
  | some r => .ok r
  | none => .error (.lexerNotFound name)

/-- Whether a name is registered. -/
def contains (registry : Registry) (name : Bytes) : Bool := (registry.find? name).isSome

/-- The names of the lexers that can be found, sorted, each once. -/
def names (registry : Registry) : List Bytes :=
  (ByteMap.ofList (registry.slots.values.map fun r => (r.lexer.name, ()))).keys

/-- The grammar of a registered lexer. -/
def resolve (registry : Registry) (name : Bytes) : Option CompiledGrammar :=
  (registry.find? name).map fun r => r.lexer.grammar

/-- What there is to say about registering a lexer under one name. -/
def assignNotes (registry : Registry) (r : Registered) (key : Bytes) : List Note :=
  if key.isEmpty then []
  else
    match registry.slots.find? key.lower with
    | some taken =>
      if taken.id = r.id then []
      else
        [⟨.warn, bytes "lexer '" ++ r.lexer.name ++ bytes "' replaces '" ++ taken.lexer.name
          ++ bytes "' for alias '" ++ key ++ bytes "'"⟩]
    | none => []

/-- What there is to say about registering a lexer under several names. -/
def keyNotes (registry : Registry) (r : Registered) : List Bytes → List Note
  | [] => []
  | key :: rest => registry.assignNotes r key ++ keyNotes (registry.assign r key) r rest

/-- What there is to say about registering a lexer. -/
def registerNotes (registry : Registry) (r : Registered) : List Note :=
  registry.keyNotes r r.keys ++
    [⟨.debug, bytes "registered lexer '" ++ r.lexer.name ++ bytes "' ("
      ++ Bytes.ofNat r.lexer.aliases.length ++ bytes " aliases)"⟩]

end Registry

end StackLexer
