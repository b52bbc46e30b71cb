import StackLexer.Bytes

/-!
# Token types

Token types form a tree: a type is named by the segments on the way from the root to it, written
with dots (`Keyword.Constant`). Types are compared and ordered by that dotted path.

* `TokenType.intern` reads a dotted path, `TokenType.parse` also the spellings grammar authors
  use (`Token.` in front, `String` and `Number` for the literals of those names);
* `TokenType.isSubtypeOf` climbs to the depth of the other type and compares paths.

`StackLexer.TypeTable` has the same types as nodes of a shared table.
-/

namespace StackLexer

/-- A token type, by its segments; no segments is the root. -/
structure TokenType where
  /-- the names from the root downwards -/
  segments : List Bytes
  deriving DecidableEq, Repr

/-- The non-empty pieces between dots. -/
def splitDotted (dotted : Bytes) : List Bytes := (dotted.pieces 46).filter fun p => !p.isEmpty

namespace TokenType

/-- The root of the tree. -/
def root : TokenType := ⟨[]⟩

/-- The type of a segment list; empty segments are ignored. -/
def ofSegments (segments : List Bytes) : TokenType := ⟨segments.filter fun s => !s.isEmpty⟩

/-- The type of a dotted path; the empty path is the root. -/
def intern (dotted : Bytes) : TokenType := ⟨splitDotted dotted⟩

/-- The type further down by the dotted path `name`. -/
def child (t : TokenType) (name : Bytes) : TokenType := ⟨t.segments ++ splitDotted name⟩

/-- The segments a written type name stands for: `Token` in front is dropped, and `String` and
`Number` in front are below `Literal`. -/
def writtenSegments (name : Bytes) : List Bytes :=
  let below :=
    match splitDotted name with
    | first :: rest => if first = bytes "Token" then rest else first :: rest
    | [] => []
  match below with
  | first :: rest =>
    if first = bytes "String" ∨ first = bytes "Number" then bytes "Literal" :: first :: rest
    else first :: rest
  | [] => []

/-- The type of a name as grammar authors write it. -/
def parse (name : Bytes) : TokenType := ⟨writtenSegments name⟩

/-- The dotted path; empty for the root. -/
def path (t : TokenType) : Bytes := [46].intercalate t.segments

/-- The printed name: the path below `Token`. -/
def text (t : TokenType) : Bytes :=
  if t.path.isEmpty then bytes "Token" else bytes "Token." ++ t.path

/-- How many segments lead to the type. -/
def depth (t : TokenType) : Nat := t.segments.length

/-- Whether the type has no parent. -/
def isRoot (t : TokenType) : Bool := t.segments.isEmpty

/-- The type one segment up; the root has none. -/
def parent? (t : TokenType) : Option TokenType :=
  if t.isRoot then none else some ⟨t.segments.dropLast⟩

/-- Types are the same when their paths are. -/
def same (a b : TokenType) : Bool := a.path == b.path

/-- Types are ordered by their paths. -/
def before (a b : TokenType) : Bool := decide (a.path < b.path)

/-- The ancestor with at most `depth` segments. -/
def ancestor (t : TokenType) (depth : Nat) : TokenType := ⟨t.segments.take depth⟩

/-- Climb to the depth of `other` and compare: every type is a subtype of itself and of the
root. -/
def isSubtypeOf (t other : TokenType) : Bool :=
  decide (other.depth ≤ t.depth) && (t.ancestor other.depth).same other

/-! ## The types the lexer itself uses -/

/-- Plain text. -/
def plain : TokenType := intern (bytes "Text")

/-- Input that no rule matches. -/
def error : TokenType := intern (bytes "Error")

/-- Text handed to another grammar and not lexed. -/
def other : TokenType := intern (bytes "Other")

end TokenType

end StackLexer
