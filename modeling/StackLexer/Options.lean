import StackLexer.Document
import StackLexer.Note

/-!
# Lexer options

How a text is normalised before it is lexed. Options are read from a JSON object that overrides
the fields of given options one by one, in byte order of the names; most fields have two
spellings, and a field given twice is as the later one says. Names that mean nothing are noted and
otherwise ignored.
-/

namespace StackLexer

/-- The normalisation a lexer applies. -/
structure Options where
  /-- drop newlines at both ends -/
  stripNewlines : Bool
  /-- drop all white space at both ends; wins over dropping newlines alone -/
  stripAll : Bool
  /-- end the text with a newline -/
  ensureNewline : Bool
  /-- the distance of tab stops, `0` to keep tabs -/
  tabSize : Nat
  /-- how bytes are decoded -/
  encoding : Bytes
  /-- turn every kind of line end into a newline -/
  normalizeNewlines : Bool
  deriving DecidableEq, Repr

namespace Options

/-- The options in force when nothing is said. -/
def default : Options := ⟨true, false, true, 0, bytes "utf-8", true⟩

/-- The options that can be set. -/
inductive Key where
  /-- dropping newlines -/
  | stripNewlines
  /-- dropping white space -/
  | stripAll
  /-- the newline at the end -/
  | ensureNewline
  /-- line ends -/
  | normalizeNewlines
  /-- tab stops -/
  | tabSize
  /-- decoding -/
  | encoding
  deriving DecidableEq, Repr

/-- The option of a name, in either spelling. -/
def key? (name : Bytes) : Option Key :=
  if name = bytes "strip_leading_trailing_newlines" ∨ name = bytes "stripnl" then
    some .stripNewlines
  else if name = bytes "strip_all" ∨ name = bytes "stripall" then some .stripAll
  else if name = bytes "ensure_trailing_newline" ∨ name = bytes "ensurenl" then
    some .ensureNewline
  else if name = bytes "normalize_newlines" then some .normalizeNewlines
  else if name = bytes "tab_size" ∨ name = bytes "tabsize" then some .tabSize
  else if name = bytes "input_encoding" ∨ name = bytes "encoding" then some .encoding
  else none

/-- The largest number that a signed 64-bit word can hold. -/
def maxSize : Int := 9223372036854775807

/-- A whole number from zero up to what a signed 64-bit word can hold. -/
def readSize (field : Bytes) : Json → Except LexerError Nat
  | .int n =>
    if 0 ≤ n ∧ n ≤ maxSize then .ok n.toNat
    else .error (.format field (bytes "expected a non-negative integer"))
  | _ => .error (.format field (bytes "expected a non-negative integer"))

/-- Set one option. -/
def set (o : Options) (field : Bytes) (value : Json) : Key → Except LexerError Options
  | .stripNewlines => do
    let b ← Document.bool field value
    return { o with stripNewlines := b }
  | .stripAll => do
    let b ← Document.bool field value
    return { o with stripAll := b }
  | .ensureNewline => do
    let b ← Document.bool field value
    return { o with ensureNewline := b }
  | .normalizeNewlines => do
    let b ← Document.bool field value
    return { o with normalizeNewlines := b }
  | .tabSize => do
    let n ← readSize field value
    return { o with tabSize := n }
  | .encoding => do
    let name ← Document.string field value
    return { o with encoding := name }

/-- Take in one member of an options object. -/
def override (o : Options) (m : Bytes × Json) : Except LexerError Options :=
  match key? m.1 with
  | some key => o.set (bytes "options." ++ m.1) m.2 key
  | none => .ok o

/-- Override the fields of `base` that a document mentions. -/
def ofDocument (base : Options) : Json → Except LexerError Options
  | .obj members => members.foldlM override base
  | j => .error (Document.expected (bytes "options") (bytes "an object") j)

/-- What there is to say about the members of an options object, up to the first fault. -/
def memberNotes (o : Options) : List (Bytes × Json) → List Note
  | [] => []
  | m :: rest =>
    match o.override m with
    | .error _ => []
    | .ok o' =>
      if (key? m.1).isSome then memberNotes o' rest
      else
        ⟨.warn, bytes "ignoring unknown lexer option '" ++ m.1 ++ bytes "'"⟩ :: memberNotes o' rest

/-- What there is to say about reading options. -/
def documentNotes (base : Options) : Json → List Note
  | .obj members => memberNotes base members
  | _ => []

end Options

end StackLexer
