import StackLexer.Options
import StackLexer.Stream.Pull

/-!
# Lexers

A lexer is a compiled grammar with the normalisation its input goes through: bytes are decoded
(`Lexer.decode`), the text is normalised (`Options.preprocess`) and then lexed.

Normalisation takes the byte order mark off, turns line ends into newlines, strips both ends,
expands tabs and ends the text with a newline, in this order and as the options say.
-/

namespace StackLexer

/-! ## Encodings -/

/-- How bytes are turned into UTF-8. -/
inductive Encoding where
  /-- they are UTF-8, up to repairs -/
  | utf8
  /-- every byte is a code point -/
  | latin1
  /-- they are ASCII, up to repairs -/
  | ascii
  /-- they are UTF-8 if they can be, and else every byte is a code point -/
  | guess
  deriving DecidableEq, Repr

namespace Encoding

/-- Case and the choice between `_` and `-` do not matter in the name of an encoding. -/
def normalizedName (name : Bytes) : Bytes :=
  (name.map fun b => if b = 95 then 45 else b).map lowerByte

/-- The encoding of a name, in any of its spellings. -/
def parse? (name : Bytes) : Option Encoding :=
  let n := normalizedName name
  if n = bytes "utf-8" ∨ n = bytes "utf8" then some .utf8
  else if n = bytes "latin-1" ∨ n = bytes "latin1" ∨ n = bytes "iso-8859-1" then some .latin1
  else if n = bytes "ascii" ∨ n = bytes "us-ascii" then some .ascii
  else if n = bytes "guess" then some .guess
  else none

/-- Decode bytes. -/
def decode (input : Bytes) : Encoding → Bytes
  | .utf8 => (Utf8.sanitize input).text
  | .latin1 => Utf8.ofLatin1 input
  | .ascii => (Utf8.sanitizeAscii input).text
  | .guess => if Utf8.isValid input then input else Utf8.ofLatin1 input

/-- What there is to say about decoding bytes for the lexer called `name`. -/
def decodeNotes (name input : Bytes) : Encoding → List Note
  | .utf8 =>
    let replaced := (Utf8.sanitize input).replaced
    if replaced = 0 then []
    else
      [⟨.warn, name ++ bytes ": replaced " ++ Bytes.ofNat replaced
        ++ bytes " ill-formed UTF-8 bytes"⟩]
  | .latin1 => []
  | .ascii =>
    let replaced := (Utf8.sanitizeAscii input).replaced
    if replaced = 0 then []
    else [⟨.warn, name ++ bytes ": replaced " ++ Bytes.ofNat replaced ++ bytes " non-ASCII bytes"⟩]
  | .guess =>
    match Utf8.firstFault? input with
    | none => []
    | some offset =>
      [⟨.debug, name ++ bytes ": input is not UTF-8 (offset " ++ Bytes.ofNat offset
        ++ bytes "), decoding as latin-1"⟩]

end Encoding

/-! ## Normalisation -/

/-- Every `\r\n` and every other `\r` becomes `\n`. -/
def unifyNewlines : Bytes → Bytes
  | [] => []
  | 13 :: 10 :: rest => 10 :: unifyNewlines rest
  | b :: rest => (if b = 13 then 10 else b) :: unifyNewlines rest

/-- The bytes dropped at both ends of a text that is stripped entirely. -/
def isStripSpace (b : UInt8) : Bool :=
  b == 32 || b == 9 || b == 10 || b == 13 || b == 12 || b == 11

/-- Drop the bytes of a kind at both ends. -/
def stripEnds (drop : UInt8 → Bool) (text : Bytes) : Bytes :=
  (((text.dropWhile drop).reverse).dropWhile drop).reverse

/-- Expand tabs from column `column` on. Bytes that continue a character do not move the
column. -/
def expandTabsFrom (tabSize : Nat) : Nat → Bytes → Bytes
  | _, [] => []
  | column, b :: rest =>
    if b = 9 then
      let spaces := tabSize - column % tabSize
      List.replicate spaces 32 ++ expandTabsFrom tabSize (column + spaces) rest
    else if b = 10 then 10 :: expandTabsFrom tabSize 0 rest
    else
      b :: expandTabsFrom tabSize (if Utf8.isContinuation b then column else column + 1) rest

/-- Replace every tab by spaces up to the next tab stop; a distance of zero keeps the tabs. A text
without tabs is returned as it is. -/
def expandTabs (tabSize : Nat) (text : Bytes) : Bytes :=
  if tabSize = 0 ∨ 9 ∉ text then text else expandTabsFrom tabSize 0 text

namespace Options

/-- The text without a byte order mark in front. -/
def withoutMark (text : Bytes) : Bytes :=
  if Utf8.hasByteOrderMark text then text.drop 3 else text

/-- Unify the line ends, if the options say so. A text without `\r` is returned as it is. -/
def unify (o : Options) (text : Bytes) : Bytes :=
  if o.normalizeNewlines ∧ 13 ∈ text then unifyNewlines text else text

/-- Strip both ends, as the options say. -/
def strip (o : Options) (text : Bytes) : Bytes :=
  if o.stripAll then stripEnds isStripSpace text
  else if o.stripNewlines then stripEnds (· == 10) text
  else text

/-- End the text with a newline. -/
def endLine (text : Bytes) : Bytes := if text.getLast? = some 10 then text else text ++ [10]

/-- Normalise a text. -/
def preprocess (o : Options) (text : Bytes) : Bytes :=
  let text := o.unify (withoutMark text)
  let text := expandTabs o.tabSize (o.strip text)
  if o.ensureNewline then endLine text else text

end Options

/-! ## Lexers -/

/-- A grammar with the normalisation of its input. -/
structure Lexer where
  /-- the grammar lexed with -/
  grammar : CompiledGrammar
  /-- the normalisation -/
  options : Options
  /-- the encoding the options name -/
  encoding : Encoding

namespace Lexer

/-- A lexer; the encoding has to be a known one. -/
def make (g : CompiledGrammar) (o : Options) : Except LexerError Lexer :=
  match Encoding.parse? o.encoding with
  | some encoding => .ok ⟨g, o, encoding⟩
  | none => .error (.unknownEncoding o.encoding)

/-- A lexer on a grammar that may be missing. -/
def makeOn (g : Option CompiledGrammar) (o : Options) : Except LexerError Lexer :=
  match g with
  | some g => make g o
  | none =>
    .error (.malformedGrammar (bytes "lexer constructed without a grammar") Location.nowhere)

/-- The name of the grammar. -/
def name (l : Lexer) : Bytes := l.grammar.name

/-- The other names of the grammar. -/
def aliases (l : Lexer) : List Bytes := l.grammar.aliases

/-- Decode bytes as the options say. -/
def decode (l : Lexer) (input : Bytes) : Bytes := l.encoding.decode input

/-- What there is to say about decoding. -/
def decodeNotes (l : Lexer) (input : Bytes) : List Note := l.encoding.decodeNotes l.name input

/-- The stream of a text, which is normalised first. -/
def stream (l : Lexer) (text : Bytes) : Except LexerError Stream :=
  Stream.start l.grammar (l.options.preprocess text) [rootState]

/-- The stream of bytes, which are decoded first. -/
def streamOfBytes (l : Lexer) (input : Bytes) : Except LexerError Stream :=
  l.stream (l.decode input)

/-- How likely a text is written in the language of the lexer, from zero to one. -/
def confidence (l : Lexer) (text : Bytes) : Rat := l.grammar.confidence text

end Lexer

end StackLexer
