import StackLexer.Grammar.Document
import StackLexer.Lexer

/-!
# Lexer documents

A grammar document may also have `options`; together they make a lexer. The grammar is read first,
then the options, and only then is the grammar compiled and the encoding looked at.
-/

namespace StackLexer.Lexer

/-- The options of a document, the usual ones if it has none. -/
def readOptions (doc : Json) : Except LexerError Options :=
  match doc.member? (bytes "options") with
  | some options => Options.ofDocument .default options
  | none => .ok .default

/-- Read a lexer from a document. -/
def ofDocument (library : Library) (resolve : Resolver) (doc : Json) :
    Except LexerError Lexer := do
  let grammar ← Grammar.ofDocument library resolve doc
  let options ← readOptions doc
  let compiled ← grammar.compile library
  make compiled options

/-- What there is to say about the options of a document. -/
def optionNotes (doc : Json) : List Note :=
  match doc.member? (bytes "options") with
  | some options => Options.documentNotes .default options
  | none => []

/-- What there is to say about reading a lexer from the file at `path`. -/
def fileNotes (library : Library) (resolve : Resolver) (path : Bytes) (doc : Json) :
    List Note :=
  match Grammar.ofDocument library resolve doc, readOptions doc with
  | .error _, _ => []
  | .ok _, .error _ => Grammar.documentNotes library resolve doc ++ optionNotes doc
  | .ok g, .ok _ =>
    Grammar.documentNotes library resolve doc ++ optionNotes doc
      ++ ⟨.info, bytes "loaded lexer '" ++ g.name ++ bytes "' from " ++ path⟩
        :: g.compileNotes library

end StackLexer.Lexer
