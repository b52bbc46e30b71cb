import StackLexer.Document
import StackLexer.Grammar.Compile
import StackLexer.Json.Parser
import StackLexer.Regex.Words

/-!
# Grammar documents

A grammar as a JSON object:

* `name`, `aliases`, `ignore_case` — optional;
* `states` — an object of states, each an array of rules;
* `confidence` — optional, an array of checks, each with a `regex` and a `score`.

A rule is an object of one of three forms: `include` alone, `default` alone (transitions), or a
pattern (`regex`, or `words` with an optional `prefix` and `suffix`) with at most one of `token`,
`groups` and `using`, and optional transitions (`state`, `combined`). A `using` is `this` or the
name of a grammar that `resolve` knows, with an optional `using_state` and `wrap`. The patterns of
rules are only written down; those of checks are read by a library at once.

The first fault met is reported, with the field it was found in. Other fields of the document are
ignored, other fields of a rule are not.
-/

namespace StackLexer

/-- How a document finds the grammars it refers to. -/
abbrev Resolver := Bytes → Option CompiledGrammar

namespace Grammar

/-- A field within a field. -/
def subfield (field : Bytes) (name : String) : Bytes := field ++ bytes "." ++ bytes name

/-! ## Rules -/

/-- A written token type. -/
def readType (field : Bytes) (j : Json) : Except LexerError TokenType := do
  let name ← Document.string field j
  return TokenType.parse name

/-- The pattern of a rule: a regular expression or a list of words. -/
def readPattern (field : Bytes) (r : Json) : Except LexerError Bytes :=
  match r.member? (bytes "regex"), r.member? (bytes "words") with
  | some regex, none => Document.string (subfield field "regex") regex
  | none, some words => do
    let front ← Document.optional Document.string (subfield field "prefix") []
      (r.member? (bytes "prefix"))
    let back ← Document.optional Document.string (subfield field "suffix") []
      (r.member? (bytes "suffix"))
    let list ← Document.someStrings (subfield field "words")
      (bytes "needs at least one word") words
    return wordsPattern list front back
  | _, _ => .error (.format field (bytes "a rule needs exactly one of 'regex' or 'words'"))

/-- The grammar a `using` names: nothing for the grammar itself. -/
def readTarget (resolve : Resolver) (field target : Bytes) :
    Except LexerError (Option CompiledGrammar) :=
  if target = bytes "this" then .ok none
  else
    match resolve target with
    | some g => .ok (some g)
    | none =>
      .error (.format (subfield field "using")
        (bytes "unknown grammar '" ++ target ++ bytes "'"))

/-- The type unclassified tokens get: a type, the usual one for `true`, none for `false`. -/
def readWrap (field : Bytes) : Json → Except LexerError (Option TokenType)
  | .bool wraps => .ok (if wraps then some TokenType.other else none)
  | j => do
    let type ← readType field j
    return some type

/-- The delegate of an object `r` with the member `using`. -/
def readDelegate (resolve : Resolver) (field : Bytes) (r written : Json) :
    Except LexerError (Delegate CompiledGrammar) := do
  let name ← Document.string (subfield field "using") written
  let state ← Document.optional Document.string (subfield field "using_state") []
    (r.member? (bytes "using_state"))
  let target ← readTarget resolve field name
  let wrap ← Document.optional readWrap (subfield field "wrap") none (r.member? (bytes "wrap"))
  return ⟨target, state, wrap⟩

/-- The action for one capturing group. -/
def readGroup (resolve : Resolver) (field : Bytes) (j : Json) :
    Except LexerError (GroupAction CompiledGrammar) :=
  match j, j.member? (bytes "using") with
  | .null, _ => .ok .skip
  | .str name, _ => .ok (.emit (TokenType.parse name))
  | _, some written => do
    let d ← readDelegate resolve field j written
    return .delegate d
  | _, none =>
    .error (.format field (bytes "expected a token type, null or \x7b\"using\": ...\x7d"))

/-- The actions for the capturing groups. -/
def readGroups (resolve : Resolver) (field : Bytes) :
    Json → Except LexerError (List (GroupAction CompiledGrammar))
  | .arr items => items.zipIdx.mapM fun (j, i) => readGroup resolve (Document.item field i) j
  | j => .error (Document.expected field (bytes "an array") j)

/-- What becomes of the match of a rule. -/
def readEmission (resolve : Resolver) (field : Bytes) (r : Json) :
    Except LexerError (Emission CompiledGrammar) :=
  match r.member? (bytes "token"), r.member? (bytes "groups"), r.member? (bytes "using") with
  | none, none, none => .ok (.emit none)
  | some .null, none, none => .ok (.emit none)
  | some token, none, none => do
    let type ← readType (subfield field "token") token
    return .emit (some type)
  | none, some groups, none => do
    let actions ← readGroups resolve (subfield field "groups") groups
    return .groups actions
  | none, none, some written => do
    let d ← readDelegate resolve field r written
    return .delegate d
  | _, _, _ =>
    .error (.format field (bytes "'token', 'groups' and 'using' are mutually exclusive"))

/-- The transitions of a rule: those written under `state`, then the combined state. -/
def readTransitions (field : Bytes) (r : Json) : Except LexerError (List Transition) := do
  let written ← Document.optional Document.transitions (subfield field "state") []
    (r.member? (bytes "state"))
  match r.member? (bytes "combined") with
  | none => return written
  | some states => do
    let members ← Document.someStrings (subfield field "combined")
      (bytes "needs at least one state") states
    return written ++ [.pushCombined members]

/-- The fields a rule with a pattern may have. -/
def ruleFields : List Bytes :=
  ["regex", "words", "prefix", "suffix", "token", "groups", "using", "using_state", "wrap",
    "state", "combined"].map bytes

/-- A rule with a pattern. -/
def readRule (resolve : Resolver) (field : Bytes) (members : List (Bytes × Json)) :
    Except LexerError Rule := do
  let pattern ← readPattern field (.obj members)
  let emission ← readEmission resolve field (.obj members)
  let transitions ← readTransitions field (.obj members)
  match members.find? fun m => !ruleFields.contains m.1 with
  | some (name, _) => .error (.format field (bytes "unknown key '" ++ name ++ bytes "'"))
  | none => return ⟨pattern, emission, transitions⟩

/-- One entry of a state. -/
def readEntry (resolve : Resolver) (field : Bytes) : Json → Except LexerError Entry
  | .obj members =>
    match members.lookup (bytes "include"), members.lookup (bytes "default") with
    | some state, _ =>
      if members.length ≠ 1 then
        .error (.format field (bytes "'include' takes no other keys"))
      else do
        let state ← Document.string (subfield field "include") state
        return .inclusion state
    | none, some directives =>
      if members.length ≠ 1 then
        .error (.format field (bytes "'default' takes no other keys"))
      else do
        let transitions ← Document.transitions (subfield field "default") directives
        return .rule (.moving transitions)
    | none, none => do
      let rule ← readRule resolve field members
      return .rule rule
  | j => .error (Document.expected field (bytes "a rule object") j)

/-! ## States -/

/-- The entries of one state. -/
def readState (resolve : Resolver) (name : Bytes) : Json → Except LexerError (List Entry)
  | .arr items =>
    items.zipIdx.mapM fun (j, i) => readEntry resolve (Document.item (bytes "states." ++ name) i) j
  | j => .error (Document.expected (bytes "states." ++ name) (bytes "an array of rules") j)

/-- All states of a document. -/
def readStates (resolve : Resolver) : Json → Except LexerError (ByteMap (List Entry))
  | .obj members => do
    let states ← members.mapM fun (name, j) => do
      let entries ← readState resolve name j
      return (name, entries)
    return ByteMap.ofList states
  | j => .error (Document.expected (bytes "states") (bytes "an object") j)

/-! ## Confidence -/

/-- One check. -/
def readCheck (library : Library) (ignoreCase : Bool) (field : Bytes) (j : Json) :
    Except LexerError Check :=
  match j.member? (bytes "regex"), j.member? (bytes "score") with
  | some regex, some score =>
    match score.number? with
    | none => .error (.format (subfield field "score") (bytes "expected a number"))
    | some score => do
      let written ← Document.string (subfield field "regex") regex
      match library.read ignoreCase written with
      | .ok regex => return ⟨regex, score⟩
      | .error reason =>
        .error (.format (subfield field "regex")
          (bytes "cannot compile '" ++ written ++ bytes "': " ++ reason))
  | _, _ =>
    .error (.format field (bytes "expected \x7b\"regex\": ..., \"score\": ...\x7d"))

/-- The heuristic of a document. -/
def readConfidence (library : Library) (ignoreCase : Bool) : Json → Except LexerError Heuristic
  | .arr items => do
    let checks ← items.zipIdx.mapM fun (j, i) =>
      readCheck library ignoreCase (Document.item (bytes "confidence") i) j
    return .checks checks
  | j => .error (Document.expected (bytes "confidence") (bytes "an array") j)

/-! ## Documents -/

/-- The name used for a document as a whole. -/
def wholeDocument : Bytes := bytes "<document>"

/-- Read a grammar from a document. -/
def ofDocument (library : Library) (resolve : Resolver) : Json → Except LexerError Grammar
  | .obj fields => do
    let doc := Json.obj fields
    let name ← Document.optional Document.string (bytes "name") [] (doc.member? (bytes "name"))
    let aliases ← Document.optional Document.strings (bytes "aliases") []
      (doc.member? (bytes "aliases"))
    let ignoreCase ← Document.optional Document.bool (bytes "ignore_case") false
      (doc.member? (bytes "ignore_case"))
    match doc.member? (bytes "states") with
    | none => .error (.format (bytes "states") (bytes "missing"))
    | some states => do
      let states ← readStates resolve states
      match doc.member? (bytes "confidence") with
      | none => return ⟨name, aliases, ignoreCase, states, none⟩
      | some checks => do
        let heuristic ← readConfidence library ignoreCase checks
        return ⟨name, aliases, ignoreCase, states, some heuristic⟩
  | j => .error (Document.expected wholeDocument (bytes "an object") j)

/-- What there is to say about reading a grammar. -/
def documentNotes (library : Library) (resolve : Resolver) (doc : Json) : List Note :=
  match ofDocument library resolve doc with
  | .ok g =>
    [⟨.debug, bytes "loaded grammar '" ++ g.name ++ bytes "' with " ++ Bytes.ofNat g.states.size
      ++ bytes " states"⟩]
  | .error _ => []

/-- Read JSON text; `field` names the document when the text is not JSON. -/
def readJson (field text : Bytes) : Except LexerError Json :=
  match Json.parse? text with
  | some j => .ok j
  | none => .error (.format field Json.refusal)

/-- Read the contents of a file, which are missing when it cannot be opened. -/
def readContents (path : Bytes) : Option Bytes → Except LexerError Json
  | some text => readJson path text
  | none => .error (.format path (bytes "cannot open file"))

/-- What there is to say about reading a grammar from a file. -/
def fileNotes (library : Library) (resolve : Resolver) (path : Bytes) (doc : Json) :
    List Note :=
  match ofDocument library resolve doc with
  | .ok _ => documentNotes library resolve doc
  | .error e => [⟨.debug, bytes "grammar file '" ++ path ++ bytes "' rejected: " ++ e.message⟩]

end Grammar

end StackLexer
