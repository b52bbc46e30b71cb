import StackLexer.Stream
import StackLexer.Utf8

/-!
# One step of a stream

A step tries the rules of the current state in order:

* the first match decides; its emission yields tokens and its transitions move the stack;
* a search that is given up is reported, and the next rule is tried;
* where no rule matches, one character becomes an error token;
* a match of length zero is fine as long as its rule moves the stack, up to
  `Stream.maxZeroWidthSteps` times in a row. Beyond that, or without a transition, the run has
  stalled: the stack it started from is restored and one character becomes an error token.

A delegate lexes its stretch with a stream of its own. How such a stretch is lexed is a parameter
of a step (`SubLexer`), absent at the deepest level, where the stretch comes out as one token.

`progress_stepWith` is what the termination of everything else rests on: before the end of the
text every step consumes something or uses up a zero-width step.
-/

namespace StackLexer

/-- What a stretch of text yields: tokens, and notes in order. -/
structure Yield where
  /-- the tokens in order -/
  tokens : List Token
  /-- the notes in order -/
  notes : List Note

/-- One yield after another. -/
def Yield.append (a b : Yield) : Yield := ⟨a.tokens ++ b.tokens, a.notes ++ b.notes⟩

/-- Nothing at all. -/
def Yield.empty : Yield := ⟨[], []⟩

/-- A way to lex a stretch of text on its own: with a grammar, from a stack of state names. -/
abbrev SubLexer := CompiledGrammar → Bytes → List Bytes → Except LexerError Yield

namespace Stream

/-! ## Matching -/

/-- The token of a stretch of the text that starts `start` bytes after the place `c`; an empty
stretch has none. -/
def excerpt (c : Cursor) (type : TokenType) (start length : Nat) : List Token :=
  if length = 0 then [] else [⟨c.position + start, type, c.slice start length⟩]

/-- The first rule that matches at a place, with its match. -/
def firstMatch (rules : List (CompiledRule CompiledGrammar)) (c : Cursor) :
    Option (CompiledRule CompiledGrammar × Match) :=
  rules.findSome? fun rule => (rule.regex.matchAt c).map fun m => (rule, m)

/-- What is reported while the rules of the state named `state` are tried: every search that is
given up before a rule matches. -/
def searchNotes (state : Bytes) (c : Cursor) : List (CompiledRule CompiledGrammar) → List Note
  | [] => []
  | rule :: more =>
    match rule.regex.searchAt c with
    | .found _ => []
    | .missed => searchNotes state c more
    | .gaveUp reason =>
      ⟨.warn, bytes "pattern '" ++ rule.pattern ++ bytes "' in state '" ++ state
        ++ bytes "' failed at offset " ++ Bytes.ofNat c.position ++ bytes ": " ++ reason⟩
        :: searchNotes state c more

/-! ## Emitting -/

/-- The states a delegate starts with: the root state, and its own above it. -/
def delegateStack (d : Delegate CompiledGrammar) : List Bytes :=
  if d.state.isEmpty || d.state == rootState then [rootState] else [rootState, d.state]

/-- A delegate's token as part of the outer text: moved to its place, and given the wrap type if
it is of the root type or plain text. -/
def adopt (d : Delegate CompiledGrammar) (offset : Nat) (t : Token) : Token :=
  match d.wrap with
  | some type =>
    if t.type.same TokenType.root || t.type.same TokenType.plain then
      { t.shift offset with type := type }
    else t.shift offset
  | none => t.shift offset

/-- What a delegate yields for a stretch of the text, which starts `start` bytes after the place
reached. Without a way to lex it, the stretch is one token. -/
def delegateYield (nested : Option SubLexer) (s : Stream) (d : Delegate CompiledGrammar)
    (start length : Nat) : Except LexerError Yield :=
  if length = 0 then .ok .empty
  else
    match nested with
    | none =>
      .ok ⟨excerpt s.cursor d.unlexedType start length,
        [⟨.warn, bytes "delegate nesting deeper than " ++ Bytes.ofNat maxDelegateDepth
          ++ bytes " in grammar '" ++ s.grammar.name ++ bytes "'; emitting "
          ++ Bytes.ofNat length ++ bytes " bytes unlexed"⟩]⟩
    | some lex => do
      let inner ← lex (d.target.getD s.grammar) (s.cursor.slice start length) (delegateStack d)
      return ⟨inner.tokens.map (adopt d (s.position + start)), inner.notes⟩

/-- What one capturing group yields. -/
def groupYield (nested : Option SubLexer) (s : Stream) :
    GroupAction CompiledGrammar × Option Span → Except LexerError Yield
  | (.emit type, some span) => .ok ⟨excerpt s.cursor type span.start span.length, []⟩
  | (.delegate d, some span) => delegateYield nested s d span.start span.length
  | (.skip, some _) => .ok .empty
  | (_, none) => .ok .empty

/-- What the capturing groups yield, in the order of their numbers. -/
def groupsYield (nested : Option SubLexer) (s : Stream) :
    List (GroupAction CompiledGrammar × Option Span) → Except LexerError Yield
  | [] => .ok .empty
  | group :: more => do
    let first ← groupYield nested s group
    let second ← groupsYield nested s more
    return first.append second

/-- What a match yields. -/
def emissionYield (nested : Option SubLexer) (s : Stream) (m : Match) :
    Emission CompiledGrammar → Except LexerError Yield
  | .emit none => .ok .empty
  | .emit (some type) => .ok ⟨excerpt s.cursor type 0 m.length, []⟩
  | .groups actions => groupsYield nested s (actions.zip m.groups)
  | .delegate d => delegateYield nested s d 0 m.length

/-- Take in what was yielded. -/
def take (s : Stream) (y : Yield) : Stream :=
  { s with pending := s.pending ++ y.tokens, notes := y.notes.reverse ++ s.notes }

/-! ## Stepping -/

/-- Consume one character as an error. -/
def errorChar (s : Stream) : Stream :=
  let length := Utf8.sequenceLength s.rest
  { s with
    pending := s.pending ++ excerpt s.cursor .error 0 length
    cursor := s.cursor.advance length
    zeroWidthSteps := 0 }

/-- Report how a step went. -/
def report (s : Stream) (message : Bytes) : Stream :=
  { s with notes := ⟨.trace, message⟩ :: s.notes }

/-- The rules of the current state have been tried: what there was to report about the searches. -/
def searched (s : Stream) : Stream :=
  { s with
    notes := (searchNotes s.currentState.name s.cursor s.currentState.rules).reverse ++ s.notes }

/-- Move on after a match of a rule of the state named `state`. -/
def advance (s : Stream) (state : Bytes) (rule : CompiledRule CompiledGrammar) (length : Nat) :
    Stream :=
  let moved := s.stack.moveAll s.grammar.stateIndex? rule.transitions
  if length = 0 then
    let base := if s.zeroWidthSteps = 0 then s.stack else s.zeroWidthBase
    if rule.transitions.isEmpty || decide (maxZeroWidthSteps < s.zeroWidthSteps + 1) then
      errorChar (report { s with stack := base, zeroWidthBase := base }
        (bytes "zero-width match of '" ++ rule.pattern ++ bytes "' in state '" ++ state
          ++ bytes "' made no progress at offset " ++ Bytes.ofNat s.position))
    else
      { s with stack := moved, zeroWidthBase := base, zeroWidthSteps := s.zeroWidthSteps + 1 }
  else { s with stack := moved, cursor := s.cursor.advance length, zeroWidthSteps := 0 }

/-- One step, given how delegates are lexed. -/
def stepWith (nested : Option SubLexer) (s : Stream) : Except LexerError Stream :=
  match firstMatch s.currentState.rules s.cursor with
  | none =>
    .ok (errorChar (s.searched.report (bytes "no rule in state '" ++ s.currentState.name
      ++ bytes "' matches at offset " ++ Bytes.ofNat s.position)))
  | some (rule, m) => do
    let yielded ← emissionYield nested s m rule.emission
    return (s.searched.take yielded).advance s.currentState.name rule m.length

/-! ## Progress -/

@[simp] theorem text_errorChar (s : Stream) : s.errorChar.text = s.text := rfl

@[simp] theorem grammar_errorChar (s : Stream) : s.errorChar.grammar = s.grammar := rfl

/-- An error character takes at least one byte. -/
theorem position_errorChar_lt {s : Stream} (h : s.rest ≠ []) :
    s.position < s.errorChar.position := by
  have hpos := Utf8.sequenceLength_pos h
  show s.position < s.position + Utf8.sequenceLength s.rest
  omega

/-- A stream has made progress when it has consumed something, or when it has used up one more of
the zero-width steps it is allowed. -/
def Progress (s s' : Stream) : Prop :=
  s.position < s'.position ∨
    s'.position = s.position ∧ s.zeroWidthSteps < s'.zeroWidthSteps
      ∧ s'.zeroWidthSteps ≤ maxZeroWidthSteps

theorem text_advance (s : Stream) (state : Bytes) (rule : CompiledRule CompiledGrammar)
    (length : Nat) : (s.advance state rule length).text = s.text := by
  rw [advance]
  split
  · simp only []
    split <;> rfl
  · rfl

theorem progress_advance {s : Stream} (h : s.rest ≠ []) (state : Bytes)
    (rule : CompiledRule CompiledGrammar) (length : Nat) :
    Progress s (s.advance state rule length) := by
  rw [advance]
  split
  · simp only []
    split
    · exact Or.inl (position_errorChar_lt
        (s := report { s with stack := _, zeroWidthBase := _ } _) h)
    · next hstall =>
      simp only [Bool.or_eq_true, decide_eq_true_eq, not_or] at hstall
      exact Or.inr ⟨rfl, Nat.lt_succ_self _, by show s.zeroWidthSteps + 1 ≤ _; omega⟩
  · refine Or.inl ?_
    show s.position < s.position + length
    omega

/-- A step does not change the text. -/
theorem text_stepWith {nested : Option SubLexer} {s s' : Stream}
    (h : s.stepWith nested = .ok s') : s'.text = s.text := by
  rw [stepWith] at h
  split at h
  · cases h
    rfl
  · next rule m _ =>
    cases hy : emissionYield nested s m rule.emission with
    | error e =>
      rw [hy] at h
      cases h
    | ok y =>
      rw [hy] at h
      cases h
      exact text_advance _ _ _ _

/-- **Progress.** Every step before the end of the text consumes something or uses up a zero-width
step. -/
theorem progress_stepWith {nested : Option SubLexer} {s s' : Stream}
    (hs : s.rest ≠ []) (h : s.stepWith nested = .ok s') : Progress s s' := by
  rw [stepWith] at h
  split at h
  · cases h
    exact Or.inl (position_errorChar_lt (s := s.searched.report _) hs)
  · next rule m _ =>
    cases hy : emissionYield nested s m rule.emission with
    | error e =>
      rw [hy] at h
      cases h
    | ok y =>
      rw [hy] at h
      cases h
      exact progress_advance (s := s.searched.take y) hs _ _ _

/-- What every step before the end makes smaller: the bytes left, or else the zero-width steps
left. -/
theorem decreasing_stepWith {nested : Option SubLexer} {s s' : Stream}
    (hs : s.rest ≠ []) (h : s.stepWith nested = .ok s') :
    s'.rest.length < s.rest.length ∨
      s'.rest.length = s.rest.length ∧
        maxZeroWidthSteps - s'.zeroWidthSteps < maxZeroWidthSteps - s.zeroWidthSteps := by
  have hlt : s.position < s.text.length :=
    Nat.lt_of_not_le fun hle => hs (s.rest_eq_nil_iff.2 hle)
  rw [length_rest, length_rest, text_stepWith h]
  rcases progress_stepWith hs h with hp | ⟨hp, hz, hle⟩
  · exact Or.inl (by omega)
  · exact Or.inr ⟨by omega, by omega⟩

end Stream

end StackLexer
