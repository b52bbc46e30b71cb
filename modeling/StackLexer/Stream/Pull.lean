import StackLexer.Stream.Step

/-!
# Pulling tokens

`Stream.next` hands out one token and `Stream.drain` all that are left, stepping as needed. Both
end because every step makes progress. `Stream.nested` is how delegates are lexed: with a stream
of their own, `Stream.maxDelegateDepth` levels deep.

The equation lemmas at the end say what a pull does in each of its three cases: a token is
waiting, the text is at its end, a step has to be made.
-/

namespace StackLexer

namespace Stream

/-! ## Pulling tokens -/

/-- Hand out the next token, if there is one before the end of the text. -/
def nextWith (nested : Option SubLexer) (s : Stream) :
    Except LexerError (Option Token × Stream) :=
  match s.pending with
  | t :: more => .ok (some t, { s with pending := more })
  | [] =>
    if _hs : s.rest = [] then .ok (none, s)
    else
      match _h : s.stepWith nested with
      | .error e => .error e
      | .ok s' => nextWith nested s'
termination_by (s.rest.length, maxZeroWidthSteps - s.zeroWidthSteps)
decreasing_by
  rcases decreasing_stepWith _hs _h with hlt | ⟨heq, hlt⟩
  · exact Prod.Lex.left _ _ hlt
  · rw [heq]
    exact Prod.Lex.right _ hlt

/-- Hand out all remaining tokens. -/
def drainWith (nested : Option SubLexer) (s : Stream) :
    Except LexerError (List Token × Stream) :=
  match _hp : s.pending with
  | t :: more =>
    match drainWith nested { s with pending := more } with
    | .error e => .error e
    | .ok (tokens, last) => .ok (t :: tokens, last)
  | [] =>
    if _hs : s.rest = [] then .ok ([], s)
    else
      match _h : s.stepWith nested with
      | .error e => .error e
      | .ok s' => drainWith nested s'
termination_by (s.rest.length, maxZeroWidthSteps - s.zeroWidthSteps, s.pending.length)
decreasing_by
  · refine Prod.Lex.right _ (Prod.Lex.right _ ?_)
    rw [_hp]
    exact Nat.lt_succ_self _
  · rcases decreasing_stepWith _hs _h with hlt | ⟨heq, hlt⟩
    · exact Prod.Lex.left _ _ hlt
    · rw [heq]
      exact Prod.Lex.right _ (Prod.Lex.left _ _ hlt)

/-- Lexing stretches of text on their own, with room for `depth` levels of delegates. -/
def nested : Nat → Option SubLexer
  | 0 => none
  | depth + 1 => some fun g text states => do
    let s ← start g text states
    let (tokens, last) ← drainWith (nested depth) s
    return ⟨tokens, last.notes.reverse⟩

/-- One step of a stream that is not itself nested. -/
def step (s : Stream) : Except LexerError Stream := s.stepWith (nested maxDelegateDepth)

/-- Hand out the next token; none is left once the whole text has been consumed. -/
def next (s : Stream) : Except LexerError (Option Token × Stream) :=
  s.nextWith (nested maxDelegateDepth)

/-- Hand out all remaining tokens. -/
def drain (s : Stream) : Except LexerError (List Token × Stream) :=
  s.drainWith (nested maxDelegateDepth)

/-! ## Equation lemmas -/

theorem nextWith_pending {lexer : Option SubLexer} {s : Stream} {t : Token} {more : List Token}
    (h : s.pending = t :: more) :
    s.nextWith lexer = .ok (some t, { s with pending := more }) := by
  rw [nextWith]
  split
  · next heq =>
    rw [h] at heq
    cases heq
    rfl
  · next heq =>
    rw [h] at heq
    cases heq

theorem nextWith_end {lexer : Option SubLexer} {s : Stream} (h : s.pending = [])
    (hs : s.rest = []) : s.nextWith lexer = .ok (none, s) := by
  rw [nextWith]
  split
  · next heq =>
    rw [h] at heq
    cases heq
  · rw [dif_pos hs]

theorem nextWith_step {lexer : Option SubLexer} {s : Stream} (h : s.pending = [])
    (hs : s.rest ≠ []) :
    s.nextWith lexer = (s.stepWith lexer).bind (nextWith lexer) := by
  rw [nextWith]
  split
  · next heq =>
    rw [h] at heq
    cases heq
  · rw [dif_neg hs]
    split
    · next e he => rw [he]; rfl
    · next s' he => rw [he]; rfl

theorem drainWith_pending {lexer : Option SubLexer} {s : Stream} {t : Token}
    {more : List Token} (h : s.pending = t :: more) :
    s.drainWith lexer =
      (drainWith lexer { s with pending := more }).map fun r => (t :: r.1, r.2) := by
  rw [drainWith]
  split
  · next heq =>
    rw [h] at heq
    cases heq
    split
    · next e he => rw [he]; rfl
    · next ts last he => rw [he]; rfl
  · next heq =>
    rw [h] at heq
    cases heq

theorem drainWith_end {lexer : Option SubLexer} {s : Stream} (h : s.pending = [])
    (hs : s.rest = []) : s.drainWith lexer = .ok ([], s) := by
  rw [drainWith]
  split
  · next heq =>
    rw [h] at heq
    cases heq
  · rw [dif_pos hs]

theorem drainWith_step {lexer : Option SubLexer} {s : Stream} (h : s.pending = [])
    (hs : s.rest ≠ []) :
    s.drainWith lexer = (s.stepWith lexer).bind (drainWith lexer) := by
  rw [drainWith]
  split
  · next heq =>
    rw [h] at heq
    cases heq
  · rw [dif_neg hs]
    split
    · next e he => rw [he]; rfl
    · next s' he => rw [he]; rfl

end Stream

/-- All tokens of a text, from the root state. -/
def CompiledGrammar.tokenize (g : CompiledGrammar) (text : Bytes) :
    Except LexerError (List Token) := do
  let s ← Stream.start g text [rootState]
  let (tokens, _) ← s.drain
  return tokens

end StackLexer
