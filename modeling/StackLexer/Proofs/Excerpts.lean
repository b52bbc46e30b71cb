import StackLexer.Proofs.Progress

/-!
# Tokens are excerpts

A token has a place and some bytes, and these are found in different ways: the place of a group
counts from the start of its match and the place of a match from the start of its text, and the text
of a delegate is a copy of a part of another one, up to as many levels deep as delegates may be
nested. In the end both have to be about the outermost text.

* `Token.IsExcerptOf` — the bytes of the token are those that stand in the text at its place;
  `Token.IsExcerptOf.adopt` takes this from a stretch to the text around it;
* `Stream.Quotes` — all tokens waiting are excerpts. `Stream.Quotes.step` is the step of this
  invariant, from `Stream.excerpts_emissionYield`, and `Stream.runsQuote` its run, by induction on
  the depth of delegates;
* `Stream.pulls_excerpts` — whatever is pulled from a stream is an excerpt.

Nothing is asked of the groups of a pattern here. They may be nested, repeated or looked ahead at,
and then tokens overlap or come out of order, but each is an excerpt.
-/

namespace StackLexer

/-! ## Excerpts -/

/-- The bytes of the token, of which there are some, stand in the text at its place. -/
structure Token.IsExcerptOf (text : Bytes) (t : Token) : Prop where
  /-- there are some -/
  value_ne_nil : t.value ≠ []
  /-- they lie in the text -/
  le_length : t.offset + t.value.length ≤ text.length
  /-- and they are what stands there -/
  value_eq : t.value = (text.drop t.offset).take t.value.length

/-- An excerpt of a stretch, taken over from a delegate, is an excerpt of the text around it. -/
theorem Token.IsExcerptOf.adopt {text : Bytes} {t : Token} {start length : Nat}
    (h : t.IsExcerptOf ((text.drop start).take length)) (d : Delegate CompiledGrammar) :
    (Stream.adopt d start t).IsExcerptOf text := by
  obtain ⟨hne, hle, hvalue⟩ := h
  rw [List.length_take, List.length_drop] at hle
  have hpos : 0 < t.value.length := List.length_pos_iff.2 hne
  rw [Stream.adopt_eq]
  refine ⟨hne, ?_, ?_⟩
  · show t.offset + start + t.value.length ≤ text.length
    omega
  · show t.value = (text.drop (t.offset + start)).take t.value.length
    rw [List.drop_take, List.take_take, List.drop_drop, Nat.min_eq_left (by omega),
      Nat.add_comm start] at hvalue
    exact hvalue

namespace Stream

variable {s s' : Stream} {depth : Nat}

/-- The token of a stretch that lies in the text is an excerpt. -/
theorem isExcerptOf_of_mem_excerpt {type : TokenType} {start length : Nat}
    (hle : start + length ≤ s.rest.length) {t : Token}
    (ht : t ∈ excerpt s.cursor type start length) : t.IsExcerptOf s.text := by
  rw [excerpt] at ht
  by_cases hlength : length = 0
  · rw [if_pos hlength] at ht
    cases ht
  · rw [if_neg hlength] at ht
    obtain rfl := List.mem_singleton.1 ht
    have hslice : (s.cursor.slice start length).length = length := Cursor.length_slice hle
    rw [length_rest] at hle
    refine ⟨?_, ?_, ?_⟩
    · apply List.ne_nil_of_length_pos
      show 0 < (s.cursor.slice start length).length
      omega
    · show s.position + start + (s.cursor.slice start length).length ≤ s.text.length
      omega
    · show s.cursor.slice start length = (s.text.drop (s.position + start)).take
        (s.cursor.slice start length).length
      rw [hslice]
      exact s.cursor.slice_eq start length

/-! ## Yields -/

/-- All tokens waiting are excerpts. -/
def Quotes (s : Stream) : Prop := ∀ t ∈ s.pending, t.IsExcerptOf s.text

/-- In runs with room for `depth` levels of delegates, all tokens are excerpts. -/
def RunsQuote (depth : Nat) : Prop :=
  ∀ (s : Stream) (tokens : List Token) (last : Stream), s.Quotes →
    Drains (nested depth) s tokens last → ∀ t ∈ tokens, t.IsExcerptOf s.text

/-- What a delegate yields for a stretch of the text are excerpts, when its runs give excerpts of
the stretch. -/
theorem excerpts_delegateYield (hinner : ∀ inner, depth = inner + 1 → RunsQuote inner)
    {d : Delegate CompiledGrammar} {start length : Nat} (hle : start + length ≤ s.rest.length)
    {y : Yield} (hy : delegateYield (nested depth) s d start length = .ok y) :
    ∀ t ∈ y.tokens, t.IsExcerptOf s.text := by
  by_cases hlength : length = 0
  · rw [delegateYield.eq_def, if_pos hlength] at hy
    cases hy
    simp [Yield.empty]
  · rcases tokens_of_delegateYield hy hlength with
      ⟨-, htokens⟩ | ⟨inner, u, tokens, last, rfl, hu, hrun, htokens⟩
    · intro t ht
      rw [htokens] at ht
      exact isExcerptOf_of_mem_excerpt hle ht
    · obtain ⟨-, stack, -, rfl⟩ := start_eq_ok_iff.1 hu
      have hfound := hinner inner rfl _ tokens last (by simp [Quotes]) hrun
      intro t ht
      rw [htokens] at ht
      obtain ⟨x, hx, rfl⟩ := List.mem_map.1 ht
      have hstretch : x.IsExcerptOf (s.cursor.slice start length) := hfound x hx
      rw [s.cursor.slice_eq] at hstretch
      exact hstretch.adopt d

/-- What groups yield are excerpts, wherever they lie in the text. -/
theorem excerpts_groupsYield (hinner : ∀ inner, depth = inner + 1 → RunsQuote inner)
    {groups : List (GroupAction CompiledGrammar × Option Span)}
    (hle : ∀ group ∈ groups, ∀ a, group.2 = some a → a.start + a.length ≤ s.rest.length)
    {y : Yield} (hy : groupsYield (nested depth) s groups = .ok y) :
    ∀ t ∈ y.tokens, t.IsExcerptOf s.text := by
  induction groups generalizing y with
  | nil =>
    cases hy
    simp [Yield.empty]
  | cons group more ih =>
    obtain ⟨first, hfirst, hy⟩ := Outcome.bind_eq_ok.1 hy
    obtain ⟨second, hsecond, hy⟩ := Outcome.bind_eq_ok.1 hy
    cases hy
    rw [List.forall_mem_cons] at hle
    have hgroup : ∀ t ∈ first.tokens, t.IsExcerptOf s.text := by
      rw [groupYield.eq_def] at hfirst
      split at hfirst
      · next type a =>
        cases hfirst
        intro t ht
        exact isExcerptOf_of_mem_excerpt (hle.1 a rfl) ht
      · next d a => exact excerpts_delegateYield hinner (hle.1 a rfl) hfirst
      · cases hfirst
        simp [Yield.empty]
      · cases hfirst
        simp [Yield.empty]
    intro t ht
    rcases List.mem_append.1 ht with ht | ht
    · exact hgroup t ht
    · exact ih hle.2 hsecond t ht

/-- **What a match yields** are excerpts, whatever is done with it. -/
theorem excerpts_emissionYield (hinner : ∀ inner, depth = inner + 1 → RunsQuote inner)
    {rule : CompiledRule CompiledGrammar} {m : Match} (hfound : s.found? = some (rule, m))
    {y : Yield} (hy : emissionYield (nested depth) s m rule.emission = .ok y) :
    ∀ t ∈ y.tokens, t.IsExcerptOf s.text := by
  obtain ⟨-, hmatch⟩ := found?_eq_some hfound
  have hwhole : 0 + m.length ≤ s.rest.length := by
    rw [Nat.zero_add]
    exact Expression.length_le_of_matchAt hmatch
  cases hemission : rule.emission with
  | emit type =>
    rw [hemission] at hy
    cases type with
    | none =>
      cases hy
      simp [Yield.empty]
    | some type =>
      cases hy
      intro t ht
      exact isExcerptOf_of_mem_excerpt hwhole ht
  | groups actions =>
    rw [hemission] at hy
    refine excerpts_groupsYield hinner (fun group hgroup a ha => ?_) hy
    apply Expression.group_le_of_matchAt hmatch
    rw [← ha]
    exact (List.of_mem_zip hgroup).2
  | delegate d =>
    rw [hemission] at hy
    exact excerpts_delegateYield hinner hwhole hy

/-! ## Steps and runs -/

/-- A character that becomes an error is an excerpt. -/
theorem Quotes.errorChar (h : s.Quotes) : s.errorChar.Quotes := by
  have hle : 0 + Utf8.sequenceLength s.rest ≤ s.rest.length := by
    rw [Nat.zero_add]
    exact Utf8.sequenceLength_le s.rest
  intro t ht
  rcases List.mem_append.1 ht with ht | ht
  · exact h t ht
  · exact isExcerptOf_of_mem_excerpt hle ht

/-- Excerpts can be taken in. -/
theorem Quotes.take (h : s.Quotes) {y : Yield} (hy : ∀ t ∈ y.tokens, t.IsExcerptOf s.text) :
    (s.take y).Quotes := by
  intro t ht
  rcases List.mem_append.1 ht with ht | ht
  · exact h t ht
  · exact hy t ht

/-- **A step adds excerpts.** -/
theorem Quotes.step (hinner : ∀ inner, depth = inner + 1 → RunsQuote inner) (h : s.Quotes)
    (hstep : Stepped (nested depth) s s') : s'.Quotes := by
  cases hstep with
  | @unmatched message _ =>
    have hreported : (s.report message).Quotes := h
    exact hreported.errorChar
  | consumed hfound hy => exact h.take (excerpts_emissionYield hinner hfound hy)
  | moved hfound hy => exact h.take (excerpts_emissionYield hinner hfound hy)
  | @stalled _ _ y message hfound hy =>
    have htaken := h.take (excerpts_emissionYield hinner hfound hy)
    have hreset : (report { s.take y with
        stack := s.fallback
        zeroWidthBase := s.fallback } message).Quotes := htaken
    exact hreset.errorChar

/-- Runs give excerpts when those of their delegates do. -/
theorem runsQuote_of_inner (hinner : ∀ inner, depth = inner + 1 → RunsQuote inner) :
    RunsQuote depth := by
  intro s tokens last hquotes hrun
  induction hrun with
  | finished hp hs => simp
  | handOut hp _ ih =>
    rw [Quotes, hp, List.forall_mem_cons] at hquotes
    intro t ht
    rcases List.mem_cons.1 ht with rfl | ht
    · exact hquotes.1
    · exact ih hquotes.2 t ht
  | step hp hs hstep _ ih =>
    have hfound := ih (hquotes.step hinner (stepped_of_stepWith hstep))
    rwa [text_stepWith hstep] at hfound

/-- Runs give excerpts, however deep their delegates are nested. -/
theorem runsQuote (depth : Nat) : RunsQuote depth :=
  forall_depth (fun _ => runsQuote_of_inner) depth

/-- The tokens waiting are excerpts, however a stream is pulled. -/
theorem Reachable.quotes {t : Stream} (h : Reachable (nested depth) s t) (hs : s.Quotes) :
    t.Quotes := by
  induction h with
  | refl => exact hs
  | step _ hstep ih => exact ih.step (fun inner _ => runsQuote inner) (stepped_of_stepWith hstep)
  | handOut _ hp ih =>
    rw [Quotes, hp, List.forall_mem_cons] at ih
    exact ih.2

/-- **Every token is an excerpt.** Take a stream that has started over an assembled grammar,
whatever its rules make of their matches, the text and the initial states, and pull from it as often
as you like. The next pull succeeds, and so does a drain; and what they hand out are tokens with
some bytes, which stand in the text at the place of the token. -/
theorem pulls_excerpts {g : CompiledGrammar} (hg : g.Assembled) {text : Bytes}
    {states : List Bytes} (hs : start g text states = .ok s) {t : Stream}
    (ht : Reachable (nested maxDelegateDepth) s t) :
    (∃ token u, t.next = .ok (token, u) ∧ ∀ x ∈ token, x.IsExcerptOf text) ∧
    ∃ tokens last, t.drain = .ok (tokens, last) ∧ ∀ x ∈ tokens, x.IsExcerptOf text := by
  have haccepted : t.grammar.Accepted := ht.grammar_eq.symm ▸ accepted_of_start hg hs
  have hrange := ht.inRange (inRange_of_start hs)
  have hfresh : s.Quotes ∧ s.text = text := by
    obtain ⟨-, stack, -, rfl⟩ := start_eq_ok_iff.1 hs
    exact ⟨by simp [Quotes], rfl⟩
  have hquotes := ht.quotes hfresh.1
  have htext := ht.text_eq.trans hfresh.2
  constructor
  · obtain ⟨k, u, -, hsteps, hnext, -⟩ :=
      exists_stepsWith_next (total_nested maxDelegateDepth) haccepted hrange
    have hreached := ht.steps hsteps
    have hwaiting := hreached.quotes hfresh.1
    rw [Quotes, hreached.text_eq, hfresh.2] at hwaiting
    refine ⟨_, _, hnext, fun x hx => hwaiting x ?_⟩
    exact List.mem_of_mem_head? hx
  · obtain ⟨tokens, last, hrun⟩ :=
      exists_drains_of_total (total_nested maxDelegateDepth) haccepted
    have hfound := runsQuote maxDelegateDepth t tokens last hquotes hrun
    rw [htext] at hfound
    exact ⟨tokens, last, hrun.drainWith_eq, hfound⟩

/-- A grammar for brackets, with a group for the letter after them that is only looked ahead at. -/
def peeking : CompiledGrammar :=
  .ofStates (bytes "peeking") [] [
    ⟨rootState, [
      ⟨0, Pattern.expression ⟨.seq (.capture 1 (.one ⟨[(0x28, 0x28)], false, false⟩))
          (.lookahead true (.capture 2 (.one ⟨[(0x61, 0x7a)], false, false⟩))), 2⟩,
        bytes "([(])(?=([a-z]))", .groups [.emit .other, .emit .plain], [], rootState, 0⟩]⟩] none

/-- The letter is found twice, ahead of the match and after it, and is an excerpt both times. -/
theorem pulls_excerpts_peeking : peeking.Assembled ∧
    ∃ s last, start peeking (bytes "(a") [rootState] = .ok s ∧
      s.drain = .ok ([⟨0, .other, bytes "("⟩, ⟨1, .plain, bytes "a"⟩, ⟨1, .error, bytes "a"⟩],
        last) ∧
      ∀ x ∈ [⟨0, .other, bytes "("⟩, ⟨1, .plain, bytes "a"⟩, ⟨1, .error, bytes "a"⟩],
        Token.IsExcerptOf (bytes "(a") x := by
  have hassembled : peeking.Assembled := CompiledGrammar.assembled_of_ownDelegates rfl
  obtain ⟨s, hs⟩ := Outcome.exists_of_isOk (x := start peeking (bytes "(a") [rootState]) rfl
  obtain ⟨-, tokens, last, hdrain, hexcerpts⟩ := pulls_excerpts hassembled hs .refl
  have htokens : tokensFor 300 peeking (bytes "(a") [rootState] =
      some [⟨0, .other, bytes "("⟩, ⟨1, .plain, bytes "a"⟩, ⟨1, .error, bytes "a"⟩] := by
    decide +kernel
  obtain rfl := eq_of_tokensFor htokens hs hdrain
  exact ⟨hassembled, s, last, hs, hdrain, hexcerpts⟩

end Stream

end StackLexer
