import StackLexer.Proofs.Evaluation
import StackLexer.Regex.Engine

/-!
# Progress and termination

A step that consumes nothing is allowed, and so is a delegate that gets all of the text it is part
of. Lexing ends all the same, because two things are counted: the zero-width steps in a row and the
levels of delegates.

* `Stream.InRange` — the place reached lies in the text, and no more zero-width steps are counted
  than are allowed. `Stream.Stepped.inRange` is its step;
* `Stream.budget` — how many steps can follow at most. Every step before the end spends some of it
  (`Stream.budget_lt`), so runs are bounded by it: up to the next byte
  (`Stream.exists_stepsWith_advance`), up to the next token (`Stream.exists_stepsWith_next`) and up
  to the end (`Stream.exists_drainsIn`);
* `Stream.Engaged` — the streams at work while one is pulled, those of delegates included, each with
  its level. A level deeper leaves room for one level less, so no stream is deeper than
  `Stream.maxDelegateDepth`;
* `Stream.engaged_progresses` — all of them move on and come to their end.
-/

namespace StackLexer.Stream

variable {lexer : Option SubLexer} {s s' : Stream}

/-! ## What a step keeps -/

/-- The place reached lies in the text, and no more zero-width steps are counted than are
allowed. -/
structure InRange (s : Stream) : Prop where
  /-- the place reached -/
  position_le : s.position ≤ s.text.length
  /-- the zero-width steps -/
  steps_le : s.zeroWidthSteps ≤ maxZeroWidthSteps

/-- A stream starts in range. -/
theorem inRange_of_start {g : CompiledGrammar} {text : Bytes} {states : List Bytes}
    (h : start g text states = .ok s) : s.InRange := by
  obtain ⟨-, stack, -, rfl⟩ := start_eq_ok_iff.1 h
  exact ⟨Nat.zero_le _, Nat.zero_le _⟩

/-- A stream that has started lexes with an accepted grammar. -/
theorem accepted_of_start {g : CompiledGrammar} (hg : g.Assembled) {text : Bytes}
    {states : List Bytes} (h : start g text states = .ok s) : s.grammar.Accepted := by
  rw [grammar_of_start h]
  exact ⟨hg, (start_eq_ok_iff.1 h).1⟩

/-- A step that stays in its place leaves as much as there was. -/
theorem rest_ne_nil_of_stay (hrest : s.rest ≠ []) (hstep : s.stepWith lexer = .ok s')
    (hplace : s'.position = s.position) : s'.rest ≠ [] := by
  rw [Ne, rest_eq_nil_iff] at hrest ⊢
  rwa [text_stepWith hstep, hplace]

/-- Moving on over bytes that are left stays in the text. -/
theorem InRange.position_add_le (h : s.InRange) {n : Nat} (hn : n ≤ s.rest.length) :
    s.position + n ≤ s.text.length := by
  have hposition := h.position_le
  rw [length_rest] at hn
  omega

/-- An error character keeps a stream in range. -/
theorem InRange.errorChar (h : s.InRange) : s.errorChar.InRange :=
  ⟨h.position_add_le (Utf8.sequenceLength_le s.rest), Nat.zero_le _⟩

/-- A step keeps a stream in range. -/
theorem Stepped.inRange (h : Stepped lexer s s') (hs : s.InRange) : s'.InRange := by
  cases h with
  | @unmatched message _ =>
    have hreported : (s.searched.report message).InRange := ⟨hs.position_le, hs.steps_le⟩
    exact hreported.errorChar
  | consumed hfound =>
    have hle := Expression.length_le_of_matchAt (found?_eq_some hfound).2
    exact ⟨hs.position_add_le hle, Nat.zero_le _⟩
  | moved _ _ _ _ hsteps => exact ⟨hs.position_le, Nat.succ_le_of_lt hsteps⟩
  | @stalled _ _ y message =>
    have hreset : (report { s.searched.take y with
        stack := s.fallback
        zeroWidthBase := s.fallback } message).InRange := ⟨hs.position_le, hs.steps_le⟩
    exact hreset.errorChar

/-- A stream stays in range, however it is pulled. -/
theorem Reachable.inRange {t : Stream} (h : Reachable lexer s t) (hs : s.InRange) : t.InRange := by
  refine Reachable.invariant (P := InRange) (fun t u ht hstep => hstep.inRange ht) ?_ h hs
  exact fun t more ht => ⟨ht.position_le, ht.steps_le⟩

/-- A stream keeps its grammar, however it is pulled. -/
theorem Reachable.grammar_eq {t : Stream} (h : Reachable lexer s t) : t.grammar = s.grammar := by
  refine Reachable.invariant (P := fun t => t.grammar = s.grammar) ?_ (fun t more ht => ht) h rfl
  exact fun t u ht hstep => hstep.grammar_eq.trans ht

/-- A stream keeps its text, however it is pulled. -/
theorem Reachable.text_eq {t : Stream} (h : Reachable lexer s t) : t.text = s.text := by
  induction h with
  | refl => rfl
  | step _ hstep ih => exact (text_stepWith hstep).trans ih
  | handOut _ _ ih => exact ih

/-- A step does not go back. -/
theorem Stepped.position_le (h : Stepped lexer s s') : s.position ≤ s'.position := by
  cases h with
  | unmatched => exact Nat.le_add_right _ _
  | consumed => exact Nat.le_add_right _ _
  | moved => exact Nat.le_refl _
  | stalled => exact Nat.le_add_right _ _

/-! ## The budget -/

/-- How many steps can follow at most: as many for each byte left as may be made in one place, less
those made in this one. -/
def budget (s : Stream) : Nat := (maxZeroWidthSteps + 1) * s.rest.length - s.zeroWidthSteps

theorem budget_le (s : Stream) : s.budget ≤ (maxZeroWidthSteps + 1) * s.rest.length :=
  Nat.sub_le _ _

/-- **Every step before the end spends some of the budget.** -/
theorem budget_lt (hs : s.InRange) (hrest : s.rest ≠ []) (h : s.stepWith lexer = .ok s') :
    s'.budget < s.budget := by
  have hsteps := hs.steps_le
  have hpos : 0 < s.rest.length := List.length_pos_iff.2 hrest
  have hdecreases := decreasing_stepWith hrest h
  simp only [budget, maxZeroWidthSteps] at hsteps hdecreases ⊢
  omega

/-- Steps made one after the other, whatever they yield. -/
def stepsWith (lexer : Option SubLexer) : Nat → Stream → Except LexerError Stream
  | 0, s => .ok s
  | n + 1, s => do
    let s' ← s.stepWith lexer
    stepsWith lexer n s'

theorem stepsWith_succ {n : Nat} {t : Stream} (hstep : s.stepWith lexer = .ok s')
    (hsteps : stepsWith lexer n s' = .ok t) : stepsWith lexer (n + 1) s = .ok t :=
  Outcome.bind_eq_ok.2 ⟨s', hstep, hsteps⟩

/-- Steps lead to states a stream may pass through. -/
theorem Reachable.steps {k : Nat} {t u : Stream} (h : Reachable lexer s t)
    (hsteps : stepsWith lexer k t = .ok u) : Reachable lexer s u := by
  induction k generalizing t with
  | zero =>
    cases hsteps
    exact h
  | succ k ih =>
    obtain ⟨t', hstep, hsteps⟩ := Outcome.bind_eq_ok.1 hsteps
    exact ih (h.step hstep) hsteps

/-- A step of a stream in range over an accepted grammar, before the end. -/
theorem exists_step_before_end (hlexer : Total lexer) (hg : s.grammar.Accepted) (hs : s.InRange)
    (hrest : s.rest ≠ []) :
    ∃ s', s.stepWith lexer = .ok s' ∧ s'.grammar.Accepted ∧ s'.InRange ∧ s'.budget < s.budget := by
  obtain ⟨s', hstep⟩ := exists_stepWith hlexer hg
  have hstepped := stepped_of_stepWith hstep
  exact ⟨s', hstep, hstepped.grammar_eq.symm ▸ hg, hstepped.inRange hs, budget_lt hs hrest hstep⟩

/-- **Up to the next byte.** Before the end, something is consumed after one step more than there
are zero-width steps left. -/
theorem exists_stepsWith_advance (hlexer : Total lexer) (hg : s.grammar.Accepted) (hs : s.InRange)
    (hrest : s.rest ≠ []) :
    ∃ k t, k ≤ maxZeroWidthSteps + 1 - s.zeroWidthSteps ∧ stepsWith lexer k s = .ok t ∧
      s.position < t.position := by
  -- while nothing is consumed, the zero-width steps left become fewer
  induction hleft : maxZeroWidthSteps - s.zeroWidthSteps using Nat.strongRecOn generalizing s with
  | ind left ih =>
    obtain ⟨s', hstep, hg', hs', -⟩ := exists_step_before_end hlexer hg hs hrest
    have hsteps := hs.steps_le
    rcases progress_stepWith hrest hstep with hlt | ⟨heq, hmore, hle⟩
    · exact ⟨1, s', by omega, stepsWith_succ hstep rfl, hlt⟩
    · have hrest' := rest_ne_nil_of_stay hrest hstep heq
      obtain ⟨k, t, hk, ht, hlt⟩ := ih _ (by omega) hg' hs' hrest' rfl
      exact ⟨k + 1, t, by omega, stepsWith_succ hstep ht, heq ▸ hlt⟩

/-- **Up to the next token.** A pull makes some steps and hands out the first token waiting then; it
hands out none only at the end of the text. -/
theorem exists_stepsWith_next (hlexer : Total lexer) (hg : s.grammar.Accepted) (hs : s.InRange) :
    ∃ k t, k ≤ s.budget ∧ stepsWith lexer k s = .ok t ∧
      s.nextWith lexer = .ok (t.pending.head?, { t with pending := t.pending.tail }) ∧
      (t.pending = [] → t.rest = []) := by
  induction hbudget : s.budget using Nat.strongRecOn generalizing s with
  | ind budget ih =>
    cases hp : s.pending with
    | cons token more =>
      refine ⟨0, s, Nat.zero_le _, rfl, ?_, fun hnil => ?_⟩
      · rw [nextWith_pending hp, hp]
        rfl
      · rw [hp] at hnil
        cases hnil
    | nil =>
      by_cases hrest : s.rest = []
      · refine ⟨0, s, Nat.zero_le _, rfl, ?_, fun _ => hrest⟩
        rw [nextWith_end hp hrest]
        cases s
        cases hp
        rfl
      · obtain ⟨s', hstep, hg', hs', hlt⟩ := exists_step_before_end hlexer hg hs hrest
        obtain ⟨k, t, hk, ht, hnext, hend⟩ := ih _ (hbudget ▸ hlt) hg' hs' rfl
        refine ⟨k + 1, t, by omega, stepsWith_succ hstep ht, ?_, hend⟩
        rw [nextWith_step hp hrest, hstep]
        exact hnext

/-! ## Counted runs -/

/-- The run of a drain, as `Drains`, with the number of its steps. -/
inductive DrainsIn (lexer : Option SubLexer) : Nat → Stream → List Token → Stream → Prop
  /-- nothing is left to hand out or to consume -/
  | finished {s : Stream} (hp : s.pending = []) (hs : s.rest = []) : DrainsIn lexer 0 s [] s
  /-- a waiting token is handed out -/
  | handOut {n : Nat} {s last : Stream} {t : Token} {more tokens : List Token}
      (hp : s.pending = t :: more)
      (hrest : DrainsIn lexer n { s with pending := more } tokens last) :
      DrainsIn lexer n s (t :: tokens) last
  /-- a step is made -/
  | step {n : Nat} {s s' last : Stream} {tokens : List Token} (hp : s.pending = [])
      (hs : s.rest ≠ []) (hstep : s.stepWith lexer = .ok s')
      (hrest : DrainsIn lexer n s' tokens last) : DrainsIn lexer (n + 1) s tokens last

/-- **Up to the end.** A run makes no more steps than the budget allows, and it ends where the text
ends. -/
theorem Drains.exists_drainsIn {tokens : List Token} {last : Stream}
    (h : Drains lexer s tokens last) (hs : s.InRange) :
    ∃ n, n ≤ s.budget ∧ DrainsIn lexer n s tokens last ∧ last.position = s.text.length := by
  induction h with
  | @finished s hp hend =>
    have hposition := hs.position_le
    rw [rest_eq_nil_iff] at hend
    exact ⟨0, Nat.zero_le _, .finished hp (rest_eq_nil_iff s |>.2 hend), by omega⟩
  | handOut hp _ ih =>
    obtain ⟨n, hn, hrun, hposition⟩ := ih ⟨hs.position_le, hs.steps_le⟩
    exact ⟨n, hn, .handOut hp hrun, hposition⟩
  | step hp hrest hstep _ ih =>
    have hlt := budget_lt hs hrest hstep
    obtain ⟨n, hn, hrun, hposition⟩ := ih ((stepped_of_stepWith hstep).inRange hs)
    refine ⟨n + 1, by omega, .step hp hrest hstep hrun, ?_⟩
    rw [hposition, text_stepWith hstep]

/-! ## Levels of delegates -/

/-- The streams at work while `s` is pulled, with their level and the room left for levels below:
`s` itself, what becomes of a stream by steps and hand-outs, and the stream that lexes a stretch
handed to a delegate. -/
inductive Engaged (s : Stream) : Nat → Nat → Stream → Prop
  /-- the stream itself -/
  | self : Engaged s 0 maxDelegateDepth s
  /-- a step further -/
  | step {level room : Nat} {t u : Stream} (h : Engaged s level room t)
      (hstep : t.stepWith (nested room) = .ok u) : Engaged s level room u
  /-- a token less to hand out -/
  | handOut {level room : Nat} {t : Stream} {token : Token} {more : List Token}
      (h : Engaged s level room t) (hp : t.pending = token :: more) :
      Engaged s level room { t with pending := more }
  /-- a delegate's own stream, one level deeper -/
  | delegate {level room : Nat} {t u : Stream} {d : Delegate CompiledGrammar}
      {start length : Nat} (h : Engaged s level (room + 1) t) (hhands : t.HandsTo d start length)
      (hlength : length ≠ 0)
      (hstart : Stream.start (d.target.getD t.grammar) (t.cursor.slice start length)
        (delegateStack d) = .ok u) :
      Engaged s (level + 1) room u

/-- Levels and room add up, and every stream at work is in range and over an accepted grammar. -/
theorem Engaged.invariant {level room : Nat} {t : Stream} (h : Engaged s level room t)
    (hg : s.grammar.Accepted) (hs : s.InRange) :
    level + room = maxDelegateDepth ∧ t.grammar.Accepted ∧ t.InRange := by
  induction h with
  | self => exact ⟨Nat.zero_add _, hg, hs⟩
  | step _ hstep ih =>
    obtain ⟨hlevel, hgrammar, hrange⟩ := ih
    have hstepped := stepped_of_stepWith hstep
    exact ⟨hlevel, hstepped.grammar_eq.symm ▸ hgrammar, hstepped.inRange hrange⟩
  | handOut _ _ ih =>
    obtain ⟨hlevel, hgrammar, hrange⟩ := ih
    exact ⟨hlevel, hgrammar, hrange.position_le, hrange.steps_le⟩
  | delegate _ hhands _ hstart ih =>
    obtain ⟨hlevel, hgrammar, -⟩ := ih
    obtain ⟨rule, hrule, hd⟩ := hhands.exists_rule
    refine ⟨by omega, ?_, inRange_of_start hstart⟩
    rw [grammar_of_start hstart]
    exact hgrammar.delegate hrule hd

/-- Where no level is left, a stretch handed to a delegate is one token and starts no stream. -/
theorem delegateYield_zero (s : Stream) (d : Delegate CompiledGrammar) (start length : Nat) :
    ∃ notes, delegateYield (nested 0) s d start length =
      .ok ⟨excerpt s.cursor d.unlexedType start length, notes⟩ := by
  rw [delegateYield.eq_def]
  split
  · next hlength =>
    refine ⟨[], ?_⟩
    rw [excerpt, if_pos hlength]
    rfl
  · exact ⟨_, rfl⟩

/-- A stream that moves on and comes to its end. -/
structure Progresses (lexer : Option SubLexer) (s : Stream) : Prop where
  /-- the place reached lies in the text -/
  position_le : s.position ≤ s.text.length
  /-- a step succeeds and does not go back -/
  step : ∃ s', s.stepWith lexer = .ok s' ∧ s.position ≤ s'.position
  /-- before the end of the text, 257 steps are enough to consume something -/
  advance : s.position < s.text.length →
    ∃ k t, k ≤ 257 ∧ stepsWith lexer k s = .ok t ∧ s.position < t.position
  /-- a pull makes so many steps and then hands out the first token waiting, or it is at the end -/
  next : ∃ k t, k ≤ 257 * (s.text.length - s.position) ∧ stepsWith lexer k s = .ok t ∧
    s.nextWith lexer = .ok (t.pending.head?, { t with pending := t.pending.tail }) ∧
    (t.pending = [] → t.rest = [])
  /-- a drain makes so many steps and ends where the text ends -/
  drain : ∃ n tokens last, n ≤ 257 * (s.text.length - s.position) ∧
    DrainsIn lexer n s tokens last ∧ s.drainWith lexer = .ok (tokens, last) ∧
    last.position = s.text.length

/-- Streams in range over accepted grammars move on and come to their end. -/
theorem InRange.progresses (hs : s.InRange) (hlexer : Total lexer) (hg : s.grammar.Accepted) :
    Progresses lexer s where
  position_le := hs.position_le
  step := by
    obtain ⟨s', hstep⟩ := exists_stepWith hlexer hg
    exact ⟨s', hstep, (stepped_of_stepWith hstep).position_le⟩
  advance hlt := by
    have hrest : s.rest ≠ [] := fun hnil => Nat.not_le_of_lt hlt (s.rest_eq_nil_iff.1 hnil)
    obtain ⟨k, t, hk, ht, hadvance⟩ := exists_stepsWith_advance hlexer hg hs hrest
    exact ⟨k, t, Nat.le_trans hk (Nat.sub_le _ _), ht, hadvance⟩
  next := by
    obtain ⟨k, t, hk, ht, hnext, hend⟩ := exists_stepsWith_next hlexer hg hs
    exact ⟨k, t, s.length_rest ▸ Nat.le_trans hk s.budget_le, ht, hnext, hend⟩
  drain := by
    obtain ⟨tokens, last, hrun⟩ := exists_drains_of_total hlexer hg
    obtain ⟨n, hn, hcounted, hposition⟩ := hrun.exists_drainsIn hs
    exact ⟨n, tokens, last, s.length_rest ▸ Nat.le_trans hn s.budget_le, hcounted,
      hrun.drainWith_eq, hposition⟩

/-- **Progress and termination.** Once a stream has started over an assembled grammar, whatever the
text and the initial states, every stream at work while it is pulled moves on and comes to its end,
and none is nested deeper than 64 levels: in the deepest one a stretch for a delegate is one token.
In particular, a drain makes at most 257 steps for each byte of the text and ends at its end. -/
theorem engaged_progresses {g : CompiledGrammar} (hg : g.Assembled) {text : Bytes}
    {states : List Bytes} (hs : start g text states = .ok s) :
    (∀ level room t, Engaged s level room t → level ≤ 64 ∧ Progresses (nested room) t ∧
      (level = 64 → ∀ d start length, ∃ notes, delegateYield (nested room) t d start length =
        .ok ⟨excerpt t.cursor d.unlexedType start length, notes⟩)) ∧
    ∃ n tokens last, n ≤ 257 * text.length ∧
      DrainsIn (nested maxDelegateDepth) n s tokens last ∧ s.drain = .ok (tokens, last) ∧
      last.position = text.length := by
  have haccepted := accepted_of_start hg hs
  have hrange := inRange_of_start hs
  constructor
  · intro level room t ht
    obtain ⟨hlevel, hgrammar, hinner⟩ := ht.invariant haccepted hrange
    simp only [maxDelegateDepth] at hlevel
    refine ⟨by omega, hinner.progresses (total_nested room) hgrammar, ?_⟩
    rintro rfl d start length
    obtain rfl : room = 0 := by omega
    exact t.delegateYield_zero d start length
  · obtain ⟨n, tokens, last, hn, hrun, hdrain, hposition⟩ :=
      (hrange.progresses (total_nested maxDelegateDepth) haccepted).drain
    obtain ⟨-, stack, -, rfl⟩ := start_eq_ok_iff.1 hs
    exact ⟨n, tokens, last, hn, hrun, hdrain, hposition⟩

/-- A grammar that hands letters back to itself without end, and otherwise goes back and forth
between its root state and one without rules to consume anything. -/
def runaway : CompiledGrammar :=
  .ofStates (bytes "runaway") [] [
    ⟨rootState, [
      ⟨0, Pattern.expression ⟨.repeated (.one ⟨[(0x61, 0x7a)], false, false⟩) 1 none true, 0⟩,
        bytes "[a-z]+", .delegate ⟨none, [], none⟩, [], rootState, 0⟩,
      ⟨1, Pattern.expression ⟨.empty, 0⟩, [], .emit none, [.push (bytes "back")], rootState, 1⟩]⟩,
    ⟨bytes "back", [
      ⟨1, Pattern.expression ⟨.empty, 0⟩, [], .emit none, [.pop 1], bytes "back", 0⟩]⟩] none

/-- On a text with letters, which come out as one token of the deepest level, and a byte that
nothing consumes. -/
theorem engaged_progresses_runaway : ∃ s, start runaway (bytes "ab!") [rootState] = .ok s ∧
    (∀ level room t, Engaged s level room t → level ≤ 64 ∧ Progresses (nested room) t) ∧
    ∃ n last, n ≤ 257 * 3 ∧
      DrainsIn (nested maxDelegateDepth) n s
        [⟨0, .other, bytes "ab"⟩, ⟨2, .error, bytes "!"⟩] last ∧
      s.drain = .ok ([⟨0, .other, bytes "ab"⟩, ⟨2, .error, bytes "!"⟩], last) ∧
      last.position = 3 := by
  have hassembled : runaway.Assembled := CompiledGrammar.assembled_of_ownDelegates rfl
  obtain ⟨s, hs⟩ := Outcome.exists_of_isOk (x := start runaway (bytes "ab!") [rootState]) rfl
  obtain ⟨hengaged, n, tokens, last, hn, hrun, hdrain, hposition⟩ :=
    engaged_progresses hassembled hs
  have htokens : tokensFor 300 runaway (bytes "ab!") [rootState] =
      some [⟨0, .other, bytes "ab"⟩, ⟨2, .error, bytes "!"⟩] := by decide +kernel
  obtain rfl := eq_of_tokensFor htokens hs hdrain
  refine ⟨s, hs, fun level room t ht => ?_, n, last, hn, hrun, hdrain, hposition⟩
  obtain ⟨hlevel, hprogresses, -⟩ := hengaged level room t ht
  exact ⟨hlevel, hprogresses⟩

end StackLexer.Stream
