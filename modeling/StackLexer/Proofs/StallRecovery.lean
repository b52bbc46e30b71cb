import StackLexer.Proofs.Progress

/-!
# Recovery from a stalled run

Matches of length zero may move the stack up to `Stream.maxZeroWidthSteps` times in a row. When that
leads nowhere, everything they did to the stack is taken back and one character becomes an error.
The stack to go back to is noted lazily, at the first match of length zero in a place, and the count
is reset in three different cases of a step; so what is noted has to be compared with what really
happened.

* `Stream.Arrived` — a stream on its way, together with the stack it had when it arrived at the
  place it is in and the number of steps made there. Both are read off the history, not off the
  stream;
* `Stream.Recalls` — the stream has it right: its count is that number, and what it would fall back
  to is that stack. `Stream.Recalls.step` is the step of this invariant and
  `Stream.Arrived.recalls` its run;
* `Stream.stall_restores_arrival` — so a stalled run leaves the stack as it was on arrival, an error
  token for one character behind it and nothing counted.
-/

namespace StackLexer.Stream

variable {lexer : Option SubLexer} {s s' : Stream}

/-! ## Arrivals -/

/-- A stream started as `s` and pulled since. It has made `n` steps in the place it is in, where it
arrived with the stack `stack`: the initial one, or that after the last step which consumed
something. -/
inductive Arrived (lexer : Option SubLexer) (s : Stream) : StateStack → Nat → Stream → Prop
  /-- the initial state -/
  | start : Arrived lexer s s.stack 0 s
  /-- handing out a token is no step -/
  | handOut {stack : StateStack} {n : Nat} {t : Stream} {token : Token} {more : List Token}
      (h : Arrived lexer s stack n t) (hp : t.pending = token :: more) :
      Arrived lexer s stack n { t with pending := more }
  /-- a step that stays in the same place -/
  | stay {stack : StateStack} {n : Nat} {t u : Stream} (h : Arrived lexer s stack n t)
      (hrest : t.rest ≠ []) (hstep : t.stepWith lexer = .ok u)
      (hplace : u.position = t.position) : Arrived lexer s stack (n + 1) u
  /-- a step to another place -/
  | move {stack : StateStack} {n : Nat} {t u : Stream} (h : Arrived lexer s stack n t)
      (hrest : t.rest ≠ []) (hstep : t.stepWith lexer = .ok u)
      (hplace : u.position ≠ t.position) : Arrived lexer s u.stack 0 u

/-- A stream that has counted `n` steps in its place and would fall back to `stack`. -/
structure Recalls (stack : StateStack) (n : Nat) (s : Stream) : Prop where
  /-- the steps counted -/
  steps_eq : s.zeroWidthSteps = n
  /-- the stack to fall back to -/
  fallback_eq : s.fallback = stack

/-- A stream that has counted nothing falls back to the stack it has. -/
theorem recalls_of_steps_eq_zero (h : s.zeroWidthSteps = 0) : s.Recalls s.stack 0 :=
  ⟨h, if_pos h⟩

/-- An error character is a step to another place. -/
theorem position_errorChar_ne (h : s.rest ≠ []) : s.errorChar.position ≠ s.position :=
  Nat.ne_of_gt (position_errorChar_lt h)

/-- **The step of the invariant.** A step that stays is counted and keeps the stack to fall back to;
a step to another place starts again. -/
theorem Recalls.step {stack : StateStack} {n : Nat} (h : s.Recalls stack n)
    (hrest : s.rest ≠ []) (hstep : Stepped lexer s s') :
    (s'.position = s.position ∧ s'.Recalls stack (n + 1)) ∨
      (s'.position ≠ s.position ∧ s'.Recalls s'.stack 0) := by
  cases hstep with
  | unmatched => exact .inr ⟨position_errorChar_ne hrest, recalls_of_steps_eq_zero rfl⟩
  | @consumed rule m y _ _ hlength =>
    have hplace : s.position + m.length ≠ s.position := by omega
    exact .inr ⟨hplace, recalls_of_steps_eq_zero rfl⟩
  | moved =>
    refine .inl ⟨rfl, congrArg (· + 1) h.steps_eq, ?_⟩
    -- after a counted step the noted stack is what counts
    rw [Stream.fallback, if_neg (Nat.succ_ne_zero _)]
    exact h.fallback_eq
  | stalled => exact .inr ⟨position_errorChar_ne hrest, recalls_of_steps_eq_zero rfl⟩

/-- **The run of the invariant.** However a stream is pulled, it has its arrival right. -/
theorem Arrived.recalls {stack : StateStack} {n : Nat} {t : Stream}
    (h : Arrived lexer s stack n t) (hs : s.zeroWidthSteps = 0) : t.Recalls stack n := by
  induction h with
  | start => exact recalls_of_steps_eq_zero hs
  | handOut _ _ ih => exact ⟨ih.steps_eq, ih.fallback_eq⟩
  | stay _ hrest hstep hplace ih =>
    rcases ih.step hrest (stepped_of_stepWith hstep) with ⟨-, hrecalls⟩ | ⟨hne, -⟩
    · exact hrecalls
    · exact absurd hplace hne
  | move _ hrest hstep hplace ih =>
    rcases ih.step hrest (stepped_of_stepWith hstep) with ⟨heq, -⟩ | ⟨-, hrecalls⟩
    · exact absurd heq hplace
    · exact hrecalls

/-- A stream that has arrived somewhere has got there by steps and hand-outs. -/
theorem Arrived.reachable {stack : StateStack} {n : Nat} {t : Stream}
    (h : Arrived lexer s stack n t) : Reachable lexer s t := by
  induction h with
  | start => exact .refl
  | handOut _ hp ih => exact .handOut ih hp
  | stay _ _ hstep _ ih => exact .step ih hstep
  | move _ _ hstep _ ih => exact .step ih hstep

/-- Steps do not go back. -/
theorem position_le_stepsWith {k : Nat} {t : Stream} (h : stepsWith lexer k s = .ok t) :
    s.position ≤ t.position := by
  induction k generalizing s with
  | zero =>
    cases h
    exact Nat.le_refl _
  | succ k ih =>
    obtain ⟨s', hstep, hsteps⟩ := Outcome.bind_eq_ok.1 h
    exact Nat.le_trans (stepped_of_stepWith hstep).position_le (ih hsteps)

/-- Steps that lead to no other place are steps in this one. -/
theorem Arrived.stays {stack : StateStack} {n k : Nat} {t u : Stream}
    (h : Arrived lexer s stack n t) (hrest : t.rest ≠ []) (hsteps : stepsWith lexer k t = .ok u)
    (hplace : u.position = t.position) : Arrived lexer s stack (n + k) u ∧ u.rest ≠ [] := by
  induction k generalizing n t with
  | zero =>
    cases hsteps
    exact ⟨h, hrest⟩
  | succ k ih =>
    obtain ⟨t', hstep, hsteps⟩ := Outcome.bind_eq_ok.1 hsteps
    -- the place cannot change and change back, since steps do not go back
    have hfirst := (stepped_of_stepWith hstep).position_le
    have hothers := position_le_stepsWith hsteps
    have heq : t'.position = t.position := by omega
    have hrest' := rest_ne_nil_of_stay hrest hstep heq
    have := ih (h.stay hrest hstep heq) hrest' hsteps (hplace.trans heq.symm)
    rwa [Nat.add_right_comm] at this

/-! ## Stalls -/

/-- The character at the place reached, as an error. -/
def errorToken (s : Stream) : Token :=
  ⟨s.position, .error, s.rest.take (Utf8.sequenceLength s.rest)⟩

/-- An error character is one token more. -/
theorem pending_errorChar (h : s.rest ≠ []) :
    s.errorChar.pending = s.pending ++ [s.errorToken] := by
  have hlength : Utf8.sequenceLength s.rest ≠ 0 := Nat.ne_of_gt (Utf8.sequenceLength_pos h)
  show s.pending ++ excerpt s.cursor .error 0 (Utf8.sequenceLength s.rest) = _
  rw [excerpt, if_neg hlength]
  rfl

/-- A step from `s` to `s'` that gives up a run of matches of length zero, where the stream arrived
with `stack`. -/
structure GivesUp (stack : StateStack) (s s' : Stream) : Prop where
  /-- the stack is as on arrival -/
  stack_eq : s'.stack = stack
  /-- nothing is counted any more -/
  steps_eq : s'.zeroWidthSteps = 0
  /-- the last token is an error, one character long -/
  pending_eq : ∃ emitted, s'.pending = s.pending ++ emitted ++ [s.errorToken]
  /-- and that character is consumed -/
  position_eq : s'.position = s.position + Utf8.sequenceLength s.rest

/-- **A match of length zero** either stays or gives up; it gives up when its rule moves nothing,
and when it is one too many. -/
theorem Recalls.zero_width {stack : StateStack} {n : Nat} (h : s.Recalls stack n)
    (hn : n ≤ maxZeroWidthSteps) (hrest : s.rest ≠ []) (hstep : Stepped lexer s s')
    {rule : CompiledRule CompiledGrammar} {m : Match} (hfound : s.found? = some (rule, m))
    (hlength : m.length = 0) :
    (s'.position = s.position ∧ rule.transitions ≠ [] ∧ n ≠ maxZeroWidthSteps) ∨
      (s'.position ≠ s.position ∧ (rule.transitions = [] ∨ n = maxZeroWidthSteps) ∧
        GivesUp stack s s') := by
  cases hstep with
  | unmatched hnone =>
    rw [hnone] at hfound
    cases hfound
  | consumed hfound' _ hlength' =>
    rw [hfound'] at hfound
    cases hfound
    exact absurd hlength hlength'
  | moved hfound' _ _ hmoves hsteps =>
    rw [hfound'] at hfound
    cases hfound
    rw [h.steps_eq] at hsteps
    exact .inl ⟨rfl, hmoves, Nat.ne_of_lt hsteps⟩
  | @stalled _ _ y _ hfound' _ _ hstall =>
    rw [hfound'] at hfound
    cases hfound
    rw [h.steps_eq] at hstall
    refine .inr ⟨position_errorChar_ne hrest, hstall.imp_right (Nat.le_antisymm hn), ?_⟩
    exact ⟨h.fallback_eq, rfl, ⟨y.tokens, pending_errorChar hrest⟩, rfl⟩

/-- The same in terms of what happened to the stream. -/
theorem Arrived.zero_width {stack : StateStack} {n : Nat} {t u : Stream}
    (h : Arrived lexer s stack n t) (hs : s.InRange) (hfresh : s.zeroWidthSteps = 0)
    (hrest : t.rest ≠ []) (hstep : t.stepWith lexer = .ok u)
    {rule : CompiledRule CompiledGrammar} {m : Match} (hfound : t.found? = some (rule, m))
    (hlength : m.length = 0) :
    (u.position = t.position ∧ rule.transitions ≠ [] ∧ n ≠ maxZeroWidthSteps) ∨
      (u.position ≠ t.position ∧ (rule.transitions = [] ∨ n = maxZeroWidthSteps) ∧
        GivesUp stack t u) := by
  have hrecalls := h.recalls hfresh
  have hle := (h.reachable.inRange hs).steps_le
  rw [hrecalls.steps_eq] at hle
  exact hrecalls.zero_width hle hrest (stepped_of_stepWith hstep) hfound hlength

/-- **Recovery from a stalled run.** However a stream over an assembled grammar is pulled, and
whatever room it has for delegates: while it counts zero-width steps, it has noted the stack with
which it arrived in its place. Where a match of length zero decides, the step succeeds; it consumes
something exactly when the rule moves nothing or 256 steps have been counted, and then the stack is
as on arrival, the last token is an error for one character, and nothing is counted. So a run of
steps in one place that ends in this way leaves the stack as it was. -/
theorem stall_restores_arrival {g : CompiledGrammar} (hg : g.Assembled) {text : Bytes}
    {states : List Bytes} (hs : start g text states = .ok s) (depth : Nat) :
    (∀ stack n t, Arrived (nested depth) s stack n t →
      t.zeroWidthSteps = n ∧ (0 < n → t.zeroWidthBase = stack) ∧ (n = 0 → t.stack = stack)) ∧
    (∀ stack n t rule m, Arrived (nested depth) s stack n t → t.rest ≠ [] →
      t.found? = some (rule, m) → m.length = 0 → ∃ u, t.stepWith (nested depth) = .ok u ∧
        (u.position ≠ t.position ↔ rule.transitions = [] ∨ n = 256) ∧
        (u.position ≠ t.position → GivesUp stack t u)) ∧
    ∀ stack a k t rule m u, Arrived (nested depth) s stack 0 a → a.rest ≠ [] →
      stepsWith (nested depth) k a = .ok t → t.position = a.position →
      t.found? = some (rule, m) → m.length = 0 → t.stepWith (nested depth) = .ok u →
      u.position ≠ t.position → u.stack = a.stack := by
  have hrange := inRange_of_start hs
  have hfresh : s.zeroWidthSteps = 0 := by
    obtain ⟨-, stack, -, rfl⟩ := start_eq_ok_iff.1 hs
    rfl
  refine ⟨fun stack n t ht => ?_, fun stack n t rule m ht hrest hfound hlength => ?_, ?_⟩
  · obtain ⟨hsteps, hfallback⟩ := ht.recalls hfresh
    rw [Stream.fallback, hsteps] at hfallback
    refine ⟨hsteps, fun hpos => ?_, fun hzero => ?_⟩
    · rwa [if_neg (Nat.ne_of_gt hpos)] at hfallback
    · rwa [if_pos hzero] at hfallback
  · have haccepted : t.grammar.Accepted := ht.reachable.grammar_eq.symm ▸ accepted_of_start hg hs
    obtain ⟨u, hu⟩ := exists_stepWith (total_nested depth) haccepted
    refine ⟨u, hu, ?_⟩
    rcases ht.zero_width hrange hfresh hrest hu hfound hlength with
      ⟨heq, hmoves, hn⟩ | ⟨hne, hstall, hgives⟩
    · refine ⟨iff_of_false (fun hne => hne heq) ?_, fun hne => absurd heq hne⟩
      exact not_or.2 ⟨hmoves, hn⟩
    · exact ⟨iff_of_true hne hstall, fun _ => hgives⟩
  · intro stack a k t rule m u ha hrest hsteps hplace hfound hlength hu hne
    obtain ⟨ht, hrest'⟩ := ha.stays hrest hsteps hplace
    obtain ⟨hzero, hfallback⟩ := ha.recalls hfresh
    rw [Stream.fallback, if_pos hzero] at hfallback
    rcases ht.zero_width hrange hfresh hrest' hu hfound hlength with ⟨heq, -⟩ | ⟨-, -, hgives⟩
    · exact absurd heq hne
    · rw [hgives.stack_eq, hfallback]

/-- A rule that matches nothing and moves nothing. -/
def idleRule : CompiledRule CompiledGrammar :=
  ⟨1, Pattern.expression ⟨.empty, 0⟩, [], .emit none, [], bytes "letter", 0⟩

/-- A grammar that pushes a state when a letter follows, where it can only stall. -/
def stalling : CompiledGrammar :=
  .ofStates (bytes "stalling") [] [
    ⟨rootState, [
      ⟨0, Pattern.expression ⟨.lookahead true (.one ⟨[(0x61, 0x7a)], false, false⟩), 0⟩,
        bytes "(?=[a-z])", .emit none, [.push (bytes "letter")], rootState, 0⟩]⟩,
    ⟨bytes "letter", [idleRule]⟩] none

/-- The state it pushed is gone after the stall. -/
theorem stall_restores_stalling : ∃ s t u, start stalling (bytes "a") [rootState] = .ok s ∧
    s.step = .ok t ∧ t.stack ≠ s.stack ∧ t.step = .ok u ∧ GivesUp s.stack t u := by
  obtain ⟨s, hs, hstate⟩ : ∃ s, start stalling (bytes "a") [rootState] = .ok s ∧
      s = ⟨stalling, .start (bytes "a"), ⟨0, []⟩, 0, ⟨0, []⟩, [], []⟩ := ⟨_, rfl, rfl⟩
  obtain ⟨t, ht, hpushed⟩ : ∃ t, s.step = .ok t ∧
      t = { s with stack := ⟨1, [0]⟩, zeroWidthSteps := 1 } := by
    subst hstate
    exact ⟨_, rfl, rfl⟩
  subst hstate hpushed
  have hassembled : stalling.Assembled := CompiledGrammar.assembled_of_ownDelegates rfl
  have hrest : bytes "a" ≠ [] := by decide +kernel
  obtain ⟨u, hu, hforced, hgives⟩ := (stall_restores_arrival hassembled hs maxDelegateDepth).2.1
    _ _ _ idleRule ⟨0, []⟩ (.stay .start hrest ht rfl) hrest rfl rfl
  refine ⟨_, _, u, hs, ht, by decide, hu, hgives (hforced.2 (.inl rfl))⟩

end StackLexer.Stream
