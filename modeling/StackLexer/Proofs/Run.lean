import StackLexer.Proofs.Outcome
import StackLexer.Stream.Pull

/-!
# Steps and runs

Every statement about a stream is proved along its steps, so what a step can do is said once:

* `Stream.Stepped` — the four ways a step can go, each with the state it leads to: no rule matches,
  a match consumes something, a match of length zero moves the stack, or such matches have stalled;
* `Stream.Drains` — the run of a drain, hand-outs and steps in turn. `Stream.drainWith_eq_ok_iff`
  says that it is what `Stream.drainWith` computes, so properties of drained tokens are inductions
  over it;
* `Stream.Reachable` — the states a stream may pass through, however it is pulled.

A step takes over the tokens of its delegates. `Stream.adopt_eq` says what becomes of such a token:
it keeps its bytes, moves, and has the type that `Delegate.retype` gives it.
-/

namespace StackLexer

/-! ## Taking tokens over -/

/-- The type of a delegate's token in the outer text: the wrap type, if there is one, for tokens of
the root type and for plain text, and any other type as it is. -/
def Delegate.retype {γ : Type} (d : Delegate γ) (type : TokenType) : TokenType :=
  if type.path = [] ∨ type.path = bytes "Text" then d.wrap.getD type else type

/-- The types that are wrapped, by their paths. -/
theorem TokenType.wrapped_iff (type : TokenType) :
    (type.same root || type.same plain) = true ↔ type.path = [] ∨ type.path = bytes "Text" := by
  have hroot : root.path = [] := by decide +kernel
  have hplain : plain.path = bytes "Text" := by decide +kernel
  simp [same, hroot, hplain]

namespace Stream

variable {lexer : Option SubLexer} {s s' : Stream}

/-- A token that is taken over keeps its bytes; its place counts from the start of the outer
text. -/
theorem adopt_eq (d : Delegate CompiledGrammar) (offset : Nat) (t : Token) :
    adopt d offset t = ⟨t.offset + offset, d.retype t.type, t.value⟩ := by
  rw [adopt, Delegate.retype]
  cases hwrap : d.wrap with
  | none => simp [Token.shift]
  | some type =>
    by_cases hwrapped : t.type.path = [] ∨ t.type.path = bytes "Text"
    · simp [(t.type.wrapped_iff).2 hwrapped, hwrapped, Token.shift]
    · have hkept : ¬(t.type.same TokenType.root || t.type.same TokenType.plain) = true :=
        fun h => hwrapped ((t.type.wrapped_iff).1 h)
      simp only [if_neg hwrapped, if_neg hkept]
      rfl

/-! ## One step -/

/-- The rule and the match that decide the next step. -/
def found? (s : Stream) : Option (CompiledRule CompiledGrammar × Match) :=
  firstMatch s.currentState.rules s.cursor

/-- The stack that a run of matches of length zero falls back to. -/
def fallback (s : Stream) : StateStack :=
  if s.zeroWidthSteps = 0 then s.stack else s.zeroWidthBase

/-- The stack after the moves of a rule. -/
def movedBy (s : Stream) (rule : CompiledRule CompiledGrammar) : StateStack :=
  s.stack.moveAll s.grammar.stateIndex? rule.transitions

/-- What a step can do. -/
inductive Stepped (lexer : Option SubLexer) (s : Stream) : Stream → Prop
  /-- no rule matches: one character becomes an error -/
  | unmatched {message : Bytes} (hfound : s.found? = none) :
      Stepped lexer s (s.searched.report message).errorChar
  /-- a match consumes something -/
  | consumed {rule : CompiledRule CompiledGrammar} {m : Match} {y : Yield}
      (hfound : s.found? = some (rule, m)) (hy : emissionYield lexer s m rule.emission = .ok y)
      (hlength : m.length ≠ 0) :
      Stepped lexer s { s.searched.take y with
        stack := s.movedBy rule
        cursor := s.cursor.advance m.length
        zeroWidthSteps := 0 }
  /-- a match of length zero moves the stack -/
  | moved {rule : CompiledRule CompiledGrammar} {m : Match} {y : Yield}
      (hfound : s.found? = some (rule, m)) (hy : emissionYield lexer s m rule.emission = .ok y)
      (hlength : m.length = 0) (hmoves : rule.transitions ≠ [])
      (hsteps : s.zeroWidthSteps < maxZeroWidthSteps) :
      Stepped lexer s { s.searched.take y with
        stack := s.movedBy rule
        zeroWidthBase := s.fallback
        zeroWidthSteps := s.zeroWidthSteps + 1 }
  /-- a match of length zero that moves nothing, or one too many: the stack falls back and one
  character becomes an error -/
  | stalled {rule : CompiledRule CompiledGrammar} {m : Match} {y : Yield} {message : Bytes}
      (hfound : s.found? = some (rule, m)) (hy : emissionYield lexer s m rule.emission = .ok y)
      (hlength : m.length = 0)
      (hstall : rule.transitions = [] ∨ maxZeroWidthSteps ≤ s.zeroWidthSteps) :
      Stepped lexer s (report { s.searched.take y with
        stack := s.fallback
        zeroWidthBase := s.fallback } message).errorChar

/-- **Inversion.** A step does one of the four things a step can do. -/
theorem stepped_of_stepWith (h : s.stepWith lexer = .ok s') : Stepped lexer s s' := by
  rw [stepWith] at h
  split at h
  · next hfound =>
    cases h
    exact .unmatched hfound
  · next rule m hfound =>
    obtain ⟨y, hy, h⟩ := Outcome.bind_eq_ok.1 h
    cases h
    rw [advance]
    split
    · next hlength =>
      simp only []
      split
      · next hstall =>
        rw [Bool.or_eq_true, List.isEmpty_iff, decide_eq_true_eq] at hstall
        exact .stalled hfound hy hlength (hstall.imp id Nat.le_of_lt_succ)
      · next hstall =>
        rw [Bool.or_eq_true, List.isEmpty_iff, decide_eq_true_eq, not_or] at hstall
        exact .moved hfound hy hlength hstall.1 (Nat.lt_of_succ_le (Nat.le_of_not_lt hstall.2))
    · next hlength => exact .consumed hfound hy hlength

/-- A step keeps the grammar. -/
theorem Stepped.grammar_eq (h : Stepped lexer s s') : s'.grammar = s.grammar := by
  cases h <;> rfl

/-- What the match that decides a step yields waits to be handed out. -/
theorem Stepped.exists_yield (h : Stepped lexer s s') {rule : CompiledRule CompiledGrammar}
    {m : Match} (hfound : s.found? = some (rule, m)) :
    ∃ y, emissionYield lexer s m rule.emission = .ok y ∧ y.tokens <:+: s'.pending := by
  cases h with
  | unmatched hnone =>
    rw [hfound] at hnone
    cases hnone
  | @consumed _ _ y hfound' hy | @moved _ _ y hfound' hy =>
    rw [hfound] at hfound'
    cases hfound'
    exact ⟨y, hy, s.pending, [], List.append_nil _⟩
  | @stalled _ _ y _ hfound' hy =>
    rw [hfound] at hfound'
    cases hfound'
    exact ⟨y, hy, s.pending, _, rfl⟩

/-! ## Runs -/

/-- A stream hands out `tokens` and is at its end in the state `last`. -/
inductive Drains (lexer : Option SubLexer) : Stream → List Token → Stream → Prop
  /-- nothing is left to hand out or to consume -/
  | finished {s : Stream} (hp : s.pending = []) (hs : s.rest = []) : Drains lexer s [] s
  /-- a waiting token is handed out -/
  | handOut {s last : Stream} {t : Token} {more tokens : List Token} (hp : s.pending = t :: more)
      (hrest : Drains lexer { s with pending := more } tokens last) :
      Drains lexer s (t :: tokens) last
  /-- a step is made -/
  | step {s s' last : Stream} {tokens : List Token} (hp : s.pending = []) (hs : s.rest ≠ [])
      (hstep : s.stepWith lexer = .ok s') (hrest : Drains lexer s' tokens last) :
      Drains lexer s tokens last

/-- A run starts with the first token waiting, if there is one. -/
theorem Drains.exists_handOut {t : Token} {more tokens : List Token} {last : Stream}
    (h : Drains lexer s tokens last) (hp : s.pending = t :: more) :
    ∃ rest, tokens = t :: rest ∧ Drains lexer { s with pending := more } rest last := by
  cases h with
  | finished hp' _ | step hp' =>
    rw [hp] at hp'
    cases hp'
  | handOut hp' hrest =>
    rw [hp] at hp'
    cases hp'
    exact ⟨_, rfl, hrest⟩

/-- Where no token is waiting before the end of the text, a run starts with a step. -/
theorem Drains.exists_step {tokens : List Token} {last : Stream} (h : Drains lexer s tokens last)
    (hp : s.pending = []) (hs : s.rest ≠ []) :
    ∃ s', s.stepWith lexer = .ok s' ∧ Drains lexer s' tokens last := by
  cases h with
  | finished _ hs' => exact absurd hs' hs
  | handOut hp' _ =>
    rw [hp] at hp'
    cases hp'
  | step _ _ hstep hrest => exact ⟨_, hstep, hrest⟩

/-- The tokens waiting are handed out first. -/
theorem Drains.prefix_tokens {tokens : List Token} {last : Stream}
    (h : Drains lexer s tokens last) : s.pending <+: tokens := by
  induction h with
  | finished hp _ | step hp _ _ _ => exact hp.symm ▸ List.nil_prefix
  | handOut hp _ ih =>
    rw [hp]
    exact (List.prefix_cons_inj _).2 ih

/-- The run of a drain gives its result. -/
theorem Drains.drainWith_eq {tokens : List Token} {last : Stream}
    (h : Drains lexer s tokens last) : s.drainWith lexer = .ok (tokens, last) := by
  induction h with
  | finished hp hs => exact drainWith_end hp hs
  | handOut hp _ ih =>
    rw [drainWith_pending hp, ih]
    rfl
  | step hp hs hstep _ ih =>
    rw [drainWith_step hp hs, hstep]
    exact ih

/-- **Drains are runs.** What a drain returns is what its run hands out. -/
theorem drainWith_eq_ok_iff {tokens : List Token} {last : Stream} :
    s.drainWith lexer = .ok (tokens, last) ↔ Drains lexer s tokens last := by
  refine ⟨fun h => ?_, Drains.drainWith_eq⟩
  -- the cases of the function: a token waits (two of them, by how the rest goes), the end, a step
  induction s using drainWith.induct lexer generalizing tokens with
  | case1 s t more hp e he =>
    rw [drainWith_pending hp, he] at h
    cases h
  | case2 s t more hp tokens' last' hok ih =>
    rw [drainWith_pending hp, hok] at h
    cases h
    exact .handOut hp (ih hok)
  | case3 s hp hs =>
    rw [drainWith_end hp hs] at h
    cases h
    exact .finished hp hs
  | case4 s hp hs e he =>
    rw [drainWith_step hp hs, he] at h
    cases h
  | case5 s hp hs s' hok ih =>
    rw [drainWith_step hp hs, hok] at h
    exact .step hp hs hok (ih h)

/-- A stream can be drained when no step fails: it is enough that steps do not leave a set of
states in which they succeed. -/
theorem exists_drains {P : Stream → Prop}
    (hstep : ∀ s : Stream, P s → ∃ s', s.stepWith lexer = .ok s' ∧ P s')
    (hhandOut : ∀ (s : Stream) (more : List Token), P s → P { s with pending := more })
    (hs : P s) : ∃ tokens last, Drains lexer s tokens last := by
  induction s using drainWith.induct lexer with
  | case1 s t more hp e he ih | case2 s t more hp tokens last hok ih =>
    obtain ⟨tokens, last, h⟩ := ih (hhandOut s more hs)
    exact ⟨t :: tokens, last, .handOut hp h⟩
  | case3 s hp hend => exact ⟨[], s, .finished hp hend⟩
  | case4 s hp hend e he =>
    obtain ⟨s', hok, -⟩ := hstep s hs
    rw [he] at hok
    cases hok
  | case5 s hp hend s' hok ih =>
    obtain ⟨s'', hok', hs'⟩ := hstep s hs
    rw [hok] at hok'
    cases hok'
    obtain ⟨tokens, last, h⟩ := ih hs'
    exact ⟨tokens, last, .step hp hend hok h⟩

/-- **Delegates are runs.** A stretch handed to a grammar is lexed by a run of its own, with room
for one level less. -/
theorem nested_succ_eq_ok_iff {depth : Nat} {lex : SubLexer} (hlex : nested (depth + 1) = some lex)
    {g : CompiledGrammar} {text : Bytes} {states : List Bytes} {y : Yield} :
    lex g text states = .ok y ↔ ∃ s tokens last, start g text states = .ok s ∧
      Drains (nested depth) s tokens last ∧ y = ⟨tokens, last.notes.reverse⟩ := by
  obtain rfl := Option.some.inj hlex
  simp only [Outcome.bind_eq_ok, Prod.exists, drainWith_eq_ok_iff]
  constructor
  · rintro ⟨s, hs, tokens, last, hrun, hy⟩
    exact ⟨s, tokens, last, hs, hrun, (Except.ok.inj hy).symm⟩
  · rintro ⟨s, tokens, last, hs, hrun, rfl⟩
    exact ⟨s, hs, tokens, last, hrun, rfl⟩

/-- What a delegate yields for a stretch that is not empty: the stretch itself where no level is
left, else the tokens of a run of its own, adopted. -/
theorem tokens_of_delegateYield {depth : Nat} {d : Delegate CompiledGrammar} {start length : Nat}
    {y : Yield} (h : delegateYield (nested depth) s d start length = .ok y)
    (hlength : length ≠ 0) :
    (depth = 0 ∧ y.tokens = excerpt s.cursor d.unlexedType start length) ∨
      ∃ inner t tokens last, depth = inner + 1 ∧
        Stream.start (d.target.getD s.grammar) (s.cursor.slice start length) (delegateStack d)
          = .ok t ∧
        Drains (nested inner) t tokens last ∧
        y.tokens = tokens.map (adopt d (s.position + start)) := by
  rw [delegateYield.eq_def, if_neg hlength] at h
  cases depth with
  | zero =>
    cases h
    exact .inl ⟨rfl, rfl⟩
  | succ inner =>
    obtain ⟨z, hz, hy⟩ := Outcome.bind_eq_ok.1 h
    obtain ⟨t, tokens, last, ht, hrun, rfl⟩ := (nested_succ_eq_ok_iff rfl).1 hz
    cases hy
    exact .inr ⟨inner, t, tokens, last, rfl, ht, hrun, rfl⟩

/-- **Induction on the room for delegates.** What holds with so much room as soon as it holds with
one level less, where there is one, holds however much room there is. -/
theorem forall_depth {P : Nat → Prop}
    (h : ∀ depth, (∀ inner, depth = inner + 1 → P inner) → P depth) (depth : Nat) : P depth := by
  induction depth with
  | zero => exact h 0 fun inner hinner => absurd hinner (Nat.zero_ne_add_one inner)
  | succ depth ih =>
    refine h (depth + 1) fun inner hinner => ?_
    obtain rfl := Nat.succ.inj hinner
    exact ih

/-- The states a stream may pass through: after any number of steps and hand-outs. -/
inductive Reachable (lexer : Option SubLexer) (s : Stream) : Stream → Prop
  /-- the state it is in -/
  | refl : Reachable lexer s s
  /-- a step further -/
  | step {t u : Stream} (h : Reachable lexer s t) (hstep : t.stepWith lexer = .ok u) :
      Reachable lexer s u
  /-- a token less to hand out -/
  | handOut {t : Stream} {token : Token} {more : List Token} (h : Reachable lexer s t)
      (hp : t.pending = token :: more) : Reachable lexer s { t with pending := more }

/-- **Invariants.** What every step keeps, and handing out tokens too, holds in every state a stream
may pass through. -/
theorem Reachable.invariant {P : Stream → Prop}
    (hstep : ∀ t u : Stream, P t → Stepped lexer t u → P u)
    (hhandOut : ∀ (t : Stream) (more : List Token), P t → P { t with pending := more })
    (h : Reachable lexer s s') (hs : P s) : P s' := by
  induction h with
  | refl => exact hs
  | step _ hok ih => exact hstep _ _ ih (stepped_of_stepWith hok)
  | handOut _ _ ih => exact hhandOut _ _ ih

end Stream

end StackLexer
