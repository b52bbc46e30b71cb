import StackLexer.Proofs.Handover

/-!
# Runs that can be followed

A drain ends because every step makes progress, and it is defined by recursion on that progress. To
see the tokens of one text it is easier to count: a run with a bound on its steps and hand-outs is
defined by recursion on the bound. Where it comes to its end within the bound, it is the run.

* `Stream.drainFor`, `Stream.nestedFor` — runs within a bound, the runs of delegates included;
* `Stream.Refines` — one way to lex stretches succeeds only as another one does. A step keeps that
  (`Stream.Refines.stepWith`), and so do runs (`Stream.Refines.drains`);
* `Stream.drain_eq_of_evaluate`, `Stream.exists_drain_of_tokensFor`, `Stream.eq_of_tokensFor` — what
  is found within a bound is what is drained.
-/

namespace StackLexer.Stream

variable {s s' last : Stream} {a b : Option SubLexer} {tokens : List Token}

/-! ## Bounded runs -/

/-- Hand out all remaining tokens in at most `n` steps and hand-outs. -/
def drainFor (lexer : Option SubLexer) : Nat → Stream → Option (List Token × Stream)
  | 0, _ => none
  | n + 1, s =>
    match s.pending with
    | t :: more => (drainFor lexer n { s with pending := more }).map fun r => (t :: r.1, r.2)
    | [] =>
      if s.rest = [] then some ([], s)
      else
        match s.stepWith lexer with
        | .error _ => none
        | .ok s' => drainFor lexer n s'

/-- Lexing stretches on their own, each in at most `n` steps and hand-outs. -/
def nestedFor (n : Nat) : Nat → Option SubLexer
  | 0 => none
  | depth + 1 => some fun g text states =>
    match start g text states with
    | .error e => .error e
    | .ok s =>
      match drainFor (nestedFor n depth) n s with
      | some (tokens, last) => .ok ⟨tokens, last.notes.reverse⟩
      | none => .error (.malformedGrammar [] Location.nowhere)

/-- Hand out all remaining tokens, with the same bound for the run and for those of delegates. -/
def evaluate (n : Nat) (s : Stream) : Option (List Token × Stream) :=
  drainFor (nestedFor n maxDelegateDepth) n s

/-- The tokens of a text, if they are found within the bound. -/
def tokensFor (n : Nat) (g : CompiledGrammar) (text : Bytes) (states : List Bytes) :
    Option (List Token) :=
  match start g text states with
  | .error _ => none
  | .ok s => (s.evaluate n).map (·.1)

/-! ## Bounds do not matter -/

/-- Where the first way to lex stretches succeeds, the second one does the same. -/
def Refines : Option SubLexer → Option SubLexer → Prop
  | none, none => True
  | some x, some y => ∀ g text states out, x g text states = .ok out → y g text states = .ok out
  | none, some _ => False
  | some _, none => False

namespace Refines

theorem delegateYield (h : Refines a b) {d : Delegate CompiledGrammar} {offset length : Nat}
    {y : Yield} (hy : Stream.delegateYield a s d offset length = .ok y) :
    Stream.delegateYield b s d offset length = .ok y := by
  rw [Stream.delegateYield.eq_def] at hy ⊢
  split at hy
  · next hlength => rwa [if_pos hlength]
  · next hlength =>
    rw [if_neg hlength]
    -- with one of the ways there is nothing to lex with exactly when there is not with the other
    cases a with
    | none =>
      cases b with
      | none => exact hy
      | some y => exact h.elim
    | some x =>
      cases b with
      | none => exact h.elim
      | some y =>
        obtain ⟨inner, hinner, hy⟩ := Outcome.bind_eq_ok.1 hy
        exact Outcome.bind_eq_ok.2 ⟨inner, h _ _ _ _ hinner, hy⟩

/-- **A step that succeeds is the same step.** All of its delegates have succeeded. -/
theorem stepWith (h : Refines a b) (hstep : s.stepWith a = .ok s') : s.stepWith b = .ok s' := by
  rw [← hstep]
  refine (stepWith_congr fun d offset length hhands => ?_).symm
  obtain ⟨y, hy, -⟩ := hhands.exists_yield hstep
  rw [hy, h.delegateYield hy]

/-- **A run that comes to its end is the run.** -/
theorem drains (h : Refines a b) {n : Nat} (hrun : drainFor a n s = some (tokens, last)) :
    Drains b s tokens last := by
  induction n generalizing s tokens with
  | zero => cases hrun
  | succ n ih =>
    rw [drainFor] at hrun
    split at hrun
    · next t more hp =>
      obtain ⟨⟨rest, _⟩, hrest, heq⟩ := Option.map_eq_some_iff.1 hrun
      cases heq
      exact .handOut hp (ih hrest)
    · next hp =>
      split at hrun
      · next hend =>
        cases hrun
        exact .finished hp hend
      · next hend =>
        split at hrun
        · cases hrun
        · next s' hstep => exact .step hp hend (h.stepWith hstep) (ih hrun)

/-- Delegates are lexed as they are without a bound, however deep they are nested. -/
theorem nested (n depth : Nat) : Refines (nestedFor n depth) (Stream.nested depth) := by
  induction depth with
  | zero => trivial
  | succ depth ih =>
    intro g text states out hout
    refine (nested_succ_eq_ok_iff rfl).2 ?_
    cases hs : start g text states with
    | error e =>
      simp only [hs] at hout
      cases hout
    | ok s =>
      simp only [hs] at hout
      cases hrun : drainFor (nestedFor n depth) n s with
      | none =>
        simp only [hrun] at hout
        cases hout
      | some r =>
        simp only [hrun] at hout
        exact ⟨s, r.1, r.2, rfl, ih.drains hrun, (Except.ok.inj hout).symm⟩

end Refines

/-- **What is found within a bound is what is drained.** -/
theorem drain_eq_of_evaluate {n : Nat} (h : s.evaluate n = some (tokens, last)) :
    s.drain = .ok (tokens, last) :=
  ((Refines.nested n maxDelegateDepth).drains h).drainWith_eq

/-- The tokens that are found within a bound are those that are drained. -/
theorem exists_drain_of_tokensFor {n : Nat} {g : CompiledGrammar} {text : Bytes}
    {states : List Bytes} (h : tokensFor n g text states = some tokens)
    (hs : start g text states = .ok s) : ∃ last, s.drain = .ok (tokens, last) := by
  rw [tokensFor, hs] at h
  obtain ⟨⟨_, last⟩, hrun, heq⟩ := Option.map_eq_some_iff.1 h
  cases heq
  exact ⟨last, drain_eq_of_evaluate hrun⟩

/-- A drain gives no other tokens than those. -/
theorem eq_of_tokensFor {n : Nat} {g : CompiledGrammar} {text : Bytes} {states : List Bytes}
    {found : List Token} (h : tokensFor n g text states = some found)
    (hs : start g text states = .ok s) (hdrain : s.drain = .ok (tokens, last)) :
    tokens = found := by
  obtain ⟨last', hfound⟩ := exists_drain_of_tokensFor h hs
  exact congrArg Prod.fst (Except.ok.inj (hdrain.symm.trans hfound))

end StackLexer.Stream
