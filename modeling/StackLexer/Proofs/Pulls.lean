import StackLexer.Proofs.Progress

/-!
# The order of pulls

The tokens of a stream can be asked for one at a time, all at once, or through iterators, of which
several may be at work on one stream. A step may find many tokens or none, so what a pull hands out
is not what the last step has found; making an iterator hands out a token already; and a stream that
is not at its end may still have nothing to hand out.

* `Use`, `Pull` and `Use.pull` — a stream with the iterators made over it, and what can be asked of
  them;
* `Use.Pulled` — what a sequence of pulls hands out and leads to;
* `Stream.Drains.exists_next` and `Stream.Use.exists_pull` — a pull takes the first tokens off the
  run that is ahead, and the rest of the run stays ahead. `Stream.Use.Pulled.drains` carries this
  through all pulls;
* `Stream.pull_order_irrelevant` — so nothing is lost or handed out twice, whatever the order.
-/

namespace StackLexer.Stream

/-! ## Pulling -/

/-- A stream in use. -/
structure Use where
  /-- the stream -/
  stream : Stream
  /-- the iterators made over it, by the tokens they stand at; one without a token is at its end -/
  iterators : List (Option Token)

/-- What can be asked of a stream in use. Iterators are numbered as they were made. -/
inductive Pull where
  /-- the next token -/
  | next
  /-- all tokens that are left -/
  | drain
  /-- an iterator, which stands at the next token -/
  | begin
  /-- that an iterator moves on to the next token -/
  | increment (iterator : Nat)

namespace Use

/-- An iterator at its end does not move on. -/
def Allows (u : Use) : Pull → Prop
  | .increment i => ∃ token, u.iterators[i]? = some (some token)
  | _ => True

/-- Hand out the next token, and say what it makes of the iterators. -/
def pullOne (u : Use) (iterators : Option Token → List (Option Token)) :
    Except LexerError (List Token × Use) := do
  let (token, s) ← u.stream.next
  return (token.toList, ⟨s, iterators token⟩)

/-- Do what is asked for: the tokens handed out, and what is in use afterwards. -/
def pull (u : Use) : Pull → Except LexerError (List Token × Use)
  | .next => u.pullOne fun _ => u.iterators
  | .drain => do
    let (tokens, s) ← u.stream.drain
    return (tokens, ⟨s, u.iterators⟩)
  | .begin => u.pullOne fun token => u.iterators ++ [token]
  | .increment i => u.pullOne fun token => u.iterators.set i token

/-- Pulls one after the other, each of them allowed, hand out `tokens`. -/
inductive Pulled : Use → List Pull → List Token → Use → Prop
  /-- nothing is asked for -/
  | nil (u : Use) : Pulled u [] [] u
  /-- something is asked for, and then more -/
  | cons {u v w : Use} {p : Pull} {more : List Pull} {tokens others : List Token}
      (hallows : u.Allows p) (hpull : u.pull p = .ok (tokens, v))
      (hrest : Pulled v more others w) : Pulled u (p :: more) (tokens ++ others) w

end Use

/-! ## Runs ahead -/

variable {lexer : Option SubLexer} {s last : Stream} {tokens : List Token}

theorem isDone_iff : s.isDone = true ↔ s.pending = [] ∧ s.rest = [] := by
  simp [isDone]

/-- A run ends at the end. -/
theorem Drains.isDone_last (h : Drains lexer s tokens last) : last.isDone = true := by
  induction h with
  | finished hp hs => exact isDone_iff.2 ⟨hp, hs⟩
  | handOut _ _ ih => exact ih
  | step _ _ _ _ ih => exact ih

/-- A run keeps the text. -/
theorem Drains.text_eq (h : Drains lexer s tokens last) : last.text = s.text := by
  induction h with
  | finished => rfl
  | handOut _ _ ih => exact ih
  | step _ _ hstep _ ih => rw [ih, text_stepWith hstep]

/-- A pull goes on after a step. -/
theorem nextWith_of_stepWith {s' : Stream} (hp : s.pending = []) (hs : s.rest ≠ [])
    (hstep : s.stepWith lexer = .ok s') : s.nextWith lexer = s'.nextWith lexer := by
  rw [nextWith_step hp hs, hstep]
  rfl

/-- **The next token** is the first one of the run ahead, and the others stay ahead. There is none
only when the run has come to its end. -/
theorem Drains.exists_next (h : Drains lexer s tokens last) :
    ∃ token s' rest, s.nextWith lexer = .ok (token, s') ∧ tokens = token.toList ++ rest ∧
      Drains lexer s' rest last ∧ (token = none → s'.isDone = true) := by
  induction h with
  | @finished s hp hs =>
    refine ⟨none, s, [], nextWith_end hp hs, rfl, .finished hp hs, fun _ => ?_⟩
    exact isDone_iff.2 ⟨hp, hs⟩
  | @handOut s last token more tokens hp hrest _ =>
    exact ⟨some token, _, tokens, nextWith_pending hp, rfl, hrest, by simp⟩
  | step hp hs hstep _ ih =>
    obtain ⟨token, s', rest, hnext, htokens, hrest, hend⟩ := ih
    exact ⟨token, s', rest, (nextWith_of_stepWith hp hs hstep).trans hnext, htokens, hrest, hend⟩

/-- A stream at its end has no token to hand out and stays as it is. -/
theorem next_of_isDone (h : s.isDone = true) : s.next = .ok (none, s) := by
  obtain ⟨hp, hs⟩ := isDone_iff.1 h
  exact nextWith_end hp hs

theorem drain_of_isDone (h : s.isDone = true) : s.drain = .ok ([], s) := by
  obtain ⟨hp, hs⟩ := isDone_iff.1 h
  exact drainWith_end hp hs

namespace Use

variable {u v : Use} {history : List Pull} {handed : List Token}

/-- A token handed out is the first one of the run ahead. -/
theorem exists_pullOne (h : Drains (nested maxDelegateDepth) u.stream tokens last)
    (iterators : Option Token → List (Option Token)) :
    ∃ handed v rest, u.pullOne iterators = .ok (handed, v) ∧ tokens = handed ++ rest ∧
      Drains (nested maxDelegateDepth) v.stream rest last := by
  obtain ⟨token, s', rest, hnext, htokens, hrest, -⟩ := h.exists_next
  refine ⟨token.toList, ⟨s', iterators token⟩, rest, ?_, htokens, hrest⟩
  exact Outcome.bind_eq_ok.2 ⟨_, hnext, rfl⟩

/-- **One pull.** Whatever is asked for, the first tokens of the run ahead are handed out, and the
others stay ahead. -/
theorem exists_pull (h : Drains (nested maxDelegateDepth) u.stream tokens last) (p : Pull) :
    ∃ handed v rest, u.pull p = .ok (handed, v) ∧ tokens = handed ++ rest ∧
      Drains (nested maxDelegateDepth) v.stream rest last := by
  cases p with
  | next => exact exists_pullOne h fun _ => u.iterators
  | drain =>
    obtain ⟨hp, hs⟩ := isDone_iff.1 h.isDone_last
    refine ⟨tokens, ⟨last, u.iterators⟩, [], ?_, by simp, .finished hp hs⟩
    exact Outcome.bind_eq_ok.2 ⟨_, h.drainWith_eq, rfl⟩
  | begin => exact exists_pullOne h fun token => u.iterators ++ [token]
  | increment i => exact exists_pullOne h fun token => u.iterators.set i token

/-- At the end of the stream, a pull hands out nothing and leaves the stream as it is. -/
theorem pull_of_isDone (h : u.stream.isDone = true) {p : Pull}
    (hpull : u.pull p = .ok (handed, v)) : handed = [] ∧ v.stream = u.stream := by
  have hnext := next_of_isDone h
  have hdrain := drain_of_isDone h
  cases p <;>
  · simp only [pull, pullOne, hnext, hdrain] at hpull
    cases hpull
    exact ⟨rfl, rfl⟩

/-- **All pulls.** What has been handed out and the run that is still ahead are the run that was
ahead. -/
theorem Pulled.drains (h : u.Pulled history handed v)
    (hrun : Drains (nested maxDelegateDepth) u.stream tokens last) :
    ∃ rest, tokens = handed ++ rest ∧ Drains (nested maxDelegateDepth) v.stream rest last := by
  induction h generalizing tokens with
  | nil u => exact ⟨tokens, rfl, hrun⟩
  | cons _ hpull _ ih =>
    obtain ⟨first, v', ahead, hpull', htokens, hahead⟩ := exists_pull hrun _
    rw [hpull] at hpull'
    cases hpull'
    obtain ⟨rest, hrest, hlast⟩ := ih hahead
    exact ⟨rest, by rw [htokens, hrest, List.append_assoc], hlast⟩

/-- A stream at its end stays as it is, whatever is asked for. -/
theorem Pulled.of_isDone (h : u.Pulled history handed v) (hdone : u.stream.isDone = true) :
    handed = [] ∧ v.stream = u.stream := by
  induction h with
  | nil u => exact ⟨rfl, rfl⟩
  | cons _ hpull _ ih =>
    obtain ⟨rfl, hstream⟩ := pull_of_isDone hdone hpull
    rw [← hstream] at hdone ⊢
    exact ih hdone

end Use

/-! ## The order does not matter -/

/-- **The order of pulls does not matter.** Take a stream that has started over an assembled
grammar, whatever the text and the initial states, and pull from it in any way: token by token, all
at once or through any number of iterators. What has been handed out, followed by what a drain now
gives, is what a drain would have given in the first place, and for the default initial state these
are the tokens of the text. Every further pull that is allowed succeeds. There is no next token only
if the stream is at its end then, and once it is, no pulls hand out anything, and they leave the
stream as it is. The text is that with which the stream has started. -/
theorem pull_order_irrelevant {g : CompiledGrammar} (hg : g.Assembled) {text : Bytes}
    {states : List Bytes} (hs : start g text states = .ok s) {history : List Pull}
    {handed : List Token} {u : Use} (h : Use.Pulled ⟨s, []⟩ history handed u) :
    (∃ rest last, u.stream.drain = .ok (rest, last) ∧ s.drain = .ok (handed ++ rest, last) ∧
      (states = [rootState] → g.tokenize text = .ok (handed ++ rest))) ∧
    (∀ p, u.Allows p → ∃ tokens v, u.pull p = .ok (tokens, v)) ∧
    (∃ token t, u.stream.next = .ok (token, t) ∧ (token = none → t.isDone = true)) ∧
    (u.stream.isDone = true → ∀ more tokens v, u.Pulled more tokens v →
      tokens = [] ∧ v.stream = u.stream) ∧
    u.stream.text = text := by
  obtain ⟨tokens, last, hrun⟩ :=
    exists_drains_of_total (total_nested maxDelegateDepth) (accepted_of_start hg hs)
  obtain ⟨rest, rfl, hahead⟩ := h.drains hrun
  have hdrain : s.drain = .ok (handed ++ rest, last) := hrun.drainWith_eq
  refine ⟨⟨rest, last, hahead.drainWith_eq, hdrain, ?_⟩, fun p _ => ?_, ?_, ?_, ?_⟩
  · rintro rfl
    simp only [CompiledGrammar.tokenize, hs, Outcome.bind_eq_ok]
    exact ⟨s, rfl, _, hdrain, rfl⟩
  · obtain ⟨first, v, -, hpull, -⟩ := Use.exists_pull hahead p
    exact ⟨first, v, hpull⟩
  · obtain ⟨token, t, -, hnext, -, -, hend⟩ := hahead.exists_next
    exact ⟨token, t, hnext, hend⟩
  · exact fun hdone more tokens v hpulled => hpulled.of_isDone hdone
  · obtain ⟨-, stack, -, rfl⟩ := start_eq_ok_iff.1 hs
    have hahead : last.text = u.stream.text := hahead.text_eq
    rw [← hahead, hrun.text_eq]
    rfl

/-- A grammar for letters before digits, with a token for each of the two and none for blanks. -/
def labels : CompiledGrammar :=
  .ofStates (bytes "labels") [] [
    ⟨rootState, [
      ⟨0, Pattern.expression ⟨.seq (.capture 1 (.one ⟨[(0x61, 0x7a)], false, false⟩))
          (.capture 2 (.one ⟨[(0x30, 0x39)], false, false⟩)), 2⟩,
        bytes "([a-z])([0-9])", .groups [.emit .plain, .emit .other], [], rootState, 0⟩,
      ⟨1, Pattern.expression ⟨.one ⟨[(0x20, 0x20)], false, false⟩, 0⟩, bytes " ", .emit none, [],
        rootState, 1⟩]⟩] none

/-- An iterator is made and moves on. The blank makes no token, so the stream is not at its end when
all tokens have been handed out. -/
theorem pull_order_labels : labels.Assembled ∧
    ∃ s u, start labels (bytes "a1 ") [rootState] = .ok s ∧
      Use.Pulled ⟨s, []⟩ [.begin, .increment 0] [⟨0, .plain, bytes "a"⟩, ⟨1, .other, bytes "1"⟩]
        u ∧
      u.stream.isDone = false ∧
      ∃ last, u.stream.drain = .ok ([], last) ∧
        labels.tokenize (bytes "a1 ") =
          .ok [⟨0, .plain, bytes "a"⟩, ⟨1, .other, bytes "1"⟩] := by
  have hassembled : labels.Assembled := CompiledGrammar.assembled_of_ownDelegates rfl
  obtain ⟨s, hs, hstate⟩ : ∃ s, start labels (bytes "a1 ") [rootState] = .ok s ∧
      s = ⟨labels, .start (bytes "a1 "), ⟨0, []⟩, 0, ⟨0, []⟩, [], []⟩ := ⟨_, rfl, rfl⟩
  obtain ⟨t, hstep, hfound⟩ : ∃ t, s.stepWith (nested maxDelegateDepth) = .ok t ∧
      t = { s with
        cursor := s.cursor.advance 2
        pending := [⟨0, .plain, bytes "a"⟩, ⟨1, .other, bytes "1"⟩] } := by
    subst hstate
    exact ⟨_, rfl, rfl⟩
  subst hstate hfound
  have hfirst := (nextWith_of_stepWith rfl (by decide +kernel) hstep).trans (nextWith_pending rfl)
  have hpulled := Use.Pulled.cons (u := ⟨_, []⟩) (p := .begin) trivial
    (Outcome.bind_eq_ok.2 ⟨_, hfirst, rfl⟩)
    (.cons (p := .increment 0) ⟨_, rfl⟩ (Outcome.bind_eq_ok.2 ⟨_, nextWith_pending rfl, rfl⟩)
      (.nil _))
  obtain ⟨⟨rest, last, hdrain, hall, htokenize⟩, -⟩ := pull_order_irrelevant hassembled hs hpulled
  have htokens : tokensFor 300 labels (bytes "a1 ") [rootState] =
      some [⟨0, .plain, bytes "a"⟩, ⟨1, .other, bytes "1"⟩] := by decide +kernel
  cases eq_of_tokensFor htokens hs hall
  refine ⟨hassembled, _, _, hs, hpulled, ?_, last, hdrain, htokenize rfl⟩
  decide +kernel

end StackLexer.Stream
