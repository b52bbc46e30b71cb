import StackLexer.Proofs.Acceptance
import StackLexer.Proofs.Run

/-!
# Lexing never fails

Once a stream has started, no text makes it fail: a step could only fail inside a delegate, and a
delegate is lexed with an accepted grammar from states which that grammar has.

* `Stream.found?_eq_some` — the rule that decides a step is a rule of the grammar;
* `Stream.Total` — a way to lex stretches that never fails on accepted grammars;
* `Stream.total_nested` — delegates are lexed in such a way, however deep they are nested;
* `Stream.exists_drains_of_total` — so every stream over an accepted grammar can be drained.
-/

namespace StackLexer.Stream

variable {lexer : Option SubLexer} {s : Stream}

/-- The rule that decides a step is a rule of the grammar, and it matches at the place reached. -/
theorem found?_eq_some {rule : CompiledRule CompiledGrammar} {m : Match}
    (h : s.found? = some (rule, m)) :
    s.grammar.HasRule rule ∧ rule.regex.matchAt s.cursor = some m := by
  obtain ⟨r, hr, hmatch⟩ := List.exists_of_findSome?_eq_some h
  obtain ⟨m', hm', heq⟩ := Option.map_eq_some_iff.1 hmatch
  cases heq
  refine ⟨?_, hm'⟩
  rw [currentState] at hr
  cases hstate : s.grammar.states[s.stack.top]? with
  | none => rw [hstate] at hr; cases hr
  | some state =>
    rw [hstate] at hr
    exact ⟨state, List.mem_of_getElem? hstate, hr⟩

/-! ## Yields -/

/-- A way to lex stretches that never fails on accepted grammars. -/
def Total (lexer : Option SubLexer) : Prop :=
  ∀ lex, lexer = some lex → ∀ (g : CompiledGrammar) (text : Bytes) (states : List Bytes),
    g.Accepted → states ≠ [] → (∀ state ∈ states, g.hasState state = true) →
      ∃ y, lex g text states = .ok y

theorem delegateStack_ne_nil (d : Delegate CompiledGrammar) : delegateStack d ≠ [] := by
  rw [delegateStack]
  split <;> exact List.cons_ne_nil _ _

/-- A delegate of an accepted grammar starts in states that its target has. -/
theorem hasState_of_mem_delegateStack {g : CompiledGrammar} (hg : g.Accepted)
    {rule : CompiledRule CompiledGrammar} (hrule : g.HasRule rule)
    {d : Delegate CompiledGrammar} (hd : d ∈ rule.emission.delegates) :
    ∀ state ∈ delegateStack d, (d.target.getD g).hasState state = true := by
  have hroot := (hg.delegate hrule hd).hasState_root
  intro state hstate
  rw [delegateStack] at hstate
  split at hstate
  · rw [List.mem_singleton.1 hstate]
    exact hroot
  · next hown =>
    rw [Bool.or_eq_true, List.isEmpty_iff, not_or] at hown
    rcases List.mem_cons.1 hstate with rfl | hstate
    · exact hroot
    · obtain rfl := List.mem_singleton.1 hstate
      exact ((hg.resolvesRule hrule).starts d hd).resolve_left hown.1

/-- A delegate yields something. -/
theorem exists_delegateYield (hlexer : Total lexer) (hg : s.grammar.Accepted)
    {rule : CompiledRule CompiledGrammar} (hrule : s.grammar.HasRule rule)
    {d : Delegate CompiledGrammar} (hd : d ∈ rule.emission.delegates) (start length : Nat) :
    ∃ y, delegateYield lexer s d start length = .ok y := by
  rw [delegateYield.eq_def]
  split
  · exact ⟨_, rfl⟩
  · split
    · exact ⟨_, rfl⟩
    · next lex =>
      obtain ⟨y, hy⟩ := hlexer lex rfl (d.target.getD s.grammar) (s.cursor.slice start length)
        (delegateStack d) (hg.delegate hrule hd) (delegateStack_ne_nil d)
        (hasState_of_mem_delegateStack hg hrule hd)
      rw [hy]
      exact ⟨_, rfl⟩

/-- Capturing groups yield something when all of their delegates do. -/
theorem exists_groupsYield {groups : List (GroupAction CompiledGrammar × Option Span)}
    (h : ∀ group ∈ groups, ∀ d, group.1.delegate? = some d →
      ∀ start length, ∃ y, delegateYield lexer s d start length = .ok y) :
    ∃ y, groupsYield lexer s groups = .ok y := by
  induction groups with
  | nil => exact ⟨_, rfl⟩
  | cons group more ih =>
    have hgroup : ∃ y, groupYield lexer s group = .ok y := by
      rw [groupYield.eq_def]
      split
      · exact ⟨_, rfl⟩
      · exact h _ List.mem_cons_self _ rfl _ _
      · exact ⟨_, rfl⟩
      · exact ⟨_, rfl⟩
    obtain ⟨y, hy⟩ := hgroup
    obtain ⟨z, hz⟩ := ih fun g hg => h g (List.mem_cons_of_mem _ hg)
    exact ⟨y.append z, Outcome.bind_eq_ok.2 ⟨y, hy, Outcome.bind_eq_ok.2 ⟨z, hz, rfl⟩⟩⟩

/-- A match of a rule of an accepted grammar yields something. -/
theorem exists_emissionYield (hlexer : Total lexer) (hg : s.grammar.Accepted)
    {rule : CompiledRule CompiledGrammar} (hrule : s.grammar.HasRule rule) (m : Match) :
    ∃ y, emissionYield lexer s m rule.emission = .ok y := by
  have hdelegates := fun d => exists_delegateYield (d := d) hlexer hg hrule
  cases hemission : rule.emission with
  | emit type => cases type <;> exact ⟨_, rfl⟩
  | groups actions =>
    refine exists_groupsYield fun group hgroup d hd => hdelegates d ?_
    rw [hemission]
    exact List.mem_filterMap.2 ⟨group.1, (List.of_mem_zip hgroup).1, hd⟩
  | delegate d =>
    refine hdelegates d ?_ 0 m.length
    rw [hemission]
    exact List.mem_singleton_self d

/-! ## Runs -/

/-- A step over an accepted grammar succeeds. -/
theorem exists_stepWith (hlexer : Total lexer) (hg : s.grammar.Accepted) :
    ∃ s', s.stepWith lexer = .ok s' := by
  rw [stepWith]
  split
  · exact ⟨_, rfl⟩
  · next rule m hfound =>
    obtain ⟨y, hy⟩ := exists_emissionYield hlexer hg (found?_eq_some hfound).1 m
    rw [hy]
    exact ⟨_, rfl⟩

/-- A stream over an accepted grammar can be drained. -/
theorem exists_drains_of_total (hlexer : Total lexer) (hg : s.grammar.Accepted) :
    ∃ tokens last, Drains lexer s tokens last := by
  refine exists_drains (P := fun s => s.grammar.Accepted) (fun s hs => ?_) (fun s _ hs => hs) hg
  obtain ⟨s', hstep⟩ := exists_stepWith hlexer hs
  exact ⟨s', hstep, (stepped_of_stepWith hstep).grammar_eq ▸ hs⟩

/-- **Delegates do not fail**, however deep they are nested. -/
theorem total_nested (depth : Nat) : Total (nested depth) := by
  induction depth with
  | zero => intro lex hlex; cases hlex
  | succ depth ih =>
    intro lex hlex g text states hg hne hdefined
    obtain ⟨s, hs⟩ := exists_start hg.dangling_eq text hne hdefined
    -- the stream of the delegate is a level deeper, so its own delegates are covered by `ih`
    have haccepted : s.grammar.Accepted := (grammar_of_start hs).symm ▸ hg
    obtain ⟨tokens, last, hrun⟩ := exists_drains_of_total ih haccepted
    exact ⟨_, (nested_succ_eq_ok_iff hlex).2 ⟨s, tokens, last, hs, hrun, rfl⟩⟩

end StackLexer.Stream
