import StackLexer.Proofs.Acceptance
import StackLexer.Proofs.Combination
import StackLexer.Proofs.Flattening
import StackLexer.Proofs.Run

/-!
# Compiled grammars are safe to lex with

The checks of compilation, the list of dangling references and the look-up of states while lexing
are made in three different places. Here they are shown to agree.

* `Grammar.hasState_of_target` — every name a compiled rule moves to is a state;
* `Grammar.dangling_compile` — so a compiled grammar has no dangling references;
* `Stream.Settled` — the entries of the stack are positions at which the state standing there is
  found by its name, and so are those of the stack that a stalled run falls back to;
  `Stream.Settled.step` and `Stream.settled_of_reachable` say that this stays so;
* `Grammar.compile_state_safe` — both together.
-/

namespace StackLexer

namespace Grammar

variable {library : Library} {g : Grammar} {c : CompiledGrammar}

/-! ## Names in compiled rules -/

/-- A declared state is a state of the compiled grammar. -/
theorem hasState_compile (h : g.compile library = .ok c) {state : Bytes}
    (hs : g.hasState state = true) : c.hasState state = true := by
  obtain ⟨-, w, hw, rfl⟩ := compile_eq_ok h
  exact CompiledGrammar.hasState_iff.2
    ⟨_, List.mem_of_find?_eq_some (hw.find?_declared hs), rfl⟩

/-- A compiled rule is the form of a rule of the grammar. -/
theorem exists_ruleAt_of_hasRule (h : g.compile library = .ok c)
    {rule : CompiledRule CompiledGrammar}
    (hrule : c.HasRule rule) :
    ∃ state i r, g.RuleAt state i r ∧ g.Compiles library state i r rule := by
  obtain ⟨-, w, hw, rfl⟩ := compile_eq_ok h
  obtain ⟨s, hs, hrule⟩ := hrule
  exact ⟨_, hw.exists_origin hs hrule⟩

/-- What a rule names has been checked. -/
theorem admits_of_compile (h : g.compile library = .ok c) {state : Bytes} {i : Nat} {r : Rule}
    (hr : g.RuleAt state i r) : g.AdmitsRule r := by
  obtain ⟨-, w, hw, rfl⟩ := compile_eq_ok h
  exact hw.admits hr

/-- **Every name a compiled rule moves to is a state.** A combined state is one by construction,
any other was checked. -/
theorem hasState_of_target (h : g.compile library = .ok c) {rule : CompiledRule CompiledGrammar}
    (hrule : c.HasRule rule) {t : Transition} (ht : t ∈ rule.transitions) {target : Bytes}
    (htarget : t.target? = some target) : c.hasState target = true := by
  obtain ⟨state, i, r, hr, hcompiles⟩ := exists_ruleAt_of_hasRule h hrule
  rw [hcompiles.transitions_eq] at ht
  obtain ⟨u, hu, rfl⟩ := List.mem_map.1 ht
  have hadmits := (admits_of_compile h hr).transitions u hu
  cases u with
  | push state =>
    cases htarget
    exact hasState_compile h hadmits
  | goto state =>
    cases htarget
    exact hasState_compile h hadmits
  | pushCombined members =>
    cases htarget
    exact (exists_combined h ⟨state, i, r, hr, hu⟩).1
  | pop count => cases htarget
  | pushSame => cases htarget

/-- **No dangling references.** Where the grammars delegated to have none, a compiled grammar has
none. -/
theorem dangling_compile (h : g.compile library = .ok c)
    (htargets : ∀ state i r, g.RuleAt state i r → ∀ d ∈ r.emission.delegates, ∀ target,
      d.target = some target → target.dangling = []) : c.dangling = [] := by
  have hstates : ∃ states, c = .ofStates g.name g.aliases states g.heuristic := by
    obtain ⟨-, w, -, hc⟩ := compile_eq_ok h
    exact ⟨_, hc⟩
  obtain ⟨states, hc⟩ := hstates
  refine (CompiledGrammar.dangling_ofStates_eq_nil_iff hc).2 ⟨fun rule hrule => ?_, ?_⟩
  · obtain ⟨state, i, r, hr, hcompiles⟩ := exists_ruleAt_of_hasRule h hrule
    refine ⟨fun t ht target htarget => .inr (hasState_of_target h hrule ht htarget), ?_, ?_⟩
    · rw [hcompiles.emission_eq]
      exact htargets state i r hr
    · rw [hcompiles.emission_eq]
      intro d hd
      rcases (admits_of_compile h hr).delegates d hd with hempty | hstart
      · exact .inl hempty
      · right
        cases htarget : d.target with
        | none =>
          rw [htarget] at hstart
          exact hasState_compile h hstart
        | some target =>
          rw [htarget] at hstart
          exact hstart
  · exact hasState_compile h (compile_eq_ok h).1

/-- A grammar that compiles is accepted, when everything it delegates to is. -/
theorem accepted_of_compile (h : g.compile library = .ok c)
    (htargets : ∀ state i r, g.RuleAt state i r → ∀ d ∈ r.emission.delegates, ∀ target,
      d.target = some target → target.Accepted) : c.Accepted := by
  refine ⟨?_, dangling_compile h fun state i r hr d hd target htarget =>
    (htargets state i r hr d hd target htarget).dangling_eq⟩
  have hrules : ∀ s ∈ c.states, ∀ rule ∈ s.rules, ∀ d ∈ rule.emission.delegates, ∀ target,
      d.target = some target → target.Assembled := by
    intro s hs rule hrule d hd target htarget
    obtain ⟨state, i, r, hr, hcompiles⟩ := exists_ruleAt_of_hasRule h ⟨s, hs, hrule⟩
    rw [hcompiles.emission_eq] at hd
    exact (htargets state i r hr d hd target htarget).assembled
  obtain ⟨-, w, -, rfl⟩ := compile_eq_ok h
  exact .ofStates _ _ _ _ hrules

/-- So is one of which every delegate hands back to itself. -/
theorem accepted_of_ownDelegates (h : g.compile library = .ok c)
    (hown : (g.states.entries.all fun entry => entry.2.all fun
      | .rule r => r.emission.delegates.all fun d => d.target.isNone
      | .inclusion _ => true) = true) : c.Accepted := by
  refine accepted_of_compile h fun state i r hr d hd target htarget => ?_
  have hnone := List.all_eq_true.1 (hr.check hown) d hd
  rw [htarget] at hnone
  cases hnone

end Grammar

/-! ## Entries of the stack -/

namespace CompiledGrammar

variable {g : CompiledGrammar}

/-- The position of a state that is found by its name. -/
def Locates (g : CompiledGrammar) (i : Nat) : Prop :=
  ∃ state, g.states[i]? = some state ∧ g.stateIndex? state.name = some i

/-- A name resolves to such a position. -/
theorem locates_of_stateIndex? {name : Bytes} {i : Nat} (h : g.stateIndex? name = some i) :
    g.Locates i := by
  obtain ⟨state, hstate, rfl⟩ := exists_of_stateIndex? h
  exact ⟨state, hstate, h⟩

end CompiledGrammar

namespace StateStack

variable {p : Nat → Prop} {s : StateStack} {resolve : Bytes → Option Nat}

/-- A property of all entries. -/
def Forall (p : Nat → Prop) (s : StateStack) : Prop := ∀ i ∈ s.toList, p i

theorem Forall.top (h : s.Forall p) : p s.top :=
  h _ (List.mem_reverse.2 List.mem_cons_self)

theorem Forall.push (h : s.Forall p) {i : Nat} (hi : p i) : (s.push i).Forall p := by
  intro j hj
  rw [toList_push, List.mem_append, List.mem_singleton] at hj
  rcases hj with hj | rfl
  · exact h j hj
  · exact hi

theorem Forall.pop (h : s.Forall p) (n : Nat) : (s.pop n).Forall p := by
  intro j hj
  rw [toList_pop] at hj
  exact h j (List.mem_of_mem_take hj)

/-- A move keeps what holds of all entries and of all positions that names resolve to. -/
theorem Forall.move (hresolve : ∀ name i, resolve name = some i → p i) (h : s.Forall p)
    (t : Transition) : (s.move resolve t).Forall p := by
  -- `below` is what the entry goes on top of: a move to a state may pop before it pushes, and it
  -- leaves the whole stack as it was when the name does not resolve
  have hpush : ∀ (below : StateStack) (name : Bytes), below.Forall p →
      (((resolve name).map below.push).getD s).Forall p := by
    intro below name hbelow
    cases hname : resolve name with
    | none => exact h
    | some i => exact hbelow.push (hresolve name i hname)
  cases t with
  | push state => exact hpush s state h
  | pop count => exact h.pop _
  | pushSame => exact h.push h.top
  | goto state => exact hpush (s.pop 1) state (h.pop 1)
  | pushCombined states => exact hpush s _ h

theorem Forall.moveAll (hresolve : ∀ name i, resolve name = some i → p i) (h : s.Forall p)
    (ts : List Transition) : (s.moveAll resolve ts).Forall p := by
  induction ts generalizing s with
  | nil => exact h
  | cons t ts ih => exact ih (h.move hresolve t)

/-- A move to a name that resolves is made. -/
theorem isSome_move? {t : Transition} (s : StateStack)
    (h : ∀ target, t.target? = some target → (resolve target).isSome = true) :
    (s.move? resolve t).isSome = true := by
  cases t with
  | push state => exact Option.isSome_map.trans (h _ rfl)
  | pop count => rfl
  | pushSame => rfl
  | goto state => exact Option.isSome_map.trans (h _ rfl)
  | pushCombined states => exact Option.isSome_map.trans (h _ rfl)

end StateStack

namespace Stream

variable {lexer : Option SubLexer} {s s' : Stream}

/-- The entries of both stacks are positions of states that are found by their names. -/
structure Settled (s : Stream) : Prop where
  /-- the entries of the stack -/
  stack : s.stack.Forall s.grammar.Locates
  /-- the entries of the stack that a stalled run falls back to -/
  base : s.zeroWidthBase.Forall s.grammar.Locates

/-- A stream starts settled. -/
theorem settled_of_start {g : CompiledGrammar} {text : Bytes} {states : List Bytes}
    (h : start g text states = .ok s) : s.Settled := by
  obtain ⟨-, stack, hstack, rfl⟩ := start_eq_ok_iff.1 h
  have hlocates : stack.Forall g.Locates := by
    intro i hi
    have hmem : some i ∈ states.map g.stateIndex? := hstack ▸ List.mem_map_of_mem hi
    obtain ⟨name, -, hname⟩ := List.mem_map.1 hmem
    exact CompiledGrammar.locates_of_stateIndex? hname
  exact ⟨hlocates, hlocates⟩

namespace Settled

theorem movedBy (h : s.Settled) (rule : CompiledRule CompiledGrammar) :
    (s.movedBy rule).Forall s.grammar.Locates :=
  h.stack.moveAll (fun _ _ => CompiledGrammar.locates_of_stateIndex?) _

theorem fallback (h : s.Settled) : s.fallback.Forall s.grammar.Locates := by
  rw [Stream.fallback]
  split
  · exact h.stack
  · exact h.base

/-- A step keeps a stream settled. -/
theorem step (h : s.Settled) (hstep : Stepped lexer s s') : s'.Settled := by
  cases hstep with
  | unmatched => exact ⟨h.stack, h.base⟩
  | consumed => exact ⟨h.movedBy _, h.base⟩
  | moved => exact ⟨h.movedBy _, h.fallback⟩
  | stalled => exact ⟨h.fallback, h.fallback⟩

end Settled

/-- A stream stays settled and keeps its grammar. -/
theorem settled_of_reachable (h : Reachable lexer s s') (hs : s.Settled) :
    s'.Settled ∧ s'.grammar = s.grammar := by
  refine Reachable.invariant (P := fun t => t.Settled ∧ t.grammar = s.grammar) ?_ ?_ h ⟨hs, rfl⟩
  · rintro t u ⟨ht, hgrammar⟩ hstep
    exact ⟨ht.step hstep, hstep.grammar_eq.trans hgrammar⟩
  · rintro t more ⟨ht, hgrammar⟩
    exact ⟨⟨ht.stack, ht.base⟩, hgrammar⟩

end Stream

/-- **State safety.** A compiled grammar whose foreign targets have no dangling references has none,
and a stream over it starts in the root state on every text. However a stream over it was started
and is stepped, its stack is not empty, each entry is the position at which the state standing there
is found by its name, and every move of a rule of the current state can be made. -/
theorem Grammar.compile_state_safe {library : Library} {g : Grammar} {c : CompiledGrammar}
    (h : g.compile library = .ok c)
    (htargets : ∀ state i r, g.RuleAt state i r → ∀ d ∈ r.emission.delegates, ∀ target,
      d.target = some target → target.dangling = []) :
    c.dangling = [] ∧ (∀ text, ∃ s, Stream.start c text [rootState] = .ok s) ∧
    ∀ (text : Bytes) (states : List Bytes) (lexer : Option SubLexer) (s s' : Stream),
      Stream.start c text states = .ok s → Stream.Reachable lexer s s' →
        s'.stack.toList ≠ [] ∧
        (∀ i ∈ s'.stack.toList, ∃ state,
          c.states[i]? = some state ∧ c.stateIndex? state.name = some i) ∧
        ∀ rule ∈ s'.currentState.rules, ∀ t ∈ rule.transitions, ∀ stack : StateStack,
          (stack.move? c.stateIndex? t).isSome = true := by
  have hdangling := dangling_compile h htargets
  refine ⟨hdangling, fun text => ?_, ?_⟩
  · refine Stream.exists_start hdangling text (List.cons_ne_nil _ _) fun state hstate => ?_
    rw [List.mem_singleton.1 hstate]
    exact hasState_compile h (compile_eq_ok h).1
  · intro text states lexer s s' hs hreachable
    obtain ⟨hsettled, hkept⟩ := Stream.settled_of_reachable hreachable (Stream.settled_of_start hs)
    rw [Stream.grammar_of_start hs] at hkept
    have hstack : s'.stack.Forall c.Locates := hkept ▸ hsettled.stack
    refine ⟨StateStack.toList_ne_nil _, hstack, fun rule hrule t ht stack => ?_⟩
    obtain ⟨state, hstate, -⟩ := hstack.top
    rw [Stream.currentState, hkept, hstate] at hrule
    have hhas : c.HasRule rule := ⟨state, List.mem_of_getElem? hstate, hrule⟩
    exact stack.isSome_move? fun target htarget => hasState_of_target h hhas ht htarget

/-- A grammar with every kind of move, one of them to a combined state, and a foreign delegate. -/
def Grammar.moving : Grammar where
  name := bytes "moving"
  aliases := []
  ignoreCase := false
  states := .ofList [
    (bytes "root", [
      .rule ⟨bytes "x", .emit none, [.pushCombined [bytes "a", bytes "b"], .pushSame]⟩,
      .rule ⟨bytes "y", .delegate ⟨some (.ofStates (bytes "other") [] [⟨rootState, []⟩] none), [],
        none⟩, [.push (bytes "a")]⟩]),
    (bytes "a", [.rule ⟨bytes "1", .emit none, [.goto (bytes "b")]⟩]),
    (bytes "b", [.rule ⟨[], .emit none, [.pop 3]⟩])]
  heuristic := none

/-- On a text that makes all moves. -/
theorem Grammar.compile_state_safe_moving : ∃ c,
    moving.compile Regex.backtracking = .ok c ∧ c.dangling = [] ∧
    ∃ s, Stream.start c (bytes "y1x2") [rootState] = .ok s ∧
      ∀ s', Stream.Reachable (Stream.nested Stream.maxDelegateDepth) s s' →
        ∀ i ∈ s'.stack.toList, ∃ state,
          c.states[i]? = some state ∧ c.stateIndex? state.name = some i := by
  have hchecked : (moving.states.entries.all fun entry => entry.2.all fun
      | .rule r => r.emission.delegates.all fun d => d.target.all (·.dangling.isEmpty)
      | .inclusion _ => true) = true := by rfl
  have htargets : ∀ state i r, moving.RuleAt state i r → ∀ d ∈ r.emission.delegates, ∀ target,
      d.target = some target → target.dangling = [] := by
    intro state i r hr d hd target htarget
    have hdelegate := List.all_eq_true.1 (hr.check hchecked) d hd
    rw [htarget] at hdelegate
    exact List.isEmpty_iff.1 hdelegate
  obtain ⟨c, hc⟩ := Outcome.exists_of_isOk (x := moving.compile Regex.backtracking) rfl
  obtain ⟨hdangling, hstart, hsafe⟩ := compile_state_safe hc htargets
  obtain ⟨s, hs⟩ := hstart (bytes "y1x2")
  exact ⟨c, hc, hdangling, s, hs, fun s' hs' => (hsafe _ _ _ s s' hs hs').2.1⟩

end StackLexer
