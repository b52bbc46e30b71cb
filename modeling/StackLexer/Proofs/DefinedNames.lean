import StackLexer.Proofs.Progress
import StackLexer.Proofs.StateSafety

/-!
# Names that are defined

Names of states are gone through twice, and independently: once when a grammar is assembled, for the
list of its dangling references, and once while a text is lexed, for every move and every delegate.
The list takes over what the grammars delegated to have found when they were assembled, and does
not look into them again. What an empty list is worth is therefore an induction over the delegates.

* `CompiledGrammar.Complete` — what the rules of one grammar name is defined, as far as the list is
  concerned: it has nothing to say about moves to a state with the empty name;
* `CompiledGrammar.dangling_eq_nil_iff` — the list is empty exactly when the grammar is complete and
  so is every grammar that text may be handed to;
* `CompiledGrammar.Complete.move?_eq_none_iff` — in a complete grammar only the moves to the empty
  name can fail, and they do when there is no state of that name. `Stream.failing_move_iff` says so
  for all streams at work, `Stream.nameless_fails` is a case of it;
* `Stream.delegates_start` — no stream at work ever fails to start the streams of its delegates.
-/

namespace StackLexer

/-! ## Moves that cannot be made -/

/-- A combined state has a name that is not empty, so only two moves are to the empty name. -/
theorem Transition.target?_eq_some_nil_iff {t : Transition} :
    t.target? = some [] ↔ t = .push [] ∨ t = .goto [] := by
  cases t with
  | push state => simp [target?]
  | pop count => simp [target?]
  | pushSame => simp [target?]
  | goto state => simp [target?]
  | pushCombined states =>
    have hopening : bytes "combined(" ≠ [] := by decide +kernel
    simp [target?, combinedName, hopening]

/-- A move cannot be made exactly when it is to a name that does not resolve. -/
theorem StateStack.move?_eq_none_iff {resolve : Bytes → Option Nat} {s : StateStack}
    {t : Transition} :
    s.move? resolve t = none ↔ ∃ target, t.target? = some target ∧ resolve target = none := by
  cases t <;> simp [move?, Transition.target?]

namespace CompiledGrammar

variable {g h : CompiledGrammar}

/-! ## Complete grammars -/

/-- What the rules of a grammar name is defined. The empty name is left out: in a delegate it stands
for the root state, and in a move nobody asks. -/
structure Complete (g : CompiledGrammar) : Prop where
  /-- the state that every delegate to the grammar starts in -/
  root : g.hasState rootState = true
  /-- the targets of the moves -/
  targets : ∀ rule, g.HasRule rule → ∀ t ∈ rule.transitions, ∀ target, t.target? = some target →
    target = [] ∨ g.hasState target = true
  /-- the states that delegates start in -/
  starts : ∀ rule, g.HasRule rule → ∀ d ∈ rule.emission.delegates,
    d.state = [] ∨ (d.target.getD g).hasState d.state = true

theorem Reaches.trans {i : CompiledGrammar} (hgh : g.Reaches h) (hhi : h.Reaches i) :
    g.Reaches i := by
  induction hgh with
  | refl => exact hhi
  | delegate hrule hd htarget _ ih => exact .delegate hrule hd htarget (ih hhi)

/-- What a delegate hands text to is reached, be it the grammar itself. -/
theorem Reaches.target (hreach : g.Reaches h) {rule : CompiledRule CompiledGrammar}
    (hrule : h.HasRule rule) {d : Delegate CompiledGrammar} (hd : d ∈ rule.emission.delegates) :
    g.Reaches (d.target.getD h) := by
  cases htarget : d.target with
  | none => exact hreach
  | some target => exact hreach.trans (.delegate hrule hd htarget (.refl target))

/-- The delegates of an assembled grammar are to assembled grammars. -/
theorem Assembled.target (hg : g.Assembled) {rule : CompiledRule CompiledGrammar}
    (hrule : g.HasRule rule) {d : Delegate CompiledGrammar} (hd : d ∈ rule.emission.delegates)
    {target : CompiledGrammar} (htarget : d.target = some target) : target.Assembled := by
  obtain ⟨state, hstate, hrule⟩ := hrule
  cases hg with
  | ofStates name aliases states heuristic targets =>
    exact targets state hstate rule hrule d hd target htarget

theorem Assembled.of_reaches (hg : g.Assembled) (hreach : g.Reaches h) : h.Assembled := by
  induction hreach with
  | refl => exact hg
  | delegate hrule hd htarget _ ih => exact ih (hg.target hrule hd htarget)

/-- Without dangling references a grammar is complete, and so is all it reaches. -/
theorem Accepted.complete_of_reaches (hg : g.Accepted) (hreach : g.Reaches h) : h.Complete := by
  induction hreach with
  | refl =>
    refine ⟨hg.hasState_root, fun rule hrule => ?_, fun rule hrule => ?_⟩
    · exact (hg.resolvesRule hrule).targets
    · exact (hg.resolvesRule hrule).starts
  | delegate hrule hd htarget _ ih =>
    apply ih
    have htaken := hg.delegate hrule hd
    rwa [htarget] at htaken

/-- **What an empty list of dangling references says**: everything is complete that text may be
handed to, however far away. -/
theorem dangling_eq_nil_iff (hg : g.Assembled) :
    g.dangling = [] ↔ ∀ h, g.Reaches h → h.Complete := by
  constructor
  · intro hdangling h hreach
    exact Accepted.complete_of_reaches ⟨hg, hdangling⟩ hreach
  · intro hcomplete
    -- along the assembly: the grammars delegated to were found to be without dangling references
    induction hg with
    | ofStates name aliases states heuristic targets ih =>
      have hown := hcomplete _ (.refl _)
      apply (dangling_ofStates_eq_nil_iff rfl).2
      refine ⟨fun rule hrule => ?_, hown.root⟩
      refine ⟨hown.targets rule hrule, fun d hd target htarget => ?_, hown.starts rule hrule⟩
      obtain ⟨state, hstate, hmem⟩ := hrule
      apply ih state hstate rule hmem d hd target htarget
      intro h hreach
      exact hcomplete h (.delegate ⟨state, hstate, hmem⟩ hd htarget hreach)

/-- Whatever an accepted grammar reaches is accepted. -/
theorem Accepted.of_reaches (hg : g.Accepted) (hreach : g.Reaches h) : h.Accepted := by
  have hassembled := hg.assembled.of_reaches hreach
  refine ⟨hassembled, (dangling_eq_nil_iff hassembled).2 fun i hi => ?_⟩
  exact (dangling_eq_nil_iff hg.assembled).1 hg.dangling_eq i (hreach.trans hi)

/-! ## The empty name -/

/-- Every name that a move of a rule is to is defined. -/
def MovesResolve (g : CompiledGrammar) : Prop :=
  ∀ rule, g.HasRule rule → ∀ t ∈ rule.transitions, ∀ target, t.target? = some target →
    g.hasState target = true

/-- Some rule moves to a state with the empty name. -/
def MovesToEmptyName (g : CompiledGrammar) : Prop :=
  ∃ rule, g.HasRule rule ∧ (.push [] ∈ rule.transitions ∨ .goto [] ∈ rule.transitions)

/-- The moves of a complete grammar resolve, with the exception of those to the empty name. -/
theorem Complete.movesResolve_iff (hg : g.Complete) :
    g.MovesResolve ↔ (g.MovesToEmptyName → g.hasState [] = true) := by
  constructor
  · rintro hresolve ⟨rule, hrule, hpush | hgoto⟩
    · exact hresolve rule hrule (.push []) hpush [] rfl
    · exact hresolve rule hrule (.goto []) hgoto [] rfl
  · intro hempty rule hrule t ht target htarget
    rcases hg.targets rule hrule t ht target htarget with rfl | hdefined
    · apply hempty
      refine ⟨rule, hrule, ?_⟩
      rcases Transition.target?_eq_some_nil_iff.1 htarget with rfl | rfl
      · exact .inl ht
      · exact .inr ht
    · exact hdefined

/-- **Which moves fail** in a complete grammar: those to the empty name, when it is not defined. -/
theorem Complete.move?_eq_none_iff (hg : g.Complete) {rule : CompiledRule CompiledGrammar}
    (hrule : g.HasRule rule) {t : Transition} (ht : t ∈ rule.transitions) (stack : StateStack) :
    stack.move? g.stateIndex? t = none ↔ (t = .push [] ∨ t = .goto []) ∧ g.hasState [] = false := by
  rw [StateStack.move?_eq_none_iff, ← Transition.target?_eq_some_nil_iff]
  constructor
  · rintro ⟨target, htarget, hnone⟩
    have hundefined : g.hasState target = false := by simp [hasState, hnone]
    rcases hg.targets rule hrule t ht target htarget with rfl | hdefined
    · exact ⟨htarget, hundefined⟩
    · rw [hundefined] at hdefined
      cases hdefined
  · rintro ⟨htarget, hundefined⟩
    exact ⟨[], htarget, by simpa [hasState] using hundefined⟩

end CompiledGrammar

namespace Stream

variable {s : Stream}

/-- Every stream at work has a grammar that text may be handed to. -/
theorem Engaged.reaches {level room : Nat} {t : Stream} (h : Engaged s level room t) :
    s.grammar.Reaches t.grammar := by
  induction h with
  | self => exact .refl _
  | step _ hstep ih => exact (stepped_of_stepWith hstep).grammar_eq.symm ▸ ih
  | handOut _ _ ih => exact ih
  | delegate _ hhands _ hstart ih =>
    obtain ⟨rule, hrule, hd⟩ := hhands.exists_rule
    rw [grammar_of_start hstart]
    exact ih.target hrule hd

/-- **What the check of a grammar misses.** Where an assembled grammar has no dangling references,
all names that its rules can move to are defined, and those of every grammar text may be handed to,
if they have a state with the empty name or do not move to it; and only then. Whatever the text,
each move that a stream at work comes to can be made, unless it is one to the empty name and there
is no such state. -/
theorem failing_move_iff {g : CompiledGrammar} (hg : g.Assembled) (hdangling : g.dangling = []) :
    (∀ h, g.Reaches h → (h.MovesResolve ↔ (h.MovesToEmptyName → h.hasState [] = true)) ∧
      ∀ rule, h.HasRule rule → ∀ t ∈ rule.transitions, ∀ stack : StateStack,
        stack.move? h.stateIndex? t = none ↔
          (t = .push [] ∨ t = .goto []) ∧ h.hasState [] = false) ∧
    ∀ text states s, start g text states = .ok s → ∀ level room u, Engaged s level room u →
      ∀ rule m, u.found? = some (rule, m) → ∀ t ∈ rule.transitions, ∀ stack : StateStack,
        stack.move? u.grammar.stateIndex? t = none ↔
          (t = .push [] ∨ t = .goto []) ∧ u.grammar.hasState [] = false := by
  have hcomplete := (CompiledGrammar.dangling_eq_nil_iff hg).1 hdangling
  constructor
  · intro h hreach
    refine ⟨(hcomplete h hreach).movesResolve_iff, fun rule hrule t ht stack => ?_⟩
    exact (hcomplete h hreach).move?_eq_none_iff hrule ht stack
  · intro text states s hs level room u hu rule m hfound t ht stack
    have hreach := hu.reaches
    rw [grammar_of_start hs] at hreach
    exact (hcomplete _ hreach).move?_eq_none_iff (found?_eq_some hfound).1 ht stack

/-- A rule that moves to the empty name on an `x`. -/
def namelessRule : CompiledRule CompiledGrammar :=
  ⟨0, Pattern.expression ⟨.one ⟨[(0x78, 0x78)], false, false⟩, 0⟩, bytes "x", .emit (some .other),
    [.push []], [], -1⟩

/-- A grammar with that rule only, and no state with the empty name. -/
def nameless : CompiledGrammar := .ofStates (bytes "nameless") [] [⟨rootState, [namelessRule]⟩] none

/-- A grammar that hands digits to `nameless`, and has a state with the empty name itself. -/
def hosting : CompiledGrammar :=
  .ofStates (bytes "hosting") [] [
    ⟨rootState, [
      namelessRule,
      ⟨1, Pattern.expression ⟨.one ⟨[(0x30, 0x39)], false, false⟩, 0⟩, bytes "[0-9]",
        .delegate ⟨some nameless, [], none⟩,
        [.goto (bytes "number"), .pushCombined [rootState, []]], [], -1⟩]⟩,
    ⟨bytes "number", []⟩, ⟨bytes "combined(root,)", []⟩, ⟨[], []⟩] none

/-- The moves of the one resolve, and those of the other one do not. -/
theorem failing_move_hosting : hosting.Assembled ∧ hosting.dangling = [] ∧ hosting.MovesResolve ∧
    hosting.Reaches nameless ∧ ¬nameless.MovesResolve := by
  have hnameless : nameless.Assembled := CompiledGrammar.assembled_of_ownDelegates rfl
  have htargets : ∀ s ∈ hosting.states, ∀ r ∈ s.rules, ∀ d ∈ r.emission.delegates, ∀ target,
      d.target = some target → target = nameless := by
    simp [hosting, CompiledGrammar.ofStates, namelessRule, Emission.delegates, eq_comm]
  have hassembled : hosting.Assembled := .ofStates _ _ _ _ fun s hs r hr d hd target htarget =>
    htargets s hs r hr d hd target htarget ▸ hnameless
  have hreach : hosting.Reaches nameless :=
    .delegate ⟨_, List.mem_cons_self, List.mem_cons_of_mem _ List.mem_cons_self⟩
      (List.mem_singleton_self _) rfl (.refl nameless)
  have hdangling : hosting.dangling = [] := by decide +kernel
  have hfails := (failing_move_iff hassembled hdangling).1
  refine ⟨hassembled, hdangling, ?_, hreach, fun hresolve => ?_⟩
  · exact (hfails hosting (.refl _)).1.2 fun _ => by decide +kernel
  · have hdefined := (hfails nameless hreach).1.1 hresolve
      ⟨namelessRule, ⟨_, List.mem_cons_self, List.mem_cons_self⟩, .inl List.mem_cons_self⟩
    exact absurd hdefined (by decide +kernel)

/-- Nothing dangles in `nameless`, and yet a text takes a stream over it to a move that cannot be
made. -/
theorem nameless_fails : nameless.Assembled ∧ nameless.dangling = [] ∧
    ∃ s m, start nameless (bytes "x") [rootState] = .ok s ∧ s.found? = some (namelessRule, m) ∧
      .push [] ∈ namelessRule.transitions ∧ nameless.hasState [] = false ∧
      s.stack.move? nameless.stateIndex? (.push []) = none := by
  refine ⟨CompiledGrammar.assembled_of_ownDelegates rfl, by decide +kernel, _, _, rfl, rfl, ?_⟩
  exact ⟨List.mem_cons_self, by decide +kernel, by decide +kernel⟩

/-! ## Starting delegates -/

/-- **No text fails in a delegate.** Once a stream has started over an assembled grammar, whatever
the text and the initial states, every stream at work while it is pulled, however deep it is nested,
makes its steps without failing. In each stretch it hands to a delegate, of a whole match or of a
group, the delegate's grammar has no dangling references and has the states to start in, so a stream
over the stretch starts. -/
theorem delegates_start {g : CompiledGrammar} (hg : g.Assembled) {text : Bytes}
    {states : List Bytes} (hs : start g text states = .ok s) :
    (∀ level room t, Engaged s level room t → (∃ u, t.stepWith (nested room) = .ok u) ∧
      ∀ d offset length, t.HandsTo d offset length →
        (d.target.getD t.grammar).dangling = [] ∧
        (delegateStack d = [rootState] ∨ delegateStack d = [rootState, d.state]) ∧
        (∀ state ∈ delegateStack d, (d.target.getD t.grammar).hasState state = true) ∧
        (∃ u, start (d.target.getD t.grammar) (t.cursor.slice offset length) (delegateStack d)
          = .ok u) ∧
        ∃ y, delegateYield (nested room) t d offset length = .ok y) ∧
    ∃ tokens last, s.drain = .ok (tokens, last) := by
  have haccepted := accepted_of_start hg hs
  constructor
  · intro level room t ht
    have hgrammar := haccepted.of_reaches ht.reaches
    refine ⟨exists_stepWith (total_nested room) hgrammar, fun d offset length hhands => ?_⟩
    obtain ⟨rule, hrule, hd⟩ := hhands.exists_rule
    have htarget := hgrammar.delegate hrule hd
    have hdefined := hasState_of_mem_delegateStack hgrammar hrule hd
    refine ⟨htarget.dangling_eq, ?_, hdefined, ?_, ?_⟩
    · rw [delegateStack]
      split
      · exact .inl rfl
      · exact .inr rfl
    · exact exists_start htarget.dangling_eq _ (delegateStack_ne_nil d) hdefined
    · exact exists_delegateYield (total_nested room) hgrammar hrule hd offset length
  · obtain ⟨tokens, last, hrun⟩ :=
      exists_drains_of_total (total_nested maxDelegateDepth) haccepted
    exact ⟨tokens, last, hrun.drainWith_eq⟩

/-- A grammar for values, of which digits go back to itself. -/
def values : CompiledGrammar :=
  .ofStates (bytes "values") [] [
    ⟨rootState, []⟩,
    ⟨bytes "value", [
      ⟨0, Pattern.expression ⟨.one ⟨[(0x30, 0x39)], false, false⟩, 0⟩, bytes "[0-9]",
        .delegate ⟨none, [], none⟩, [],
        [], -1⟩]⟩] none

/-- A rule that hands the digit of a setting such as `a=1` to `values`. -/
def settingRule : CompiledRule CompiledGrammar :=
  ⟨0, Pattern.expression ⟨.seq (.capture 1 (.one ⟨[(0x61, 0x7a)], false, false⟩))
      (.seq (.one ⟨[(0x3d, 0x3d)], false, false⟩)
        (.capture 2 (.one ⟨[(0x30, 0x39)], false, false⟩))), 2⟩,
    bytes "([a-z])=([0-9])",
    .groups [.emit .other, .delegate ⟨some values, bytes "value", none⟩], [], [], -1⟩

/-- A grammar with that rule only. -/
def setting : CompiledGrammar := .ofStates (bytes "setting") [] [⟨rootState, [settingRule]⟩] none

/-- On a setting, two levels of delegates deep. -/
theorem delegates_start_setting : setting.Assembled ∧
    ∃ s, start setting (bytes "a=1") [rootState] = .ok s ∧
      s.HandsTo ⟨some values, bytes "value", none⟩ 2 1 ∧
      ∃ u, start values (bytes "1") [rootState, bytes "value"] = .ok u ∧
        u.HandsTo ⟨none, [], none⟩ 0 1 ∧ (∃ v, start values (bytes "1") [rootState] = .ok v) ∧
        ∃ last, s.drain = .ok ([⟨0, .other, bytes "a"⟩, ⟨2, .error, bytes "1"⟩], last) := by
  have hvalues : values.Assembled := CompiledGrammar.assembled_of_ownDelegates rfl
  have hassembled : setting.Assembled := by
    refine .ofStates _ _ _ _ fun s hs r hr d hd target htarget => ?_
    obtain rfl := List.mem_singleton.1 hs
    obtain rfl := List.mem_singleton.1 hr
    obtain rfl := List.mem_singleton.1 hd
    cases htarget
    exact hvalues
  obtain ⟨s, hs, hgroup, hslice⟩ : ∃ s, start setting (bytes "a=1") [rootState] = .ok s ∧
      s.HandsTo ⟨some values, bytes "value", none⟩ 2 1 ∧ s.cursor.slice 2 1 = bytes "1" :=
    ⟨_, rfl, @HandsTo.group _ settingRule ⟨3, [some ⟨0, 1⟩, some ⟨2, 1⟩]⟩ _ _ ⟨2, 1⟩ rfl rfl
      (List.mem_cons_of_mem _ List.mem_cons_self), rfl⟩
  obtain ⟨u, hu, hwhole, hall, hgrammar⟩ :
      ∃ u, start values (bytes "1") (delegateStack ⟨some values, bytes "value", none⟩) = .ok u ∧
        u.HandsTo ⟨none, [], none⟩ 0 1 ∧ u.cursor.slice 0 1 = bytes "1" ∧ u.grammar = values :=
    ⟨_, rfl, .whole (m := ⟨1, []⟩) rfl rfl, rfl, rfl⟩
  obtain ⟨hengaged, tokens, last, hdrain⟩ := delegates_start hassembled hs
  -- the stream of the group is at work too, one level deeper
  have hnested : Engaged s 1 63 u := .delegate .self hgroup Nat.one_ne_zero (hslice ▸ hu)
  obtain ⟨-, -, -, hbelow, -⟩ := (hengaged 1 63 u hnested).2 _ 0 1 hwhole
  rw [hall, Option.getD_none, hgrammar] at hbelow
  have htokens : tokensFor 300 setting (bytes "a=1") [rootState] =
      some [⟨0, .other, bytes "a"⟩, ⟨2, .error, bytes "1"⟩] := by decide +kernel
  obtain rfl := eq_of_tokensFor htokens hs hdrain
  exact ⟨hassembled, s, hs, hgroup, u, hu, hwhole, hbelow, last, hdrain⟩

end Stream

end StackLexer
