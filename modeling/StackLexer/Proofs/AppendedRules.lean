import StackLexer.Proofs.Delegation
import StackLexer.Proofs.Evaluation
import StackLexer.Proofs.Extension

/-!
# Rules appended to states

The first rule that matches decides a step, so rules that stand behind it have no say. Appending
rules to the states of a grammar can only show where none of the old ones matches. To see that this
is so of whole runs, two streams are followed side by side. They have different grammars, and a
delegate without a target hands back to either one's own, so the runs of such delegates differ as
the outer ones do and are followed side by side in turn.

* `Stream.Mismatches` — a run comes to a place where no rule matches, itself or in the run of a
  delegate that hands back to the grammar. The runs of other delegates do not matter: their grammars
  are part of the rules, and these are the same on both sides;
* `Stream.Abreast` — two streams at the same point. `Stream.Abreast.step` is what one step keeps and
  `Stream.Abreast.drains` what a whole run keeps, by induction on the room for delegates;
* `Stream.appended_rules_keep_tokens` — tokens, stack and position at the end are the same.
-/

namespace StackLexer

/-- Wherever there is text left, every state has a rule that matches. -/
def CompiledGrammar.Covers (g : CompiledGrammar) : Prop :=
  ∀ state ∈ g.states, ∀ c : Cursor, c.rest ≠ [] →
    ∃ rule ∈ state.rules, (rule.regex.matchAt c).isSome = true

namespace Stream

variable {s s' t : Stream} {depth : Nat} {lexer : Option SubLexer}

/-- The first match of a list of rules is the first one of a list of rules like them. -/
theorem exists_firstMatch_of_alike {rules rules' : List (CompiledRule CompiledGrammar)}
    (h : List.Forall₂ CompiledRule.Alike rules rules') {c : Cursor}
    {rule : CompiledRule CompiledGrammar} {m : Match}
    (hfound : firstMatch rules c = some (rule, m)) :
    ∃ rule', rule.Alike rule' ∧ firstMatch rules' c = some (rule', m) := by
  induction h with
  | nil => cases hfound
  | @cons first first' more more' halike _ ih =>
    rw [firstMatch, List.findSome?_cons] at hfound ⊢
    rw [halike.regex_eq]
    cases hmatch : first.regex.matchAt c with
    | none =>
      rw [hmatch] at hfound
      exact ih hfound
    | some m' =>
      rw [hmatch] at hfound
      cases hfound
      exact ⟨first', halike, rfl⟩

/-- It stays the first when rules are appended. -/
theorem exists_firstMatch_of_extended {state state' : CompiledState CompiledGrammar}
    (h : state.ExtendedBy state') {c : Cursor} {rule : CompiledRule CompiledGrammar} {m : Match}
    (hfound : firstMatch state.rules c = some (rule, m)) :
    ∃ rule', rule.Alike rule' ∧ firstMatch state'.rules c = some (rule', m) := by
  obtain ⟨old, appended, hrules, hold⟩ := h.rules
  obtain ⟨rule', halike, hfound'⟩ := exists_firstMatch_of_alike hold hfound
  refine ⟨rule', halike, ?_⟩
  rw [firstMatch] at hfound' ⊢
  rw [hrules, List.findSome?_append, hfound', Option.some_or]

/-! ## Places where no rule matches -/

/-- While `s` is drained with room for `depth` levels of delegates, its grammar has no rule that
matches somewhere: in the run of `s`, or in the run of a delegate that hands back to the grammar. -/
inductive Mismatches : Nat → Stream → Prop
  /-- in the next step -/
  | here {depth : Nat} {s : Stream} (hp : s.pending = []) (hs : s.rest ≠ [])
      (hfound : s.found? = none) : Mismatches depth s
  /-- in the run of a delegate that the next step hands a stretch to -/
  | delegate {depth : Nat} {s t : Stream} {d : Delegate CompiledGrammar} {offset length : Nat}
      (hp : s.pending = []) (hs : s.rest ≠ []) (hhands : s.HandsTo d offset length)
      (hown : d.target = none) (hlength : length ≠ 0)
      (hstart : start s.grammar (s.cursor.slice offset length) (delegateStack d) = .ok t)
      (hinner : Mismatches depth t) : Mismatches (depth + 1) s
  /-- after a token was handed out -/
  | handOut {depth : Nat} {s : Stream} {t : Token} {more : List Token} (hp : s.pending = t :: more)
      (hrest : Mismatches depth { s with pending := more }) : Mismatches depth s
  /-- after the next step -/
  | step {depth : Nat} {s s' : Stream} (hp : s.pending = []) (hs : s.rest ≠ [])
      (hstep : s.stepWith (nested depth) = .ok s') (hrest : Mismatches depth s') :
      Mismatches depth s

/-- A grammar covers all texts when each of its states has a rule that only moves, since such a rule
has the empty pattern. -/
theorem covers_of_moving {library : Library} {g : Grammar} {c : CompiledGrammar}
    (h : g.compile library = .ok c) (hplain : ∀ members, ¬g.Pushes members)
    (hmoving : ∀ state, g.hasState state = true →
      ∃ transitions, .rule (.moving transitions) ∈ g.entries state)
    (hempty : ∀ e, library.read g.ignoreCase [] = .ok e → ∀ c, (e.matchAt c).isSome = true) :
    c.Covers := by
  intro state hstate place _
  obtain ⟨-, -, hrules, -⟩ := Grammar.compile_flattens h
  have hdeclared := Grammar.hasState_of_plain hplain h hstate
  obtain ⟨transitions, hentry⟩ := hmoving state.name hdeclared
  obtain ⟨i, rule, hrule, hcompiles⟩ := (hrules state hstate hdeclared).exists_item hentry
  exact ⟨rule, hrule, hempty rule.regex hcompiles.regex_eq place⟩

/-- In a grammar that covers all texts every place has a match. -/
theorem not_mismatches_of_covers (hg : s.grammar.Covers) (hs : s.Settled) :
    ¬Mismatches depth s := by
  intro h
  induction h with
  | @here _ s hp hrest hfound =>
    obtain ⟨state, hstate, -⟩ := hs.stack.top
    obtain ⟨rule, hrule, hmatch⟩ := hg state (List.mem_of_getElem? hstate) s.cursor hrest
    rw [found?, firstMatch, currentState, hstate, Option.getD_some, List.findSome?_eq_none_iff]
      at hfound
    rw [Option.map_eq_none_iff.1 (hfound rule hrule)] at hmatch
    cases hmatch
  | delegate hp hrest hhands hown hlength hstart _ ih =>
    exact ih (grammar_of_start hstart ▸ hg) (settled_of_start hstart)
  | handOut hp _ ih => exact ih hg ⟨hs.stack, hs.base⟩
  | step hp hrest hstep _ ih =>
    have hstepped := stepped_of_stepWith hstep
    exact ih (hstepped.grammar_eq.symm ▸ hg) (hs.step hstepped)

/-! ## Side by side -/

/-- Two streams at the same point, the grammar of the second with rules appended. What they have
reported may differ, since reports name the grammar. -/
structure Abreast (s s' : Stream) : Prop where
  /-- the second grammar has the states of the first, with rules appended -/
  grammar : s.grammar.ExtendedBy s'.grammar
  /-- nothing dangles in it -/
  dangling_eq : s'.grammar.dangling = []
  /-- both are at the same place of the same text -/
  cursor_eq : s'.cursor = s.cursor
  /-- in the same states -/
  stack_eq : s'.stack = s.stack
  /-- after as many matches of length zero -/
  steps_eq : s'.zeroWidthSteps = s.zeroWidthSteps
  /-- with the same stack to fall back to -/
  base_eq : s'.zeroWidthBase = s.zeroWidthBase
  /-- and the same tokens waiting -/
  pending_eq : s'.pending = s.pending

/-- Streams started on the same text in the same states are side by side. -/
theorem exists_abreast_of_start {g g' : CompiledGrammar} (hext : g.ExtendedBy g')
    (hdangling : g'.dangling = []) {text : Bytes} {states : List Bytes}
    (hs : start g text states = .ok s) :
    ∃ s', start g' text states = .ok s' ∧ Abreast s s' := by
  obtain ⟨-, stack, hstack, rfl⟩ := start_eq_ok_iff.1 hs
  rw [← hext.stateIndex?_eq] at hstack
  exact ⟨_, start_eq_ok_iff.2 ⟨hdangling, stack, hstack, rfl⟩, hext, hdangling, rfl, rfl, rfl, rfl,
    rfl⟩

namespace Abreast

theorem rest_eq (h : Abreast s s') : s'.rest = s.rest := congrArg Cursor.rest h.cursor_eq

theorem position_eq (h : Abreast s s') : s'.position = s.position :=
  congrArg Cursor.position h.cursor_eq

/-- The entries of the stack have the same names. -/
theorem stackNames_eq (h : Abreast s s') : s'.stackNames = s.stackNames := by
  rw [stackNames, stackNames, h.stack_eq]
  exact List.map_congr_left fun i _ => (h.grammar.stateAt i).name_eq

/-- **A match stays.** What decides a step of the first stream decides that of the second. -/
theorem exists_found (h : Abreast s s') {rule : CompiledRule CompiledGrammar} {m : Match}
    (hfound : s.found? = some (rule, m)) :
    ∃ rule', rule.Alike rule' ∧ s'.found? = some (rule', m) := by
  rw [found?, currentState, h.stack_eq, h.cursor_eq]
  exact exists_firstMatch_of_extended (h.grammar.stateAt s.stack.top) hfound

theorem handOut (h : Abreast s s') (more : List Token) :
    Abreast { s with pending := more } { s' with pending := more } :=
  ⟨h.grammar, h.dangling_eq, h.cursor_eq, h.stack_eq, h.steps_eq, h.base_eq, rfl⟩

theorem take (h : Abreast s s') {y y' : Yield} (hy : y'.tokens = y.tokens) :
    Abreast (s.take y) (s'.take y') :=
  ⟨h.grammar, h.dangling_eq, h.cursor_eq, h.stack_eq, h.steps_eq, h.base_eq,
    by rw [Stream.take, Stream.take, h.pending_eq, hy]⟩

theorem searched (h : Abreast s s') : Abreast s.searched s'.searched :=
  ⟨h.grammar, h.dangling_eq, h.cursor_eq, h.stack_eq, h.steps_eq, h.base_eq, h.pending_eq⟩

theorem errorChar (h : Abreast s s') : Abreast s.errorChar s'.errorChar := by
  refine ⟨h.grammar, h.dangling_eq, ?_, h.stack_eq, rfl, h.base_eq, ?_⟩
  · rw [Stream.errorChar, Stream.errorChar, h.rest_eq, h.cursor_eq]
  · rw [Stream.errorChar, Stream.errorChar, h.rest_eq, h.cursor_eq, h.pending_eq]

/-- Moving on after the same match, the streams stay side by side: names resolve to the same
positions, and a run of matches of length zero has the same length and the same stack to fall back
to. -/
theorem advance (h : Abreast s s') (state state' : Bytes)
    {rule rule' : CompiledRule CompiledGrammar} (halike : rule.Alike rule') (length : Nat) :
    Abreast (s.advance state rule length) (s'.advance state' rule' length) := by
  simp only [Stream.advance, h.grammar.stateIndex?_eq, h.stack_eq, h.steps_eq, h.base_eq,
    halike.transitions_eq]
  split
  · split
    · apply Abreast.errorChar
      exact ⟨h.grammar, h.dangling_eq, h.cursor_eq, rfl, rfl, rfl, h.pending_eq⟩
    · exact ⟨h.grammar, h.dangling_eq, h.cursor_eq, rfl, rfl, rfl, h.pending_eq⟩
  · refine ⟨h.grammar, h.dangling_eq, ?_, rfl, rfl, rfl, h.pending_eq⟩
    show s'.cursor.advance length = s.cursor.advance length
    rw [h.cursor_eq]

end Abreast

/-! ## Yields side by side -/

/-- A delegate yields the same tokens for both streams, whatever it reports. -/
def YieldsAlike (lexer : Option SubLexer) (s s' : Stream) (d : Delegate CompiledGrammar)
    (offset length : Nat) : Prop :=
  ∀ y, delegateYield lexer s d offset length = .ok y →
    ∃ y', delegateYield lexer s' d offset length = .ok y' ∧ y'.tokens = y.tokens

namespace Abreast

/-- Groups yield the same tokens when their delegates do. -/
theorem exists_groupsYield (h : Abreast s s')
    {groups : List (GroupAction CompiledGrammar × Option Span)}
    (hdelegates : ∀ d span, (.delegate d, some span) ∈ groups →
      YieldsAlike lexer s s' d span.start span.length)
    {y : Yield} (hy : groupsYield lexer s groups = .ok y) :
    ∃ y', groupsYield lexer s' groups = .ok y' ∧ y'.tokens = y.tokens := by
  induction groups generalizing y with
  | nil =>
    cases hy
    exact ⟨.empty, rfl, rfl⟩
  | cons group more ih =>
    obtain ⟨first, hfirst, hy⟩ := Outcome.bind_eq_ok.1 hy
    obtain ⟨second, hsecond, hy⟩ := Outcome.bind_eq_ok.1 hy
    cases hy
    have hgroup : ∃ y', groupYield lexer s' group = .ok y' ∧ y'.tokens = first.tokens := by
      obtain ⟨action, span⟩ := group
      cases span with
      | none => cases action <;> cases hfirst <;> exact ⟨.empty, rfl, rfl⟩
      | some span =>
        cases action with
        | skip =>
          cases hfirst
          exact ⟨.empty, rfl, rfl⟩
        | emit type =>
          cases hfirst
          exact ⟨_, rfl, by rw [h.cursor_eq]⟩
        | delegate d => exact hdelegates d span List.mem_cons_self first hfirst
    obtain ⟨first', hfirst', htokens⟩ := hgroup
    obtain ⟨second', hsecond', hmore⟩ :=
      ih (fun d span hmem => hdelegates d span (List.mem_cons_of_mem _ hmem)) hsecond
    refine ⟨first'.append second', ?_, ?_⟩
    · exact Outcome.bind_eq_ok.2 ⟨first', hfirst', Outcome.bind_eq_ok.2 ⟨second', hsecond', rfl⟩⟩
    · rw [Yield.append, Yield.append, htokens, hmore]

/-- **One step side by side.** Where a rule of the first grammar matches, and the delegates of that
match yield the same tokens, the second stream makes the same step. -/
theorem step (h : Abreast s s') {found : CompiledRule CompiledGrammar × Match}
    (hfound : s.found? = some found)
    (hdelegates : ∀ d offset length, s.HandsTo d offset length →
      YieldsAlike lexer s s' d offset length)
    (hstep : s.stepWith lexer = .ok t) :
    ∃ t', s'.stepWith lexer = .ok t' ∧ Abreast t t' := by
  obtain ⟨rule, m⟩ := found
  obtain ⟨rule', halike, hfound'⟩ := h.exists_found hfound
  have hfirst : firstMatch s.currentState.rules s.cursor = some (rule, m) := hfound
  have hfirst' : firstMatch s'.currentState.rules s'.cursor = some (rule', m) := hfound'
  rw [stepWith, hfirst] at hstep
  obtain ⟨y, hy, hstep⟩ := Outcome.bind_eq_ok.1 hstep
  cases hstep
  have hyield : ∃ y', emissionYield lexer s' m rule'.emission = .ok y' ∧
      y'.tokens = y.tokens := by
    rw [halike.emission_eq]
    cases hemission : rule.emission with
    | emit type =>
      rw [hemission] at hy
      cases type <;> cases hy
      · exact ⟨.empty, rfl, rfl⟩
      · exact ⟨_, rfl, by rw [h.cursor_eq]⟩
    | groups actions =>
      rw [hemission] at hy
      have hinner : ∀ d span, (.delegate d, some span) ∈ actions.zip m.groups →
          YieldsAlike lexer s s' d span.start span.length :=
        fun d span hmem => hdelegates d _ _ (.group hfound hemission hmem)
      exact h.exists_groupsYield hinner hy
    | delegate d =>
      rw [hemission] at hy
      exact hdelegates d 0 m.length (.whole hfound hemission) y hy
  obtain ⟨y', hy', htokens⟩ := hyield
  refine ⟨(s'.searched.take y').advance s'.currentState.name rule' m.length, ?_, ?_⟩
  · rw [stepWith, hfirst']
    exact Outcome.bind_eq_ok.2 ⟨y', hy', rfl⟩
  · exact (h.searched.take htokens).advance _ _ halike m.length

/-! ## Runs side by side -/

/-- The delegates of a step yield the same tokens, when runs with one level less stay side by side.
A delegate that hands back to the grammar has such a run; any other one hands to the same grammar
on both sides. -/
theorem yieldsAlike (h : Abreast s s')
    (hinner : ∀ inner, depth = inner + 1 → ∀ {t t' : Stream} {tokens : List Token} {last : Stream},
      Abreast t t' → ¬Mismatches inner t → Drains (nested inner) t tokens last →
        ∃ last', Drains (nested inner) t' tokens last' ∧ Abreast last last')
    (hp : s.pending = []) (hs : s.rest ≠ []) (hmatched : ¬Mismatches depth s)
    {d : Delegate CompiledGrammar} {offset length : Nat} (hhands : s.HandsTo d offset length) :
    YieldsAlike (nested depth) s s' d offset length := by
  intro y hy
  by_cases hlength : length = 0
  · rw [delegateYield.eq_def, if_pos hlength] at hy ⊢
    exact ⟨y, hy, rfl⟩
  rcases tokens_of_delegateYield hy hlength with
    ⟨rfl, htokens⟩ | ⟨inner, t, tokens, last, rfl, hstart, hrun, htokens⟩
  · rw [delegateYield.eq_def, if_neg hlength]
    exact ⟨_, rfl, by rw [htokens, h.cursor_eq]⟩
  · have hrun' : ∃ t' last', start (d.target.getD s'.grammar) (s'.cursor.slice offset length)
        (delegateStack d) = .ok t' ∧ Drains (nested inner) t' tokens last' := by
      rw [h.cursor_eq]
      cases htarget : d.target with
      | some target =>
        rw [htarget] at hstart
        exact ⟨t, last, hstart, hrun⟩
      | none =>
        rw [htarget] at hstart
        obtain ⟨t', hstart', ht⟩ := exists_abreast_of_start h.grammar h.dangling_eq hstart
        have hown : ¬Mismatches inner t :=
          fun hinner => hmatched (.delegate hp hs hhands htarget hlength hstart hinner)
        obtain ⟨last', hrun', -⟩ := hinner inner rfl ht hown hrun
        exact ⟨t', last', hstart', hrun'⟩
    obtain ⟨t', last', hstart', hrun'⟩ := hrun'
    rw [delegateYield_succ hlength, hstart']
    simp only [Except.bind, hrun'.drainWith_eq, Except.map, h.position_eq]
    exact ⟨_, rfl, htokens.symm⟩

/-- **Runs side by side.** A run in which a rule always matches is also one of the stream beside
it. -/
theorem drains (h : Abreast s s') {tokens : List Token} {last : Stream}
    (hmatched : ¬Mismatches depth s) (hrun : Drains (nested depth) s tokens last) :
    ∃ last', Drains (nested depth) s' tokens last' ∧ Abreast last last' := by
  revert s s' tokens last
  refine forall_depth (P := fun depth => ∀ {s s' : Stream}, Abreast s s' →
    ∀ {tokens : List Token} {last : Stream}, ¬Mismatches depth s →
      Drains (nested depth) s tokens last →
        ∃ last', Drains (nested depth) s' tokens last' ∧ Abreast last last') ?_ depth
  intro depth hinner s s' h tokens last hmatched hrun
  induction hrun generalizing s' with
  | @finished s hp hs => exact ⟨s', .finished (h.pending_eq.trans hp) (h.rest_eq.trans hs), h⟩
  | @handOut s last token more tokens hp _ ih =>
    obtain ⟨last', hrun', hlast⟩ := ih (h.handOut more) fun hrest => hmatched (.handOut hp hrest)
    exact ⟨last', .handOut (h.pending_eq.trans hp) hrun', hlast⟩
  | @step s t last tokens hp hs hstep _ ih =>
    cases hfound : s.found? with
    | none => exact absurd (.here hp hs hfound) hmatched
    | some found =>
      have hdelegates : ∀ d offset length, s.HandsTo d offset length →
          YieldsAlike (nested depth) s s' d offset length := by
        intro d offset length hhands
        exact h.yieldsAlike (fun inner hdepth _ _ _ _ ht hown hrun =>
          hinner inner hdepth ht hown hrun) hp hs hmatched hhands
      obtain ⟨t', hstep', ht⟩ := h.step hfound hdelegates hstep
      obtain ⟨last', hrun', hlast⟩ := ih ht fun hrest => hmatched (.step hp hs hstep hrest)
      exact ⟨last', .step (h.pending_eq.trans hp) (h.rest_eq ▸ hs) hstep' hrun', hlast⟩

end Abreast

/-- **Appended rules change nothing** in a run in which a rule always matched. Take two accepted
grammars, the second with the states of the first in the same order and rules appended to them, and
any text and initial states on which the run over the first never comes to a place where no rule
matches, neither itself nor in the run of a delegate that hands back to the grammar. A stream over
the second grammar then starts, and it hands out the same tokens and ends with the same stack at the
same position. -/
theorem appended_rules_keep_tokens {g g' : CompiledGrammar} (hg : g.Accepted) (hg' : g'.Accepted)
    (hext : g.ExtendedBy g') {text : Bytes} {states : List Bytes}
    (hs : start g text states = .ok s) (hmatched : ¬Mismatches maxDelegateDepth s) :
    ∃ s' tokens last last', start g' text states = .ok s' ∧
      s.drain = .ok (tokens, last) ∧ s'.drain = .ok (tokens, last') ∧
      last'.stack = last.stack ∧ last'.stackNames = last.stackNames ∧
      last'.position = last.position := by
  obtain ⟨s', hs', habreast⟩ := exists_abreast_of_start hext hg'.dangling_eq hs
  have haccepted : s.grammar.Accepted := (grammar_of_start hs).symm ▸ hg
  obtain ⟨tokens, last, hrun⟩ := exists_drains_of_total (total_nested maxDelegateDepth) haccepted
  obtain ⟨last', hrun', hlast⟩ := habreast.drains hmatched hrun
  exact ⟨s', tokens, last, last', hs', hrun.drainWith_eq, hrun'.drainWith_eq, hlast.stack_eq,
    hlast.stackNames_eq, hlast.position_eq⟩

/-- A rule that takes as many letters as there are. -/
def lettersRule : Rule := ⟨bytes "[a-z]+", .emit (some .other), [.pop 1]⟩

/-- Rules that hand the word after a bracket back to the grammar and go on in a state for words. -/
def openingRules : List Rule :=
  [⟨bytes "[(]([a-z]+)", .groups [.delegate ⟨none, bytes "word", none⟩], [.push (bytes "word")]⟩,
    .moving []]

/-- Rules that take one letter after the other. -/
def letterRules : List Rule := [⟨bytes "[a-z]", .emit (some .plain), []⟩, .moving [.pop 1]]

/-- A grammar with these rules, and other ones appended to both of its states. -/
def covered (appended : List Rule) : Grammar where
  name := bytes "covered"
  aliases := []
  ignoreCase := false
  states := .ofList [
    (rootState, (openingRules ++ appended).map .rule),
    (bytes "word", (letterRules ++ appended).map .rule)]
  heuristic := none

/-- What the states of the grammar consist of. -/
theorem entries_covered (appended : List Rule) (state : Bytes) :
    (covered appended).entries state =
      if state = bytes "word" then (letterRules ++ appended).map .rule
      else if state = rootState then (openingRules ++ appended).map .rule else [] := by
  have hstates : (covered appended).states =
      (ByteMap.empty.insert rootState ((openingRules ++ appended).map .rule)).insert
        (bytes "word") ((letterRules ++ appended).map .rule) := rfl
  rw [Grammar.entries, hstates, ByteMap.find?_insert, ByteMap.find?_insert, ByteMap.find?_empty]
  split
  · rfl
  · split <;> rfl

/-- A rule appended to both states. -/
theorem withMore_covered : (covered []).WithMore (covered [lettersRule]) where
  ignoreCase_eq := rfl
  keys_eq := rfl
  entries state := by
    rw [entries_covered, entries_covered]
    split
    · exact ⟨letterRules, [lettersRule], rfl, rfl⟩
    · split
      · exact ⟨openingRules, [lettersRule], rfl, rfl⟩
      · exact ⟨[], [], rfl, rfl⟩
  plain := Grammar.not_pushes_of_entries rfl

/-- Of two compiled grammars, the second with a rule in each state that would match more than the
others, on a text with a word that is handed back to the grammar and a bracket at which the run
stalls. The rules of the state for words have other slots in the second grammar. -/
theorem appended_rules_keep_tokens_covered : ∃ g g',
    (covered []).compile Regex.backtracking = .ok g ∧
    (covered [lettersRule]).compile Regex.backtracking = .ok g' ∧
    g.states.map (fun state => state.rules.map (·.slot)) = [[0, 1], [2, 1]] ∧
    g'.states.map (fun state => state.rules.map (·.slot)) = [[0, 1, 2], [3, 1, 2]] ∧
    g.Accepted ∧ g'.Accepted ∧ g.ExtendedBy g' ∧
    ∃ s s' last last', start g (bytes "(ab)c") [rootState] = .ok s ∧
      ¬Mismatches maxDelegateDepth s ∧ start g' (bytes "(ab)c") [rootState] = .ok s' ∧
      s.drain = .ok ([⟨1, .plain, bytes "a"⟩, ⟨2, .plain, bytes "b"⟩, ⟨3, .error, bytes ")"⟩,
        ⟨4, .plain, bytes "c"⟩], last) ∧
      s'.drain = .ok ([⟨1, .plain, bytes "a"⟩, ⟨2, .plain, bytes "b"⟩, ⟨3, .error, bytes ")"⟩,
        ⟨4, .plain, bytes "c"⟩], last') ∧
      last'.stack = last.stack ∧ last'.stackNames = last.stackNames ∧
      last'.position = last.position := by
  obtain ⟨g, hg⟩ := Outcome.exists_of_isOk (x := (covered []).compile Regex.backtracking) rfl
  obtain ⟨g', hg'⟩ :=
    Outcome.exists_of_isOk (x := (covered [lettersRule]).compile Regex.backtracking) rfl
  have hslots : ((covered []).compile Regex.backtracking).map (fun g =>
      g.states.map fun state => state.rules.map (·.slot)) = .ok [[0, 1], [2, 1]] := by rfl
  have hslots' : ((covered [lettersRule]).compile Regex.backtracking).map (fun g =>
      g.states.map fun state => state.rules.map (·.slot)) = .ok [[0, 1, 2], [3, 1, 2]] := by rfl
  have htokens : ((covered []).compile Regex.backtracking).toOption.bind
      (tokensFor 300 · (bytes "(ab)c") [rootState]) =
        some [⟨1, .plain, bytes "a"⟩, ⟨2, .plain, bytes "b"⟩, ⟨3, .error, bytes ")"⟩,
          ⟨4, .plain, bytes "c"⟩] := by decide +kernel
  rw [hg] at hslots htokens
  rw [hg'] at hslots'
  have haccepted : g.Accepted := Grammar.accepted_of_ownDelegates hg rfl
  have haccepted' : g'.Accepted := Grammar.accepted_of_ownDelegates hg' rfl
  have hplain : ∀ members, ¬(covered []).Pushes members := Grammar.not_pushes_of_entries rfl
  have hcovers : g.Covers := by
    refine covers_of_moving hg hplain (fun state hstate => ?_) fun e he c => ?_
    · have hkey : state ∈ [rootState, bytes "word"] := ByteMap.mem_keys_iff.2 hstate
      rcases List.mem_cons.1 hkey with rfl | hkey
      · exact ⟨[], .tail _ (.head _)⟩
      · obtain rfl := List.mem_singleton.1 hkey
        exact ⟨[.pop 1], .tail _ (.head _)⟩
    · cases he
      rw [Pattern.matchAt_expression]
      rfl
  obtain ⟨s, hs⟩ := exists_start haccepted.dangling_eq (bytes "(ab)c") (List.cons_ne_nil _ [])
    fun state hstate => List.mem_singleton.1 hstate ▸ haccepted.hasState_root
  have hmatched : ¬Mismatches maxDelegateDepth s :=
    not_mismatches_of_covers ((grammar_of_start hs).symm ▸ hcovers) (settled_of_start hs)
  have hext := withMore_covered.extendedBy hg hg'
  obtain ⟨s', tokens, last, last', hs', hdrain, hdrain', hend⟩ :=
    appended_rules_keep_tokens haccepted haccepted' hext hs hmatched
  obtain rfl := eq_of_tokensFor htokens hs hdrain
  exact ⟨g, g', hg, hg', Except.ok.inj hslots, Except.ok.inj hslots', haccepted, haccepted', hext,
    s, s', last, last', hs, hmatched, hs', hdrain, hdrain', hend⟩

end Stream

end StackLexer
