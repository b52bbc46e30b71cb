import StackLexer.Proofs.Outcome
import StackLexer.Proofs.StateLookup
import StackLexer.Stream

/-!
# What an accepted grammar promises

A stream refuses a grammar with dangling references. Nothing is checked again while it lexes, so
everything else has to follow from the empty list.

* `CompiledGrammar.dangling_ofStates_eq_nil_iff` — what an empty list says of the rules;
* `CompiledGrammar.Accepted` — an assembled grammar with an empty list; the grammars its rules
  delegate to are accepted in turn, and they have the states the delegates start in;
* `Stream.start_eq_ok_iff` — when a stream starts, and in which state.
-/

namespace StackLexer

namespace CompiledGrammar

variable {g : CompiledGrammar}

/-- A rule of one of the states. -/
def HasRule (g : CompiledGrammar) (rule : CompiledRule CompiledGrammar) : Prop :=
  ∃ state ∈ g.states, rule ∈ state.rules

/-! ## Delegates of delegates -/

/-- `g` may hand text to `h`, directly or through other grammars. -/
inductive Reaches : CompiledGrammar → CompiledGrammar → Prop
  /-- a grammar may hand text to itself -/
  | refl (g : CompiledGrammar) : Reaches g g
  /-- through a delegate of one of its rules -/
  | delegate {g target h : CompiledGrammar} {rule : CompiledRule CompiledGrammar}
      {d : Delegate CompiledGrammar} (hrule : g.HasRule rule) (hd : d ∈ rule.emission.delegates)
      (htarget : d.target = some target) (hrest : Reaches target h) : Reaches g h

/-- A property of all rules, here and in every grammar that text may be handed to. -/
def EveryRule (p : CompiledRule CompiledGrammar → Prop) (g : CompiledGrammar) : Prop :=
  ∀ h, g.Reaches h → ∀ rule, h.HasRule rule → p rule

namespace EveryRule

variable {p : CompiledRule CompiledGrammar → Prop}

theorem here (h : g.EveryRule p) {rule : CompiledRule CompiledGrammar} (hrule : g.HasRule rule) :
    p rule := h g (.refl g) rule hrule

/-- The property passes on to the grammar a delegate names, which may be the grammar itself. -/
theorem delegate (h : g.EveryRule p) {rule : CompiledRule CompiledGrammar}
    (hrule : g.HasRule rule) {d : Delegate CompiledGrammar} (hd : d ∈ rule.emission.delegates) :
    (d.target.getD g).EveryRule p := by
  cases htarget : d.target with
  | none => exact h
  | some target => exact fun i hi => h i (.delegate hrule hd htarget hi)

end EveryRule

/-! ## Grammars that hand back to themselves -/

/-- Whether all delegates of some states hand back to the grammar of these states. -/
def ownDelegates (states : List (CompiledState CompiledGrammar)) : Bool :=
  states.all fun s => s.rules.all fun r => r.emission.delegates.all fun d => d.target.isNone

/-- Then none of them names another grammar. -/
theorem target_ne_some_of_ownDelegates {states : List (CompiledState CompiledGrammar)}
    (h : ownDelegates states = true) {s : CompiledState CompiledGrammar} (hs : s ∈ states)
    {r : CompiledRule CompiledGrammar} (hr : r ∈ s.rules) {d : Delegate CompiledGrammar}
    (hd : d ∈ r.emission.delegates) (target : CompiledGrammar) : d.target ≠ some target := by
  intro htarget
  have hrule := List.all_eq_true.1 (List.all_eq_true.1 h s hs) r hr
  have hnone := List.all_eq_true.1 hrule d hd
  rw [htarget] at hnone
  cases hnone

/-- A grammar of which every delegate hands back to itself is assembled, whatever else is in it. -/
theorem assembled_of_ownDelegates {name : Bytes} {aliases : List Bytes}
    {states : List (CompiledState CompiledGrammar)} {heuristic : Option Heuristic}
    (h : ownDelegates states = true) : (ofStates name aliases states heuristic).Assembled :=
  .ofStates name aliases states heuristic fun _ hs _ hr _ hd target htarget =>
    (target_ne_some_of_ownDelegates h hs hr hd target htarget).elim

/-- What holds of its rules holds wherever text may be handed to. -/
theorem EveryRule.of_ownDelegates {p : CompiledRule CompiledGrammar → Prop}
    (h : ownDelegates g.states = true) (hrules : ∀ rule, g.HasRule rule → p rule) :
    g.EveryRule p := by
  intro other hreach
  cases hreach with
  | refl => exact hrules
  | delegate hrule hd htarget _ =>
    obtain ⟨s, hs, hr⟩ := hrule
    exact (target_ne_some_of_ownDelegates h hs hr hd _ htarget).elim

/-! ## Empty lists of dangling references -/

/-- What a rule of a grammar without dangling references names is defined, an empty name apart. -/
structure ResolvesRule (g : CompiledGrammar) (r : CompiledRule CompiledGrammar) : Prop where
  /-- the targets of the moves -/
  targets : ∀ t ∈ r.transitions, ∀ target, t.target? = some target →
    target = [] ∨ g.hasState target = true
  /-- the grammars delegated to have no dangling references either -/
  dangling : ∀ d ∈ r.emission.delegates, ∀ target, d.target = some target → target.dangling = []
  /-- the states that delegates start in -/
  starts : ∀ d ∈ r.emission.delegates, d.state = [] ∨ (d.target.getD g).hasState d.state = true

theorem danglingTargets_eq_nil_iff {isDefined : Bytes → Bool} {location : Location}
    {transitions : List Transition} :
    danglingTargets isDefined location transitions = [] ↔
      ∀ t ∈ transitions, ∀ target, t.target? = some target →
        target = [] ∨ isDefined target = true := by
  rw [danglingTargets, List.filterMap_eq_nil_iff]
  simp only [List.mem_filterMap, forall_exists_index, and_imp]
  constructor
  · intro h t ht target htarget
    have := h target t ht htarget
    split at this
    · next hok => simpa using hok
    · cases this
  · intro h target t ht htarget
    rw [if_pos]
    simpa using h t ht target htarget

theorem danglingStart_eq_nil_iff {isDefined : Bytes → Bool} {location : Location}
    {state : Bytes} :
    danglingStart isDefined location state = [] ↔ state = [] ∨ isDefined state = true := by
  rw [danglingStart]
  split
  · next h => exact ⟨fun _ => by simpa using h, fun _ => rfl⟩
  · next h => exact ⟨fun hnil => (by cases hnil), fun hok => absurd (by simpa using hok) h⟩

theorem danglingInRule_eq_nil_iff {location : Location} {r : CompiledRule CompiledGrammar} :
    danglingInRule g.hasState location r = [] ↔ g.ResolvesRule r := by
  rw [danglingInRule, List.append_eq_nil_iff, danglingTargets_eq_nil_iff,
    List.flatMap_eq_nil_iff]
  have hdelegate : ∀ d : Delegate CompiledGrammar,
      danglingInDelegate g.hasState location d = [] ↔
        (∀ target, d.target = some target → target.dangling = []) ∧
          (d.state = [] ∨ (d.target.getD g).hasState d.state = true) := by
    intro d
    rw [danglingInDelegate]
    split
    · next htarget => simp [htarget, danglingStart_eq_nil_iff]
    · next target htarget => simp [htarget, danglingStart_eq_nil_iff]
  simp only [hdelegate]
  constructor
  · rintro ⟨htargets, hdelegates⟩
    exact ⟨htargets, fun d hd => (hdelegates d hd).1, fun d hd => (hdelegates d hd).2⟩
  · rintro ⟨htargets, hdangling, hstarts⟩
    exact ⟨htargets, fun d hd => ⟨hdangling d hd, hstarts d hd⟩⟩

/-- **An empty list of dangling references** says that all rules resolve and that there is a root
state. -/
theorem dangling_ofStates_eq_nil_iff {name : Bytes} {aliases : List Bytes}
    {states : List (CompiledState CompiledGrammar)} {heuristic : Option Heuristic}
    (hg : g = .ofStates name aliases states heuristic) :
    g.dangling = [] ↔
      (∀ rule, g.HasRule rule → g.ResolvesRule rule) ∧ g.hasState rootState = true := by
  have hdefined : (fun state => states.any fun s => s.name == state) = g.hasState := by
    funext state
    rw [hg, hasState, stateIndex?, List.findIdx?_isSome]
    rfl
  have hdangling : g.dangling = states.flatMap (danglingInState g.hasState name)
      ++ if g.hasState rootState then [] else [(rootState, Location.ofGrammar name)] := by
    rw [← hdefined, hg]
    rfl
  rw [hdangling, List.append_eq_nil_iff, List.flatMap_eq_nil_iff]
  refine and_congr ?_ ?_
  · -- the place of a rule only shows in the location of a complaint
    simp only [danglingInState, List.flatMap_eq_nil_iff, danglingInRule_eq_nil_iff, Prod.forall,
      List.mem_zipIdx_iff_getElem?]
    constructor
    · rintro h rule ⟨state, hstate, hrule⟩
      obtain ⟨i, hi⟩ := List.mem_iff_getElem?.1 hrule
      exact h state (by rw [hg] at hstate; exact hstate) rule i hi
    · intro h state hstate rule i hi
      exact h rule ⟨state, by rw [hg]; exact hstate, List.mem_of_getElem? hi⟩
  · split
    · next hroot => exact ⟨fun _ => hroot, fun _ => rfl⟩
    · next hroot => exact ⟨fun hnil => (by cases hnil), fun hok => absurd hok hroot⟩

/-- A grammar that a stream accepts: assembled as all grammars are, and without dangling
references. -/
structure Accepted (g : CompiledGrammar) : Prop where
  /-- it was assembled, and so was all it delegates to -/
  assembled : g.Assembled
  /-- nothing dangles -/
  dangling_eq : g.dangling = []

namespace Accepted

/-- Every rule of an accepted grammar resolves. -/
theorem resolvesRule (h : g.Accepted) {rule : CompiledRule CompiledGrammar}
    (hrule : g.HasRule rule) : g.ResolvesRule rule := by
  obtain ⟨hassembled, hdangling⟩ := h
  cases hassembled with
  | ofStates name aliases states heuristic targets =>
    exact ((dangling_ofStates_eq_nil_iff rfl).1 hdangling).1 rule hrule

/-- An accepted grammar has a root state. -/
theorem hasState_root (h : g.Accepted) : g.hasState rootState = true := by
  obtain ⟨hassembled, hdangling⟩ := h
  cases hassembled with
  | ofStates name aliases states heuristic targets =>
    exact ((dangling_ofStates_eq_nil_iff rfl).1 hdangling).2

/-- What an accepted grammar delegates to is accepted. -/
theorem delegate (h : g.Accepted) {rule : CompiledRule CompiledGrammar} (hrule : g.HasRule rule)
    {d : Delegate CompiledGrammar} (hd : d ∈ rule.emission.delegates) :
    (d.target.getD g).Accepted := by
  cases htarget : d.target with
  | none => exact h
  | some target =>
    refine ⟨?_, (h.resolvesRule hrule).dangling d hd target htarget⟩
    cases h.assembled with
    | ofStates name aliases states heuristic targets =>
      obtain ⟨state, hstate, hrule⟩ := hrule
      exact targets state hstate rule hrule d hd target htarget

end Accepted

end CompiledGrammar

/-! ## Starting -/

namespace StateStack

@[simp] theorem toList_ne_nil (s : StateStack) : s.toList ≠ [] := by simp [toList]

/-- A list of entries makes a stack exactly when the stack has these entries. -/
theorem ofList?_eq_some_iff {entries : List Nat} {s : StateStack} :
    ofList? entries = some s ↔ entries = s.toList := by
  obtain ⟨top, below⟩ := s
  rw [ofList?, toList, ← List.reverse_eq_iff]
  split
  · next heq => simp [heq]
  · next top' below' heq => simp [heq]

end StateStack

namespace Stream

variable {g : CompiledGrammar}

theorem initialEntry_eq_ok_iff {state : Bytes} {i : Nat} :
    initialEntry g state = .ok i ↔ g.stateIndex? state = some i := by
  rw [initialEntry]
  split
  · next j h => rw [h, Except.ok.injEq, Option.some.injEq]
  · next h =>
    rw [h]
    exact ⟨fun hok => (by cases hok), fun hsome => (by cases hsome)⟩

/-- The initial stack holds the positions of the initial states. -/
theorem initialStack_eq_ok_iff {states : List Bytes} {stack : StateStack} :
    initialStack g states = .ok stack ↔ states.map g.stateIndex? = stack.toList.map some := by
  have hentries : ∀ entries : List Nat, states.map (initialEntry g) = entries.map .ok ↔
      states.map g.stateIndex? = entries.map some := by
    induction states with
    | nil => intro entries; cases entries <;> simp
    | cons state rest ih =>
      intro entries
      cases entries with
      | nil => simp
      | cons i more => simp [initialEntry_eq_ok_iff, ih]
  rw [initialStack, Outcome.bind_eq_ok]
  simp only [Outcome.mapM_eq_ok, hentries]
  constructor
  · rintro ⟨entries, hmap, hstack⟩
    split at hstack
    · next stack' hlist =>
      cases hstack
      rw [hmap, StateStack.ofList?_eq_some_iff.1 hlist]
    · cases hstack
  · intro hmap
    refine ⟨stack.toList, hmap, ?_⟩
    rw [StateStack.ofList?_eq_some_iff.2 rfl]
    rfl

/-- **When a stream starts.** The grammar has no dangling references and every initial state is
defined; the stream is then at the start of the text, with these states on its stack. -/
theorem start_eq_ok_iff {text : Bytes} {states : List Bytes} {s : Stream} :
    start g text states = .ok s ↔
      g.dangling = [] ∧ ∃ stack : StateStack, states.map g.stateIndex? = stack.toList.map some ∧
        s = ⟨g, .start text, stack, 0, stack, [], []⟩ := by
  rw [start]
  split
  · next heq => exact ⟨fun h => (by cases h), fun h => by rw [h.1] at heq; cases heq⟩
  · next heq =>
    rw [Outcome.bind_eq_ok]
    simp only [initialStack_eq_ok_iff, heq, true_and]
    constructor
    · rintro ⟨stack, hstack, h⟩
      cases h
      exact ⟨stack, hstack, rfl⟩
    · rintro ⟨stack, hstack, rfl⟩
      exact ⟨stack, hstack, rfl⟩

/-- A stream lexes with the grammar it was started on. -/
theorem grammar_of_start {text : Bytes} {states : List Bytes} {s : Stream}
    (h : start g text states = .ok s) : s.grammar = g := by
  obtain ⟨-, stack, -, rfl⟩ := start_eq_ok_iff.1 h
  rfl

/-- A stream can be started on defined states. -/
theorem exists_start (hg : g.dangling = []) (text : Bytes) {states : List Bytes}
    (hne : states ≠ []) (hdefined : ∀ state ∈ states, g.hasState state = true) :
    ∃ s, start g text states = .ok s := by
  have hentries : ∃ entries : List Nat, states.map g.stateIndex? = entries.map some := by
    clear hne
    induction states with
    | nil => exact ⟨[], rfl⟩
    | cons state rest ih =>
      obtain ⟨i, hi⟩ := Option.isSome_iff_exists.1 (hdefined state List.mem_cons_self)
      obtain ⟨entries, hrest⟩ := ih fun s hs => hdefined s (List.mem_cons_of_mem _ hs)
      exact ⟨i :: entries, by rw [List.map_cons, hi, hrest, List.map_cons]⟩
  obtain ⟨entries, hmap⟩ := hentries
  have hnonempty : entries ≠ [] := by
    rintro rfl
    exact hne (List.map_eq_nil_iff.1 hmap)
  cases hstack : StateStack.ofList? entries with
  | none =>
    rw [StateStack.ofList?] at hstack
    split at hstack
    · next hrev => exact absurd (List.reverse_eq_nil_iff.1 hrev) hnonempty
    · cases hstack
  | some stack =>
    rw [StateStack.ofList?_eq_some_iff.1 hstack] at hmap
    exact ⟨_, start_eq_ok_iff.2 ⟨hg, stack, hmap, rfl⟩⟩

end Stream

end StackLexer
