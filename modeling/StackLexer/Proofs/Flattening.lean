import StackLexer.Proofs.Compilation
import StackLexer.Regex.Engine

/-!
# Flattening

A compiled grammar is its source with the inclusions expanded in place.

* `Grammar.Compiles` — what a rule becomes: the same pattern and emission, its moves with combined
  states under their names, and a note of where it was declared;
* `Grammar.compile_flattens` — the states the grammar declares come out in byte order, each with
  the plain expansion (`Grammar.Expands`) of its entries, whatever the order in which the walk met
  them; and two rules share an expression exactly when their patterns are the same. Copies of one
  rule are made at different times of the walk, and rules with one pattern are met in different
  states: what they have in common is the cache at its end.
-/

namespace StackLexer

namespace Grammar

variable {library : Library} {g : Grammar}

/-- The compiled form of the rule `r` that is the entry at index `i` of `state`. -/
structure Compiles (library : Library) (g : Grammar) (state : Bytes) (i : Nat) (r : Rule)
    (c : CompiledRule CompiledGrammar) : Prop where
  /-- it says in which state it was declared -/
  originState_eq : c.originState = state
  /-- and at which place -/
  originIndex_eq : c.originIndex = i
  /-- the pattern is kept -/
  pattern_eq : c.pattern = r.pattern
  /-- and read with the case rule of the grammar -/
  regex_eq : library.read g.ignoreCase r.pattern = .ok c.regex
  /-- the emission is kept -/
  emission_eq : c.emission = r.emission
  /-- the moves are kept, except that a combined state is pushed by its name -/
  transitions_eq : c.transitions = r.transitions.map Transition.named

/-- A placed rule compiles to a form of the rule it was placed for. -/
theorem Placed.compiles {cache : ExpressionCache} (hv : cache.Valid library g.ignoreCase)
    {state : Bytes} {i : Nat} {r : Rule} {p : PlacedRule} (h : g.Placed cache state i r p) :
    g.Compiles library state i r p.compiled := by
  obtain ⟨-, shared, hshared, rfl⟩ := h
  exact ⟨rfl, rfl, rfl, hv.read_eq _ _ hshared, rfl, rfl⟩

namespace Walked

variable {w : Walk}

/-- The states that carry a declared name are the grammar's own, in the order of their names. -/
theorem filter_hasState (h : g.Walked library w) :
    ((compiledStates w.finished).filter fun s => g.hasState s.name).map (·.name) =
      g.states.keys := by
  have hown : (w.finished.entries.map ownState).filter (fun s => g.hasState s.name) =
      w.finished.entries.map ownState := by
    refine List.filter_eq_self.2 fun s hs => ?_
    obtain ⟨⟨state, rules⟩, hmem, rfl⟩ := List.mem_map.1 hs
    rw [← h.contains_eq]
    exact ByteMap.contains_iff.2 ⟨rules, ByteMap.find?_eq_some_iff.2 hmem⟩
  have hcombined : ((combinationsOf (placedRules w.finished)).map (combinedState w.finished)).filter
      (fun s => g.hasState s.name) = [] := by
    refine List.filter_eq_nil_iff.2 fun s hs => ?_
    obtain ⟨members, hmem, rfl⟩ := List.mem_map.1 hs
    exact Bool.eq_false_iff.1 (h.admits_pushCombined (h.mem_combinationsOf.1 hmem)).2
  rw [compiledStates_eq, List.filter_append, hown, hcombined, List.append_nil, List.map_map,
    ← h.keys_eq]
  rfl

/-- A state that carries a declared name has the plain expansion of its entries as rules. -/
theorem expands_compiled (h : g.Walked library w) {s : CompiledState CompiledGrammar}
    (hs : s ∈ compiledStates w.finished) (hname : g.hasState s.name = true) :
    g.Expands (g.Compiles library) s.name 0 (g.entries s.name) s.rules := by
  rcases h.mem_compiledStates.1 hs with ⟨state, rules, hfind, rfl⟩ | ⟨members, hpush, rfl⟩
  · obtain ⟨entries, hentries, hexpands⟩ := h.sound.finished state rules hfind
    rw [show (ownState (state, rules)).name = state from rfl, entries_eq hentries]
    exact hexpands.map fun _ _ _ _ hplaced => hplaced.compiles h.sound.cache
  · -- a combined state never carries a declared name
    rw [show (combinedState w.finished members).name = combinedName members from rfl,
      (h.admits_pushCombined hpush).2] at hname
    cases hname

/-- Every compiled rule, also in a combined state, is the form of the rule it names as its
origin. -/
theorem exists_origin (h : g.Walked library w) {s : CompiledState CompiledGrammar}
    (hs : s ∈ compiledStates w.finished) {c : CompiledRule CompiledGrammar} (hc : c ∈ s.rules) :
    ∃ i r, g.RuleAt c.originState i r ∧ g.Compiles library c.originState i r c := by
  obtain ⟨p, hp, rfl⟩ := h.exists_placed_of_mem hs hc
  obtain ⟨state, i, r, hr, hplaced⟩ := h.exists_ruleAt hp
  have hcompiles := hplaced.compiles h.sound.cache
  rw [← hcompiles.originState_eq] at hr hcompiles
  exact ⟨i, r, hr, hcompiles⟩

/-- The expression of a compiled rule is the one that the cache has for its pattern. -/
theorem find?_pattern (h : g.Walked library w) {s : CompiledState CompiledGrammar}
    (hs : s ∈ compiledStates w.finished) {c : CompiledRule CompiledGrammar} (hc : c ∈ s.rules) :
    w.cache.byPattern.find? c.pattern = some ⟨c.slot, c.regex⟩ := by
  obtain ⟨p, hp, rfl⟩ := h.exists_placed_of_mem hs hc
  obtain ⟨state, i, r, -, -, shared, hshared, rfl⟩ := h.exists_ruleAt hp
  exact hshared

/-- Rules share an expression exactly when they have the same pattern. -/
theorem slot_eq_iff (h : g.Walked library w) {s s' : CompiledState CompiledGrammar}
    (hs : s ∈ compiledStates w.finished) (hs' : s' ∈ compiledStates w.finished)
    {c c' : CompiledRule CompiledGrammar} (hc : c ∈ s.rules) (hc' : c' ∈ s'.rules) :
    (c.slot = c'.slot ↔ c.pattern = c'.pattern) ∧ (c.slot = c'.slot → c.regex = c'.regex) := by
  have hfound := h.find?_pattern hs hc
  have hfound' := h.find?_pattern hs' hc'
  have hiff := h.sound.cache.slot_eq_iff hfound hfound'
  refine ⟨hiff, fun hslot => ?_⟩
  rw [hiff.1 hslot] at hfound
  exact congrArg SharedExpression.regex (Option.some.inj (hfound.symm.trans hfound'))

end Walked

/-- **Flattening.** The compiled states with declared names stand in byte order; the rules of each
are the plain expansion of its entries; every compiled rule is the form of the rule it names as its
origin; and rules share an expression exactly when they have the same pattern. -/
theorem compile_flattens {library : Library} {g : Grammar} {c : CompiledGrammar}
    (h : g.compile library = .ok c) :
    (c.states.filter fun s => g.hasState s.name).map (·.name) = g.states.keys ∧
    g.states.keys.Pairwise (· < ·) ∧
    (∀ s ∈ c.states, g.hasState s.name = true →
      g.Expands (g.Compiles library) s.name 0 (g.entries s.name) s.rules) ∧
    (∀ s ∈ c.states, ∀ r ∈ s.rules,
      ∃ i rule, g.RuleAt r.originState i rule ∧ g.Compiles library r.originState i rule r) ∧
    ∀ s ∈ c.states, ∀ s' ∈ c.states, ∀ r ∈ s.rules, ∀ r' ∈ s'.rules,
      (r.slot = r'.slot ↔ r.pattern = r'.pattern) ∧ (r.slot = r'.slot → r.regex = r'.regex) := by
  obtain ⟨-, w, hw, rfl⟩ := compile_eq_ok h
  refine ⟨hw.filter_hasState, g.states.pairwise_keys, ?_, ?_, ?_⟩
  · exact fun s hs hname => hw.expands_compiled hs hname
  · exact fun s hs r hr => hw.exists_origin hs hr
  · exact fun s hs s' hs' r hr r' hr' => hw.slot_eq_iff hs hs' hr hr'

/-- A grammar whose root state includes one state directly and, before that, through another. -/
def diamond : Grammar where
  name := bytes "diamond"
  aliases := []
  ignoreCase := false
  states := .ofList [
    (bytes "root", [.inclusion (bytes "b"), .rule ⟨bytes "x", .emit none, []⟩,
      .inclusion (bytes "a")]),
    (bytes "b", [.inclusion (bytes "a"),
      .rule ⟨bytes "y", .emit none, [.pushCombined [bytes "a", bytes "b"]]⟩]),
    (bytes "a", [.rule ⟨bytes "x", .emit none, [.pushSame]⟩])]
  heuristic := none

/-- Its states come out sorted and with their expansions. The two patterns are read once, although
`x` is written in two states and comes twice into the root state. -/
theorem compile_flattens_diamond : ∃ c, diamond.compile Regex.backtracking = .ok c ∧
    (c.states.filter fun s => diamond.hasState s.name).map (·.name) =
      [bytes "a", bytes "b", bytes "root"] ∧
    (∀ s ∈ c.states, diamond.hasState s.name = true →
      diamond.Expands (diamond.Compiles Regex.backtracking) s.name 0 (diamond.entries s.name)
        s.rules) ∧
    c.states.map (fun s => s.rules.map fun r => (r.slot, r.pattern)) =
      [[(0, bytes "x")],
        [(0, bytes "x"), (1, bytes "y")],
        [(0, bytes "x"), (1, bytes "y"), (0, bytes "x"), (0, bytes "x")],
        [(0, bytes "x"), (0, bytes "x"), (1, bytes "y")]] := by
  have hslots : (diamond.compile Regex.backtracking).map (fun c =>
      c.states.map fun s => s.rules.map fun r => (r.slot, r.pattern)) = .ok
      [[(0, bytes "x")],
        [(0, bytes "x"), (1, bytes "y")],
        [(0, bytes "x"), (1, bytes "y"), (0, bytes "x"), (0, bytes "x")],
        [(0, bytes "x"), (0, bytes "x"), (1, bytes "y")]] := by rfl
  obtain ⟨c, hc⟩ := Outcome.exists_of_isOk (x := diamond.compile Regex.backtracking) rfl
  rw [hc] at hslots
  obtain ⟨hnames, -, hrules, -, -⟩ := compile_flattens hc
  exact ⟨c, hc, hnames, hrules, Except.ok.inj hslots⟩

end Grammar

end StackLexer
