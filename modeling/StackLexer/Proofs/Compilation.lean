import StackLexer.Proofs.Expansion
import StackLexer.Proofs.StateLookup

/-!
# What compilation produces

* `Grammar.compile_eq_ok` — a compiled grammar is assembled from the expansions of its states;
* `Grammar.Walked` — the walk that ends with those expansions, and what it guarantees about them.
  Its lemmas tie the placed rules to the rules of the grammar and say which state a name resolves
  to: a declared one to its own expansion, any other to the first combined state of that name.
-/

namespace StackLexer

namespace Grammar

variable {library : Library} {g : Grammar}

/-! ## The states of a compiled grammar -/

/-- A rule of the grammar pushes the combined state of `members`. -/
def Pushes (g : Grammar) (members : List Bytes) : Prop :=
  ∃ state i r, g.RuleAt state i r ∧ .pushCombined members ∈ r.transitions

/-- How a successful walk over the grammar ends. -/
structure Walked (library : Library) (g : Grammar) (w : Walk) : Prop where
  /-- each state has its plain expansion -/
  sound : w.Sound library g
  /-- the states are the declared ones -/
  keys_eq : w.finished.keys = g.states.keys

/-- A grammar is compiled exactly when it has a root state and the walk over it succeeds. -/
theorem compile_eq_ok {c : CompiledGrammar} (h : g.compile library = .ok c) :
    g.hasState rootState = true ∧ ∃ w, g.Walked library w ∧
      c = .ofStates g.name g.aliases (compiledStates w.finished) g.heuristic := by
  rw [compile] at h
  split at h
  · next hroot =>
    obtain ⟨w, hw, h⟩ := Outcome.bind_eq_ok.1 h
    cases h
    obtain ⟨hsound, hkeys⟩ := expansions_eq_ok hw
    exact ⟨hroot, w, ⟨hsound, hkeys⟩, rfl⟩
  · cases h

/-- All rules met in the walk. -/
def placedRules (expanded : Finished) : List PlacedRule := expanded.values.flatten

/-- The compiled rules of a declared state. -/
def compiledRulesOf (expanded : Finished) (state : Bytes) : List (CompiledRule CompiledGrammar) :=
  ((expanded.find? state).getD []).map PlacedRule.compiled

/-- The compiled form of one of the grammar's own states. -/
def ownState (entry : Bytes × List PlacedRule) : CompiledState CompiledGrammar :=
  ⟨entry.1, entry.2.map PlacedRule.compiled⟩

/-- The combined state of `members`. -/
def combinedState (expanded : Finished) (members : List Bytes) : CompiledState CompiledGrammar :=
  ⟨combinedName members, members.flatMap (compiledRulesOf expanded)⟩

theorem compiledStates_eq (expanded : Finished) :
    compiledStates expanded = expanded.entries.map ownState ++
      (combinationsOf (placedRules expanded)).map (combinedState expanded) := rfl

namespace Walked

variable {w : Walk}

theorem contains_eq (h : g.Walked library w) (state : Bytes) :
    w.finished.contains state = g.hasState state := by
  rw [Bool.eq_iff_iff, ← ByteMap.mem_keys_iff, h.keys_eq, ByteMap.mem_keys_iff, hasState]

/-- Every placed rule is a rule of the grammar that has passed its check. -/
theorem exists_ruleAt (h : g.Walked library w) {p : PlacedRule} (hp : p ∈ placedRules w.finished) :
    ∃ state i r, g.RuleAt state i r ∧ g.Placed w.cache state i r p := by
  obtain ⟨rules, hrules, hp⟩ := List.mem_flatten.1 hp
  obtain ⟨⟨state, rules'⟩, hmem, rfl⟩ := List.mem_map.1 hrules
  obtain ⟨entries, hfind, hexpands⟩ :=
    h.sound.finished state rules' (ByteMap.find?_eq_some_iff.2 hmem)
  exact hexpands.exists_ruleAt (by rw [List.drop_zero, entries_eq hfind]) hp

/-- The rules of a declared state are placed. -/
theorem mem_placedRules {state : Bytes} {rules : List PlacedRule}
    (hfind : w.finished.find? state = some rules) {p : PlacedRule} (hp : p ∈ rules) :
    p ∈ placedRules w.finished :=
  List.mem_flatten.2 ⟨rules, List.mem_map.2 ⟨(state, rules), ByteMap.find?_eq_some_iff.1 hfind,
    rfl⟩, hp⟩

/-- Every rule of the grammar is placed. -/
theorem exists_placed (h : g.Walked library w) {state : Bytes} {i : Nat} {r : Rule}
    (hr : g.RuleAt state i r) : ∃ p ∈ placedRules w.finished, p.rule = r := by
  obtain ⟨entries, hentries, hmem⟩ := hr.exists_entries
  have hdeclared : g.hasState state = true := ByteMap.contains_iff.2 ⟨entries, hentries⟩
  obtain ⟨rules, hfind⟩ := ByteMap.contains_iff.1 ((h.contains_eq state).trans hdeclared)
  obtain ⟨entries', hentries', hexpands⟩ := h.sound.finished state rules hfind
  obtain rfl := Option.some.inj (hentries'.symm.trans hentries)
  obtain ⟨j, p, hp, -, shared, -, rfl⟩ := hexpands.exists_item hmem
  exact ⟨_, mem_placedRules hfind hp, rfl⟩

/-- The combined states are those that the grammar pushes. -/
theorem mem_combinationsOf (h : g.Walked library w) {members : List Bytes} :
    members ∈ combinationsOf (placedRules w.finished) ↔ g.Pushes members := by
  have hmember : ∀ t : Transition, t.members? = some members ↔ t = .pushCombined members := by
    intro t
    cases t <;> simp [Transition.members?]
  rw [combinationsOf, List.mem_eraseDups, List.mem_flatMap]
  simp only [List.mem_filterMap, hmember, exists_eq_right]
  constructor
  · rintro ⟨p, hp, hpush⟩
    obtain ⟨state, i, r, hr, -, shared, -, rfl⟩ := h.exists_ruleAt hp
    exact ⟨state, i, r, hr, hpush⟩
  · rintro ⟨state, i, r, hr, hpush⟩
    obtain ⟨p, hp, rfl⟩ := h.exists_placed hr
    exact ⟨p, hp, hpush⟩

/-- Every rule of the grammar has passed its check. -/
theorem admits (h : g.Walked library w) {state : Bytes} {i : Nat} {r : Rule}
    (hr : g.RuleAt state i r) : g.AdmitsRule r := by
  obtain ⟨p, hp, rfl⟩ := h.exists_placed hr
  obtain ⟨state', j, r, -, hadmits, shared, -, rfl⟩ := h.exists_ruleAt hp
  exact hadmits

/-- The members of a combined state are declared and its name is free. -/
theorem admits_pushCombined (h : g.Walked library w) {members : List Bytes}
    (hm : g.Pushes members) :
    (∀ m ∈ members, g.hasState m = true) ∧ g.hasState (combinedName members) = false := by
  obtain ⟨state, i, r, hr, hpush⟩ := hm
  exact (h.admits hr).transitions _ hpush

/-- The compiled states: the grammar's own ones and those its rules combine. -/
theorem mem_compiledStates (h : g.Walked library w) {s : CompiledState CompiledGrammar} :
    s ∈ compiledStates w.finished ↔
      (∃ state rules, w.finished.find? state = some rules ∧ s = ownState (state, rules)) ∨
        ∃ members, g.Pushes members ∧ s = combinedState w.finished members := by
  rw [compiledStates_eq, List.mem_append, List.mem_map, List.mem_map]
  refine or_congr ?_ ?_
  · constructor
    · rintro ⟨⟨state, rules⟩, hmem, rfl⟩
      exact ⟨state, rules, ByteMap.find?_eq_some_iff.2 hmem, rfl⟩
    · rintro ⟨state, rules, hfind, rfl⟩
      exact ⟨(state, rules), ByteMap.find?_eq_some_iff.1 hfind, rfl⟩
  · constructor
    · rintro ⟨members, hmem, rfl⟩
      exact ⟨members, h.mem_combinationsOf.1 hmem, rfl⟩
    · rintro ⟨members, hpush, rfl⟩
      exact ⟨members, h.mem_combinationsOf.2 hpush, rfl⟩

/-- Every compiled rule, in whatever state, is the compiled form of a placed one. -/
theorem exists_placed_of_mem (h : g.Walked library w) {s : CompiledState CompiledGrammar}
    (hs : s ∈ compiledStates w.finished) {r : CompiledRule CompiledGrammar} (hr : r ∈ s.rules) :
    ∃ p ∈ placedRules w.finished, r = p.compiled := by
  have hrules : ∀ state rules, w.finished.find? state = some rules →
      r ∈ rules.map PlacedRule.compiled →
      ∃ p ∈ placedRules w.finished, r = p.compiled := by
    intro state rules hfind hr
    obtain ⟨p, hp, rfl⟩ := List.mem_map.1 hr
    exact ⟨p, mem_placedRules hfind hp, rfl⟩
  rcases h.mem_compiledStates.1 hs with ⟨state, rules, hfind, rfl⟩ | ⟨members, -, rfl⟩
  · exact hrules state rules hfind hr
  · -- a combined state has copies of its members' rules
    obtain ⟨m, -, hr⟩ := List.mem_flatMap.1 hr
    rw [compiledRulesOf] at hr
    cases hfind : w.finished.find? m with
    | none =>
      rw [hfind] at hr
      exact absurd hr List.not_mem_nil
    | some rules =>
      rw [hfind] at hr
      exact hrules m rules hfind hr

/-- A declared state is found among the grammar's own ones. -/
theorem find?_declared (h : g.Walked library w) {state : Bytes} (hs : g.hasState state = true) :
    (compiledStates w.finished).find? (fun s => s.name == state) =
      some ⟨state, compiledRulesOf w.finished state⟩ := by
  obtain ⟨rules, hfind⟩ := ByteMap.contains_iff.1 ((h.contains_eq state).trans hs)
  rw [compiledStates_eq, List.find?_append, List.find?_map, compiledRulesOf]
  have hentry : w.finished.entries.find? ((fun s => s.name == state) ∘ ownState) =
      some (state, rules) := ByteMap.find?_entries hfind
  rw [hentry, hfind]
  rfl

/-- A name that is free among the declared states is found among the combined ones: the first
member list of that name decides. -/
theorem find?_combined (h : g.Walked library w) {members : List Bytes} (hm : g.Pushes members) :
    ∃ first, g.Pushes first ∧ combinedName first = combinedName members ∧
      (compiledStates w.finished).find? (fun s => s.name == combinedName members) =
        some (combinedState w.finished first) := by
  have hfree : w.finished.entries.find?
      ((fun s => s.name == combinedName members) ∘ ownState) = none := by
    refine List.find?_eq_none.2 fun ⟨state, rules⟩ hmem heq => ?_
    have hdeclared : g.hasState state = true := by
      rw [← h.contains_eq]
      exact ByteMap.contains_iff.2 ⟨rules, ByteMap.find?_eq_some_iff.2 hmem⟩
    rw [show state = combinedName members from beq_iff_eq.1 heq,
      (h.admits_pushCombined hm).2] at hdeclared
    cases hdeclared
  -- several lists may join to the name; the search stops at the first of them
  have hsome : ((combinationsOf (placedRules w.finished)).find?
      ((fun s => s.name == combinedName members) ∘ combinedState w.finished)).isSome := by
    exact List.find?_isSome.2 ⟨members, h.mem_combinationsOf.2 hm, beq_self_eq_true _⟩
  obtain ⟨first, hfirst⟩ := Option.isSome_iff_exists.1 hsome
  refine ⟨first, h.mem_combinationsOf.1 (List.mem_of_find?_eq_some hfirst),
    beq_iff_eq.1 (List.find?_some hfirst :), ?_⟩
  rw [compiledStates_eq, List.find?_append, List.find?_map, List.find?_map, hfree, hfirst]
  rfl

end Walked

end Grammar

end StackLexer
