import StackLexer.Proofs.Bytes
import StackLexer.Proofs.Compilation
import StackLexer.Regex.Engine

/-!
# Combined states

A combined state should have the rules of its members, in order. It is found by its name, and the
name joins the members with commas, so lists that join to the same text share one state: that of
the list met first.

* `Grammar.Walked.rulesOf_combined` — the state that a name resolves to has the rules of some list
  in use with that name;
* `combinedName_inj` — lists of members without commas have different names;
* `Grammar.combined_rules_iff` — every combined state has the rules of its members exactly when no
  two lists in use have the same name and different rules. Where no state name has a comma, that is
  always so.
-/

namespace StackLexer

/-- Without commas in them, the members can be read off the name. -/
theorem combinedName_inj {xs ys : List Bytes} (hx : xs ≠ []) (hy : ys ≠ [])
    (hxs : ∀ x ∈ xs, (44 : UInt8) ∉ x) (hys : ∀ y ∈ ys, (44 : UInt8) ∉ y)
    (h : combinedName xs = combinedName ys) : xs = ys := by
  have hjoined : (bytes ",").intercalate xs = (bytes ",").intercalate ys := by
    rw [combinedName, combinedName, List.append_assoc, List.append_assoc] at h
    exact List.append_cancel_right (List.append_cancel_left h)
  -- cutting both joined texts at the commas gives the members back
  have hcomma : bytes "," = [44] := by decide +kernel
  rw [hcomma] at hjoined
  rw [← Bytes.pieces_intercalate hx hxs, hjoined, Bytes.pieces_intercalate hy hys]

namespace Grammar

variable {library : Library} {g : Grammar}

namespace Walked

variable {w : Walk}

/-- The rules of a declared state are those of its expansion. -/
theorem rulesOf_declared (h : g.Walked library w) {c : CompiledGrammar}
    (hc : c.states = compiledStates w.finished) {state : Bytes} (hs : g.hasState state = true) :
    c.rulesOf state = compiledRulesOf w.finished state := by
  rw [CompiledGrammar.rulesOf, CompiledGrammar.stateNamed?_eq_find?, hc, h.find?_declared hs]
  rfl

/-- A combined state is defined, and has the rules of the members of some list in use that joins
to its name. -/
theorem rulesOf_combined (h : g.Walked library w) {c : CompiledGrammar}
    (hc : c.states = compiledStates w.finished) {members : List Bytes} (hm : g.Pushes members) :
    ∃ first, g.Pushes first ∧ combinedName first = combinedName members ∧
      c.stateNamed? (combinedName members) =
        some ⟨combinedName members, first.flatMap c.rulesOf⟩ := by
  obtain ⟨first, hfirst, hname, hfind⟩ := h.find?_combined hm
  refine ⟨first, hfirst, hname, ?_⟩
  have hrules : first.flatMap (compiledRulesOf w.finished) = first.flatMap c.rulesOf := by
    rw [List.flatMap_def, List.flatMap_def]
    refine congrArg List.flatten (List.map_congr_left fun m hmem => ?_)
    exact (h.rulesOf_declared hc ((h.admits_pushCombined hfirst).1 m hmem)).symm
  rw [CompiledGrammar.stateNamed?_eq_find?, hc, hfind, combinedState, hname, hrules]

end Walked

/-- Every combined state that a compiled grammar pushes resolves, to the state of a list in use
with the same name. -/
theorem exists_combined {c : CompiledGrammar} (h : g.compile library = .ok c) {members : List Bytes}
    (hm : g.Pushes members) :
    c.hasState (combinedName members) = true ∧
      ∃ first, g.Pushes first ∧ combinedName first = combinedName members ∧
        c.rulesOf (combinedName members) = first.flatMap c.rulesOf := by
  obtain ⟨-, w, hw, hc⟩ := compile_eq_ok h
  have hstates : c.states = compiledStates w.finished := by rw [hc, CompiledGrammar.ofStates]
  obtain ⟨first, hfirst, hname, hstate⟩ := hw.rulesOf_combined hstates hm
  refine ⟨?_, first, hfirst, hname, ?_⟩
  · rw [CompiledGrammar.stateNamed?_eq_find?] at hstate
    exact CompiledGrammar.hasState_iff.2 ⟨_, List.mem_of_find?_eq_some hstate, rfl⟩
  · rw [CompiledGrammar.rulesOf, hstate]
    rfl

/-- **When combined states mean what they list.** The name of a combined state always resolves.
The state has the rules of the listed members, for every list in use, exactly when lists in use
with the same name have the same rules; and they do where every list has a member and no member a
comma in its name. -/
theorem combined_rules_iff {library : Library} {g : Grammar} {c : CompiledGrammar}
    (h : g.compile library = .ok c) :
    (∀ members, g.Pushes members → c.hasState (combinedName members) = true) ∧
    ((∀ members, g.Pushes members →
        c.rulesOf (combinedName members) = members.flatMap c.rulesOf) ↔
      ∀ members others, g.Pushes members → g.Pushes others →
        combinedName members = combinedName others →
        members.flatMap c.rulesOf = others.flatMap c.rulesOf) ∧
    ((∀ members, g.Pushes members → members ≠ [] ∧ ∀ m ∈ members, (44 : UInt8) ∉ m) →
      ∀ members, g.Pushes members →
        c.rulesOf (combinedName members) = members.flatMap c.rulesOf) := by
  refine ⟨fun members hm => (exists_combined h hm).1, ⟨?_, ?_⟩, ?_⟩
  · intro hall members others hm ho hname
    rw [← hall members hm, hname, hall others ho]
  · intro hsame members hm
    obtain ⟨-, first, hfirst, hname, hrules⟩ := exists_combined h hm
    rw [hrules, hsame first members hfirst hm hname]
  · intro hplain members hm
    obtain ⟨-, first, hfirst, hname, hrules⟩ := exists_combined h hm
    obtain ⟨hne, hcomma⟩ := hplain members hm
    obtain ⟨hne', hcomma'⟩ := hplain first hfirst
    rw [hrules, combinedName_inj hne' hne hcomma' hcomma hname]

/-- A grammar that combines two states, in either order. -/
def pairing : Grammar where
  name := bytes "pairing"
  aliases := []
  ignoreCase := false
  states := .ofList [
    (bytes "root", [
      .rule ⟨bytes "x", .emit none, [.pushCombined [bytes "a", bytes "b"]]⟩,
      .rule ⟨bytes "y", .emit none, [.pushCombined [bytes "b", bytes "a"]]⟩]),
    (bytes "a", [.rule ⟨bytes "1", .emit none, []⟩]),
    (bytes "b", [.rule ⟨bytes "2", .emit none, []⟩])]
  heuristic := none

/-- No name of it has a comma, so its combined states have the rules of their members. -/
theorem combined_rules_pairing : ∃ c, pairing.compile Regex.backtracking = .ok c ∧
    ∀ members, pairing.Pushes members →
      c.rulesOf (combinedName members) = members.flatMap c.rulesOf := by
  have hchecked : (pairing.states.entries.all fun entry => entry.2.all fun
      | .rule r => (r.transitions.filterMap Transition.members?).all fun members =>
          !members.isEmpty && members.all fun m => !m.contains 44
      | .inclusion _ => true) = true := by rfl
  have hplain : ∀ members, pairing.Pushes members →
      members ≠ [] ∧ ∀ m ∈ members, (44 : UInt8) ∉ m := by
    rintro members ⟨state, i, r, hr, hpush⟩
    have hmembers := List.all_eq_true.1 (hr.check hchecked) members
      (List.mem_filterMap.2 ⟨_, hpush, rfl⟩)
    simpa using hmembers
  obtain ⟨c, hc⟩ := Outcome.exists_of_isOk (x := pairing.compile Regex.backtracking) rfl
  exact ⟨c, hc, (combined_rules_iff hc).2.2 hplain⟩

/-- A grammar in which two lists of members join to one name. -/
def clashing : Grammar where
  name := bytes "clashing"
  aliases := []
  ignoreCase := false
  states := .ofList [
    (bytes "root", [
      .rule ⟨bytes "x", .emit none, [.pushCombined [bytes "a", bytes "b"]]⟩,
      .rule ⟨bytes "y", .emit none, [.pushCombined [bytes "a,b"]]⟩]),
    (bytes "a", [.rule ⟨bytes "1", .emit none, []⟩]),
    (bytes "b", [.rule ⟨bytes "2", .emit none, []⟩]),
    (bytes "a,b", [.rule ⟨bytes "3", .emit none, []⟩])]
  heuristic := none

/-- The state pushed for the list met second has the rules of the list met first. -/
theorem clashing_rules : ∃ c, clashing.compile Regex.backtracking = .ok c ∧
    clashing.Pushes [bytes "a,b"] ∧
    c.rulesOf (combinedName [bytes "a,b"]) ≠ [bytes "a,b"].flatMap c.rulesOf := by
  have hpatterns : (clashing.compile Regex.backtracking).map (fun c =>
      ((c.rulesOf (combinedName [bytes "a,b"])).map (·.pattern),
        ([bytes "a,b"].flatMap c.rulesOf).map (·.pattern))) =
      .ok ([bytes "1", bytes "2"], [bytes "3"]) := by rfl
  obtain ⟨c, hc⟩ := Outcome.exists_of_isOk (x := clashing.compile Regex.backtracking) rfl
  refine ⟨c, hc, ⟨bytes "root", 1, _, by rfl, List.mem_singleton.2 rfl⟩, fun heq => ?_⟩
  rw [hc, Except.map, Except.ok.injEq, Prod.mk.injEq, heq] at hpatterns
  exact absurd (hpatterns.1.symm.trans hpatterns.2) (by decide +kernel)

end Grammar

end StackLexer
