import StackLexer.CompiledGrammar

/-!
# Looking up states

A name resolves to the first state of that name. The position found by
`CompiledGrammar.stateIndex?` and the state standing there are two views of the same look-up; the
second one is `CompiledGrammar.stateNamed?`.
-/

namespace StackLexer.CompiledGrammar

variable {g : CompiledGrammar} {name : Bytes}

/-- The state that a name resolves to. -/
def stateNamed? (g : CompiledGrammar) (name : Bytes) : Option (CompiledState CompiledGrammar) :=
  (g.stateIndex? name).bind fun i => g.states[i]?

/-- The rules of the state that a name resolves to. -/
def rulesOf (g : CompiledGrammar) (name : Bytes) : List (CompiledRule CompiledGrammar) :=
  (g.stateNamed? name).elim [] (·.rules)

/-- At the position of a name stands a state of that name. -/
theorem exists_of_stateIndex? {i : Nat} (h : g.stateIndex? name = some i) :
    ∃ state, g.states[i]? = some state ∧ state.name = name := by
  obtain ⟨hi, hname, -⟩ := List.findIdx?_eq_some_iff_getElem.1 h
  exact ⟨g.states[i], List.getElem?_eq_getElem hi, beq_iff_eq.1 hname⟩

/-- A state is defined when one of the states has its name. -/
theorem hasState_iff : g.hasState name = true ↔ ∃ state ∈ g.states, state.name = name := by
  rw [hasState, stateIndex?, List.findIdx?_isSome, List.any_eq_true]
  simp only [beq_iff_eq]

/-- The position of the first state of a name is where that state is found. -/
theorem stateNamed?_eq_find? (g : CompiledGrammar) (name : Bytes) :
    g.stateNamed? name = g.states.find? fun s => s.name == name := by
  rw [stateNamed?, stateIndex?]
  induction g.states with
  | nil => rfl
  | cons s rest ih =>
    rw [List.findIdx?_cons, List.find?_cons]
    cases hs : s.name == name with
    | true => rfl
    | false =>
      rw [← ih]
      cases List.findIdx? (fun s => s.name == name) rest <;> rfl

end StackLexer.CompiledGrammar
