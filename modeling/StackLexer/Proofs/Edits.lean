import StackLexer.Grammar.Compile
import StackLexer.Proofs.ByteMap
import StackLexer.Proofs.DirectiveLanguage
import StackLexer.Regex.Engine

/-!
# Edits that are refused

A grammar is put together by edits, and an edit is refused when it has a directive that cannot be
read. Whoever goes on after that relies on the grammar being as it was. This hangs on what comes
first, reading the directive or looking up the state, since a state that has been looked up is
declared from then on; and to compilation a state without entries is as good as any other.

* `Edit.Writes` — the entry an edit is to append;
* `Grammar.Edited` — the three ways an edit can go. `Grammar.edited` says that there are no others;
* `Grammar.SetsState` — the entries of one state are set, and nothing else changes;
* `Grammar.Atomic` — all or nothing: the edit appends one entry, or the grammar is as it was;
* `Grammar.edit_atomic_iff` — this is so for all edits but one kind: a rule that only moves, in a
  state that is not declared, with a directive that cannot be read. The state stays behind, and
  `Grammar.refused_edit_declares` has a grammar that can be compiled only because of it.
-/

namespace StackLexer

namespace Edit

/-- The directive that has to be read, if there is one. -/
def directive? : Edit → Option Bytes
  | .rule _ _ (.written directive) => some directive
  | .moving directive => some directive
  | _ => none

/-- The entry that an edit is to append. -/
inductive Writes : Edit → Entry → Prop
  /-- a rule with the transitions meant -/
  | rule {pattern : Bytes} {emission : Emission CompiledGrammar} {moves : Moves}
      {transitions : List Transition} (h : moves.read = .ok transitions) :
      Writes (.rule pattern emission moves) (.rule ⟨pattern, emission, transitions⟩)
  /-- an inclusion -/
  | inclusion (target : Bytes) : Writes (.inclusion target) (.inclusion target)
  /-- a rule that matches nothing -/
  | moving {directive : Bytes} {transitions : List Transition}
      (h : Directive.parse directive = .ok transitions) :
      Writes (.moving directive) (.rule ⟨[], .emit none, transitions⟩)

end Edit

namespace Grammar

variable {g g' : Grammar} {state : Bytes} {e : Edit} {fault : Option LexerError}

/-! ## One state at a time -/

/-- A grammar that differs from `g` at most in what `state` has, which is `entries`. -/
structure SetsState (g : Grammar) (state : Bytes) (entries : List Entry) (g' : Grammar) : Prop where
  /-- the entries of the state -/
  here : g'.states.find? state = some entries
  /-- all other states are there or not as before, with the entries they had -/
  elsewhere : ∀ other, other ≠ state → g'.states.find? other = g.states.find? other
  /-- the name, the aliases and so on are as before -/
  apart : { g' with states := g.states } = g

theorem setsState_insert (g : Grammar) (state : Bytes) (entries : List Entry) :
    g.SetsState state entries { g with states := g.states.insert state entries } := by
  refine ⟨by simp, fun other hother => ?_, rfl⟩
  simp [hother]

/-- Declaring a state changes nothing exactly when it is declared. -/
theorem declare_eq_self_iff : g.declare state = g ↔ g.hasState state = true := by
  refine ⟨fun h => ?_, fun h => ?_⟩
  · rw [← h, declare, hasState]
    simp
  · obtain ⟨found, hfound⟩ := ByteMap.contains_iff.1 h
    rw [declare, entries, hfound, Option.getD_some, ByteMap.insert_of_find? hfound]

/-- A state that was not declared has no entries afterwards. -/
theorem setsState_declare (h : g.hasState state = false) :
    g.SetsState state [] (g.declare state) := by
  have hnone : g.states.find? state = none := by simpa [hasState, ByteMap.contains] using h
  have hentries : g.entries state = [] := by rw [entries, hnone, Option.getD_none]
  rw [declare, hentries]
  exact g.setsState_insert state []

/-! ## One edit -/

/-- What an edit can do: the grammar it leaves behind and the fault it reports. -/
inductive Edited (g : Grammar) (state : Bytes) (e : Edit) : Grammar → Option LexerError → Prop
  /-- the entry is appended -/
  | appended {entry : Entry} (hentry : e.Writes entry) :
      Edited g state e (g.append state entry) none
  /-- a rule is refused before its state is looked up -/
  | kept {directive : Bytes} (hdirective : e.directive? = some directive)
      (hrule : ∀ d, e ≠ .moving d)
      (hrefused : Directive.parse directive = .error (.invalidDirective directive)) :
      Edited g state e g (some (.invalidDirective directive))
  /-- a rule that only moves is refused afterwards -/
  | declared {directive : Bytes} (hmoving : e = .moving directive)
      (hrefused : Directive.parse directive = .error (.invalidDirective directive)) :
      Edited g state e (g.declare state) (some (.invalidDirective directive))

/-- **Inversion.** An edit goes one of three ways. -/
theorem edited (h : g.edit state e = (g', fault)) : Edited g state e g' fault := by
  cases e with
  | rule pattern emission moves =>
    cases hread : moves.read with
    | ok transitions =>
      simp only [edit, hread] at h
      cases h
      exact .appended (.rule hread)
    | error found =>
      cases moves with
      | given transitions => cases hread
      | written directive =>
        obtain rfl := Directive.eq_invalidDirective_of_parseWith hread
        simp only [edit, hread] at h
        cases h
        exact .kept rfl (by simp) hread
  | inclusion target =>
    cases h
    exact .appended (.inclusion target)
  | moving directive =>
    cases hread : Directive.parse directive with
    | ok transitions =>
      simp only [edit, hread] at h
      cases h
      exact .appended (.moving hread)
    | error found =>
      obtain rfl := Directive.eq_invalidDirective_of_parseWith hread
      simp only [edit, hread] at h
      cases h
      exact .declared rfl hread

/-- An edit with an entry to append appends it. -/
theorem edit_of_writes {entry : Entry} (h : e.Writes entry) :
    g.edit state e = (g.append state entry, none) := by
  cases h with
  | rule hread => simp only [edit, hread]
  | inclusion target => rfl
  | moving hread =>
    simp only [edit, hread]
    rfl

/-- A rule that only moves leaves its state behind when its directive cannot be read. -/
theorem edit_moving_of_refused {directive : Bytes}
    (h : Directive.parse directive = .error (.invalidDirective directive)) :
    g.edit state (.moving directive) = (g.declare state, some (.invalidDirective directive)) := by
  simp only [edit, h]

/-- An edit without an entry to append is refused. The grammar is as it was, or a state is left
behind that was not declared. -/
theorem exists_refusal (h : ¬∃ entry, e.Writes entry) :
    ∃ g' directive, e.directive? = some directive ∧
      g.edit state e = (g', some (.invalidDirective directive)) ∧
      (g' = g ∨ g.hasState state = false ∧ g.SetsState state [] g') := by
  obtain ⟨g', fault, hedit⟩ : ∃ g' fault, g.edit state e = (g', fault) := ⟨_, _, rfl⟩
  cases edited hedit with
  | appended hentry => exact absurd ⟨_, hentry⟩ h
  | kept hdirective => exact ⟨_, _, hdirective, hedit, .inl rfl⟩
  | declared hmoving =>
    refine ⟨_, _, by rw [hmoving]; rfl, hedit, ?_⟩
    cases hstate : g.hasState state with
    | true => exact .inl (declare_eq_self_iff.2 hstate)
    | false => exact .inr ⟨rfl, setsState_declare hstate⟩

/-! ## All or nothing -/

/-- An edit that is refused changes nothing, and one that is not appends one entry to its state and
changes nothing else. -/
structure Atomic (g : Grammar) (state : Bytes) (e : Edit) : Prop where
  /-- refused -/
  refused : ∀ g' directive, g.edit state e = (g', some (.invalidDirective directive)) → g' = g
  /-- made -/
  made : ∀ g', g.edit state e = (g', none) →
    ∃ entry, g.SetsState state (g.entries state ++ [entry]) g'

/-- An edit that would leave a state behind is not all or nothing. -/
theorem not_atomic_of_declares {directive : Bytes} (hstate : g.hasState state = false)
    (hrefused : Directive.parse directive = .error (.invalidDirective directive)) :
    ¬g.Atomic state (.moving directive) := by
  intro hatomic
  have hsame := hatomic.refused _ _ (edit_moving_of_refused hrefused)
  rw [declare_eq_self_iff, hstate] at hsame
  cases hsame

/-- **When edits are all or nothing.** An edit of a state is all or nothing unless it is a rule that
only moves, with a directive that cannot be read, and the state is not declared. Whatever the edit,
if it has an entry to append, then it appends this entry to the state and changes nothing else.
Otherwise it is refused for its directive, and either the grammar is as it was or the state, which
was not declared, is declared without entries and nothing else changes. -/
theorem edit_atomic_iff (g : Grammar) (state : Bytes) (e : Edit) :
    (g.Atomic state e ↔ ¬∃ directive, e = .moving directive ∧ g.hasState state = false ∧
      Directive.parse directive = .error (.invalidDirective directive)) ∧
    (∀ entry, e.Writes entry → ∃ g', g.edit state e = (g', none) ∧
      g.SetsState state (g.entries state ++ [entry]) g') ∧
    ((¬∃ entry, e.Writes entry) → ∃ g' directive, e.directive? = some directive ∧
      g.edit state e = (g', some (.invalidDirective directive)) ∧
      (g' = g ∨ g.hasState state = false ∧ g.SetsState state [] g')) := by
  refine ⟨⟨?_, fun h => ⟨fun g' directive hedit => ?_, fun g' hedit => ?_⟩⟩,
    fun entry hentry => ⟨_, edit_of_writes hentry, g.setsState_insert state _⟩, exists_refusal⟩
  · rintro hatomic ⟨directive, rfl, hstate, hrefused⟩
    exact not_atomic_of_declares hstate hrefused hatomic
  · cases edited hedit with
    | kept => rfl
    | declared hmoving hrefused =>
      rw [declare_eq_self_iff, ← Bool.not_eq_false]
      exact fun hstate => h ⟨_, hmoving, hstate, hrefused⟩
  · cases edited hedit with
    | @appended entry => exact ⟨entry, g.setsState_insert state _⟩

/-- A grammar whose only rule pushes a state that is not declared. -/
def pointing : Grammar where
  name := bytes "pointing"
  aliases := []
  ignoreCase := false
  states := .ofList [
    (rootState, [.rule ⟨bytes "x", .emit (some (.intern (bytes "Name"))), [.push (bytes "a")]⟩])]
  heuristic := none

/-- A rule with that directive leaves nothing behind. -/
theorem edit_atomic_pointing :
    pointing.hasState (bytes "a") = false ∧
    pointing.Atomic (bytes "a") (.rule (bytes "y") (.emit none) (.written (bytes "#nope"))) ∧
    pointing.edit (bytes "a") (.rule (bytes "y") (.emit none) (.written (bytes "#nope"))) =
      (pointing, some (.invalidDirective (bytes "#nope"))) := by
  refine ⟨by decide +kernel, ?_, ?_⟩
  · refine (edit_atomic_iff _ _ _).1.2 ?_
    rintro ⟨directive, hmoving, -⟩
    cases hmoving
  · rfl

/-- A rule that only moves leaves the state behind, and now the grammar can be compiled. -/
theorem refused_edit_declares :
    ¬pointing.Atomic (bytes "a") (.moving (bytes "#nope")) ∧
    pointing.compile Regex.backtracking =
      .error (.unknownState (bytes "a") ⟨bytes "pointing", rootState, 0⟩) ∧
    ∃ c, (pointing.edit (bytes "a") (.moving (bytes "#nope"))).1.compile Regex.backtracking =
      .ok c := by
  refine ⟨not_atomic_of_declares ?_ ?_, rfl, Outcome.exists_of_isOk rfl⟩
  · decide +kernel
  · decide +kernel

end Grammar

end StackLexer
