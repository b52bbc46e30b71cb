import Mathlib.Data.List.Chain
import StackLexer.Proofs.WellFormed
import StackLexer.Regex.Engine

/-!
# What a refusal says

Compilation refuses a grammar at the first fault it meets, which may be many inclusions away from
the state it set out from. The error carries a location and, for a cycle, the states on it; both are
taken from where the walk happens to be. They are right wherever that is.

* `Grammar.Truthful` — what an error says about a grammar, in terms of the entries as declared;
* `Grammar.Trail` — the invariant of the walk: the open states are a way of inclusions, and the
  last of them names the state about to be expanded at the location passed along.
  `Grammar.Trail.extend` keeps it from one level to the next, and `Grammar.Trail.closesCycle` reads
  a cycle off it when a state is met again;
* `Grammar.truthful_of_expandState` — the run of the walk, to any depth. Finished states play no
  part in it: looking one up does not fail;
* `Grammar.refusals_are_truthful` — the errors of compilation.
-/

namespace StackLexer

/-- The entry names `state`. The last argument is the grammar in which that state has to exist,
`none` for the one the entry belongs to. -/
inductive Entry.Names : Entry → Bytes → Option CompiledGrammar → Prop
  /-- an inclusion names the state it includes -/
  | inclusion (state : Bytes) : Names (.inclusion state) state none
  /-- a rule names the state it puts on top -/
  | push {r : Rule} {state : Bytes} (h : .push state ∈ r.transitions) :
      Names (.rule r) state none
  /-- a rule names the state it goes to -/
  | goto {r : Rule} {state : Bytes} (h : .goto state ∈ r.transitions) :
      Names (.rule r) state none
  /-- a rule names the members of a combined state -/
  | member {r : Rule} {members : List Bytes} {state : Bytes}
      (h : .pushCombined members ∈ r.transitions) (hstate : state ∈ members) :
      Names (.rule r) state none
  /-- a rule names the states its delegates start in; an empty name stands for the root state -/
  | start {r : Rule} {d : Delegate CompiledGrammar} (h : d ∈ r.emission.delegates)
      (hstate : d.state ≠ []) : Names (.rule r) d.state d.target

namespace Grammar

variable {library : Library} {g : Grammar} {e : LexerError}

/-- A cycle of inclusions, with the location of the inclusion that closes it. -/
structure ClosesCycle (g : Grammar) (cycle : List Bytes) (location : Location) : Prop where
  /-- there is at least one inclusion -/
  two_le : 2 ≤ cycle.length
  /-- the cycle ends where it began -/
  closed : cycle.head? = cycle.getLast?
  /-- and visits no state twice before that -/
  nodup : cycle.dropLast.Nodup
  /-- each state includes the next -/
  linked : cycle.IsChain g.Includes
  /-- the location is that of the last inclusion -/
  located : ∃ state target, ∃ i : Nat, [state, target] <:+ cycle ∧
    (g.entries state)[i]? = some (.inclusion target) ∧ location = ⟨g.name, state, i⟩

/-- What an error says about a grammar is so. An error that has nothing to do with compiling one is
never so. -/
def Truthful (library : Library) (g : Grammar) : LexerError → Prop
  | .unknownState missing location =>
    (missing = rootState ∧ g.hasState rootState = false ∧ location = .ofGrammar g.name) ∨
    ∃ state, ∃ i : Nat, ∃ entry home, (g.entries state)[i]? = some entry ∧
      Entry.Names entry missing home ∧
      (home.elim g.hasState CompiledGrammar.hasState) missing = false ∧
      location = ⟨home.elim g.name CompiledGrammar.name, state, i⟩
  | .invalidPattern pattern reason location =>
    ∃ state i r, g.RuleAt state i r ∧ r.pattern = pattern ∧
      library.read g.ignoreCase pattern = .error reason ∧ location = ⟨g.name, state, i⟩
  | .stateNameClash name location =>
    ∃ state i r members, g.RuleAt state i r ∧ .pushCombined members ∈ r.transitions ∧
      combinedName members = name ∧ g.hasState name = true ∧ location = ⟨g.name, state, i⟩
  | .includeCycle cycle location => g.ClosesCycle cycle location
  | _ => False

/-! ## Failed checks -/

section Checks

variable {state : Bytes} {i : Nat} {r : Rule}

theorem truthful_of_checkTarget {entry : Entry} {target : Bytes}
    (hentry : (g.entries state)[i]? = some entry) (hnames : entry.Names target none)
    (h : g.checkTarget ⟨g.name, state, i⟩ target = .error e) : g.Truthful library e := by
  rw [checkTarget] at h
  split at h
  · cases h
  · next hmissing =>
    cases h
    exact Or.inr ⟨state, i, entry, none, hentry, hnames, Bool.eq_false_iff.2 hmissing, rfl⟩

theorem truthful_of_checkTransition {t : Transition} (hr : g.RuleAt state i r)
    (ht : t ∈ r.transitions) (h : g.checkTransition ⟨g.name, state, i⟩ t = .error e) :
    g.Truthful library e := by
  cases t with
  | push target => exact truthful_of_checkTarget hr (.push ht) h
  | goto target => exact truthful_of_checkTarget hr (.goto ht) h
  | pop count => cases h
  | pushSame => cases h
  | pushCombined members =>
    rcases Outcome.bind_eq_error.1 h with h | ⟨_, -, h⟩
    · obtain ⟨m, hm, h⟩ := Outcome.exists_of_forM_eq_error h
      exact truthful_of_checkTarget hr (.member ht hm) h
    · split at h
      · next hclash =>
        cases h
        exact ⟨state, i, r, members, hr, ht, rfl, hclash, rfl⟩
      · cases h

theorem truthful_of_checkDelegate {d : Delegate CompiledGrammar} (hr : g.RuleAt state i r)
    (hd : d ∈ r.emission.delegates) (h : g.checkDelegate ⟨g.name, state, i⟩ d = .error e) :
    g.Truthful library e := by
  rw [checkDelegate] at h
  split at h
  · cases h
  · next hempty =>
    have hnames : (Entry.rule r).Names d.state d.target :=
      .start hd fun hnil => hempty (List.isEmpty_iff.2 hnil)
    split at h
    · next htarget => exact truthful_of_checkTarget hr (htarget ▸ hnames) h
    · next target htarget =>
      split at h
      · cases h
      · next hmissing =>
        cases h
        refine Or.inr ⟨state, i, .rule r, some target, hr, htarget ▸ hnames, ?_, rfl⟩
        exact Bool.eq_false_iff.2 hmissing

/-- A rule that does not pass is reported at its own place, for a reason it gives. -/
theorem truthful_of_checkRule {cache : ExpressionCache} (hr : g.RuleAt state i r)
    (h : g.checkRule library ⟨g.name, state, i⟩ r cache = .error e) : g.Truthful library e := by
  rw [checkRule] at h
  split at h
  · next reason hfetch =>
    cases h
    exact ⟨state, i, r, hr, rfl, ExpressionCache.fetch_eq_error hfetch, rfl⟩
  · rcases Outcome.bind_eq_error.1 h with h | ⟨_, -, h⟩
    · obtain ⟨t, ht, h⟩ := Outcome.exists_of_forM_eq_error h
      exact truthful_of_checkTransition hr ht h
    · rcases Outcome.bind_eq_error.1 h with h | ⟨_, -, h⟩
      · obtain ⟨d, hd, h⟩ := Outcome.exists_of_forM_eq_error h
        exact truthful_of_checkDelegate hr hd h
      · cases h

end Checks

/-! ## Failures on the way -/

/-- Entries fail because a rule among them does not pass or a state they include is refused. -/
theorem expandEntries_eq_error
    {expand : Bytes → Location → Walk → Except LexerError (List PlacedRule × Walk)}
    {state : Bytes} {i : Nat} {entries : List Entry} {w : Walk}
    (h : g.expandEntries library expand state i entries w = .error e) :
    (∃ j r cache, entries[j]? = some (.rule r) ∧
      g.checkRule library ⟨g.name, state, (i + j : Nat)⟩ r cache = .error e) ∨
    ∃ j target w', entries[j]? = some (.inclusion target) ∧
      expand target ⟨g.name, state, (i + j : Nat)⟩ w' = .error e := by
  induction entries generalizing i w with
  | nil => cases h
  | cons entry rest ih =>
    -- the entries after the first are those of the rest, one place further on
    have hrest : ∀ w, g.expandEntries library expand state (i + 1) rest w = .error e →
        (∃ j r cache, (entry :: rest)[j]? = some (.rule r) ∧
          g.checkRule library ⟨g.name, state, (i + j : Nat)⟩ r cache = .error e) ∨
        ∃ j target w', (entry :: rest)[j]? = some (.inclusion target) ∧
          expand target ⟨g.name, state, (i + j : Nat)⟩ w' = .error e := by
      intro w h
      rcases ih h with ⟨j, r, cache, hj, h⟩ | ⟨j, target, w', hj, h⟩
      · refine Or.inl ⟨j + 1, r, cache, hj, ?_⟩
        rwa [Nat.add_right_comm] at h
      · refine Or.inr ⟨j + 1, target, w', hj, ?_⟩
        rwa [Nat.add_right_comm] at h
    cases entry with
    | rule r =>
      rcases Outcome.bind_eq_error.1 h with h | ⟨fetched, -, h⟩
      · exact Or.inl ⟨0, r, w.cache, rfl, h⟩
      · rcases Outcome.bind_eq_error.1 h with h | ⟨_, -, h⟩
        · exact hrest _ h
        · cases h
    | inclusion target =>
      rcases Outcome.bind_eq_error.1 h with h | ⟨included, -, h⟩
      · exact Or.inr ⟨0, target, w, rfl, h⟩
      · rcases Outcome.bind_eq_error.1 h with h | ⟨_, -, h⟩
        · exact hrest _ h
        · cases h

/-- Why the expansion of a state fails: it is open already, it is not declared, there is no room
left, or one of its entries fails. -/
theorem expandState_eq_error {room : Nat} {chain : List Bytes} {state : Bytes}
    {location : Location} {w : Walk}
    (h : g.expandState library room chain state location w = .error e) :
    (state ∈ chain ∧ e = .includeCycle (cycleIn chain state) location) ∨
    state ∉ chain ∧
      ((g.hasState state = false ∧ e = .unknownState state location) ∨
        (g.hasState state = true ∧ room = 0) ∨
        ∃ room' entries, room = room' + 1 ∧ g.states.find? state = some entries ∧
          g.expandEntries library (g.expandState library room' (chain ++ [state])) state 0 entries
            w = .error e) := by
  unfold expandState at h
  split at h
  · cases h
  · split at h
    · next hmem =>
      cases h
      exact Or.inl ⟨hmem, rfl⟩
    · next hnot =>
      refine Or.inr ⟨hnot, ?_⟩
      split at h
      · next hfind =>
        cases h
        refine Or.inl ⟨Bool.eq_false_iff.2 fun hdeclared => ?_, rfl⟩
        obtain ⟨entries, hentries⟩ := ByteMap.contains_iff.1 hdeclared
        rw [hentries] at hfind
        cases hfind
      · next entries hfind => exact Or.inr (Or.inl ⟨ByteMap.contains_iff.2 ⟨entries, hfind⟩, rfl⟩)
      · next entries room' hfind =>
        rcases Outcome.bind_eq_error.1 h with h | ⟨_, -, h⟩
        · exact Or.inr (Or.inr ⟨room', entries, rfl, hfind, h⟩)
        · cases h

/-! ## The way to a state -/

/-- From a state on, a chain in which it is open is a cycle once it is named again. -/
theorem exists_cycleIn_eq {chain : List Bytes} {state : Bytes} (h : state ∈ chain) :
    ∃ before after, chain = before ++ state :: after ∧
      cycleIn chain state = state :: after ++ [state] := by
  induction chain with
  | nil => exact absurd h List.not_mem_nil
  | cons first rest ih =>
    by_cases hfirst : first = state
    · subst hfirst
      exact ⟨[], rest, rfl, by rw [cycleIn, List.dropWhile_cons_of_neg (by simp)]⟩
    · have hrest : state ∈ rest := (List.mem_cons.1 h).resolve_left (Ne.symm hfirst)
      obtain ⟨before, after, heq, hcycle⟩ := ih hrest
      refine ⟨first :: before, after, by rw [heq, List.cons_append], ?_⟩
      rw [cycleIn, List.dropWhile_cons_of_pos (by simpa using hfirst)]
      exact hcycle

/-- A way of inclusions through the open states to `state`, which the last of them names at
`location`. -/
structure Trail (g : Grammar) (chain : List Bytes) (state : Bytes) (location : Location) :
    Prop where
  /-- no state is open twice -/
  nodup : chain.Nodup
  /-- open states are declared -/
  declared : ∀ other ∈ chain, g.hasState other = true
  /-- each open state includes the next, the last one the state itself -/
  linked : (chain ++ [state]).IsChain g.Includes
  /-- the walk sets out from declared states -/
  outset : chain = [] → g.hasState state = true
  /-- later it is at the inclusion of the state in the last open one -/
  named : ∀ last, chain.getLast? = some last → ∃ i : Nat,
    (g.entries last)[i]? = some (.inclusion state) ∧ location = ⟨g.name, last, i⟩

namespace Trail

variable {chain : List Bytes} {state : Bytes} {location : Location}

/-- The walk sets out with no open state. -/
theorem start (h : g.hasState state = true) (location : Location) :
    g.Trail [] state location where
  nodup := List.nodup_nil
  declared _ hother := absurd hother List.not_mem_nil
  linked := List.isChain_singleton state
  outset _ := h
  named _ hlast := by cases hlast

/-- One level further down the state itself is open, and the inclusion met there names the next. -/
theorem extend (h : g.Trail chain state location) (hnot : state ∉ chain)
    (hstate : g.hasState state = true) {i : Nat} {target : Bytes}
    (hi : (g.entries state)[i]? = some (.inclusion target)) :
    g.Trail (chain ++ [state]) target ⟨g.name, state, i⟩ where
  nodup := by
    rw [← List.concat_eq_append]
    exact h.nodup.concat hnot
  declared := List.forall_mem_append.2 ⟨h.declared, List.forall_mem_singleton.2 hstate⟩
  linked := by
    have hincludes : g.Includes state target := List.mem_of_getElem? hi
    rw [List.append_assoc]
    exact List.isChain_split.2 ⟨h.linked, List.isChain_pair.2 hincludes⟩
  outset hnil := by simp at hnil
  named last hlast := by
    rw [List.getLast?_concat, Option.some.injEq] at hlast
    subst hlast
    exact ⟨i, hi, rfl⟩

/-- A state that is named but not declared is named by the last open state. -/
theorem truthful_of_missing (h : g.Trail chain state location)
    (hmissing : g.hasState state = false) :
    g.Truthful library (.unknownState state location) := by
  cases hlast : chain.getLast? with
  | none =>
    have hdeclared := h.outset (List.getLast?_eq_none_iff.1 hlast)
    rw [hmissing] at hdeclared
    cases hdeclared
  | some last =>
    obtain ⟨i, hi, rfl⟩ := h.named last hlast
    exact Or.inr ⟨last, i, .inclusion state, none, hi, .inclusion state, hmissing, rfl⟩

/-- **A state met again closes a cycle**, which is the way to it from where it was opened. -/
theorem closesCycle (h : g.Trail chain state location) (hmem : state ∈ chain) :
    g.ClosesCycle (cycleIn chain state) location := by
  obtain ⟨before, after, rfl, hcycle⟩ := exists_cycleIn_eq hmem
  rw [hcycle]
  -- the last open state is on the cycle, since the state itself is
  obtain ⟨last, hlast⟩ : ∃ last, (state :: after).getLast? = some last :=
    ⟨_, List.getLast?_eq_some_getLast (List.cons_ne_nil state after)⟩
  obtain ⟨i, hi, rfl⟩ := h.named last (by rw [List.getLast?_append, hlast, Option.some_or])
  obtain ⟨init, hinit⟩ := List.getLast?_eq_some_iff.1 hlast
  refine ⟨by simp, ?_, ?_, ?_, last, state, i, ⟨init, ?_⟩, hi, rfl⟩
  · rw [List.getLast?_concat, List.cons_append, List.head?_cons]
  · rw [List.dropLast_concat]
    exact (List.nodup_append.1 h.nodup).2.1
  · have hlinked := h.linked
    rw [List.append_assoc] at hlinked
    exact hlinked.right_of_append
  · rw [hinit, List.append_assoc]
    rfl

end Trail

/-! ## The walk -/

/-- **The walk reports what is there.** Whatever state it is at, if the trail leads there and the
open states and the room left are together as many as there are states. -/
theorem truthful_of_expandState {room : Nat} {chain : List Bytes} {state : Bytes}
    {location : Location} {w : Walk} (htrail : g.Trail chain state location)
    (hroom : chain.length + room = g.states.size)
    (h : g.expandState library room chain state location w = .error e) : g.Truthful library e := by
  induction room using Nat.strongRecOn generalizing chain state location w with
  | ind room ih =>
    rcases expandState_eq_error h with ⟨hmem, rfl⟩ |
      ⟨hnot, ⟨hmissing, rfl⟩ | ⟨hstate, rfl⟩ | ⟨room', entries, rfl, hfind, hentries⟩⟩
    · exact htrail.closesCycle hmem
    · exact htrail.truthful_of_missing hmissing
    · -- the open states would be all there are, and this one is not among them
      have := length_lt_size htrail.nodup htrail.declared hnot hstate
      omega
    · have hstate : g.hasState state = true := ByteMap.contains_iff.2 ⟨entries, hfind⟩
      rw [← entries_eq hfind] at hentries
      rcases expandEntries_eq_error hentries with ⟨i, r, cache, hi, h⟩ | ⟨i, target, w', hi, h⟩
      · rw [Nat.zero_add] at h
        exact truthful_of_checkRule hi h
      · rw [Nat.zero_add] at h
        refine ih room' (Nat.lt_succ_self room') (htrail.extend hnot hstate hi) ?_ h
        rw [List.length_append, List.length_singleton]
        omega

/-- Going through declared states one after the other reports what is there. -/
theorem truthful_of_expandStates {states : List Bytes} {w : Walk}
    (hstates : ∀ state ∈ states, g.hasState state = true)
    (h : g.expandStates library states w = .error e) : g.Truthful library e := by
  induction states generalizing w with
  | nil => cases h
  | cons state rest ih =>
    rcases Outcome.bind_eq_error.1 h with h | ⟨_, -, h⟩
    · have htrail := Trail.start (hstates state List.mem_cons_self) (.ofState g.name state)
      exact truthful_of_expandState htrail (Nat.zero_add _) h
    · exact ih (fun s hs => hstates s (List.mem_cons_of_mem _ hs)) h

/-- **Refusals are truthful.** A state reported as unknown is the missing root state, or the entry
at the location names it and it is not defined where it has to be; a pattern reported as invalid is
that of the rule at the location and refused by the library for the reason given; a name reported as
taken is that of a combined state which the rule at the location pushes, and of a declared state;
and a cycle is one, closed at its location and with no state on it twice. Nothing else is ever
reported. -/
theorem refusals_are_truthful (library : Library) (g : Grammar) {e : LexerError}
    (h : g.compile library = .error e) : g.Truthful library e := by
  rw [compile] at h
  split at h
  · rcases Outcome.bind_eq_error.1 h with h | ⟨_, -, h⟩
    · exact truthful_of_expandStates (fun state hstate => ByteMap.mem_keys_iff.1 hstate) h
    · cases h
  · next hroot =>
    cases h
    exact Or.inl ⟨rfl, Bool.eq_false_iff.2 hroot, rfl⟩

/-- A grammar with a cycle that is entered from a state outside it, after a rule and a state that
are in order. -/
def tangled : Grammar where
  name := bytes "tangled"
  aliases := []
  ignoreCase := false
  states := .ofList [
    (bytes "root", [.inclusion (bytes "a")]),
    (bytes "a", [.rule ⟨bytes "x", .emit none, [.push (bytes "c")]⟩, .inclusion (bytes "d"),
      .inclusion (bytes "b")]),
    (bytes "b", [.inclusion (bytes "c")]),
    (bytes "c", [.inclusion (bytes "d"), .inclusion (bytes "b")]),
    (bytes "d", [])]
  heuristic := none

/-- The cycle is reported without the state it was entered from, at the inclusion that closes it. -/
theorem refusals_are_truthful_tangled :
    tangled.compile Regex.backtracking =
      .error (.includeCycle [bytes "b", bytes "c", bytes "b"] ⟨bytes "tangled", bytes "c", 1⟩) ∧
    tangled.ClosesCycle [bytes "b", bytes "c", bytes "b"] ⟨bytes "tangled", bytes "c", 1⟩ := by
  have hcompile : tangled.compile Regex.backtracking =
      .error (.includeCycle [bytes "b", bytes "c", bytes "b"]
        ⟨bytes "tangled", bytes "c", 1⟩) := rfl
  exact ⟨hcompile, refusals_are_truthful Regex.backtracking tangled hcompile⟩

end Grammar

end StackLexer
