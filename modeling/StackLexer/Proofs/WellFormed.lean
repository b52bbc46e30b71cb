import Mathlib.Data.List.Nodup
import Mathlib.Logic.Relation
import StackLexer.Proofs.Compilation

/-!
# Which grammars compile

Compilation stops at the first fault it meets, keeps finished states in a table and never looks at
them again. What it accepts can still be said without table, chain and order of visits:

* `Grammar.Includes` — one state names another in an inclusion;
* `Grammar.WellFormed` — what is asked of a grammar as a whole: of all its states, whether or not
  they can be reached from the root state. Which patterns can be read is for the library to say;
* `Grammar.Expands.acc_of_inclusion` — a state that has an expansion cannot include itself, however
  indirectly, so no cycle slips through because a state was found in the table;
* `Grammar.exists_expandState` — without cycles the walk never meets an open state again and never
  runs out of room, so nothing well-formed is refused;
* `Grammar.exists_compile_iff_wellFormed` — both together.
-/

namespace StackLexer

namespace Grammar

variable {library : Library} {g : Grammar}

/-- `state` has the inclusion of `target` among its entries. -/
def Includes (g : Grammar) (state target : Bytes) : Prop := .inclusion target ∈ g.entries state

/-- What is asked of a grammar. -/
structure WellFormed (library : Library) (g : Grammar) : Prop where
  /-- there is a root state -/
  root : g.hasState rootState = true
  /-- what is included is declared -/
  included : ∀ state target, g.Includes state target → g.hasState target = true
  /-- no state includes itself, directly or through others -/
  acyclic : ∀ state, ¬ Relation.TransGen g.Includes state state
  /-- every pattern can be read -/
  patterns : ∀ state i r, g.RuleAt state i r →
    ∃ regex, library.read g.ignoreCase r.pattern = .ok regex
  /-- targets and members are declared, and the names of combined states are free -/
  transitions : ∀ state i r, g.RuleAt state i r → ∀ t ∈ r.transitions, g.Admits t
  /-- delegates start in states of the grammar they hand to -/
  delegates : ∀ state i r, g.RuleAt state i r → ∀ d ∈ r.emission.delegates, g.AdmitsDelegate d

/-- Only declared states include anything. -/
theorem Includes.exists_entries {state target : Bytes} (h : g.Includes state target) :
    ∃ entries, g.states.find? state = some entries ∧ .inclusion target ∈ entries := by
  rw [Includes, Grammar.entries] at h
  cases hfind : g.states.find? state with
  | none =>
    rw [hfind] at h
    exact absurd h List.not_mem_nil
  | some entries =>
    rw [hfind] at h
    exact ⟨entries, rfl, h⟩

/-! ## What compiles is well-formed -/

/-- A state below which inclusions come to an end does not include itself. -/
theorem not_transGen_of_acc {state : Bytes} (h : Acc (fun b a => g.Includes a b) state) :
    ¬ Relation.TransGen g.Includes state state := by
  induction h with
  | intro state _ ih =>
    intro hcycle
    -- the cycle also goes through the first state it visits
    obtain ⟨next, hfirst, hback⟩ := Relation.TransGen.head'_iff.1 hcycle
    exact ih next hfirst (Relation.TransGen.tail' hback hfirst)

/-- Every state included by expanded entries is declared, and inclusions come to an end below it. -/
theorem Expands.acc_of_inclusion {ρ : Type} {becomes : Bytes → Nat → Rule → ρ → Prop}
    {state : Bytes} {i : Nat} {entries : List Entry} {out : List ρ}
    (h : g.Expands becomes state i entries out) {target : Bytes}
    (ht : .inclusion target ∈ entries) :
    g.hasState target = true ∧ Acc (fun b a => g.Includes a b) target := by
  induction h generalizing target with
  | nil => exact absurd ht List.not_mem_nil
  | rule _ _ ih =>
    rcases List.mem_cons.1 ht with ht | ht
    · cases ht
    · exact ih ht
  | @inclusion state included i entries rest _ _ hfind _ _ ihi ihr =>
    rcases List.mem_cons.1 ht with ht | ht
    · cases ht
      refine ⟨ByteMap.contains_iff.2 ⟨entries, hfind⟩, Acc.intro _ fun next hnext => ?_⟩
      rw [Includes, entries_eq hfind] at hnext
      exact (ihi hnext).2
    · exact ihr ht

namespace Walked

variable {w : Walk}

/-- What a walked state includes is declared, and inclusions come to an end below it. -/
theorem acc_of_includes (h : g.Walked library w) {state target : Bytes}
    (hincludes : g.Includes state target) :
    g.hasState target = true ∧ Acc (fun b a => g.Includes a b) target := by
  obtain ⟨entries, hfind, hmem⟩ := hincludes.exists_entries
  have hdeclared : g.hasState state = true := ByteMap.contains_iff.2 ⟨entries, hfind⟩
  obtain ⟨rules, hrules⟩ := ByteMap.contains_iff.1 ((h.contains_eq state).trans hdeclared)
  obtain ⟨entries', hentries', hexpands⟩ := h.sound.finished state rules hrules
  obtain rfl := Option.some.inj (hentries'.symm.trans hfind)
  exact hexpands.acc_of_inclusion hmem

/-- The pattern of every rule has been read, for this rule or another one. -/
theorem exists_read (h : g.Walked library w) {state : Bytes} {i : Nat} {r : Rule}
    (hr : g.RuleAt state i r) : ∃ regex, library.read g.ignoreCase r.pattern = .ok regex := by
  obtain ⟨p, hp, rfl⟩ := h.exists_placed hr
  obtain ⟨state', j, r, -, -, shared, hshared, rfl⟩ := h.exists_ruleAt hp
  exact ⟨shared.regex, h.sound.cache.read_eq _ _ hshared⟩

/-- A grammar with a root state that has been walked is well-formed. -/
theorem wellFormed (h : g.Walked library w) (hroot : g.hasState rootState = true) :
    g.WellFormed library where
  root := hroot
  included _ _ hincludes := (h.acc_of_includes hincludes).1
  acyclic _ := not_transGen_of_acc (Acc.intro _ fun _ hincludes =>
    (h.acc_of_includes hincludes).2)
  patterns _ _ _ hr := h.exists_read hr
  transitions _ _ _ hr := (h.admits hr).transitions
  delegates _ _ _ hr := (h.admits hr).delegates

end Walked

/-! ## What is well-formed compiles -/

/-- Every rule of a well-formed grammar passes its check, wherever it is reported to stand. -/
theorem WellFormed.exists_checkRule (h : g.WellFormed library) {state : Bytes} {i : Nat} {r : Rule}
    (hr : g.RuleAt state i r) (location : Location) (cache : ExpressionCache) :
    ∃ fetched, g.checkRule library location r cache = .ok fetched := by
  obtain ⟨regex, hread⟩ := h.patterns state i r hr
  obtain ⟨fetched, hfetch⟩ := cache.exists_fetch hread
  refine ⟨fetched, checkRule_eq_ok.2 ⟨hfetch, ?_⟩⟩
  exact ⟨h.transitions state i r hr, h.delegates state i r hr⟩

/-- Entries are expanded when their rules pass and the states they include are expanded. -/
theorem exists_expandEntries
    {expand : Bytes → Location → Walk → Except LexerError (List PlacedRule × Walk)}
    {state : Bytes} {entries : List Entry}
    (hrules : ∀ r, .rule r ∈ entries → ∀ location cache,
      ∃ fetched, g.checkRule library location r cache = .ok fetched)
    (hincluded : ∀ target, .inclusion target ∈ entries → ∀ location w,
      ∃ out, expand target location w = .ok out)
    (i : Nat) (w : Walk) :
    ∃ out, g.expandEntries library expand state i entries w = .ok out := by
  induction entries generalizing i w with
  | nil => exact ⟨_, rfl⟩
  | cons entry rest ih =>
    have hrest := ih (fun r hr => hrules r (List.mem_cons_of_mem _ hr))
      (fun target ht => hincluded target (List.mem_cons_of_mem _ ht)) (i + 1)
    cases entry with
    | rule r =>
      obtain ⟨⟨shared, cache⟩, hfetched⟩ := hrules r List.mem_cons_self ⟨g.name, state, i⟩ w.cache
      obtain ⟨⟨more, w'⟩, hmore⟩ := hrest { w with cache := cache }
      exact ⟨_, Outcome.bind_eq_ok.2 ⟨_, hfetched, Outcome.bind_eq_ok.2 ⟨_, hmore, rfl⟩⟩⟩
    | inclusion target =>
      obtain ⟨⟨included, w₁⟩, hout⟩ := hincluded target List.mem_cons_self ⟨g.name, state, i⟩ w
      obtain ⟨⟨more, w'⟩, hmore⟩ := hrest w₁
      exact ⟨_, Outcome.bind_eq_ok.2 ⟨_, hout, Outcome.bind_eq_ok.2 ⟨_, hmore, rfl⟩⟩⟩

/-- Different declared states do not fill the grammar while there is one more. -/
theorem length_lt_size {chain : List Bytes} {state : Bytes} (hnodup : chain.Nodup)
    (hdeclared : ∀ other ∈ chain, g.hasState other = true) (hnot : state ∉ chain)
    (hstate : g.hasState state = true) : chain.length < g.states.size := by
  have hsubset : state :: chain ⊆ g.states.keys := by
    intro other hother
    rw [ByteMap.mem_keys_iff]
    rcases List.mem_cons.1 hother with rfl | hother
    · exact hstate
    · exact hdeclared other hother
  have hle := (List.nodup_cons.2 ⟨hnot, hnodup⟩).length_le_of_subset hsubset
  rwa [ByteMap.keys, List.length_map, List.length_cons] at hle

/-- A chain of open states: all different and declared, and each on a way of inclusions to the
state about to be expanded. -/
structure OpenChain (g : Grammar) (chain : List Bytes) (state : Bytes) : Prop where
  /-- no state is open twice -/
  nodup : chain.Nodup
  /-- open states are declared -/
  declared : ∀ other ∈ chain, g.hasState other = true
  /-- open states include the state, directly or through others -/
  leads : ∀ other ∈ chain, Relation.TransGen g.Includes other state

namespace OpenChain

variable {chain : List Bytes} {state : Bytes}

/-- Without cycles an open state is not met again. -/
theorem not_mem (h : g.OpenChain chain state) (hg : g.WellFormed library) : state ∉ chain :=
  fun hmem => hg.acyclic state (h.leads state hmem)

/-- The chain grows by the state that is expanded. -/
theorem extend (h : g.OpenChain chain state) (hg : g.WellFormed library)
    (hstate : g.hasState state = true) {target : Bytes} (ht : g.Includes state target) :
    g.OpenChain (chain ++ [state]) target where
  nodup := by
    rw [List.nodup_append]
    refine ⟨h.nodup, List.nodup_singleton state, fun a ha b hb hab => h.not_mem hg ?_⟩
    rw [← List.mem_singleton.1 hb, ← hab]
    exact ha
  declared other hother := by
    rcases List.mem_append.1 hother with hother | hother
    · exact h.declared other hother
    · rw [List.mem_singleton.1 hother]
      exact hstate
  leads other hother := by
    rcases List.mem_append.1 hother with hother | hother
    · exact (h.leads other hother).tail ht
    · rw [List.mem_singleton.1 hother]
      exact .single ht

/-- There is room for one state more. -/
theorem length_lt (h : g.OpenChain chain state) (hg : g.WellFormed library)
    (hstate : g.hasState state = true) : chain.length < g.states.size :=
  length_lt_size h.nodup h.declared (h.not_mem hg) hstate

end OpenChain

/-- **The walk goes through.** In a well-formed grammar every declared state is expanded, as long as
the open states and the room left are together as many as there are states. -/
theorem exists_expandState (hg : g.WellFormed library) {room : Nat} {chain : List Bytes}
    {state : Bytes} (hstate : g.hasState state = true) (hchain : g.OpenChain chain state)
    (hroom : chain.length + room = g.states.size) (location : Location) (w : Walk) :
    ∃ out, g.expandState library room chain state location w = .ok out := by
  induction room generalizing chain state location w with
  | zero =>
    have := hchain.length_lt hg hstate
    omega
  | succ room ih =>
    unfold expandState
    split
    · exact ⟨_, rfl⟩
    · rw [if_neg (hchain.not_mem hg)]
      obtain ⟨entries, hentries⟩ := ByteMap.contains_iff.1 hstate
      rw [hentries]
      have hrules : ∀ r, .rule r ∈ entries → ∀ location cache,
          ∃ fetched, g.checkRule library location r cache = .ok fetched := by
        intro r hr location cache
        obtain ⟨i, hi⟩ := List.mem_iff_getElem?.1 hr
        have hat : g.RuleAt state i r := by rw [RuleAt, entries_eq hentries, hi]
        exact hg.exists_checkRule hat location cache
      have hincluded : ∀ target, .inclusion target ∈ entries → ∀ location w,
          ∃ out, g.expandState library room (chain ++ [state]) target location w = .ok out := by
        intro target ht location w
        have hincludes : g.Includes state target := by rwa [Includes, entries_eq hentries]
        refine ih (hg.included state target hincludes) (hchain.extend hg hstate hincludes) ?_ _ _
        rw [List.length_append, List.length_singleton]
        omega
      obtain ⟨⟨rules, w'⟩, hok⟩ := exists_expandEntries hrules hincluded 0 w
      exact ⟨_, Outcome.bind_eq_ok.2 ⟨_, hok, rfl⟩⟩

/-- States are expanded one after the other. -/
theorem exists_expandStates (hg : g.WellFormed library) {states : List Bytes}
    (hstates : ∀ state ∈ states, g.hasState state = true) (w : Walk) :
    ∃ out, g.expandStates library states w = .ok out := by
  induction states generalizing w with
  | nil => exact ⟨_, rfl⟩
  | cons state rest ih =>
    have hchain : g.OpenChain [] state :=
      ⟨List.nodup_nil, fun _ h => absurd h List.not_mem_nil, fun _ h => absurd h List.not_mem_nil⟩
    obtain ⟨⟨rules, w₁⟩, hfirst⟩ := exists_expandState hg
      (hstates state List.mem_cons_self) hchain (Nat.zero_add _)
      (Location.ofState g.name state) w
    obtain ⟨out, hrest⟩ := ih (fun s hs => hstates s (List.mem_cons_of_mem _ hs)) w₁
    exact ⟨out, Outcome.bind_eq_ok.2 ⟨_, hfirst, hrest⟩⟩

/-- **Exactly the well-formed grammars compile**, whatever the library. -/
theorem exists_compile_iff_wellFormed (library : Library) (g : Grammar) :
    (∃ c, g.compile library = .ok c) ↔ g.WellFormed library := by
  constructor
  · rintro ⟨c, hc⟩
    obtain ⟨hroot, w, hwalked, -⟩ := compile_eq_ok hc
    exact hwalked.wellFormed hroot
  · intro hg
    obtain ⟨w, hw⟩ := exists_expandStates hg
      (fun state hstate => ByteMap.mem_keys_iff.1 hstate) .start
    rw [compile, if_pos hg.root]
    exact ⟨_, Outcome.bind_eq_ok.2 ⟨w, hw, rfl⟩⟩

end Grammar

end StackLexer
