import Mathlib.Data.List.Basic
import StackLexer.Proofs.ByteMap
import StackLexer.Proofs.RuleChecks

/-!
# The expansion of inclusions

`Grammar.expandState` keeps a table of finished states, a chain of open ones and a cache of
expressions. What it computes has nothing to do with the first two: it is the plain expansion in
place. The third shows in the rules, which have the expressions of the cache.

* `Grammar.Expands` — the plain expansion as a relation, without table, chain or order of visits.
  What a rule becomes is a parameter, so the same relation speaks of placed rules here and of
  compiled rules later;
* `Grammar.Walk.Sound` — the invariant of the walk: every table entry is the plain expansion of its
  state, with expressions that are in the cache. A cache that grows does not take them back
  (`Grammar.Walk.Grows`), so entries made early are good for the cache as it is in the end.
  `Grammar.expandState_faithful` is the step (a hit, or a miss that expands and records) and
  `Grammar.expandStates_faithful` the run over all states;
* `Grammar.expansions_eq_ok` — the result has exactly the declared states, in byte order, each with
  its plain expansion.
-/

namespace StackLexer

namespace Grammar

/-! ## Plain expansion -/

/-- The entries of `state` from index `i` on, expanded in place: a rule yields one item, which it
`becomes`, and an inclusion yields the expansion of all entries of the state it names, however
often that state was included before. -/
inductive Expands {ρ : Type} (g : Grammar) (becomes : Bytes → Nat → Rule → ρ → Prop) :
    Bytes → Nat → List Entry → List ρ → Prop
  /-- no entries are left -/
  | nil (state : Bytes) (i : Nat) : Expands g becomes state i [] []
  /-- a rule stays where it is -/
  | rule {state : Bytes} {i : Nat} {r : Rule} {rest : List Entry} {item : ρ} {more : List ρ}
      (hitem : becomes state i r item) (hrest : Expands g becomes state (i + 1) rest more) :
      Expands g becomes state i (.rule r :: rest) (item :: more)
  /-- an inclusion gives way to the included state -/
  | inclusion {state target : Bytes} {i : Nat} {entries rest : List Entry} {included more : List ρ}
      (hfind : g.states.find? target = some entries)
      (hincluded : Expands g becomes target 0 entries included)
      (hrest : Expands g becomes state (i + 1) rest more) :
      Expands g becomes state i (.inclusion target :: rest) (included ++ more)

/-- The entry at index `i` of `state` is the rule `r`. -/
def RuleAt (g : Grammar) (state : Bytes) (i : Nat) (r : Rule) : Prop :=
  (g.entries state)[i]? = some (.rule r)

theorem entries_eq {g : Grammar} {state : Bytes} {entries : List Entry}
    (h : g.states.find? state = some entries) : g.entries state = entries := by
  rw [Grammar.entries, h, Option.getD_some]

/-- A rule of a state is among the entries under its name. -/
theorem RuleAt.exists_entries {g : Grammar} {state : Bytes} {i : Nat} {r : Rule}
    (h : g.RuleAt state i r) :
    ∃ entries, g.states.find? state = some entries ∧ .rule r ∈ entries := by
  have hmem : .rule r ∈ g.entries state := List.mem_of_getElem? h
  cases hfind : g.states.find? state with
  | none =>
    rw [Grammar.entries, hfind] at hmem
    exact absurd hmem List.not_mem_nil
  | some entries =>
    rw [entries_eq hfind] at hmem
    exact ⟨entries, rfl, hmem⟩

/-- A test that all entries of a grammar pass is passed by each of its rules. -/
theorem RuleAt.check {g : Grammar} {state : Bytes} {i : Nat} {r : Rule} (h : g.RuleAt state i r)
    {test : Entry → Bool} (htest : (g.states.entries.all fun e => e.2.all test) = true) :
    test (.rule r) = true := by
  obtain ⟨entries, hentries, hmem⟩ := h.exists_entries
  have hstate := List.all_eq_true.1 htest _ (ByteMap.find?_eq_some_iff.1 hentries)
  exact List.all_eq_true.1 hstate _ hmem

namespace Expands

variable {ρ σ : Type} {g : Grammar} {becomes : Bytes → Nat → Rule → ρ → Prop}
  {becomes' : Bytes → Nat → Rule → σ → Prop}

/-- Expansions may be translated item by item. -/
theorem map {f : ρ → σ} (hf : ∀ state i r item, becomes state i r item →
      becomes' state i r (f item))
    {state : Bytes} {i : Nat} {entries : List Entry} {out : List ρ}
    (h : g.Expands becomes state i entries out) :
    g.Expands becomes' state i entries (out.map f) := by
  induction h with
  | nil state i => exact .nil state i
  | rule hitem _ ih => exact .rule (hf _ _ _ _ hitem) ih
  | inclusion hfind _ _ ihi ihr =>
    rw [List.map_append]
    exact .inclusion hfind ihi ihr

/-- What a rule becomes may be said in another way. -/
theorem imp {becomes' : Bytes → Nat → Rule → ρ → Prop}
    (himp : ∀ state i r item, becomes state i r item → becomes' state i r item)
    {state : Bytes} {i : Nat} {entries : List Entry} {out : List ρ}
    (h : g.Expands becomes state i entries out) : g.Expands becomes' state i entries out := by
  have hmap := h.map (f := id) himp
  rwa [List.map_id] at hmap

/-- Every item comes from a rule of the grammar, at its own state and index. -/
theorem exists_ruleAt {state : Bytes} {i : Nat} {entries : List Entry} {out : List ρ}
    (h : g.Expands becomes state i entries out) (hentries : entries = (g.entries state).drop i)
    {item : ρ} (hitem : item ∈ out) :
    ∃ state' j r, g.RuleAt state' j r ∧ becomes state' j r item := by
  induction h with
  | nil => exact absurd hitem List.not_mem_nil
  | @rule state i r rest first more hfirst _ ih =>
    have hrest : rest = (g.entries state).drop (i + 1) := by
      rw [← List.tail_drop, ← hentries, List.tail_cons]
    rcases List.mem_cons.1 hitem with hitem | hitem
    · subst hitem
      refine ⟨state, i, r, ?_, hfirst⟩
      rw [RuleAt, ← List.head?_drop, ← hentries, List.head?_cons]
    · exact ih hrest hitem
  | @inclusion state target i entries rest included more hfind _ _ ihi ihr =>
    have hrest : rest = (g.entries state).drop (i + 1) := by
      rw [← List.tail_drop, ← hentries, List.tail_cons]
    rcases List.mem_append.1 hitem with hitem | hitem
    · exact ihi (by rw [List.drop_zero, entries_eq hfind]) hitem
    · exact ihr hrest hitem

/-- Every rule of the entries is kept. -/
theorem exists_item {state : Bytes} {i : Nat} {entries : List Entry} {out : List ρ}
    (h : g.Expands becomes state i entries out) {r : Rule} (hr : .rule r ∈ entries) :
    ∃ j, ∃ item ∈ out, becomes state j r item := by
  induction h with
  | nil => exact absurd hr List.not_mem_nil
  | rule hitem _ ih =>
    rcases List.mem_cons.1 hr with hr | hr
    · cases hr
      exact ⟨_, _, List.mem_cons_self, hitem⟩
    · obtain ⟨j, item, hmem, hbecomes⟩ := ih hr
      exact ⟨j, item, List.mem_cons_of_mem _ hmem, hbecomes⟩
  | inclusion _ _ _ _ ihr =>
    rcases List.mem_cons.1 hr with hr | hr
    · cases hr
    · obtain ⟨j, item, hmem, hbecomes⟩ := ihr hr
      exact ⟨j, item, List.mem_append_right _ hmem, hbecomes⟩

end Expands

end Grammar

/-! ## The walk -/

/-- A rule that has passed its check, as the walk places it: its expression is the one that the
cache has for its pattern. -/
def Grammar.Placed (g : Grammar) (cache : ExpressionCache) (state : Bytes) (i : Nat) (r : Rule)
    (p : PlacedRule) : Prop :=
  g.AdmitsRule r ∧
    ∃ shared, cache.byPattern.find? r.pattern = some shared ∧ p = ⟨state, i, r, shared⟩

/-- The rules of `state` are its plain expansion. -/
def Grammar.ExpandsTo (g : Grammar) (cache : ExpressionCache) (state : Bytes)
    (rules : List PlacedRule) : Prop :=
  ∃ entries, g.states.find? state = some entries ∧ g.Expands (g.Placed cache) state 0 entries rules

namespace Grammar

variable {g : Grammar} {cache cache' : ExpressionCache}

theorem Placed.mono (hgrow : cache.Grows cache') {state : Bytes} {i : Nat} {r : Rule}
    {p : PlacedRule} (h : g.Placed cache state i r p) : g.Placed cache' state i r p := by
  obtain ⟨hadmits, shared, hshared, heq⟩ := h
  exact ⟨hadmits, shared, hgrow _ _ hshared, heq⟩

theorem Expands.mono (hgrow : cache.Grows cache') {state : Bytes} {i : Nat} {entries : List Entry}
    {rules : List PlacedRule} (h : g.Expands (g.Placed cache) state i entries rules) :
    g.Expands (g.Placed cache') state i entries rules :=
  h.imp fun _ _ _ _ hplaced => hplaced.mono hgrow

theorem ExpandsTo.mono (hgrow : cache.Grows cache') {state : Bytes} {rules : List PlacedRule}
    (h : g.ExpandsTo cache state rules) : g.ExpandsTo cache' state rules := by
  obtain ⟨entries, hfind, hexpands⟩ := h
  exact ⟨entries, hfind, hexpands.mono hgrow⟩

namespace Walk

variable {library : Library} {w w' w'' : Walk}

/-- Every finished state has its plain expansion, with expressions of the cache. -/
structure Sound (library : Library) (g : Grammar) (w : Walk) : Prop where
  /-- the table is right -/
  finished : ∀ state rules, w.finished.find? state = some rules → g.ExpandsTo w.cache state rules
  /-- and so is the cache -/
  cache : w.cache.Valid library g.ignoreCase

/-- A walk that goes on loses nothing. -/
structure Grows (w w' : Walk) : Prop where
  /-- a state that is finished remains so -/
  finished : ∀ state, w.finished.contains state → w'.finished.contains state
  /-- an expression that was made is still there -/
  cache : w.cache.Grows w'.cache

theorem Grows.refl (w : Walk) : w.Grows w := ⟨fun _ h => h, .refl w.cache⟩

theorem Grows.trans (h : w.Grows w') (h' : w'.Grows w'') : w.Grows w'' :=
  ⟨fun state hstate => h'.finished state (h.finished state hstate), h.cache.trans h'.cache⟩

theorem sound_start (library : Library) (g : Grammar) : start.Sound library g where
  finished _ _ h := by cases h
  cache := ExpressionCache.valid_empty library g.ignoreCase

/-- The table is right for every cache that has grown. -/
theorem Sound.fetched {cache : ExpressionCache} (h : w.Sound library g)
    (hv : cache.Valid library g.ignoreCase) (hgrow : w.cache.Grows cache) :
    Sound library g { w with cache := cache } where
  finished state rules hfound := (h.finished state rules hfound).mono hgrow
  cache := hv

/-- One more state is finished. -/
theorem Sound.finish {state : Bytes} {rules : List PlacedRule} (h : w.Sound library g)
    (hstate : g.ExpandsTo w.cache state rules) : (w.finish state rules).Sound library g where
  finished other out hfound := by
    rw [Walk.finish, ByteMap.find?_insert] at hfound
    split at hfound
    · next hother =>
      cases hfound
      exact hother ▸ hstate
    · exact h.finished other out hfound
  cache := h.cache

theorem grows_finish (w : Walk) (state : Bytes) (rules : List PlacedRule) :
    w.Grows (w.finish state rules) :=
  ⟨fun other hother => by simp [finish, hother], .refl w.cache⟩

end Walk

variable {library : Library}

/-- A way to expand included states that keeps the walk sound, loses nothing and records what it
returns. -/
def Faithful (library : Library) (g : Grammar)
    (expand : Bytes → Location → Walk → Except LexerError (List PlacedRule × Walk)) : Prop :=
  ∀ target location w rules w', w.Sound library g →
    expand target location w = .ok (rules, w') →
    w'.Sound library g ∧ w.Grows w' ∧ w'.finished.find? target = some rules

theorem expandEntries_faithful
    {expand : Bytes → Location → Walk → Except LexerError (List PlacedRule × Walk)}
    (hexpand : g.Faithful library expand) {state : Bytes} {entries : List Entry} {i : Nat}
    {w w' : Walk} {rules : List PlacedRule} (hs : w.Sound library g)
    (h : g.expandEntries library expand state i entries w = .ok (rules, w')) :
    w'.Sound library g ∧ w.Grows w' ∧ g.Expands (g.Placed w'.cache) state i entries rules := by
  induction entries generalizing i w rules with
  | nil =>
    cases h
    exact ⟨hs, .refl _, .nil state i⟩
  | cons entry rest ih =>
    cases entry with
    | rule r =>
      obtain ⟨⟨shared, cache⟩, hchecked, h⟩ := Outcome.bind_eq_ok.1 h
      obtain ⟨⟨more, w₁⟩, hmore, h⟩ := Outcome.bind_eq_ok.1 h
      cases h
      obtain ⟨hfetch, hadmits⟩ := checkRule_eq_ok.1 hchecked
      obtain ⟨hv, hgrow, hshared⟩ := ExpressionCache.fetch_eq_ok hs.cache hfetch
      obtain ⟨hs', hgrow', hrest⟩ := ih (hs.fetched hv hgrow) hmore
      refine ⟨hs', ⟨hgrow'.finished, hgrow.trans hgrow'.cache⟩, .rule ?_ hrest⟩
      exact ⟨hadmits, shared, hgrow'.cache _ _ hshared, rfl⟩
    | inclusion target =>
      obtain ⟨⟨included, w₁⟩, hincluded, h⟩ := Outcome.bind_eq_ok.1 h
      obtain ⟨⟨more, w₂⟩, hmore, h⟩ := Outcome.bind_eq_ok.1 h
      cases h
      obtain ⟨hs₁, hgrow₁, hfound⟩ := hexpand _ _ _ _ _ hs hincluded
      obtain ⟨hs₂, hgrow₂, hrest⟩ := ih hs₁ hmore
      -- the included state is in the table now, and the table is sound: it does not matter whether
      -- the state was found there or expanded for this inclusion
      obtain ⟨entries, hfind, hentries⟩ := hs₁.finished _ _ hfound
      exact ⟨hs₂, hgrow₁.trans hgrow₂, .inclusion hfind (hentries.mono hgrow₂.cache) hrest⟩

/-- What a successful expansion of a state has done: it found the state finished, or it expanded
the entries and recorded the result. -/
theorem expandState_eq_ok {room : Nat} {chain : List Bytes} {state : Bytes} {location : Location}
    {w w' : Walk} {rules : List PlacedRule}
    (h : g.expandState library room chain state location w = .ok (rules, w')) :
    w.finished.find? state = some rules ∧ w' = w ∨
      ∃ room' entries w₁, room = room' + 1 ∧ g.states.find? state = some entries ∧
        g.expandEntries library (g.expandState library room' (chain ++ [state])) state 0 entries w =
          .ok (rules, w₁) ∧
        w' = w₁.finish state rules := by
  unfold expandState at h
  split at h
  · next hit =>
    cases h
    exact Or.inl ⟨hit, rfl⟩
  · split at h
    · cases h
    · split at h
      · cases h
      · cases h
      · next entries room' hfind =>
        obtain ⟨⟨rules₁, w₁⟩, hentries, h⟩ := Outcome.bind_eq_ok.1 h
        cases h
        exact Or.inr ⟨room', entries, w₁, rfl, hfind, hentries, rfl⟩

/-- **The step of the walk.** A finished state is looked up and any other is expanded and recorded;
either way the walk stays sound. -/
theorem expandState_faithful (library : Library) (g : Grammar) (room : Nat) (chain : List Bytes) :
    g.Faithful library (g.expandState library room chain) := by
  -- the chain grows with every level and only decides about refusals, so it is arbitrary
  induction room using Nat.strongRecOn generalizing chain with
  | ind room ih =>
    intro state location w rules w' hs h
    rcases expandState_eq_ok h with ⟨hit, rfl⟩ | ⟨room', entries, w₁, rfl, hfind, hok, rfl⟩
    · exact ⟨hs, .refl w', hit⟩
    · have hroom : g.Faithful library (g.expandState library room' (chain ++ [state])) :=
        ih room' (Nat.lt_succ_self room') _
      obtain ⟨hs₁, hgrow, hexpands⟩ := expandEntries_faithful hroom hs hok
      refine ⟨hs₁.finish ⟨entries, hfind, hexpands⟩, hgrow.trans (w₁.grows_finish state rules), ?_⟩
      simp [Walk.finish]

/-- **The run of the walk.** Going through a list of states keeps the walk sound and finishes all
of them. -/
theorem expandStates_faithful {states : List Bytes} {w w' : Walk} (hs : w.Sound library g)
    (h : g.expandStates library states w = .ok w') :
    w'.Sound library g ∧ w.Grows w' ∧ ∀ state ∈ states, w'.finished.contains state := by
  induction states generalizing w with
  | nil =>
    cases h
    exact ⟨hs, .refl _, fun _ hmem => absurd hmem List.not_mem_nil⟩
  | cons state rest ih =>
    obtain ⟨⟨rules, w₁⟩, hstate, h⟩ := Outcome.bind_eq_ok.1 h
    obtain ⟨hs₁, hgrow₁, hfound⟩ := expandState_faithful library g _ _ _ _ _ _ _ hs hstate
    obtain ⟨hs', hgrow', hall⟩ := ih hs₁ h
    refine ⟨hs', hgrow₁.trans hgrow', fun other hmem => ?_⟩
    rcases List.mem_cons.1 hmem with hmem | hmem
    · subst hmem
      exact hgrow'.finished _ (ByteMap.contains_iff.2 ⟨rules, hfound⟩)
    · exact hall other hmem

/-- **The result of the walk.** It has the declared states, in byte order, each with its plain
expansion. -/
theorem expansions_eq_ok {w : Walk} (h : g.expansions library = .ok w) :
    w.Sound library g ∧ w.finished.keys = g.states.keys := by
  obtain ⟨hs, -, hall⟩ := expandStates_faithful (Walk.sound_start library g) h
  refine ⟨hs, ByteMap.keys_eq_of_contains fun state => Bool.eq_iff_iff.2 ⟨fun hfound => ?_, ?_⟩⟩
  · obtain ⟨rules, hrules⟩ := ByteMap.contains_iff.1 hfound
    obtain ⟨entries, hentries, -⟩ := hs.finished state rules hrules
    exact ByteMap.contains_iff.2 ⟨entries, hentries⟩
  · exact fun hdeclared => hall state (ByteMap.mem_keys_iff.2 hdeclared)

end Grammar

end StackLexer
