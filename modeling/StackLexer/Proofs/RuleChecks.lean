import StackLexer.Grammar.Compile
import StackLexer.Proofs.Outcome

/-!
# Checked rules

What a rule has when it has passed its check. Its expression may have been made for another rule
with the same pattern, long before, so nothing can be said about it without saying what is in the
cache.

* `ExpressionCache.Valid` — what is in a cache was read from its pattern, and no slot is given
  twice. `ExpressionCache.fetch_eq_ok` is the step that keeps it, for a pattern that is known and
  for one that is not;
* `ExpressionCache.Grows` — an expression that was made is there to stay;
* `ExpressionCache.Valid.slot_eq_iff` — so two rules share an expression exactly when they have the
  same pattern, whenever each of them was met;
* `Grammar.checkRule_eq_ok` — when a rule passes its check, without the locations that only matter
  when it does not.
-/

namespace StackLexer

/-! ## Shared expressions -/

namespace ExpressionCache

variable {library : Library} {ignoreCase : Bool} {cache cache' : ExpressionCache} {pattern : Bytes}
  {shared : SharedExpression}

/-- The expressions of a cache are those of their patterns, and each has a slot of its own. -/
structure Valid (library : Library) (ignoreCase : Bool) (cache : ExpressionCache) : Prop where
  /-- an expression was read from its pattern -/
  read_eq : ∀ pattern shared, cache.byPattern.find? pattern = some shared →
    library.read ignoreCase pattern = .ok shared.regex
  /-- slots are given in order -/
  slot_lt : ∀ pattern shared, cache.byPattern.find? pattern = some shared →
    shared.slot < cache.made
  /-- no slot is given twice -/
  pattern_eq : ∀ pattern shared pattern' shared', cache.byPattern.find? pattern = some shared →
    cache.byPattern.find? pattern' = some shared' → shared.slot = shared'.slot → pattern = pattern'

/-- A pattern that has an expression keeps it. -/
def Grows (cache cache' : ExpressionCache) : Prop :=
  ∀ pattern shared, cache.byPattern.find? pattern = some shared →
    cache'.byPattern.find? pattern = some shared

theorem Grows.refl (cache : ExpressionCache) : cache.Grows cache := fun _ _ h => h

theorem Grows.trans {cache'' : ExpressionCache} (h : cache.Grows cache')
    (h' : cache'.Grows cache'') : cache.Grows cache'' :=
  fun pattern shared hfound => h' pattern shared (h pattern shared hfound)

theorem valid_empty (library : Library) (ignoreCase : Bool) : empty.Valid library ignoreCase where
  read_eq _ _ h := by cases h
  slot_lt _ _ h := by cases h
  pattern_eq _ _ _ _ h := by cases h

/-- Two patterns have one expression exactly when they are the same. -/
theorem Valid.slot_eq_iff (hv : cache.Valid library ignoreCase) {pattern' : Bytes}
    {shared' : SharedExpression} (h : cache.byPattern.find? pattern = some shared)
    (h' : cache.byPattern.find? pattern' = some shared') :
    shared.slot = shared'.slot ↔ pattern = pattern' := by
  refine ⟨hv.pattern_eq pattern shared pattern' shared' h h', ?_⟩
  rintro rfl
  rw [Option.some.inj (h.symm.trans h')]

/-- An expression for a pattern that has none. -/
theorem Valid.insert (hv : cache.Valid library ignoreCase) {regex : Expression}
    (hread : library.read ignoreCase pattern = .ok regex) :
    Valid library ignoreCase
      ⟨cache.byPattern.insert pattern ⟨cache.made, regex⟩, cache.made + 1⟩ where
  read_eq other shared hfound := by
    rw [ByteMap.find?_insert] at hfound
    split at hfound
    · next heq =>
      cases hfound
      rwa [heq]
    · exact hv.read_eq other shared hfound
  slot_lt other shared hfound := by
    rw [ByteMap.find?_insert] at hfound
    split at hfound
    · cases hfound
      exact Nat.lt_succ_self cache.made
    · exact Nat.lt_succ_of_lt (hv.slot_lt other shared hfound)
  pattern_eq one shared other shared' hone hother heq := by
    rw [ByteMap.find?_insert] at hone hother
    -- the new slot is above all others
    split at hone
    · next hnew =>
      split at hother
      · next hnew' => exact hnew.trans hnew'.symm
      · cases hone
        have hlt := hv.slot_lt other shared' hother
        rw [← heq] at hlt
        exact absurd hlt (Nat.lt_irrefl cache.made)
    · split at hother
      · cases hother
        have hlt := hv.slot_lt one shared hone
        rw [heq] at hlt
        exact absurd hlt (Nat.lt_irrefl cache.made)
      · exact hv.pattern_eq one shared other shared' hone hother heq

/-- **Fetching.** The expression of the pattern is in the cache afterwards, whether it was made now
or before, and so are all others. -/
theorem fetch_eq_ok (hv : cache.Valid library ignoreCase)
    (h : cache.fetch library ignoreCase pattern = .ok (shared, cache')) :
    cache'.Valid library ignoreCase ∧ cache.Grows cache' ∧
      cache'.byPattern.find? pattern = some shared := by
  rw [fetch] at h
  split at h
  · next hit =>
    cases h
    exact ⟨hv, Grows.refl cache, hit⟩
  · next miss =>
    obtain ⟨regex, hread, h⟩ := Outcome.bind_eq_ok.1 h
    cases h
    refine ⟨hv.insert hread, fun other shared hfound => ?_, by simp⟩
    have hne : other ≠ pattern := by
      rintro rfl
      rw [miss] at hfound
      cases hfound
    rw [ByteMap.find?_insert, if_neg hne]
    exact hfound

/-- A pattern that can be read is fetched. -/
theorem exists_fetch (cache : ExpressionCache) {regex : Expression}
    (hread : library.read ignoreCase pattern = .ok regex) :
    ∃ fetched, cache.fetch library ignoreCase pattern = .ok fetched := by
  rw [fetch, hread]
  split
  · exact ⟨_, rfl⟩
  · exact ⟨_, rfl⟩

/-- A pattern is refused by the library. -/
theorem fetch_eq_error {reason : Bytes}
    (h : cache.fetch library ignoreCase pattern = .error reason) :
    library.read ignoreCase pattern = .error reason := by
  rw [fetch] at h
  split at h
  · cases h
  · rcases Outcome.bind_eq_error.1 h with h | ⟨regex, -, h⟩
    · exact h
    · cases h

end ExpressionCache

namespace Grammar

variable {g : Grammar}

/-! ## Passed checks -/

/-- The states a move names are declared, and the name of a combined state is free. -/
def Admits (g : Grammar) : Transition → Prop
  | .push state => g.hasState state = true
  | .goto state => g.hasState state = true
  | .pushCombined states =>
    (∀ m ∈ states, g.hasState m = true) ∧ g.hasState (combinedName states) = false
  | .pop _ => True
  | .pushSame => True

/-- The start state of a delegate, unless it is empty, exists in the grammar handed to. -/
def AdmitsDelegate (g : Grammar) (d : Delegate CompiledGrammar) : Prop :=
  d.state = [] ∨ (d.target.elim g.hasState CompiledGrammar.hasState) d.state = true

/-- All moves and delegates of a rule are admitted. -/
structure AdmitsRule (g : Grammar) (r : Rule) : Prop where
  /-- its moves -/
  transitions : ∀ t ∈ r.transitions, g.Admits t
  /-- its delegates -/
  delegates : ∀ d ∈ r.emission.delegates, g.AdmitsDelegate d

theorem checkTarget_eq_ok {location : Location} {target : Bytes} :
    g.checkTarget location target = .ok () ↔ g.hasState target = true := by
  rw [checkTarget]
  split
  · next h => exact ⟨fun _ => h, fun _ => rfl⟩
  · next h => exact ⟨fun hok => (by cases hok), fun hok => absurd hok h⟩

theorem checkTransition_eq_ok {location : Location} {t : Transition} :
    g.checkTransition location t = .ok () ↔ g.Admits t := by
  cases t with
  | push state => exact checkTarget_eq_ok
  | goto state => exact checkTarget_eq_ok
  | pop count => exact ⟨fun _ => trivial, fun _ => rfl⟩
  | pushSame => exact ⟨fun _ => trivial, fun _ => rfl⟩
  | pushCombined states =>
    rw [checkTransition, Outcome.check_bind_eq_ok, Outcome.forM_eq_ok, Admits]
    simp only [checkTarget_eq_ok]
    refine and_congr_right fun _ => ?_
    split
    · next h =>
      constructor
      · intro hok
        cases hok
      · intro hfree
        rw [h] at hfree
        cases hfree
    · next h => exact ⟨fun _ => Bool.eq_false_iff.2 h, fun _ => rfl⟩

theorem checkDelegate_eq_ok {location : Location} {d : Delegate CompiledGrammar} :
    g.checkDelegate location d = .ok () ↔ g.AdmitsDelegate d := by
  obtain ⟨target, state, wrap⟩ := d
  rw [checkDelegate, AdmitsDelegate]
  cases state with
  | nil => exact ⟨fun _ => Or.inl rfl, fun _ => rfl⟩
  | cons b rest =>
    have hne : (b :: rest : Bytes) ≠ [] := List.cons_ne_nil b rest
    cases target with
    | none =>
      simp only [List.isEmpty_cons, Bool.false_eq_true, if_false, Option.elim_none, hne, false_or]
      exact checkTarget_eq_ok
    | some target =>
      simp only [List.isEmpty_cons, Bool.false_eq_true, if_false, Option.elim_some, hne, false_or]
      split
      · next h => exact ⟨fun _ => h, fun _ => rfl⟩
      · next h => exact ⟨fun hok => (by cases hok), fun hok => absurd hok h⟩

/-- **When a rule passes.** Its pattern can be fetched, its moves are admitted and so are its
delegates. -/
theorem checkRule_eq_ok {library : Library} {location : Location} {r : Rule}
    {cache : ExpressionCache} {fetched : SharedExpression × ExpressionCache} :
    g.checkRule library location r cache = .ok fetched ↔
      cache.fetch library g.ignoreCase r.pattern = .ok fetched ∧ g.AdmitsRule r := by
  rw [checkRule]
  split
  · next h =>
    constructor
    · intro hok
      cases hok
    · rintro ⟨hfetch, -⟩
      rw [h] at hfetch
      cases hfetch
  · next found h =>
    simp only [Outcome.check_bind_eq_ok, Outcome.forM_eq_ok, checkTransition_eq_ok,
      checkDelegate_eq_ok]
    constructor
    · rintro ⟨htransitions, hdelegates, hfound⟩
      cases hfound
      exact ⟨h, htransitions, hdelegates⟩
    · rintro ⟨hfetch, htransitions, hdelegates⟩
      rw [h] at hfetch
      cases hfetch
      exact ⟨htransitions, hdelegates, rfl⟩

end Grammar

end StackLexer
