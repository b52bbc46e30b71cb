import Mathlib.Algebra.Order.Ring.Unbundled.Rat
import Mathlib.Order.Bounds.Basic
import StackLexer.Lexer.Document
import StackLexer.Proofs.Compilation
import StackLexer.Proofs.GrammarDocuments

/-!
# Confidence

Checks are gone through in the order of the document, and one whose score is not above the best so
far is not searched for. Which checks are searched for therefore depends on the order and on what
was found before. The confidence does not: a check that is passed over could not have changed it.

* `Expression.Occurs` — a search of a text ends with a match. What is searched for, and how, is up
  to the library;
* `foundScores` — the scores of the checks whose expressions occur in a text;
* `Check.isGreatest_improve` — one check keeps the best score the greatest one,
  `isGreatest_foldl_improve` all of them;
* `Grammar.CarriesChecks` — the checks of a document, and `Lexer.LoadedFrom` — the lexers that are
  made from it;
* `Lexer.confidence_clamps_maximum` — the confidence is the greatest of zero and the scores found,
  cut off at one.
-/

namespace StackLexer

/-! ## Searching -/

/-- A search for the expression in the whole text finds it. -/
def Expression.Occurs (e : Expression) (text : Bytes) : Prop := e.searchIn text = .found ()

/-- A search that is given up has found nothing. -/
theorem Expression.occursIn_iff {e : Expression} {text : Bytes} :
    e.occursIn text = true ↔ e.Occurs text := by
  rw [occursIn, Occurs]
  cases e.searchIn text <;> simp

/-! ## The best score -/

/-- The scores of the checks that succeed on a text. -/
def foundScores (checks : List Check) (text : Bytes) : Set Rat :=
  {q | ∃ c ∈ checks, c.regex.Occurs text ∧ c.score = q}

theorem foundScores_congr {checks checks' : List Check} (h : ∀ c, c ∈ checks ↔ c ∈ checks')
    (text : Bytes) : foundScores checks text = foundScores checks' text := by
  simp [foundScores, h]

/-- **One more check.** Whether it is searched for or not, the best score stays the greatest one. -/
theorem Check.isGreatest_improve {seen : Set Rat} {best : Rat} (h : IsGreatest seen best)
    (text : Bytes) (c : Check) :
    IsGreatest (seen ∪ foundScores [c] text) (c.improve text best) := by
  have hsingle : ∀ q ∈ foundScores [c] text, c.regex.Occurs text ∧ c.score = q := by
    simp [foundScores]
  rw [improve]
  split
  · next hle =>
    refine ⟨.inl h.1, ?_⟩
    rintro q (hq | hq)
    · exact h.2 hq
    · obtain ⟨-, rfl⟩ := hsingle q hq
      exact hle
  · next hgt =>
    split
    · next hfound =>
      refine ⟨.inr ⟨c, by simp, Expression.occursIn_iff.1 hfound, rfl⟩, ?_⟩
      rintro q (hq | hq)
      · exact (h.2 hq).trans (le_of_not_ge hgt)
      · exact (hsingle q hq).2.ge
    · next hmissed =>
      refine ⟨.inl h.1, ?_⟩
      rintro q (hq | hq)
      · exact h.2 hq
      · exact absurd (Expression.occursIn_iff.2 (hsingle q hq).1) hmissed

/-- **All checks**, one after the other. -/
theorem isGreatest_foldl_improve {seen : Set Rat} {best : Rat} (h : IsGreatest seen best)
    (text : Bytes) (checks : List Check) :
    IsGreatest (seen ∪ foundScores checks text) (checks.foldl (Check.improve text) best) := by
  induction checks generalizing seen best with
  | nil => simpa [foundScores] using h
  | cons c checks ih =>
    have hstep := ih (c.isGreatest_improve h text)
    have hscores : foundScores (c :: checks) text =
        foundScores [c] text ∪ foundScores checks text := by
      ext q
      simp [foundScores]
    rwa [hscores, ← Set.union_assoc, List.foldl_cons]

/-- Estimates that are not negative are cut off at one. -/
theorem Estimate.clamp_number {q : Rat} (h : 0 ≤ q) : (Estimate.number q).clamp = min q 1 := by
  rw [clamp, if_neg (not_lt.2 h)]
  split
  · next hone => exact (min_eq_right hone.le).symm
  · next hone => exact (min_eq_left (not_lt.1 hone)).symm

theorem Heuristic.clamp_estimate_checks (checks : List Check) (text : Bytes) :
    ∃ best, IsGreatest (insert 0 (foundScores checks text)) best ∧
      ((Heuristic.checks checks).estimate text).clamp = min best 1 := by
  have hbest := isGreatest_foldl_improve (isGreatest_singleton (a := (0 : Rat))) text checks
  rw [Set.singleton_union] at hbest
  exact ⟨_, hbest, Estimate.clamp_number (hbest.2 (Set.mem_insert _ _))⟩

/-! ## The checks of a document -/

/-- An optional field has one meaning when all that can be written there has one. -/
theorem Document.Optionally.unique {α : Type} {Written : Json → α → Prop} {absent a b : α}
    {found : Option Json} (h : Optionally Written absent found a)
    (hunique : Relator.RightUnique Written) (h' : Optionally Written absent found b) : a = b := by
  cases h with
  | missing =>
    cases h' with
    | missing => rfl
  | given h =>
    cases h' with
    | given h' => exact hunique h h'

namespace Grammar

open Document

/-- An array of checks. -/
def ChecksWritten (library : Library) (ignoreCase : Bool) (j : Json) (checks : List Check) : Prop :=
  ∃ items, j = .arr items ∧ List.Forall₂ (CheckWritten library ignoreCase) items checks

/-- The checks that a document carries under `confidence`, none if there is no such field. The
patterns match letters as `ignore_case` says. -/
def CarriesChecks (library : Library) (doc : Json) (checks : List Check) : Prop :=
  ∃ ignoreCase, Optionally BoolWritten false (doc.member? (bytes "ignore_case")) ignoreCase ∧
    Optionally (ChecksWritten library ignoreCase) [] (doc.member? (bytes "confidence")) checks

/-- What is written is one check. -/
theorem rightUnique_checkWritten (library : Library) (ignoreCase : Bool) :
    Relator.RightUnique (CheckWritten library ignoreCase) := by
  intro j c c' h h'
  rw [← reads_check library ignoreCase [] j] at h h'
  exact Except.ok.inj (h.symm.trans h')

theorem rightUnique_checksWritten (library : Library) (ignoreCase : Bool) :
    Relator.RightUnique (ChecksWritten library ignoreCase) := by
  rintro j checks checks' ⟨items, rfl, hitems⟩ ⟨_, ⟨⟩, hitems'⟩
  exact List.right_unique_forall₂' (rightUnique_checkWritten library ignoreCase) hitems hitems'

/-- A document carries one list of checks. -/
theorem CarriesChecks.unique {library : Library} {doc : Json} {checks checks' : List Check}
    (h : CarriesChecks library doc checks) (h' : CarriesChecks library doc checks') :
    checks = checks' := by
  obtain ⟨ignoreCase, hcase, hchecks⟩ := h
  obtain ⟨ignoreCase', hcase', hchecks'⟩ := h'
  have hbool : Relator.RightUnique BoolWritten := by
    rintro j b b' rfl ⟨⟩
    rfl
  obtain rfl := hcase.unique hbool hcase'
  exact hchecks.unique (rightUnique_checksWritten library ignoreCase) hchecks'

/-- The heuristic that is read is that of the checks. -/
theorem exists_carriesChecks {library : Library} {resolve : Resolver} {doc : Json} {g : Grammar}
    (h : ofDocument library resolve doc = .ok g) : ∃ checks, CarriesChecks library doc checks ∧
      (checks = [] ∧ g.heuristic = none ∨ g.heuristic = some (.checks checks)) := by
  obtain ⟨-, -, hcase, -, hheuristic⟩ := ofDocument_eq_ok_iff_fields.1 h
  rcases optionally_confidenceWritten_iff.1 hheuristic with
    ⟨hfound, hnone⟩ | ⟨written, read, hfound, hread, hsome⟩
  · refine ⟨[], ⟨_, hcase, ?_⟩, .inl ⟨rfl, hnone.symm⟩⟩
    rw [hfound]
    exact .missing
  · obtain ⟨items, checks, hitems, hchecks, heq⟩ := readConfidence_eq_ok_iff.1 hread
    refine ⟨checks, ⟨_, hcase, ?_⟩, .inr (hsome.symm.trans heq)⟩
    rw [hfound]
    exact .given ⟨items, hitems, hchecks⟩

end Grammar

namespace Lexer

variable {library : Library} {resolve : Resolver} {doc : Json} {lexer : Lexer}

/-- A lexer is read from a document, or it is made from the grammar of the document with options of
its own. -/
inductive LoadedFrom (library : Library) (resolve : Resolver) (doc : Json) : Lexer → Prop
  /-- the document has the options, too -/
  | read {lexer : Lexer} (h : ofDocument library resolve doc = .ok lexer) :
      LoadedFrom library resolve doc lexer
  /-- any options -/
  | made {g : Grammar} {compiled : CompiledGrammar} {options : Options} {lexer : Lexer}
      (hread : Grammar.ofDocument library resolve doc = .ok g)
      (hcompile : g.compile library = .ok compiled)
      (hmake : make compiled options = .ok lexer) : LoadedFrom library resolve doc lexer

theorem grammar_of_make {compiled : CompiledGrammar} {options : Options}
    (h : make compiled options = .ok lexer) : lexer.grammar = compiled := by
  rw [make] at h
  split at h <;> cases h
  rfl

/-- Either way, it lexes with the grammar of the document. -/
theorem LoadedFrom.exists_grammar (h : LoadedFrom library resolve doc lexer) :
    ∃ g, Grammar.ofDocument library resolve doc = .ok g ∧
      g.compile library = .ok lexer.grammar := by
  cases h with
  | read h =>
    simp only [ofDocument, Outcome.bind_eq_ok] at h
    obtain ⟨g, hread, options, -, compiled, hcompile, hmake⟩ := h
    exact ⟨g, hread, grammar_of_make hmake ▸ hcompile⟩
  | made hread hcompile hmake => exact ⟨_, hread, grammar_of_make hmake ▸ hcompile⟩

/-- Compiling keeps the heuristic. -/
theorem LoadedFrom.confidence_eq (h : LoadedFrom library resolve doc lexer) {checks : List Check}
    (hchecks : Grammar.CarriesChecks library doc checks) (text : Bytes) :
    lexer.confidence text = ((Heuristic.checks checks).estimate text).clamp := by
  obtain ⟨g, hread, hcompile⟩ := h.exists_grammar
  obtain ⟨-, w, -, hgrammar⟩ := Grammar.compile_eq_ok hcompile
  obtain ⟨carried, hcarried, hheuristic⟩ := Grammar.exists_carriesChecks hread
  obtain rfl := hcarried.unique hchecks
  rw [confidence, CompiledGrammar.confidence, hgrammar, CompiledGrammar.ofStates]
  rcases hheuristic with ⟨rfl, hnone⟩ | hsome
  · simp [hnone, Heuristic.estimate, Estimate.clamp]
  · simp [hsome]

/-- **Confidence is the clamped maximum.** A document from which a lexer is loaded carries a list of
checks, all of which have an expression and a score. On every text the confidence of the lexer is
the greatest of zero and the scores of the checks whose expressions occur in the text, or one if
that is more. So it is the same for every lexer loaded from a document with these checks in another
order. -/
theorem confidence_clamps_maximum (h : LoadedFrom library resolve doc lexer) :
    ∃ checks, Grammar.CarriesChecks library doc checks ∧
      (∀ text, ∃ best, IsGreatest (insert 0 (foundScores checks text)) best ∧
        lexer.confidence text = min best 1) ∧
      ∀ resolve' doc' lexer' checks', LoadedFrom library resolve' doc' lexer' →
        Grammar.CarriesChecks library doc' checks' → checks'.Perm checks →
        ∀ text, lexer'.confidence text = lexer.confidence text := by
  obtain ⟨g, hread, -⟩ := h.exists_grammar
  obtain ⟨checks, hchecks, -⟩ := Grammar.exists_carriesChecks hread
  refine ⟨checks, hchecks, fun text => ?_, ?_⟩
  · rw [h.confidence_eq hchecks]
    exact Heuristic.clamp_estimate_checks checks text
  · intro resolve' doc' lexer' checks' h' hchecks' hperm text
    obtain ⟨best, hbest, heq⟩ := Heuristic.clamp_estimate_checks checks text
    obtain ⟨best', hbest', heq'⟩ := Heuristic.clamp_estimate_checks checks' text
    rw [foundScores_congr fun c => hperm.mem_iff] at hbest'
    rw [h.confidence_eq hchecks, h'.confidence_eq hchecks', heq, heq', hbest.unique hbest']

/-- A negative score, one score twice and one above one, in an order in which the second of the
equal ones is passed over. -/
def scoredDocument : Json :=
  .obj [
    (bytes "confidence", .arr [
      .obj [(bytes "regex", .str (bytes "b")), (bytes "score", .int (-1))],
      .obj [(bytes "regex", .str (bytes "A+")), (bytes "score", .real (1 / 2))],
      .obj [(bytes "regex", .str (bytes "x")), (bytes "score", .real (1 / 2))],
      .obj [(bytes "regex", .str (bytes "c$")), (bytes "score", .int 3)]]),
    (bytes "ignore_case", .bool true),
    (bytes "states", .obj [(bytes "root", .arr [])])]

theorem confidence_clamps_maximum_scored :
    ∃ lexer checks, LoadedFrom Regex.backtracking (fun _ => none) scoredDocument lexer ∧
      Grammar.CarriesChecks Regex.backtracking scoredDocument checks ∧
      (∃ best, IsGreatest (insert 0 (foundScores checks (bytes "xab"))) best ∧ min best 1 = 1 / 2) ∧
      ∃ best, IsGreatest (insert 0 (foundScores checks (bytes "xac"))) best ∧ min best 1 = 1 := by
  have hvalues : (ofDocument Regex.backtracking (fun _ => none) scoredDocument).toOption.map
      (fun lexer => (lexer.confidence (bytes "xab"), lexer.confidence (bytes "xac"))) =
      some (1 / 2, 1) := by
    decide +kernel
  cases hread : ofDocument Regex.backtracking (fun _ => none) scoredDocument with
  | error e => simp [hread, Except.toOption] at hvalues
  | ok lexer =>
    simp only [hread, Except.toOption, Option.map_some, Option.some_inj, Prod.mk.injEq] at hvalues
    obtain ⟨checks, hchecks, hmaximum, -⟩ := confidence_clamps_maximum (.read hread)
    obtain ⟨best, hbest, hab⟩ := hmaximum (bytes "xab")
    obtain ⟨best', hbest', hac⟩ := hmaximum (bytes "xac")
    exact ⟨lexer, checks, .read hread, hchecks, ⟨best, hbest, hab ▸ hvalues.1⟩,
      ⟨best', hbest', hac ▸ hvalues.2⟩⟩

end Lexer

end StackLexer
