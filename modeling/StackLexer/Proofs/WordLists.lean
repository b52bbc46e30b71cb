import Mathlib.Order.Bounds.Basic
import StackLexer.Proofs.LiteralPatterns

/-!
# Word lists match the longest word

Alternation takes the first alternative that matches, and the others are not tried. That it finds
the longest word of a list is due to the order in which the words are written: a word stands behind
every longer one, in particular behind those it is the beginning of.

* `wordBefore_trans`, `wordBefore_total`, `wordBefore_antisymm` — longer words first, words of one
  length in byte order, is a linear order;
* `mem_eraseReps`, `pairwise_eraseReps` — dropping what repeats the element before it keeps the
  members of a list, and leaves none twice in an ordered one;
* `sortedWords_congr` — so the sorted list depends only on which words there are;
* `isGreatest_of_find?` — the first of the sorted words that stands at a place is the longest;
* `wordsPattern_matches_longest` — the pattern of a list matches where a word of it stands, and
  takes the longest.
-/

namespace StackLexer

/-! ## The order of words -/

theorem wordBefore_iff {a b : Bytes} :
    wordBefore a b = true ↔ b.length < a.length ∨ a.length = b.length ∧ a ≤ b := by
  rw [wordBefore]
  split
  · next h => simp [h]
  · next h => simp [h]

theorem wordBefore_trans (a b c : Bytes) (hab : wordBefore a b = true)
    (hbc : wordBefore b c = true) : wordBefore a c = true := by
  rw [wordBefore_iff] at *
  rcases hab with hab | ⟨hab, hle⟩
  · exact .inl (by omega)
  · rcases hbc with hbc | ⟨hbc, hle'⟩
    · exact .inl (by omega)
    · exact .inr ⟨hab.trans hbc, List.le_trans hle hle'⟩

theorem wordBefore_total (a b : Bytes) : (wordBefore a b || wordBefore b a) = true := by
  rw [Bool.or_eq_true, wordBefore_iff, wordBefore_iff]
  rcases Nat.lt_trichotomy a.length b.length with h | h | h
  · exact .inr (.inl h)
  · rcases List.le_total a b with hle | hle
    · exact .inl (.inr ⟨h, hle⟩)
    · exact .inr (.inr ⟨h.symm, hle⟩)
  · exact .inl (.inl h)

theorem wordBefore_antisymm {a b : Bytes} (hab : wordBefore a b = true)
    (hba : wordBefore b a = true) : a = b := by
  rw [wordBefore_iff] at *
  rcases hab with hab | ⟨hab, hle⟩
  · omega
  · rcases hba with hba | ⟨-, hle'⟩
    · omega
    · exact List.le_antisymm hle hle'

/-! ## Repetitions -/

theorem eraseReps_loop {α : Type} [BEq α] (a : α) (l done : List α) :
    List.eraseRepsBy.loop (· == ·) a l done = done.reverse ++ (a :: l).eraseReps := by
  rw [List.eraseReps, List.eraseRepsBy]
  induction l generalizing a done with
  | nil => simp [List.eraseRepsBy.loop]
  | cons b l ih =>
    rw [List.eraseRepsBy.loop, List.eraseRepsBy.loop]
    split
    · exact ih a done
    · rw [ih b (a :: done), ih b [a]]
      simp

theorem eraseReps_cons_cons {α : Type} [BEq α] (a b : α) (l : List α) :
    (a :: b :: l).eraseReps =
      if a == b then (a :: l).eraseReps else a :: (b :: l).eraseReps := by
  rw [List.eraseReps, List.eraseRepsBy, List.eraseRepsBy.loop]
  cases a == b with
  | true => rfl
  | false => exact eraseReps_loop b l [a]

theorem mem_eraseReps {α : Type} [BEq α] [LawfulBEq α] {x : α} {l : List α} :
    x ∈ l.eraseReps ↔ x ∈ l := by
  cases l with
  | nil => rfl
  | cons a l =>
    induction l generalizing a with
    | nil => rfl
    | cons b l ih =>
      rw [eraseReps_cons_cons]
      split
      · next h => rw [ih, eq_of_beq h, List.mem_cons, List.mem_cons, List.mem_cons, or_self_left]
      · rw [List.mem_cons, ih, ← List.mem_cons]

/-- Where equal elements stand together, none is left twice. -/
theorem pairwise_eraseReps {α : Type} [BEq α] [LawfulBEq α] {r : α → α → Prop}
    (hanti : ∀ a b, r a b → r b a → a = b) {l : List α} (h : l.Pairwise r) :
    l.eraseReps.Pairwise fun a b => r a b ∧ a ≠ b := by
  cases l with
  | nil => exact .nil
  | cons a l =>
    induction l generalizing a with
    | nil => exact List.pairwise_singleton _ a
    | cons b l ih =>
      obtain ⟨ha, hl⟩ := List.pairwise_cons.1 h
      rw [eraseReps_cons_cons]
      split
      · exact ih a (List.pairwise_cons.2 ⟨fun c hc => ha c (List.mem_cons_of_mem b hc), hl.of_cons⟩)
      · next hab =>
        refine List.pairwise_cons.2 ⟨fun c hc => ?_, ih b hl⟩
        rw [mem_eraseReps] at hc
        refine ⟨ha c hc, ?_⟩
        -- what comes back behind `b` would be on both sides of it
        rintro rfl
        rcases List.mem_cons.1 hc with rfl | hc
        · exact hab (beq_self_eq_true a)
        · have hba : r b a := (List.pairwise_cons.1 hl).1 a hc
          exact hab (beq_iff_eq.2 (hanti a b (ha b List.mem_cons_self) hba))

/-! ## Sorted words -/

theorem mem_sortedWords {words : List Bytes} {w : Bytes} : w ∈ sortedWords words ↔ w ∈ words := by
  rw [sortedWords, mem_eraseReps, List.mem_mergeSort]

theorem pairwise_sortedWords (words : List Bytes) :
    (sortedWords words).Pairwise fun a b => wordBefore a b = true ∧ a ≠ b :=
  pairwise_eraseReps (fun _ _ => wordBefore_antisymm)
    (List.pairwise_mergeSort wordBefore_trans wordBefore_total words)

/-- The sorted list depends only on which words there are. -/
theorem sortedWords_congr {words others : List Bytes} (h : ∀ w, w ∈ others ↔ w ∈ words) :
    sortedWords others = sortedWords words := by
  have hnodup : ∀ l, (sortedWords l).Nodup := fun l => (pairwise_sortedWords l).imp And.right
  have hperm : (sortedWords others).Perm (sortedWords words) := by
    rw [List.perm_ext_iff_of_nodup (hnodup others) (hnodup words)]
    intro w
    rw [mem_sortedWords, mem_sortedWords, h]
  exact hperm.eq_of_pairwise (fun _ _ _ _ => wordBefore_antisymm)
    ((pairwise_sortedWords others).imp And.left) ((pairwise_sortedWords words).imp And.left)

/-- The first of the sorted words that stands at the front of a text is the longest. -/
theorem isGreatest_of_find? {words : List Bytes} {rest w : Bytes}
    (h : (sortedWords words).find? (fun w => w.isPrefixOf rest) = some w) :
    IsGreatest {n | ∃ w ∈ words, w <+: rest ∧ w.length = n} w.length := by
  obtain ⟨hw, earlier, later, hsorted, hearlier⟩ := List.find?_eq_some_iff_append.1 h
  constructor
  · exact ⟨w, mem_sortedWords.1 (List.mem_of_find?_eq_some h), List.isPrefixOf_iff_prefix.1 hw, rfl⟩
  · rintro _ ⟨v, hv, hstands, rfl⟩
    have hpairwise := pairwise_sortedWords words
    rw [← mem_sortedWords, hsorted, List.mem_append, List.mem_cons] at hv
    rw [hsorted, List.pairwise_append, List.pairwise_cons] at hpairwise
    rcases hv with hv | rfl | hv
    · have hnone := hearlier v hv
      rw [List.isPrefixOf_iff_prefix.2 hstands] at hnone
      cases hnone
    · exact Nat.le_refl _
    · have hbefore := wordBefore_iff.1 (hpairwise.2.1.1 v hv).1
      omega

/-- **The longest word.** Take any library that reads plain patterns as Perl does. It reads what is
written for a list of words; and at every place of every text this matches exactly when a word of
the list stands there, and takes as many bytes as the longest such word. It has no groups. Between
any two patterns, what is written depends only on which words are listed. -/
theorem wordsPattern_matches_longest {library : Library} (hperl : library.Perl)
    {words : List Bytes} (hne : words ≠ []) :
    (∃ e, library.read false (wordsPattern words [] []) = .ok e ∧ ∀ c : Cursor,
      ((∃ m, e.matchAt c = some m) ↔ ∃ w ∈ words, w <+: c.text.drop c.position) ∧
      ∀ m, e.matchAt c = some m → m.groups = [] ∧
        IsGreatest {n | ∃ w ∈ words, w <+: c.text.drop c.position ∧ w.length = n} m.length) ∧
    ∀ others, (∀ w, w ∈ others ↔ w ∈ words) → ∀ front back,
      wordsPattern others front back = wordsPattern words front back := by
  have hsorted : sortedWords words ≠ [] := by
    obtain ⟨w, hw⟩ := List.exists_mem_of_ne_nil words hne
    exact List.ne_nil_of_mem (mem_sortedWords.2 hw)
  obtain ⟨e, hread, hmatches⟩ := hperl.matches_words hsorted
  refine ⟨⟨e, ?_, fun c => ?_⟩, fun others h front back => ?_⟩
  · rw [wordsPattern, List.nil_append, List.append_nil]
    exact hread
  · rw [hmatches, ← c.rest_eq, Perl.firstWord, Option.map_map]
    constructor
    · simp only [← Option.isSome_iff_exists, Option.isSome_map, List.find?_isSome, mem_sortedWords,
        List.isPrefixOf_iff_prefix]
    · intro m hm
      obtain ⟨w, hw, rfl⟩ := Option.map_eq_some_iff.1 hm
      exact ⟨rfl, isGreatest_of_find? hw⟩
  · rw [wordsPattern, wordsPattern, sortedWords_congr h]

/-- Words that begin others, one of them empty and one repeated, and one with bytes that mean
something in patterns. -/
theorem wordsPattern_matches_longest_nested :
    Regex.backtracking.Perl ∧ ∃ e, Regex.backtracking.read false (wordsPattern [bytes "else",
      bytes "else if", [], bytes "else", bytes "else if(*"] [] []) = .ok e ∧
      e.matchAt ((Cursor.start (bytes "; else if (")).advance 2) = some ⟨7, []⟩ := by
  obtain ⟨⟨e, hread, hmatches⟩, -⟩ := wordsPattern_matches_longest Regex.backtracking_perl
    (List.cons_ne_nil (bytes "else") [bytes "else if", [], bytes "else", bytes "else if(*"])
  obtain ⟨hiff, hlongest⟩ := hmatches ((Cursor.start (bytes "; else if (")).advance 2)
  have hstands : bytes "else if" <+: (bytes "; else if (").drop 2 :=
    List.isPrefixOf_iff_prefix.1 (by decide +kernel)
  obtain ⟨⟨length, groups⟩, hm⟩ := hiff.2 ⟨_, by simp, hstands⟩
  obtain ⟨rfl, hgreatest⟩ := hlongest _ hm
  have hlength : length = 7 := by
    refine hgreatest.unique ⟨⟨_, by simp, hstands, by decide +kernel⟩, ?_⟩
    rintro _ ⟨w, hw, hfront, rfl⟩
    rw [← List.isPrefixOf_iff_prefix] at hfront
    revert w
    decide +kernel
  exact ⟨Regex.backtracking_perl, e, hread, hlength ▸ hm⟩

end StackLexer
