import StackLexer.Expression
import StackLexer.Regex.Words

/-!
# Plain patterns

What a pattern means is up to the library that reads it. The patterns made for words are plain ones:
they consist of literal bytes, of bars between alternatives and of one group around them. All
libraries with the syntax of Perl agree on these, and what they agree on is put down here.

* `Perl.Literal`, `Perl.Alternatives` — patterns that are a text, and patterns that are several
  texts with bars between them. Nothing in them reaches beyond its place, as a quantifier or an open
  quote would, so they can be put together;
* `Library.Matches` — a pattern is read, and matches as many bytes as a function of the text says;
* `Library.Perl` — the laws: literal bytes, bytes behind a backslash, alternatives of which the
  leftmost one counts, and groups that capture nothing. Each is about one step, and none of them is
  about a list of words;
* `Library.Perl.matches_escapePattern`, `Library.Perl.matches_words` — from these laws, by induction
  on the word and on the list: an escaped word matches where it stands, and a list of words like the
  first of them that stands there.
-/

namespace StackLexer

namespace Perl

/-- The bytes that do not stand for themselves in a pattern. -/
def special : Bytes := bytes ".[]\x7b\x7d()\\*+?|^$"

/-- A text as a pattern: each byte as it is, or behind a backslash if it is special. -/
inductive Literal : Bytes → Prop
  /-- the empty text -/
  | empty : Literal []
  /-- a byte that stands for itself, and more -/
  | ordinary {b : UInt8} {p : Bytes} (hb : b ∉ special) (h : Literal p) : Literal (b :: p)
  /-- a special byte behind a backslash, and more -/
  | escaped {b : UInt8} {p : Bytes} (hb : b ∈ special) (h : Literal p) : Literal (92 :: b :: p)

/-- Texts with bars between them. -/
inductive Alternatives : Bytes → Prop
  /-- a single text -/
  | literal {p : Bytes} (h : Literal p) : Alternatives p
  /-- a text before others -/
  | bar {p q : Bytes} (hp : Literal p) (hq : Alternatives q) : Alternatives (p ++ bytes "|" ++ q)

/-- A byte, and after it what `f` says. -/
def after (b : UInt8) (f : Bytes → Option Nat) : Bytes → Option Nat
  | [] => none
  | c :: rest => if c = b then (f rest).map (· + 1) else none

end Perl

namespace Library

variable {library : Library}

/-- With ASCII letters as they are, the pattern is read, and at each place it matches as many bytes
as `f` says of what is left of the text. It has no groups. -/
def Matches (library : Library) (pattern : Bytes) (f : Bytes → Option Nat) : Prop :=
  ∃ e, library.read false pattern = .ok e ∧
    ∀ c : Cursor, e.matchAt c = (f c.rest).map fun n => ⟨n, []⟩

/-- A pattern matches in one way. -/
theorem Matches.unique {pattern : Bytes} {f g : Bytes → Option Nat}
    (hf : library.Matches pattern f) (hg : library.Matches pattern g) : f = g := by
  obtain ⟨e, he, hf⟩ := hf
  obtain ⟨e', he', hg⟩ := hg
  cases he.symm.trans he'
  funext rest
  have hmap := (hf (.start rest)).symm.trans (hg (.start rest))
  exact Option.map_injective (fun _ _ h => congrArg Match.length h) hmap

/-- **The laws of plain patterns**, as in Perl. -/
structure Perl (library : Library) : Prop where
  /-- the empty pattern matches everywhere and takes nothing -/
  empty : library.Matches [] fun _ => some 0
  /-- a byte that is not special stands for itself -/
  ordinary : ∀ b p f, b ∉ Perl.special → Perl.Literal p → library.Matches p f →
    library.Matches (b :: p) (Perl.after b f)
  /-- a special byte behind a backslash stands for itself -/
  escaped : ∀ b p f, b ∈ Perl.special → Perl.Literal p → library.Matches p f →
    library.Matches (92 :: b :: p) (Perl.after b f)
  /-- of alternatives, the leftmost one that matches counts -/
  alternation : ∀ p q f g, Perl.Literal p → Perl.Alternatives q → library.Matches p f →
    library.Matches q g → library.Matches (p ++ bytes "|" ++ q) fun rest => (f rest).or (g rest)
  /-- a group that captures nothing matches as what is in it -/
  group : ∀ p f, Perl.Alternatives p → library.Matches p f →
    library.Matches (bytes "(?:" ++ p ++ bytes ")") f

end Library

/-! ## Words -/

namespace Perl

/-- How many bytes the first of some words takes that stands at the front of a text. -/
def firstWord (ws : List Bytes) (rest : Bytes) : Option Nat :=
  (ws.find? fun w => w.isPrefixOf rest).map List.length

theorem firstWord_nil : firstWord [[]] = fun _ => some 0 := rfl

theorem firstWord_cons (b : UInt8) (w : Bytes) : firstWord [b :: w] = after b (firstWord [w]) := by
  funext rest
  cases rest with
  | nil => rfl
  | cons c rest =>
    simp only [firstWord, after, List.find?_singleton, List.isPrefixOf_cons_cons,
      Bool.and_eq_true, beq_iff_eq, eq_comm (a := c)]
    by_cases hc : b = c
    · simp only [hc, true_and, if_true]
      split <;> simp
    · simp [hc]

theorem firstWord_cons_cons (w : Bytes) (ws : List Bytes) :
    firstWord (w :: ws) = fun rest => (firstWord [w] rest).or (firstWord ws rest) := by
  funext rest
  simp only [firstWord, List.find?_cons]
  cases w.isPrefixOf rest <;> rfl

/-- What is written with a backslash is what is special. -/
theorem mem_special_iff {b : UInt8} : b ∈ special ↔ specialBytes.contains b = true := by
  have hspecial : special.all specialBytes.contains = true := by decide +kernel
  have hescaped : specialBytes.all special.contains = true := by decide +kernel
  constructor
  · exact fun h => List.all_eq_true.1 hspecial b h
  · exact fun h => List.contains_iff_mem.1
      (List.all_eq_true.1 hescaped b (List.contains_iff_mem.1 h))

theorem escapePattern_ordinary {b : UInt8} (h : b ∉ special) (w : Bytes) :
    escapePattern (b :: w) = b :: escapePattern w := by
  rw [mem_special_iff] at h
  rw [escapePattern, List.flatMap_cons, if_neg h]
  rfl

theorem escapePattern_special {b : UInt8} (h : b ∈ special) (w : Bytes) :
    escapePattern (b :: w) = 92 :: b :: escapePattern w := by
  rw [mem_special_iff] at h
  rw [escapePattern, List.flatMap_cons, if_pos h]
  rfl

theorem literal_escapePattern (w : Bytes) : Literal (escapePattern w) := by
  induction w with
  | nil => exact .empty
  | cons b w ih =>
    by_cases hb : b ∈ special
    · exact escapePattern_special hb w ▸ .escaped hb ih
    · exact escapePattern_ordinary hb w ▸ .ordinary hb ih

/-- Some words with bars between them. -/
def wordPattern (ws : List Bytes) : Bytes := (bytes "|").intercalate (ws.map escapePattern)

theorem wordPattern_singleton (w : Bytes) : wordPattern [w] = escapePattern w := by
  simp [wordPattern, List.intercalate]

theorem wordPattern_cons {w : Bytes} {ws : List Bytes} (hne : ws ≠ []) :
    wordPattern (w :: ws) = escapePattern w ++ bytes "|" ++ wordPattern ws := by
  obtain ⟨next, more, rfl⟩ := List.exists_cons_of_ne_nil hne
  simp [wordPattern, List.intercalate]

theorem alternatives_wordPattern {ws : List Bytes} (hne : ws ≠ []) :
    Alternatives (wordPattern ws) := by
  induction ws with
  | nil => exact absurd rfl hne
  | cons w ws ih =>
    by_cases hws : ws = []
    · subst hws
      exact wordPattern_singleton w ▸ .literal (literal_escapePattern w)
    · exact wordPattern_cons hws ▸ .bar (literal_escapePattern w) (ih hws)

end Perl

namespace Library.Perl

open StackLexer.Perl

variable {library : Library}

/-- **An escaped word** matches where it stands. -/
theorem matches_escapePattern (h : library.Perl) (w : Bytes) :
    library.Matches (escapePattern w) (firstWord [w]) := by
  induction w with
  | nil => exact h.empty
  | cons b w ih =>
    rw [firstWord_cons]
    by_cases hb : b ∈ special
    · rw [escapePattern_special hb]
      exact h.escaped b _ _ hb (literal_escapePattern w) ih
    · rw [escapePattern_ordinary hb]
      exact h.ordinary b _ _ hb (literal_escapePattern w) ih

/-- **Words with bars between them** match like the first of them that stands at the place. -/
theorem matches_wordPattern (h : library.Perl) {ws : List Bytes} (hne : ws ≠ []) :
    library.Matches (wordPattern ws) (firstWord ws) := by
  induction ws with
  | nil => exact absurd rfl hne
  | cons w ws ih =>
    by_cases hws : ws = []
    · subst hws
      exact wordPattern_singleton w ▸ h.matches_escapePattern w
    · rw [wordPattern_cons hws, firstWord_cons_cons]
      exact h.alternation _ _ _ _ (literal_escapePattern w) (alternatives_wordPattern hws)
        (h.matches_escapePattern w) (ih hws)

/-- So does a group of them. -/
theorem matches_words (h : library.Perl) {ws : List Bytes} (hne : ws ≠ []) :
    library.Matches (bytes "(?:" ++ wordPattern ws ++ bytes ")") (firstWord ws) :=
  h.group _ _ (alternatives_wordPattern hne) (h.matches_wordPattern hne)

end Library.Perl

end StackLexer
