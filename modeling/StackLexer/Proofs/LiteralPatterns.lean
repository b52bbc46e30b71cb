import StackLexer.Proofs.PlainPatterns
import StackLexer.Regex.Engine

/-!
# Literal texts in patterns

A word gets into a pattern with a backslash before each byte that would mean something there. From
then on it is read back as lexemes, collected item by item in an open group, and searched for byte
by byte. Nothing of that may depend on what stands behind the word, be it a bar or a parenthesis.

* `Regex.Spells` — a piece of a pattern that is cut into given lexemes whatever follows it; such
  pieces can be put together (`Regex.Spells.append`), and escaped words are among them
  (`Regex.spells_escapePattern`);
* `Regex.literal`, `Regex.anyWord` — the expressions of a word and of several words, the first ones
  preferred; `Regex.Reading.run_words` says that they are what an open group has collected once the
  words are read;
* `Pattern.parse?_wordPattern`, `Pattern.parse?_words` — so the pattern of some words is always
  read, alone or in a group, as the expression of these words;
* `Regex.run_anyWord` — it matches like the first of the words that stands there;
* `Regex.backtracking_perl` — so the library of small patterns keeps the laws of plain patterns.
-/

namespace StackLexer

namespace Regex

/-! ## Lexemes -/

/-- A piece of a pattern is cut into these lexemes, whatever follows it. -/
structure Spells (written : Bytes) (ls : List Lexeme) : Prop where
  /-- there are bytes enough for a round each -/
  length_le : ls.length ≤ written.length
  /-- what follows is cut on its own, in the rounds that are left -/
  lexemesIn_append (rounds : Nat) (rest : Bytes) :
    lexemesIn (ls.length + rounds) (written ++ rest) = (lexemesIn rounds rest).map (ls ++ ·)

namespace Spells

theorem nil : Spells [] [] where
  length_le := Nat.le_refl 0
  lexemesIn_append rounds rest := by simp

/-- A single lexeme. -/
theorem single {b : UInt8} {front : Bytes} {l : Lexeme}
    (h : ∀ rest, lexeme b (front ++ rest) = some (l, rest)) : Spells (b :: front) [l] where
  length_le := by simp
  lexemesIn_append rounds rest := by
    rw [List.length_singleton, Nat.add_comm, List.cons_append, lexemesIn, h]
    rfl

/-- One piece after another. -/
theorem append {s t : Bytes} {ls ms : List Lexeme} (hs : Spells s ls) (ht : Spells t ms) :
    Spells (s ++ t) (ls ++ ms) where
  length_le := by
    have := hs.length_le
    have := ht.length_le
    simp only [List.length_append]
    omega
  lexemesIn_append rounds rest := by
    rw [List.append_assoc, List.length_append, Nat.add_assoc, hs.lexemesIn_append,
      ht.lexemesIn_append, Option.map_map]
    congr 1
    funext more
    exact (List.append_assoc ls ms more).symm

/-- Nothing needs to follow. -/
theorem lexemes_eq {s : Bytes} {ls : List Lexeme} (h : Spells s ls) : lexemes s = some ls := by
  obtain ⟨rounds, hrounds⟩ := Nat.exists_eq_add_of_le h.length_le
  have hall := h.lexemesIn_append rounds []
  rw [List.append_nil, ← hrounds] at hall
  rw [lexemes, hall]
  cases rounds <;> simp [lexemesIn]

end Spells

theorem specialBytes_eq :
    specialBytes = [92, 94, 36, 46, 124, 63, 42, 43, 40, 41, 91, 93, 123, 125] := by
  decide +kernel

/-- A byte that means something stands for itself behind a backslash. -/
theorem escape_of_mem {b : UInt8} (h : b ∈ specialBytes) : escape b = some (.byte b) := by
  have hall : specialBytes.all (fun b => escape b = some (.byte b)) = true := by decide +kernel
  exact of_decide_eq_true (List.all_eq_true.1 hall b h)

/-- Any other byte stands for itself. -/
theorem lexeme_of_not_mem {b : UInt8} (h : b ∉ specialBytes) (rest : Bytes) :
    lexeme b rest = some (.byte b, rest) := by
  rw [specialBytes_eq] at h
  simp only [List.mem_cons, List.not_mem_nil, not_or, or_false] at h
  simp [lexeme, h]

/-- An escaped text is cut into its bytes. -/
theorem spells_escapePattern (w : Bytes) : Spells (escapePattern w) (w.map .byte) := by
  induction w with
  | nil => exact .nil
  | cons b w ih =>
    have hfirst : Spells (if specialBytes.contains b then [92, b] else [b]) [.byte b] := by
      split
      · next h =>
        refine .single fun rest => ?_
        rw [List.singleton_append, lexeme, if_pos rfl, escape_of_mem (List.contains_iff_mem.1 h)]
        rfl
      · next h =>
        refine .single fun rest => lexeme_of_not_mem ?_ rest
        exact fun hmem => h (List.contains_iff_mem.2 hmem)
    exact hfirst.append ih

/-- The lexemes of some words with bars between them. -/
def wordLexemes : List Bytes → List Lexeme
  | [] => []
  | [w] => w.map .byte
  | w :: more => w.map .byte ++ .bar :: wordLexemes more

theorem wordLexemes_cons {w : Bytes} {more : List Bytes} (hmore : more ≠ []) :
    wordLexemes (w :: more) = w.map .byte ++ .bar :: wordLexemes more := by
  rw [wordLexemes]
  exact hmore

theorem spells_wordPattern (ws : List Bytes) :
    Spells (Perl.wordPattern ws) (wordLexemes ws) := by
  induction ws using wordLexemes.induct with
  | case1 => exact .nil
  | case2 w => exact Perl.wordPattern_singleton w ▸ spells_escapePattern w
  | case3 w more hmore ih =>
    have hbar : Spells (bytes "|") [.bar] := .single fun rest => rfl
    rw [Perl.wordPattern_cons hmore, wordLexemes_cons hmore, List.append_assoc]
    exact (spells_escapePattern w).append (hbar.append ih)

/-! ## Reading -/

/-- The item of a literal byte. -/
def byteItem (anyCase : Bool) (b : UInt8) : Regex := .one ⟨[(b, b)], false, anyCase⟩

/-- The expression of a word. -/
def literal (anyCase : Bool) (w : Bytes) : Regex :=
  w.foldr (fun b after => .seq (byteItem anyCase b) after) .empty

/-- The expression of some words, the first ones preferred. -/
def anyWord (anyCase : Bool) : List Bytes → Regex
  | [] => .empty
  | [w] => literal anyCase w
  | w :: more => .alt (literal anyCase w) (anyWord anyCase more)

theorem anyWord_cons {anyCase : Bool} {w : Bytes} {more : List Bytes} (hmore : more ≠ []) :
    anyWord anyCase (w :: more) = .alt (literal anyCase w) (anyWord anyCase more) := by
  rw [anyWord]
  exact hmore

namespace OpenGroup

/-- A group after the bytes of a word. -/
def addWord (anyCase : Bool) (g : OpenGroup) (w : Bytes) : OpenGroup :=
  w.foldl (fun g b => g.add (byteItem anyCase b)) g

@[simp] theorem kind_settle (g : OpenGroup) : g.settle.kind = g.kind := by
  obtain ⟨kind, finished, items, waiting⟩ := g
  cases waiting <;> rfl

@[simp] theorem finished_settle (g : OpenGroup) : g.settle.finished = g.finished := by
  obtain ⟨kind, finished, items, waiting⟩ := g
  cases waiting <;> rfl

theorem kind_nextAlternative (g : OpenGroup) : g.nextAlternative.kind = g.kind := kind_settle g

theorem finished_nextAlternative (g : OpenGroup) :
    g.nextAlternative.finished = sequence g.settle.items :: g.finished :=
  congrArg (sequence g.settle.items :: ·) (finished_settle g)

theorem items_settle_nextAlternative (g : OpenGroup) :
    g.nextAlternative.settle.items = [] := by
  obtain ⟨kind, finished, items, waiting⟩ := g
  cases waiting <;> rfl

theorem settle_add (g : OpenGroup) (item : Regex) :
    (g.add item).settle = { g.settle with items := item :: g.settle.items } := by
  obtain ⟨kind, finished, items, waiting⟩ := g
  cases waiting <;> rfl

/-- The bytes of a word become items, latest first. -/
theorem settle_addWord (anyCase : Bool) (g : OpenGroup) (w : Bytes) :
    (g.addWord anyCase w).settle =
      { g.settle with items := (w.map (byteItem anyCase)).reverse ++ g.settle.items } := by
  induction w generalizing g with
  | nil => rfl
  | cons b w ih =>
    rw [addWord, List.foldl_cons, ← addWord, ih, settle_add]
    simp

theorem kind_addWord (anyCase : Bool) (g : OpenGroup) (w : Bytes) :
    (g.addWord anyCase w).kind = g.kind := by
  rw [← kind_settle, settle_addWord, kind_settle]

theorem finished_addWord (anyCase : Bool) (g : OpenGroup) (w : Bytes) :
    (g.addWord anyCase w).finished = g.finished := by
  rw [← finished_settle, settle_addWord, finished_settle]

/-- Items collected from nothing are the expression of the word. -/
theorem sequence_addWord {anyCase : Bool} {g : OpenGroup} (hitems : g.settle.items = [])
    (w : Bytes) : sequence (g.addWord anyCase w).settle.items = literal anyCase w := by
  rw [settle_addWord, hitems, List.append_nil, sequence, List.foldl_reverse, List.foldr_map]
  rfl

end OpenGroup

namespace Reading

/-- A word is taken in byte by byte. -/
theorem run_word (anyCase : Bool) (r : Reading) (w : Bytes) (ls : List Lexeme) :
    r.run anyCase (w.map .byte ++ ls) =
      run anyCase { r with inner := r.inner.addWord anyCase w } ls := by
  induction w generalizing r with
  | nil => rfl
  | cons b w ih =>
    rw [List.map_cons, List.cons_append, run, List.foldlM_cons, step, Option.bind_eq_bind,
      Option.bind_some, ← run, ih]
    rfl

/-- Some words are taken in as alternatives, behind those the group has already. -/
theorem run_words (anyCase : Bool) {ws : List Bytes} (hne : ws ≠ []) {r : Reading}
    (hitems : r.inner.settle.items = []) (ls : List Lexeme) :
    ∃ inner, r.run anyCase (wordLexemes ws ++ ls) = run anyCase { r with inner := inner } ls ∧
      inner.kind = r.inner.kind ∧
      inner.body = r.inner.finished.foldl (fun after a => .alt a after) (anyWord anyCase ws) := by
  induction ws using wordLexemes.induct generalizing r with
  | case1 => exact absurd rfl hne
  | case2 w =>
    refine ⟨r.inner.addWord anyCase w, run_word anyCase r w ls, OpenGroup.kind_addWord .., ?_⟩
    rw [OpenGroup.body, OpenGroup.finished_settle, OpenGroup.finished_addWord,
      OpenGroup.sequence_addWord hitems, anyWord]
  | case3 w more hmore ih =>
    obtain ⟨inner, hrun, hkind, hbody⟩ := ih hmore
      (r := { r with inner := (r.inner.addWord anyCase w).nextAlternative })
      (OpenGroup.items_settle_nextAlternative _)
    refine ⟨inner, ?_, ?_, ?_⟩
    · rw [wordLexemes_cons hmore, List.append_assoc, run_word]
      exact hrun
    · rw [hkind, OpenGroup.kind_nextAlternative, OpenGroup.kind_addWord]
    · rw [hbody, OpenGroup.finished_nextAlternative, OpenGroup.sequence_addWord hitems,
        OpenGroup.finished_addWord, List.foldl_cons, anyWord_cons hmore]

end Reading

end Regex

namespace Pattern

open Regex

/-- The pattern of some words is read as the expression of the words, and has no groups. -/
theorem parse?_wordPattern (anyCase : Bool) {ws : List Bytes} (hne : ws ≠ []) :
    Pattern.parse? anyCase (Perl.wordPattern ws) = some ⟨anyWord anyCase ws, 0⟩ := by
  obtain ⟨inner, hrun, -, hbody⟩ := Reading.run_words anyCase hne (r := Reading.start) rfl []
  have hread : Reading.start.run anyCase (wordLexemes ws) = some { Reading.start with inner } := by
    rw [← List.append_nil (wordLexemes ws), hrun]
    rfl
  rw [Pattern.parse?, (spells_wordPattern ws).lexemes_eq]
  simp only [hread]
  rw [hbody]
  rfl

/-- So is a group of them. -/
theorem parse?_words (anyCase : Bool) {ws : List Bytes} (hne : ws ≠ []) :
    Pattern.parse? anyCase (bytes "(?:" ++ Perl.wordPattern ws ++ bytes ")") =
      some ⟨.seq (anyWord anyCase ws) .empty, 0⟩ := by
  have hopening : Spells (bytes "(?:") [.opening .plain] := .single fun rest => rfl
  have hclosing : Spells (bytes ")") [.closing] := .single fun rest => rfl
  have hlexemes := ((hopening.append (spells_wordPattern ws)).append hclosing).lexemes_eq
  -- between the parentheses, the words are collected in a group that has nothing yet
  obtain ⟨inner, hrun, hkind, hbody⟩ := Reading.run_words anyCase hne
    (r := ⟨OpenGroup.fresh (some (.plain, 0)), [OpenGroup.fresh none], 0⟩) rfl [.closing]
  have hread : Reading.start.run anyCase ([.opening .plain] ++ wordLexemes ws ++ [.closing]) =
      some ⟨(OpenGroup.fresh none).add (anyWord anyCase ws), [], 0⟩ := by
    rw [List.append_assoc]
    refine hrun.trans ?_
    rw [Reading.run, List.foldlM_cons, Reading.step, hkind, hbody]
    rfl
  rw [Pattern.parse?, hlexemes]
  simp only [hread]
  rfl

end Pattern

namespace Regex

/-! ## Matching -/

theorem run_byteItem {t : Thread} {c : UInt8} {rest : Bytes} (hrest : t.rest = c :: rest)
    (b : UInt8) (k : Continuation) : (byteItem false b).run t k =
      if c = b then k ⟨some c, t.offset + 1, rest, t.captures⟩ else none := by
  have hcontains : (ByteSet.mk [(b, b)] false false).contains c = true ↔ c = b := by
    simp [ByteSet.contains, ByteSet.inRanges, UInt8.le_antisymm_iff, and_comm]
  simp only [byteItem, run, hrest, hcontains]

/-- A word that stands at a place is stepped over. -/
theorem exists_run_literal {w : Bytes} {t : Thread} (h : w <+: t.rest) :
    ∃ u : Thread, u.offset = t.offset + w.length ∧ ∀ k, (literal false w).run t k = k u := by
  induction w generalizing t with
  | nil => exact ⟨t, rfl, fun k => rfl⟩
  | cons b w ih =>
    obtain ⟨rest, hrest⟩ := h
    rw [List.cons_append] at hrest
    obtain ⟨u, hoffset, hrun⟩ := ih (t := ⟨some b, t.offset + 1, w ++ rest, t.captures⟩)
      (List.prefix_append w rest)
    refine ⟨u, ?_, fun k => ?_⟩
    · rw [hoffset, List.length_cons, Nat.add_comm w.length, Nat.add_assoc]
    · rw [literal, List.foldr_cons, ← literal, run, run_byteItem hrest.symm, if_pos rfl, hrun]

/-- A word that does not stand at a place fails there. -/
theorem run_literal_eq_none {w : Bytes} {t : Thread} (h : ¬w <+: t.rest) (k : Continuation) :
    (literal false w).run t k = none := by
  induction w generalizing t with
  | nil => exact absurd List.nil_prefix h
  | cons b w ih =>
    rw [literal, List.foldr_cons, ← literal, run]
    cases hrest : t.rest with
    | nil => simp only [byteItem, run, hrest]
    | cons c rest =>
      rw [run_byteItem hrest]
      split
      · next hc =>
        refine ih fun hw => h ?_
        rw [hrest, hc]
        exact List.cons_prefix_cons.2 ⟨rfl, hw⟩
      · rfl

/-- Of several words, the first that stands at a place is stepped over. -/
theorem run_anyWord {ws : List Bytes} (hne : ws ≠ []) (t : Thread) :
    ((anyWord false ws).run t some).map Thread.offset =
      (ws.find? fun w => w.isPrefixOf t.rest).map fun w => t.offset + w.length := by
  have hword : ∀ w, ((literal false w).run t some).map Thread.offset =
      if w.isPrefixOf t.rest then some (t.offset + w.length) else none := by
    intro w
    split
    · next h =>
      obtain ⟨u, hoffset, hrun⟩ := exists_run_literal (List.isPrefixOf_iff_prefix.1 h)
      rw [hrun, Option.map_some, hoffset]
    · next h =>
      rw [run_literal_eq_none fun hw => h (List.isPrefixOf_iff_prefix.2 hw), Option.map_none]
  induction ws using wordLexemes.induct with
  | case1 => exact absurd rfl hne
  | case2 w =>
    rw [anyWord, hword, List.find?_singleton]
    split <;> rfl
  | case3 w more hmore ih =>
    rw [anyWord_cons hmore, run, Option.orElse_eq_or, Option.map_or, hword, ih hmore,
      List.find?_cons]
    cases w.isPrefixOf t.rest <;> rfl

/-! ## The laws of plain patterns -/

theorem exists_of_literal {p : Bytes} (h : Perl.Literal p) : ∃ w, p = escapePattern w := by
  induction h with
  | empty => exact ⟨[], rfl⟩
  | @ordinary b p hb _ ih =>
    obtain ⟨w, rfl⟩ := ih
    exact ⟨b :: w, (Perl.escapePattern_ordinary hb w).symm⟩
  | @escaped b p hb _ ih =>
    obtain ⟨w, rfl⟩ := ih
    exact ⟨b :: w, (Perl.escapePattern_special hb w).symm⟩

theorem exists_of_alternatives {p : Bytes} (h : Perl.Alternatives p) :
    ∃ ws, ws ≠ [] ∧ p = Perl.wordPattern ws := by
  induction h with
  | literal h =>
    obtain ⟨w, rfl⟩ := exists_of_literal h
    exact ⟨[w], List.cons_ne_nil w [], (Perl.wordPattern_singleton w).symm⟩
  | bar hp _ ih =>
    obtain ⟨w, rfl⟩ := exists_of_literal hp
    obtain ⟨ws, hws, rfl⟩ := ih
    exact ⟨w :: ws, List.cons_ne_nil w ws, (Perl.wordPattern_cons hws).symm⟩

/-- An expression of words matches like the first one that stands there. -/
theorem matches_of_parse {ws : List Bytes} (hne : ws ≠ []) {pattern : Bytes} {body : Regex}
    (hparse : Pattern.parse? false pattern = some ⟨body, 0⟩)
    (hbody : ∀ t, body.run t some = (anyWord false ws).run t some) :
    backtracking.Matches pattern (Perl.firstWord ws) := by
  refine ⟨(Pattern.mk body 0).expression, by simp only [backtracking, hparse], fun c => ?_⟩
  have hrun := congrArg (Option.map fun n => Match.mk n [])
    (run_anyWord hne ⟨c.before, 0, c.rest, []⟩)
  simp only [Option.map_map, Nat.zero_add, ← hbody] at hrun
  rw [Pattern.matchAt_expression, Perl.firstWord, Option.map_map]
  exact hrun

theorem matches_wordPattern {ws : List Bytes} (hne : ws ≠ []) :
    backtracking.Matches (Perl.wordPattern ws) (Perl.firstWord ws) :=
  matches_of_parse hne (Pattern.parse?_wordPattern false hne) fun _ => rfl

theorem matches_escapePattern (w : Bytes) :
    backtracking.Matches (escapePattern w) (Perl.firstWord [w]) :=
  Perl.wordPattern_singleton w ▸ matches_wordPattern (List.cons_ne_nil w [])

/-- **Small patterns keep the laws.** A pattern the laws speak of is that of a word or of several,
so what it matches is known. -/
theorem backtracking_perl : backtracking.Perl where
  empty := Perl.firstWord_nil ▸ matches_escapePattern []
  ordinary b p f hb hp hf := by
    obtain ⟨w, rfl⟩ := exists_of_literal hp
    rw [hf.unique (matches_escapePattern w), ← Perl.firstWord_cons,
      ← Perl.escapePattern_ordinary hb]
    exact matches_escapePattern (b :: w)
  escaped b p f hb hp hf := by
    obtain ⟨w, rfl⟩ := exists_of_literal hp
    rw [hf.unique (matches_escapePattern w), ← Perl.firstWord_cons,
      ← Perl.escapePattern_special hb]
    exact matches_escapePattern (b :: w)
  alternation p q f g hp hq hf hg := by
    obtain ⟨w, rfl⟩ := exists_of_literal hp
    obtain ⟨ws, hws, rfl⟩ := exists_of_alternatives hq
    rw [hf.unique (matches_escapePattern w), hg.unique (matches_wordPattern hws),
      ← Perl.firstWord_cons_cons, ← Perl.wordPattern_cons hws]
    exact matches_wordPattern (List.cons_ne_nil w ws)
  group p f hp hf := by
    obtain ⟨ws, hws, rfl⟩ := exists_of_alternatives hp
    rw [hf.unique (matches_wordPattern hws)]
    exact matches_of_parse hws (Pattern.parse?_words false hws) fun _ => rfl

end Regex

end StackLexer
