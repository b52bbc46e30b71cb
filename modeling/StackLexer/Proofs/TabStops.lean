import StackLexer.Lexer

/-!
# Tab stops

Tabs are expanded with a counter that goes along with the input, counts a character of several bytes
once and jumps at every tab. What a reader sees is the output: behind each expanded tab a column of
it that is a multiple of the tab size. The counter is that column, all along the text.

* `column` — the column at the end of a text, read off the text itself;
* `Expands` — a text and its expansion behind an output so far: every other byte is kept, and a tab
  becomes as many spaces as bring the output to a tab stop;
* `expands_expandTabsFrom` and `Expands.eq_expandTabsFrom` — there is one expansion, the computed
  one, as long as the counter starts at the column of the output;
* `expandTabsFrom_append_newline` — a line begins at column zero, so lines are expanded one by one;
* `expandTabs_eq` — texts without tabs, which are returned at once, would come out the same.
-/

namespace StackLexer

/-! ## Columns -/

/-- The column at the end of a text: the bytes behind its last newline that begin a character. -/
def column (text : Bytes) : Nat :=
  (text.reverse.takeWhile (· ≠ 10)).countP fun b => !Utf8.isContinuation b

theorem column_concat (text : Bytes) (b : UInt8) :
    column (text ++ [b]) =
      if b = 10 then 0 else if Utf8.isContinuation b then column text else column text + 1 := by
  rw [column, column, List.reverse_concat, List.takeWhile_cons]
  by_cases hb : b = 10
  · simp [hb]
  · by_cases hcontinues : Utf8.isContinuation b <;> simp [hb, hcontinues]

/-- Every space takes one column. -/
theorem column_append_spaces (text : Bytes) (n : Nat) :
    column (text ++ List.replicate n 32) = column text + n := by
  induction n with
  | zero => simp
  | succ n ih =>
    rw [List.replicate_succ', ← List.append_assoc, column_concat, ih]
    simp [Utf8.isContinuation, Nat.add_assoc]

/-- One number of spaces up to the tab size leads to a tab stop. -/
theorem eq_spaces_iff {tabSize column n : Nat} (h : 0 < tabSize) :
    n = tabSize - column % tabSize ↔ 1 ≤ n ∧ n ≤ tabSize ∧ tabSize ∣ column + n := by
  have hlt := Nat.mod_lt column h
  have hdiv := Nat.div_add_mod column tabSize
  refine ⟨?_, ?_⟩
  · rintro rfl
    refine ⟨by omega, by omega, column / tabSize + 1, ?_⟩
    rw [Nat.mul_add, Nat.mul_one]
    omega
  · rintro ⟨hpos, hle, hstop⟩
    -- what is left over of the column and the spaces together fill one tab size
    have hrest : tabSize ∣ column % tabSize + n := by
      rw [← hdiv, Nat.add_assoc] at hstop
      exact (Nat.dvd_add_right (Nat.dvd_mul_right tabSize _)).1 hstop
    obtain ⟨k, hk⟩ := hrest
    have hone : k = 1 := by
      have hpos : 0 < k := by
        apply Nat.pos_of_ne_zero
        rintro rfl
        omega
      have hlt : k < 2 := by
        apply Nat.lt_of_mul_lt_mul_left (a := tabSize)
        omega
      omega
    rw [hone] at hk
    omega

/-! ## Expansions -/

/-- A text and its expansion, given the output in front of it. -/
inductive Expands (tabSize : Nat) : Bytes → Bytes → Bytes → Prop
  /-- nothing is left -/
  | done {before : Bytes} : Expands tabSize before [] []
  /-- a tab becomes spaces, at least one and at most as many as a tab is wide, behind which the
  output is at a tab stop -/
  | tab {before rest out : Bytes} {n : Nat} (hpos : 1 ≤ n) (hle : n ≤ tabSize)
      (hstop : tabSize ∣ column (before ++ List.replicate n 32))
      (hrest : Expands tabSize (before ++ List.replicate n 32) rest out) :
      Expands tabSize before (9 :: rest) (List.replicate n 32 ++ out)
  /-- every other byte is kept -/
  | keep {before rest out : Bytes} {b : UInt8} (hb : b ≠ 9)
      (hrest : Expands tabSize (before ++ [b]) rest out) :
      Expands tabSize before (b :: rest) (b :: out)

theorem expandTabsFrom_tab (tabSize column : Nat) (rest : Bytes) :
    expandTabsFrom tabSize column (9 :: rest) =
      List.replicate (tabSize - column % tabSize) 32 ++
        expandTabsFrom tabSize (column + (tabSize - column % tabSize)) rest := by
  rw [expandTabsFrom, if_pos rfl]

/-- Behind a byte that is kept, the counter is the column again. -/
theorem expandTabsFrom_keep (tabSize : Nat) (before : Bytes) {b : UInt8} (hb : b ≠ 9)
    (rest : Bytes) : expandTabsFrom tabSize (column before) (b :: rest) =
      b :: expandTabsFrom tabSize (column (before ++ [b])) rest := by
  rw [expandTabsFrom, if_neg hb, column_concat]
  split
  · next hnewline => rw [hnewline]
  · rfl

/-- The computed expansion is one. -/
theorem expands_expandTabsFrom {tabSize : Nat} (h : 0 < tabSize) (before text : Bytes) :
    Expands tabSize before text (expandTabsFrom tabSize (column before) text) := by
  induction text generalizing before with
  | nil => exact .done
  | cons b rest ih =>
    by_cases hb : b = 9
    · subst hb
      obtain ⟨hpos, hle, hstop⟩ :=
        (eq_spaces_iff h).1 (Eq.refl (tabSize - column before % tabSize))
      rw [expandTabsFrom_tab, ← column_append_spaces]
      rw [← column_append_spaces] at hstop
      exact .tab hpos hle hstop (ih _)
    · rw [expandTabsFrom_keep tabSize before hb]
      exact .keep hb (ih _)

namespace Expands

variable {tabSize : Nat} {before text out : Bytes}

/-- There is no other expansion. -/
theorem eq_expandTabsFrom (h : Expands tabSize before text out) :
    out = expandTabsFrom tabSize (column before) text := by
  induction h with
  | done => rfl
  | @tab before rest out n hpos hle hstop _ ih =>
    rw [column_append_spaces] at hstop ih
    have hn := (eq_spaces_iff (Nat.lt_of_lt_of_le hpos hle)).2 ⟨hpos, hle, hstop⟩
    rw [expandTabsFrom_tab, ← hn, ih]
  | keep hb _ ih => rw [expandTabsFrom_keep tabSize _ hb, ih]

/-! ### What is in an expansion -/

/-- No tab is left. -/
theorem not_mem (h : Expands tabSize before text out) : 9 ∉ out := by
  induction h with
  | done => simp
  | tab _ _ _ _ ih => simp [ih]
  | keep hb _ ih => simp [ih, Ne.symm hb]

/-- Only spaces are new. -/
theorem mem (h : Expands tabSize before text out) {b : UInt8} (hb : b ∈ out) :
    b ∈ text ∨ b = 32 := by
  induction h with
  | done => cases hb
  | tab _ _ _ _ ih =>
    rcases List.mem_append.1 hb with hb | hb
    · exact .inr (List.eq_of_mem_replicate hb)
    · exact (ih hb).imp_left (List.mem_cons_of_mem 9)
  | keep _ _ ih =>
    rcases List.mem_cons.1 hb with rfl | hb
    · exact .inl List.mem_cons_self
    · exact (ih hb).imp_left (List.mem_cons_of_mem _)

/-- An expansion starts with the first byte of the text, or with a space for a tab. -/
theorem head?_eq (h : Expands tabSize before text out) :
    out.head? = text.head?.map fun b => if b = 9 then 32 else b := by
  cases h with
  | done => rfl
  | @tab _ rest out n hpos _ _ _ =>
    obtain ⟨k, rfl⟩ := Nat.exists_eq_add_of_le hpos
    simp [Nat.add_comm 1 k, List.replicate_succ]
  | keep hb _ => simp [hb]

/-- An expansion ends with the last byte of the text, or with a space for a tab. -/
theorem getLast?_eq (h : Expands tabSize before text out) :
    out.getLast? = text.getLast?.map fun b => if b = 9 then 32 else b := by
  induction h with
  | done => rfl
  | @tab _ rest out n hpos _ _ _ ih =>
    have hne : n ≠ 0 := Nat.pos_iff_ne_zero.1 hpos
    rw [List.getLast?_append, ih, List.getLast?_cons, List.getLast?_replicate, if_neg hne]
    cases rest.getLast? <;> simp
  | @keep _ rest _ b hb _ ih =>
    rw [List.getLast?_cons, ih, List.getLast?_cons]
    cases rest.getLast? <;> simp [hb]

end Expands

/-! ## Whole texts -/

theorem expandTabsFrom_of_not_mem {text : Bytes} (h : 9 ∉ text) (tabSize column : Nat) :
    expandTabsFrom tabSize column text = text := by
  induction text generalizing column with
  | nil => rfl
  | cons b rest ih =>
    rw [List.mem_cons, not_or] at h
    obtain ⟨hb, hrest⟩ := h
    rw [expandTabsFrom, if_neg (Ne.symm hb)]
    split
    · next hnewline => rw [ih hrest, hnewline]
    · rw [ih hrest]

/-- Returning a text without tabs at once makes no difference. -/
theorem expandTabs_eq {tabSize : Nat} (h : 0 < tabSize) (text : Bytes) :
    expandTabs tabSize text = expandTabsFrom tabSize 0 text := by
  rw [expandTabs]
  split
  · next hkept =>
    have hfree : 9 ∉ text := hkept.resolve_left (Nat.pos_iff_ne_zero.1 h)
    rw [expandTabsFrom_of_not_mem hfree]
  · rfl

theorem expands_expandTabs {tabSize : Nat} (h : 0 < tabSize) (text : Bytes) :
    Expands tabSize [] text (expandTabs tabSize text) := by
  rw [expandTabs_eq h]
  exact expands_expandTabsFrom h [] text

/-- Behind a newline the counter starts again, whatever stands in front. -/
theorem expandTabsFrom_append_newline (tabSize column : Nat) (a b : Bytes) :
    expandTabsFrom tabSize column (a ++ 10 :: b) =
      expandTabsFrom tabSize column a ++ 10 :: expandTabsFrom tabSize 0 b := by
  induction a generalizing column with
  | nil => simp [expandTabsFrom]
  | cons c a ih =>
    rw [List.cons_append, expandTabsFrom, expandTabsFrom]
    split
    · simp only [ih, List.append_assoc]
    · split
      · rw [ih, List.cons_append]
      · rw [ih, List.cons_append]

/-- **Tab stops.** Expanding the tabs of a text keeps every other byte in its place and puts, for
each tab, from one space up to the tab size, as many as bring the output up to there to a column
that is a multiple of the tab size; nothing else is an expansion. Lines are expanded
independently. -/
theorem expandTabs_reaches_stops {tabSize : Nat} (h : 0 < tabSize) :
    (∀ text out, Expands tabSize [] text out ↔ out = expandTabs tabSize text) ∧
    ∀ a b, expandTabs tabSize (a ++ 10 :: b) =
      expandTabs tabSize a ++ 10 :: expandTabs tabSize b := by
  refine ⟨fun text out => ⟨fun hout => ?_, ?_⟩, fun a b => ?_⟩
  · rw [expandTabs_eq h]
    exact hout.eq_expandTabsFrom
  · rintro rfl
    exact expands_expandTabs h text
  · simp only [expandTabs_eq h]
    exact expandTabsFrom_append_newline tabSize 0 a b

/-- An accented letter of two bytes takes one column, a tab at a tab stop is four spaces wide, and
the second line starts anew. -/
theorem expandTabs_reaches_stops_accented :
    0 < 4 ∧ Expands 4 [] [0xC3, 0xA9, 9, 9, 10, 97, 98, 9, 99]
      [0xC3, 0xA9, 32, 32, 32, 32, 32, 32, 32, 10, 97, 98, 32, 32, 99] := by
  have h : 0 < 4 := by decide
  exact ⟨h, ((expandTabs_reaches_stops h).1 _ _).2 (by decide)⟩

end StackLexer
