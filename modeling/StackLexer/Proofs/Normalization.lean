import Mathlib.Data.List.TakeWhile
import StackLexer.Proofs.TabStops

/-!
# Normalised texts

Five passes go over a text, each switched by an option, and each could undo what an earlier one has
done: tabs become spaces after white space was stripped, and a newline is put at the end after the
newlines there were taken off. A second run starts from a text that the first one has finished,
where the newline it ended with is the first thing to go.

* `stripEnds_append`, `bare_stripEnds`, `stripEnds_of_bare` — what stripping takes off, what it
  leaves, and when there is nothing to do;
* `unifyNewlines_of_not_mem`, `not_mem_unifyNewlines` — the same for line ends;
* `Options.Normal` — what the options promise about a text;
* `Options.normal_preprocess` — every text is normal afterwards;
* `Options.content_preprocess` — nothing but white space and one byte order mark is lost or gained;
* `Options.preprocess_eq_self_iff` — normal texts are those that stay as they are, if they do not
  start with a byte order mark.
-/

namespace StackLexer

/-- White space: space, tab, newline, carriage return, form feed and vertical tab. -/
def blanks : Bytes := [32, 9, 10, 13, 12, 11]

/-- The bytes of a text that are not white space. -/
def content (text : Bytes) : Bytes := text.filter fun b => b ∉ blanks

/-- A text that neither starts nor ends with one of the given bytes. -/
def Bare (ends core : Bytes) : Prop := ∀ b ∈ ends, core.head? ≠ some b ∧ core.getLast? ≠ some b

theorem content_append (a b : Bytes) : content (a ++ b) = content a ++ content b :=
  List.filter_append a b

/-- White space alone has no content. -/
theorem content_eq_nil {text : Bytes} (h : ∀ b ∈ text, b ∈ blanks) : content text = [] := by
  rw [content, List.filter_eq_nil_iff]
  intro b hb
  simpa using h b hb

theorem Bare.mono {ends fewer core : Bytes} (h : Bare ends core) (hfewer : fewer ⊆ ends) :
    Bare fewer core := fun b hb => h b (hfewer hb)

/-! ## Stripping -/

section Stripping

variable {drop : UInt8 → Bool} {ends core : Bytes}

/-- What is taken off are bytes of the kind, at both ends. -/
theorem stripEnds_append (drop : UInt8 → Bool) (text : Bytes) :
    ∃ front back, text = front ++ stripEnds drop text ++ back ∧
      (∀ b ∈ front, drop b = true) ∧ ∀ b ∈ back, drop b = true := by
  refine ⟨text.takeWhile drop, ((text.dropWhile drop).reverse.takeWhile drop).reverse, ?_, ?_, ?_⟩
  · rw [stripEnds, List.append_assoc, ← List.reverse_append, List.takeWhile_append_dropWhile,
      List.reverse_reverse, List.takeWhile_append_dropWhile]
  · exact fun b hb => List.all_eq_true.1 List.all_takeWhile b hb
  · exact fun b hb => List.all_eq_true.1 List.all_takeWhile b (List.mem_reverse.1 hb)

theorem mem_of_mem_stripEnds {text : Bytes} {b : UInt8} (h : b ∈ stripEnds drop text) :
    b ∈ text := by
  obtain ⟨front, back, htext, -, -⟩ := stripEnds_append drop text
  rw [htext]
  simp [h]

theorem content_stripEnds (hdrop : ∀ b, drop b = true → b ∈ blanks) (text : Bytes) :
    content (stripEnds drop text) = content text := by
  obtain ⟨front, back, htext, hfront, hback⟩ := stripEnds_append drop text
  conv => rhs; rw [htext, content_append, content_append]
  rw [content_eq_nil fun b hb => hdrop b (hfront b hb),
    content_eq_nil fun b hb => hdrop b (hback b hb), List.nil_append, List.append_nil]

theorem not_head?_dropWhile {text : Bytes} {b : UInt8} (hb : drop b = true) :
    (text.dropWhile drop).head? ≠ some b := by
  intro hhead
  have h := List.head?_dropWhile_not drop text
  rw [hhead] at h
  simp [hb] at h

/-- What is left has no byte of the kind at its ends. -/
theorem bare_stripEnds (hdrop : ∀ b ∈ ends, drop b = true) (text : Bytes) :
    Bare ends (stripEnds drop text) := by
  intro b hb
  refine ⟨fun hhead => ?_, fun hlast => ?_⟩
  · -- what is left begins like the text without its front
    have hfront : (text.dropWhile drop).reverse.dropWhile drop <:+ (text.dropWhile drop).reverse :=
      List.dropWhile_suffix drop
    obtain ⟨back, hback⟩ := List.reverse_prefix.2 hfront
    rw [List.reverse_reverse] at hback
    apply not_head?_dropWhile (hdrop b hb)
    rw [← hback, List.head?_append]
    exact congrArg (Option.or · back.head?) hhead
  · rw [stripEnds, List.getLast?_reverse] at hlast
    exact not_head?_dropWhile (hdrop b hb) hlast

theorem dropWhile_of_head? {text : Bytes} (h : ∀ b, text.head? = some b → drop b = false) :
    text.dropWhile drop = text := by
  cases text with
  | nil => rfl
  | cons b rest => simp [h b rfl]

/-- A text without such bytes at its ends stays, also when one more is put behind it. -/
theorem stripEnds_of_bare (h : Bare ends core) (hdrop : ∀ b, drop b = true → b ∈ ends)
    {back : Bytes} (hback : ∀ b ∈ back, drop b = true) : stripEnds drop (core ++ back) = core := by
  have hkeep : ∀ b, b ∉ ends → drop b = false := fun b hb =>
    Bool.eq_false_iff.2 fun hb' => hb (hdrop b hb')
  have hends : ∀ b, core.getLast? = some b → drop b = false := fun b hb =>
    hkeep b fun hmem => (h b hmem).2 hb
  have hbackwards : ((core ++ back).reverse.dropWhile drop).reverse = core := by
    have hdropped : ∀ b ∈ back.reverse, drop b = true := fun b hb =>
      hback b (List.mem_reverse.1 hb)
    rw [List.reverse_append, List.dropWhile_append_of_pos hdropped,
      dropWhile_of_head? (by simpa using hends), List.reverse_reverse]
  rw [stripEnds]
  cases core with
  | nil =>
    rw [List.nil_append, List.dropWhile_eq_nil_iff.2 hback]
    rfl
  | cons b rest =>
    have hfront : ((b :: rest) ++ back).dropWhile drop = (b :: rest) ++ back := by
      apply dropWhile_of_head?
      intro c hc
      exact hkeep c fun hmem => (h c hmem).1 hc
    rw [hfront, hbackwards]

end Stripping

/-! ## Line ends -/

theorem not_mem_unifyNewlines (text : Bytes) : 13 ∉ unifyNewlines text := by
  fun_induction unifyNewlines text with
  | case1 => simp
  | case2 rest ih => simp [ih]
  | case3 b rest _ ih =>
    by_cases hb : b = 13
    · simp [hb, ih]
    · simp [hb, ih, Ne.symm hb]

theorem unifyNewlines_of_not_mem {text : Bytes} (h : 13 ∉ text) : unifyNewlines text = text := by
  fun_induction unifyNewlines text with
  | case1 => rfl
  | case2 rest _ => simp at h
  | case3 b rest _ ih =>
    rw [List.mem_cons, not_or] at h
    rw [if_neg (Ne.symm h.1), ih h.2]

theorem content_unifyNewlines (text : Bytes) : content (unifyNewlines text) = content text := by
  fun_induction unifyNewlines text with
  | case1 => rfl
  | case2 rest ih => simpa [content, blanks] using ih
  | case3 b rest _ ih =>
    by_cases hb : b = 13
    · subst hb
      simpa [content, blanks] using ih
    · rw [if_neg hb]
      simp only [content, List.filter_cons] at ih ⊢
      rw [ih]

/-! ## Tabs -/

namespace Expands

variable {tabSize : Nat} {before text out : Bytes}

theorem content_eq (h : Expands tabSize before text out) : content out = content text := by
  induction h with
  | done => rfl
  | @tab _ rest out n _ _ _ _ ih =>
    have hspaces : content (List.replicate n 32) = [] := by
      apply content_eq_nil
      intro b hb
      rw [List.eq_of_mem_replicate hb]
      decide
    rw [content_append, hspaces, List.nil_append, ih]
    simp [content, blanks]
  | keep _ _ ih =>
    simp only [content, List.filter_cons] at ih ⊢
    rw [ih]

/-- Expanding tabs bares nothing: where a space must not stand, a tab must not stand either. -/
theorem bare {ends : Bytes} (h : Expands tabSize before text out) (hspace : 32 ∈ ends → 9 ∈ ends)
    (hbare : Bare ends text) : Bare ends out := by
  -- a byte of the text at the end, or a space for a tab there, is not one of those
  have hkept : ∀ b ∈ ends, ∀ found : Option UInt8, (∀ c ∈ ends, found ≠ some c) →
      found.map (fun b => if b = 9 then 32 else b) ≠ some b := by
    rintro b hb (_ | c) hfound
    · simp
    · intro heq
      by_cases hc : c = 9
      · rw [hc] at hfound heq
        simp only [Option.map_some, if_true, Option.some.injEq] at heq
        exact hfound 9 (hspace (heq ▸ hb)) rfl
      · simp only [Option.map_some, hc, if_false, Option.some.injEq] at heq
        exact hfound b hb (heq ▸ rfl)
  intro b hb
  rw [h.head?_eq, h.getLast?_eq]
  exact ⟨hkept b hb _ fun c hc => (hbare c hc).1, hkept b hb _ fun c hc => (hbare c hc).2⟩

end Expands

theorem expandTabs_zero (text : Bytes) : expandTabs 0 text = text := by
  simp [expandTabs]

/-- A pass over the tabs expands them or does nothing. -/
theorem expandTabs_cases (tabSize : Nat) (text : Bytes) :
    Expands tabSize [] text (expandTabs tabSize text) ∨ expandTabs tabSize text = text := by
  rcases Nat.eq_zero_or_pos tabSize with rfl | h
  · exact .inr (expandTabs_zero text)
  · exact .inl (expands_expandTabs h text)

namespace Options

variable (o : Options)

/-! ## The passes -/

theorem unify_eq (text : Bytes) :
    o.unify text = if o.normalizeNewlines then unifyNewlines text else text := by
  rw [unify]
  by_cases h : 13 ∈ text
  · simp [h]
  · simp [h, unifyNewlines_of_not_mem h]

/-- The bytes that are stripped at the ends. -/
def strips : Bytes := if o.stripAll then blanks else if o.stripNewlines then [10] else []

theorem strip_eq (text : Bytes) : o.strip text = stripEnds o.strips.contains text := by
  have hspaces : isStripSpace = blanks.contains := by
    funext b
    rw [Bool.eq_iff_iff]
    simp [isStripSpace, blanks, or_assoc]
  have hnewline : (fun b : UInt8 => b == 10) = List.contains [10] := by
    funext b
    rw [Bool.eq_iff_iff]
    simp
  have hnone : stripEnds (List.contains []) text = text := by
    have hends : Bare [] text := fun _ hb => absurd hb List.not_mem_nil
    simpa using stripEnds_of_bare hends (by simp) (List.forall_mem_nil _)
  rw [strip, strips]
  split
  · rw [hspaces]
  · split
    · rw [hnewline]
    · exact hnone.symm

theorem strips_subset : o.strips ⊆ blanks := by
  rw [strips]
  split
  · exact List.Subset.refl _
  · split <;> simp [blanks]

/-- Newlines are among the bytes that are stripped, if any are. -/
theorem newline_mem_strips (h : o.stripAll = true ∨ o.stripNewlines = true) : 10 ∈ o.strips := by
  rw [strips]
  split
  · simp [blanks]
  · next hall => simp [h.resolve_left hall]

/-- The text in front of the newline that may be put at the end. -/
def body (text : Bytes) : Bytes := expandTabs o.tabSize (o.strip (o.unify (withoutMark text)))

theorem preprocess_eq (text : Bytes) :
    o.preprocess text = if o.ensureNewline then endLine (o.body text) else o.body text := rfl

/-- Its ends are bare, although spaces have been put in the place of tabs since it was stripped. -/
theorem bare_body (text : Bytes) : Bare o.strips (o.body text) := by
  have hstripped : Bare o.strips (o.strip (o.unify (withoutMark text))) := by
    rw [strip_eq]
    exact bare_stripEnds (fun b hb => List.contains_iff_mem.2 hb) _
  rw [body]
  rcases expandTabs_cases o.tabSize (o.strip (o.unify (withoutMark text))) with h | h
  · refine h.bare (fun hspace => ?_) hstripped
    -- a space is stripped with all white space only
    rw [strips] at hspace ⊢
    split at hspace
    · simp [blanks, *]
    · split at hspace <;> simp at hspace
  · rwa [h]

theorem mem_endLine {text : Bytes} {b : UInt8} (h : b ∈ endLine text) : b ∈ text ∨ b = 10 := by
  rw [endLine] at h
  split at h
  · exact .inl h
  · simpa using h

theorem getLast?_endLine (text : Bytes) : (endLine text).getLast? = some 10 := by
  rw [endLine]
  split
  · next h => exact h
  · simp

theorem content_endLine (text : Bytes) : content (endLine text) = content text := by
  rw [endLine]
  split
  · rfl
  · simp [content, blanks]

/-! ## What is promised -/

/-- A text as the options promise it. -/
structure Normal (text : Bytes) : Prop where
  /-- no carriage return is left if line ends are unified -/
  unified : o.normalizeNewlines = true → 13 ∉ text
  /-- no tab is left if tabs are expanded -/
  expanded : 0 < o.tabSize → 9 ∉ text
  /-- the last byte is a newline if it has to be -/
  ended : o.ensureNewline = true → text.getLast? = some 10
  /-- if the ends are stripped, there is one newline at most behind what has bare ends -/
  stripped : o.stripAll = true ∨ o.stripNewlines = true →
    ∃ core, text = core ++ (if o.ensureNewline then [10] else []) ∧
      (o.stripAll = true → Bare blanks core) ∧ (o.stripNewlines = true → Bare [10] core)

theorem mem_body {text : Bytes} {b : UInt8} (h : b ∈ o.body text) :
    b ∈ o.unify (withoutMark text) ∨ b = 32 := by
  have hstrip : ∀ b, b ∈ o.strip (o.unify (withoutMark text)) → b ∈ o.unify (withoutMark text) := by
    intro b hb
    rw [strip_eq] at hb
    exact mem_of_mem_stripEnds hb
  rw [body] at h
  rcases expandTabs_cases o.tabSize (o.strip (o.unify (withoutMark text))) with hout | hout
  · exact (hout.mem h).imp_left (hstrip b)
  · rw [hout] at h
    exact .inl (hstrip b h)

theorem mem_preprocess {text : Bytes} {b : UInt8} (h : b ∈ o.preprocess text) :
    b ∈ o.body text ∨ b = 10 := by
  rw [preprocess_eq] at h
  split at h
  · exact mem_endLine h
  · exact .inl h

/-- Every text is normal when it has been gone through. -/
theorem normal_preprocess (text : Bytes) : o.Normal (o.preprocess text) where
  unified hunify hmem := by
    have hbody := (o.mem_preprocess hmem).resolve_right (by decide)
    have hfree := (o.mem_body hbody).resolve_right (by decide)
    rw [unify_eq, if_pos hunify] at hfree
    exact not_mem_unifyNewlines _ hfree
  expanded htabs hmem := by
    have hbody := (o.mem_preprocess hmem).resolve_right (by decide)
    exact (expands_expandTabs htabs _).not_mem hbody
  ended hend := by
    rw [preprocess_eq, if_pos hend]
    exact getLast?_endLine _
  stripped hstrip := by
    have hbare := o.bare_body text
    have hnewline := o.newline_mem_strips hstrip
    refine ⟨o.body text, ?_, fun hall => ?_, fun _ => hbare.mono (by simpa using hnewline)⟩
    · -- what is stripped does not end with a newline, so one is put there
      have hend : (o.body text).getLast? ≠ some 10 := (hbare 10 hnewline).2
      rw [preprocess_eq, endLine, if_neg hend]
      split <;> simp
    · rwa [strips, if_pos hall] at hbare

/-! ## What is kept -/

theorem content_unify (text : Bytes) : content (o.unify text) = content text := by
  rw [unify_eq]
  split
  · exact content_unifyNewlines text
  · rfl

theorem content_strip (text : Bytes) : content (o.strip text) = content text := by
  rw [strip_eq]
  refine content_stripEnds (fun b hb => ?_) text
  exact o.strips_subset (List.contains_iff_mem.1 hb)

theorem content_preprocess (text : Bytes) :
    content (o.preprocess text) = content (withoutMark text) := by
  have hexpanded : ∀ s, content (expandTabs o.tabSize s) = content s := by
    intro s
    rcases expandTabs_cases o.tabSize s with h | h
    · exact h.content_eq
    · rw [h]
  have hbody : content (o.body text) = content (withoutMark text) := by
    rw [body, hexpanded, content_strip, content_unify]
  rw [preprocess_eq]
  split
  · rw [content_endLine, hbody]
  · exact hbody

theorem hasByteOrderMark_iff {text : Bytes} :
    Utf8.hasByteOrderMark text = true ↔ Utf8.byteOrderMark <+: text :=
  List.isPrefixOf_iff_prefix

/-- One byte order mark is taken off, where there is one. -/
theorem withoutMark_cases (text : Bytes) :
    text = Utf8.byteOrderMark ++ withoutMark text ∨
      ¬Utf8.byteOrderMark <+: text ∧ text = withoutMark text := by
  rw [withoutMark, ← hasByteOrderMark_iff]
  split
  · next h =>
    obtain ⟨rest, rfl⟩ := hasByteOrderMark_iff.1 h
    exact .inl rfl
  · next h => exact .inr ⟨h, rfl⟩

/-- **Normalisation.** Whatever the options and the text, the normalised text is what the options
promise: without carriage returns, without tabs, with a newline at the end, and with bare ends in
front of that one newline, each if the options ask for it. Apart from white space it has the bytes
of the text in their order, without the byte order mark if the text starts with one. -/
theorem preprocess_normalises (text : Bytes) :
    o.Normal (o.preprocess text) ∧
    ∃ unmarked, (text = Utf8.byteOrderMark ++ unmarked ∨
        ¬Utf8.byteOrderMark <+: text ∧ text = unmarked) ∧
      content (o.preprocess text) = content unmarked :=
  ⟨o.normal_preprocess text, withoutMark text, withoutMark_cases text, o.content_preprocess text⟩

-- white space between carriage returns, and a tab that would end up at the end
example : Options.preprocess ⟨false, true, true, 4, [], true⟩
    (bytes "\r\n \tone\rtwo\t") = bytes "one\ntwo\n" := by decide +kernel

/-! ## A second time -/

/-- The normal texts are those that are left as they are. -/
theorem preprocess_eq_self_iff {text : Bytes} (hmark : ¬Utf8.byteOrderMark <+: text) :
    o.preprocess text = text ↔ o.Normal text := by
  refine ⟨fun h => h ▸ o.normal_preprocess text, fun h => ?_⟩
  have hunmarked : withoutMark text = text := by
    rw [withoutMark, if_neg (hasByteOrderMark_iff.not.2 hmark)]
  have hunified : o.unify text = text := by
    rw [unify_eq]
    split
    · next hunify => exact unifyNewlines_of_not_mem (h.unified hunify)
    · rfl
  -- expanding tabs does nothing to a part of a text that has none left
  have hexpanded : ∀ s, (∀ b ∈ s, b ∈ text) → expandTabs o.tabSize s = s := by
    intro s hs
    rcases Nat.eq_zero_or_pos o.tabSize with hzero | hpos
    · rw [hzero, expandTabs_zero]
    · rw [expandTabs_eq hpos, expandTabsFrom_of_not_mem fun htab => h.expanded hpos (hs 9 htab)]
  rw [preprocess_eq, body, hunmarked, hunified]
  by_cases hstrip : o.stripAll = true ∨ o.stripNewlines = true
  · obtain ⟨core, htext, hall, hnewlines⟩ := h.stripped hstrip
    have hnewline := o.newline_mem_strips hstrip
    have hbare : Bare o.strips core := by
      rw [strips]
      split
      · next hall' => exact hall hall'
      · next hall' =>
        have hsome := hstrip.resolve_left hall'
        rw [if_pos hsome]
        exact hnewlines hsome
    have hcore : o.strip text = core := by
      rw [strip_eq, htext]
      refine stripEnds_of_bare hbare (fun b hb => List.contains_iff_mem.1 hb) fun b hb => ?_
      split at hb
      · rw [List.mem_singleton.1 hb]
        exact List.contains_iff_mem.2 hnewline
      · cases hb
    have hkept : expandTabs o.tabSize core = core := by
      apply hexpanded
      intro b hb
      rw [htext]
      exact List.mem_append_left _ hb
    rw [hcore, hkept, endLine, if_neg (hbare 10 hnewline).2, htext]
    split <;> simp
  · have hkept : o.strip text = text := by
      rw [not_or, Bool.not_eq_true, Bool.not_eq_true] at hstrip
      simp [strip, hstrip]
    rw [hkept, hexpanded text fun b hb => hb]
    split
    · next hend => rw [endLine, if_pos (h.ended hend)]
    · rfl

/-- **Idempotence.** Normalising a normalised text changes nothing, unless a second byte order mark
has come to its front. -/
theorem preprocess_idempotent {text : Bytes} (hmark : ¬Utf8.byteOrderMark <+: o.preprocess text) :
    o.preprocess (o.preprocess text) = o.preprocess text :=
  (o.preprocess_eq_self_iff hmark).2 (o.normal_preprocess text)

/-- A mark, white space at both ends, a lone carriage return and tabs at different columns, with all
options on. -/
theorem preprocess_idempotent_indented :
    let o : Options := ⟨true, true, true, 4, [], true⟩
    let text := Utf8.byteOrderMark ++ bytes "\r\n\ta\tb\rc\td \n"
    ¬Utf8.byteOrderMark <+: o.preprocess text ∧ o.preprocess text = bytes "a   b\nc   d\n" ∧
      o.preprocess (o.preprocess text) = o.preprocess text := by
  intro o text
  have hmark : ¬Utf8.byteOrderMark <+: o.preprocess text := by decide +kernel
  exact ⟨hmark, by decide +kernel, o.preprocess_idempotent hmark⟩

end Options

end StackLexer
