import StackLexer.Lexer
import StackLexer.Proofs.Acceptance
import StackLexer.Proofs.Utf8

/-!
# Texts stay valid

Bytes are decoded in one of four ways and the text is then rewritten by up to six passes, all of
which look at single bytes. None of them cuts a character in two, for one reason: the passes only
ever drop, replace or insert ASCII bytes, and the bytes of a character outside ASCII are all above
them.

* `Text` — a text put together from ASCII bytes and longer sequences, which is the form the passes
  are gone through in; `isValid_iff_text` says that these are the valid texts;
* `Text.append`, `Text.flatMap`, `Text.of_append_ascii` — how texts are put together and cut;
* `Encoding.text_decode` and `Options.text_preprocess` — the two stages on the way of a text;
* `Lexer.decoded_text_valid` — what comes out for the streams of a lexer.
-/

namespace StackLexer

namespace Utf8

/-! ## Texts, ASCII and beyond -/

/-- A text as ASCII bytes and sequences all of whose bytes are above ASCII. -/
inductive Text : Bytes → Prop
  /-- nothing -/
  | nil : Text []
  /-- an ASCII byte in front -/
  | ascii {b : UInt8} {rest : Bytes} (hb : b.toNat < 0x80) (hrest : Text rest) : Text (b :: rest)
  /-- a longer sequence in front -/
  | wide {q rest : Bytes} {v : Nat} (hq : Sequence q v) (hbytes : ∀ b ∈ q, 0x80 ≤ b.toNat)
      (hrest : Text rest) : Text (q ++ rest)

/-- A sequence is an ASCII byte, or has none. -/
theorem Sequence.ascii_or_wide {q : Bytes} {v : Nat} (h : Sequence q v) :
    (∃ b : UInt8, b.toNat < 0x80 ∧ q = [b]) ∨ ∀ b ∈ q, 0x80 ≤ b.toNat := by
  cases h with
  | one ha => exact .inl ⟨_, ha, rfl⟩
  | two ha hb => exact .inr (by simp; omega)
  | three ha hb hc _ _ => exact .inr (by simp; omega)
  | four ha hb hc hd _ _ => exact .inr (by simp; omega)

/-- A sequence in front of a text makes a text. -/
theorem Text.sequence {q rest : Bytes} {v : Nat} (hq : Sequence q v) (h : Text rest) :
    Text (q ++ rest) := by
  rcases hq.ascii_or_wide with ⟨b, hb, rfl⟩ | hbytes
  · exact .ascii hb h
  · exact .wide hq hbytes h

/-- These are the valid texts. -/
theorem isValid_iff_text {s : Bytes} : isValid s = true ↔ Text s := by
  rw [isValid_iff]
  constructor
  · rintro ⟨cs, rfl⟩
    induction cs with
    | nil => exact .nil
    | cons c cs ih => exact ih.sequence (Sequence.of_char c)
  · intro h
    have hfront : ∀ {q rest : Bytes} {v : Nat}, Sequence q v → (∃ cs, encodeAll cs = rest) →
        ∃ cs, encodeAll cs = q ++ rest := by
      rintro q _ v hq ⟨cs, rfl⟩
      obtain ⟨c, -, rfl⟩ := hq.exists_char
      exact ⟨c :: cs, rfl⟩
    induction h with
    | nil => exact ⟨[], rfl⟩
    | ascii hb _ ih => exact hfront (.one hb) ih
    | wide hq _ _ ih => exact hfront hq ih

/-! ## Bytes above ASCII stay -/

/-- Line ends are unified between sequences above ASCII and leave them alone. -/
theorem unifyNewlines_append {q : Bytes} (hbytes : ∀ b ∈ q, 0x80 ≤ b.toNat) (rest : Bytes) :
    unifyNewlines (q ++ rest) = q ++ unifyNewlines rest := by
  induction q with
  | nil => rfl
  | cons b q ih =>
    rw [List.forall_mem_cons] at hbytes
    have hb : b ≠ 13 := by
      rintro rfl
      exact absurd hbytes.1 (by decide)
    rw [List.cons_append, unifyNewlines, if_neg hb, ih hbytes.2, List.cons_append]
    exact fun _ h => absurd h hb

/-- Tabs are expanded between sequences above ASCII and leave them alone, whatever column they
bring about. -/
theorem expandTabsFrom_append {q : Bytes} (hbytes : ∀ b ∈ q, 0x80 ≤ b.toNat) (tabSize column : Nat)
    (rest : Bytes) : ∃ column', expandTabsFrom tabSize column (q ++ rest) =
      q ++ expandTabsFrom tabSize column' rest := by
  induction q generalizing column with
  | nil => exact ⟨column, rfl⟩
  | cons b q ih =>
    rw [List.forall_mem_cons] at hbytes
    have htab : b ≠ 9 := by
      rintro rfl
      exact absurd hbytes.1 (by decide)
    have hnewline : b ≠ 10 := by
      rintro rfl
      exact absurd hbytes.1 (by decide)
    obtain ⟨column', h⟩ := ih hbytes.2 (if isContinuation b then column else column + 1)
    refine ⟨column', ?_⟩
    rw [List.cons_append, expandTabsFrom, if_neg htab, if_neg hnewline, h, List.cons_append]

/-! ## Putting together and cutting -/

namespace Text

variable {s t : Bytes}

/-- Texts one after the other are a text. -/
theorem append (hs : Text s) (ht : Text t) : Text (s ++ t) := by
  induction hs with
  | nil => exact ht
  | ascii hb _ ih => exact .ascii hb ih
  | wide hq hbytes _ ih =>
    rw [List.append_assoc]
    exact .wide hq hbytes ih

/-- A text in the place of each element of a list. -/
theorem flatMap {α : Type} {f : α → Bytes} {l : List α} (h : ∀ x ∈ l, Text (f x)) :
    Text (l.flatMap f) := by
  induction l with
  | nil => exact .nil
  | cons x l ih =>
    rw [List.forall_mem_cons] at h
    exact h.1.append (ih h.2)

/-- ASCII bytes are a text. -/
theorem of_ascii (h : ∀ b ∈ s, b.toNat < 0x80) : Text s := by
  induction s with
  | nil => exact .nil
  | cons b s ih =>
    rw [List.forall_mem_cons] at h
    exact .ascii h.1 (ih h.2)

/-- An encoded character is a text. -/
theorem encode (c : Char) : Text (encode c.toNat) := by
  have h := Text.nil.sequence (Sequence.of_char c)
  rwa [List.append_nil] at h

/-- What stands behind a sequence in front of a text is a text. -/
theorem of_sequence_append {q : Bytes} {v : Nat} (hq : Sequence q v) (h : Text (q ++ s)) :
    Text s := by
  obtain ⟨c, -, rfl⟩ := hq.exists_char
  rw [← isValid_iff_text] at h ⊢
  rwa [← isValid_encodeAll_append [c] s, encodeAll_cons, encodeAll_nil, List.append_nil]

/-- What stands before ASCII bytes at the end of a text is a text. -/
theorem of_append_ascii {back : Bytes} (h : Text (s ++ back))
    (hback : ∀ b ∈ back, b.toNat < 0x80) : Text s := by
  generalize hall : s ++ back = all at h
  induction h generalizing s with
  | nil =>
    rw [(List.append_eq_nil_iff.1 hall).1]
    exact .nil
  | ascii hb _ ih =>
    cases s with
    | nil => exact .nil
    | cons c s =>
      rw [List.cons_append, List.cons.injEq] at hall
      obtain ⟨rfl, hall⟩ := hall
      exact .ascii hb (ih hall)
  | @wide q rest v hq hbytes _ ih =>
    rcases List.append_eq_append_iff.1 hall with ⟨tail, rfl, rfl⟩ | ⟨tail, rfl, rfl⟩
    · -- a byte of the sequence among the ASCII bytes would be both
      cases tail with
      | nil =>
        rw [List.append_nil] at hq
        have hs := Text.nil.sequence hq
        rwa [List.append_nil] at hs
      | cons b tail =>
        have hlow := hback b (by simp)
        have hhigh := hbytes b (by simp)
        omega
    · exact .wide hq (fun b hb => hbytes b hb) (ih rfl)

/-! ### Dropping ASCII bytes -/

/-- A text without the byte order mark. -/
theorem withoutMark (h : Text s) : Text (Options.withoutMark s) := by
  rw [Options.withoutMark]
  split
  · next hmark =>
    obtain ⟨rest, rfl⟩ := List.isPrefixOf_iff_prefix.1 hmark
    have hsequence : Sequence byteOrderMark 0xFEFF := Sequence.of_char '\uFEFF'
    exact h.of_sequence_append hsequence
  · exact h

/-- A text without the ASCII bytes of a kind in front. -/
theorem dropWhile {drop : UInt8 → Bool} (hdrop : ∀ b, drop b = true → b.toNat < 0x80)
    (h : Text s) : Text (s.dropWhile drop) := by
  induction s with
  | nil => exact .nil
  | cons b s ih =>
    rw [List.dropWhile_cons]
    split
    · next hb => exact ih (of_sequence_append (q := [b]) (.one (hdrop b hb)) h)
    · exact h

/-- A text without the ASCII bytes of a kind at both ends. -/
theorem stripEnds {drop : UInt8 → Bool} (hdrop : ∀ b, drop b = true → b.toNat < 0x80)
    (h : Text s) : Text (stripEnds drop s) := by
  rw [StackLexer.stripEnds]
  have hfront := h.dropWhile hdrop
  generalize s.dropWhile drop = t at hfront
  have hsplit : (t.reverse.dropWhile drop).reverse ++ (t.reverse.takeWhile drop).reverse = t := by
    rw [← List.reverse_append, List.takeWhile_append_dropWhile, List.reverse_reverse]
  rw [← hsplit] at hfront
  refine hfront.of_append_ascii fun b hb => hdrop b ?_
  exact List.all_eq_true.1 List.all_takeWhile b (List.mem_reverse.1 hb)

/-! ### Replacing and inserting ASCII bytes -/

/-- A text with unified line ends. -/
theorem unifyNewlines (h : Text s) : Text (unifyNewlines s) := by
  induction h with
  | nil => exact .nil
  | @ascii b rest hb _ ih =>
    by_cases hpair : b = 13 ∧ rest.head? = some 10
    · -- the newline behind is written for both
      obtain ⟨rfl, hhead⟩ := hpair
      obtain ⟨more, rfl⟩ := List.head?_eq_some_iff.1 hhead
      rwa [StackLexer.unifyNewlines.eq_def] at ih ⊢
    · rw [StackLexer.unifyNewlines]
      · split
        · exact .ascii (by decide) ih
        · exact .ascii hb ih
      · rintro more rfl rfl
        exact hpair ⟨rfl, rfl⟩
  | @wide q rest v hq hbytes _ ih =>
    rw [unifyNewlines_append hbytes]
    exact .wide hq hbytes ih

/-- A text with its tabs expanded from any column on. -/
theorem expandTabsFrom (h : Text s) (tabSize column : Nat) :
    Text (expandTabsFrom tabSize column s) := by
  induction h generalizing column with
  | nil => exact .nil
  | @ascii b rest hb _ ih =>
    rw [StackLexer.expandTabsFrom]
    split
    · refine append (of_ascii fun c hc => ?_) (ih _)
      obtain rfl := List.eq_of_mem_replicate hc
      decide
    · split
      · exact .ascii (by decide) (ih _)
      · exact .ascii hb (ih _)
  | @wide q rest v hq hbytes _ ih =>
    obtain ⟨column', h⟩ := expandTabsFrom_append hbytes tabSize column rest
    rw [h]
    exact .wide hq hbytes (ih column')

/-- A text that ends with a newline. -/
theorem endLine (h : Text s) : Text (Options.endLine s) := by
  rw [Options.endLine]
  split
  · exact h
  · refine h.append (of_ascii fun b hb => ?_)
    obtain rfl := List.mem_singleton.1 hb
    decide

end Text

/-! ## Decoding -/

/-- The greedy cut takes nothing for a sequence that is none. -/
theorem exists_sequence_of_mem_cut {s encoded : Bytes} (h : .sequence encoded ∈ cut s) :
    ∃ v, Sequence encoded v := by
  fun_induction cut s with
  | case1 => cases h
  | case2 b rest _ ih =>
    rcases List.mem_cons.1 h with h | h
    · cases h
    · exact ih h
  | case3 b rest n hleading ih =>
    rcases List.mem_cons.1 h with h | h
    · obtain ⟨q, v, more, hq, hs⟩ := Sequence.exists_of_leading (b :: rest) (by omega)
      have hlength : q.length = n + 1 := by
        rw [← hq.leading_append more, ← hs, hleading]
      have htake : b :: rest.take n = q := by
        rw [← List.take_succ_cons, hs, ← hlength, List.take_left]
      rw [Piece.sequence.inj h, htake]
      exact ⟨v, hq⟩
    · exact ih h

/-- The character put in the place of what cannot be decoded. -/
theorem Text.replacement : Text replacement := Text.encode '\uFFFD'

/-- Repairs make texts. -/
theorem text_sanitize (s : Bytes) : Text (sanitize s).text := by
  rw [sanitize]
  split
  · next h => exact isValid_iff_text.1 h
  · refine Text.flatMap fun p hp => ?_
    cases p with
    | sequence encoded =>
      obtain ⟨v, hv⟩ := exists_sequence_of_mem_cut hp
      have h := Text.nil.sequence hv
      rwa [List.append_nil] at h
    | stray b => exact Text.replacement

/-- Repairs down to ASCII make texts. -/
theorem text_sanitizeAscii (s : Bytes) : Text (sanitizeAscii s).text := by
  refine Text.flatMap fun b _ => ?_
  split
  · next hb => exact .ascii (UInt8.lt_iff_toNat_lt.1 hb) .nil
  · exact Text.replacement

/-- Every byte is the number of a character. -/
theorem text_ofLatin1 (s : Bytes) : Text (ofLatin1 s) := by
  refine Text.flatMap fun b _ => ?_
  have hvalid : b.toNat.isValidChar := .inl (by have := b.toNat_lt; omega)
  exact Text.encode (Char.ofNatAux b.toNat hvalid)

/-- There is nothing to repair in a valid text. -/
theorem sanitize_eq_self {s : Bytes} (h : isValid s = true) : (sanitize s).text = s := by
  rw [sanitize, if_pos h]

/-- Nor in an ASCII text, when it has to be ASCII. -/
theorem sanitizeAscii_eq_self {s : Bytes} (h : ∀ b ∈ s, b < 0x80) :
    (sanitizeAscii s).text = s := by
  show s.flatMap (fun b => if b < 0x80 then [b] else Utf8.replacement) = s
  induction s with
  | nil => rfl
  | cons b s ih =>
    rw [List.forall_mem_cons] at h
    rw [List.flatMap_cons, if_pos h.1, ih h.2, List.singleton_append]

/-- An ASCII byte is the encoding of its number. -/
theorem ofLatin1_eq_self {s : Bytes} (h : ∀ b ∈ s, b < 0x80) : ofLatin1 s = s := by
  induction s with
  | nil => rfl
  | cons b s ih =>
    rw [List.forall_mem_cons, UInt8.lt_iff_toNat_lt] at h
    have hb : encode b.toNat = [b] := by
      rw [encode, if_pos (Nat.le_of_lt_succ h.1)]
      simp
    rw [ofLatin1, List.flatMap_cons, hb, ← ofLatin1, ih h.2, List.singleton_append]

end Utf8

/-! ## The two stages -/

open Utf8

/-- Decoding makes texts, whatever the bytes and the encoding. -/
theorem Encoding.text_decode (input : Bytes) (e : Encoding) : Text (e.decode input) := by
  cases e with
  | utf8 => exact text_sanitize input
  | latin1 => exact text_ofLatin1 input
  | ascii => exact text_sanitizeAscii input
  | guess =>
    rw [Encoding.decode]
    split
    · next h => exact isValid_iff_text.1 h
    · exact text_ofLatin1 input

/-- Valid bytes are kept by the encodings that expect them. -/
theorem Encoding.decode_of_isValid {input : Bytes} (h : isValid input = true) {e : Encoding}
    (he : e = .utf8 ∨ e = .guess) : e.decode input = input := by
  rcases he with rfl | rfl
  · exact sanitize_eq_self h
  · rw [Encoding.decode, if_pos h]

/-- ASCII bytes are kept by every encoding. -/
theorem Encoding.decode_of_ascii {input : Bytes} (h : ∀ b ∈ input, b < 0x80) (e : Encoding) :
    e.decode input = input := by
  have hvalid : isValid input = true :=
    isValid_iff_text.2 (.of_ascii fun b hb => UInt8.lt_iff_toNat_lt.1 (h b hb))
  cases e with
  | utf8 => exact sanitize_eq_self hvalid
  | latin1 => exact ofLatin1_eq_self h
  | ascii => exact sanitizeAscii_eq_self h
  | guess => rw [Encoding.decode, if_pos hvalid]

/-- The bytes stripped at the ends are ASCII. -/
theorem lt_of_isStripSpace {b : UInt8} (h : isStripSpace b = true) : b.toNat < 0x80 := by
  simp only [isStripSpace, Bool.or_eq_true, beq_iff_eq] at h
  rcases h with ((((rfl | rfl) | rfl) | rfl) | rfl) | rfl <;> decide

/-- Stripping makes texts of texts. -/
theorem Options.text_strip (o : Options) {text : Bytes} (h : Text text) : Text (o.strip text) := by
  rw [Options.strip]
  split
  · exact h.stripEnds fun b hb => lt_of_isStripSpace hb
  · split
    · refine h.stripEnds fun b hb => ?_
      obtain rfl := beq_iff_eq.1 hb
      decide
    · exact h

/-- Normalisation makes texts of texts, whatever the options. -/
theorem Options.text_preprocess (o : Options) {text : Bytes} (h : Text text) :
    Text (o.preprocess text) := by
  have hunmarked := h.withoutMark
  have hunified : Text (o.unify (withoutMark text)) := by
    rw [unify]
    split
    · exact hunmarked.unifyNewlines
    · exact hunmarked
  have hstripped := o.text_strip hunified
  have hexpanded : Text (expandTabs o.tabSize (o.strip (o.unify (withoutMark text)))) := by
    rw [expandTabs]
    split
    · exact hstripped
    · exact hstripped.expandTabsFrom _ _
  rw [Options.preprocess]
  split
  · exact hexpanded.endLine
  · exact hexpanded

/-! ## The streams of a lexer -/

/-- **What reaches the stream is valid.** Let the options name an encoding that is known, in any
spelling. Then there is a lexer with these options, and it decodes all bytes to valid texts and
normalises valid texts to valid texts. Its streams of bytes start when the grammar is accepted, and
the text of a stream is what decoding and normalising the bytes gives, so it is valid. Valid bytes
are decoded as they are by the encodings that take them for UTF-8, and ASCII bytes by all. -/
theorem Lexer.decoded_text_valid (g : CompiledGrammar) {o : Options} {e : Encoding}
    (he : Encoding.parse? o.encoding = some e) :
    ∃ l, Lexer.make g o = .ok l ∧
      (∀ input, isValid (l.decode input) = true) ∧
      (∀ text, isValid text = true → isValid (o.preprocess text) = true) ∧
      (∀ input s, l.streamOfBytes input = .ok s →
        s.text = o.preprocess (l.decode input) ∧ isValid s.text = true) ∧
      (g.Accepted → ∀ input, ∃ s, l.streamOfBytes input = .ok s) ∧
      (e = .utf8 ∨ e = .guess → ∀ input, isValid input = true → l.decode input = input) ∧
      (∀ input, (∀ b ∈ input, b < 0x80) → l.decode input = input) := by
  have hmake : Lexer.make g o = .ok ⟨g, o, e⟩ := by
    rw [Lexer.make, he]
  have hdecode (input : Bytes) : Text ((⟨g, o, e⟩ : Lexer).decode input) :=
    Encoding.text_decode input e
  refine ⟨_, hmake, fun input => isValid_iff_text.2 (hdecode input), ?_, ?_, ?_, ?_, ?_⟩
  · intro text h
    exact isValid_iff_text.2 (o.text_preprocess (isValid_iff_text.1 h))
  · intro input s hs
    obtain ⟨-, stack, -, rfl⟩ := Stream.start_eq_ok_iff.1 hs
    exact ⟨rfl, isValid_iff_text.2 (o.text_preprocess (hdecode input))⟩
  · intro hg input
    refine Stream.exists_start hg.dangling_eq _ (List.cons_ne_nil _ _) fun state hstate => ?_
    obtain rfl := List.mem_singleton.1 hstate
    exact hg.hasState_root
  · intro hkind input h
    exact Encoding.decode_of_isValid h hkind
  · intro input h
    exact Encoding.decode_of_ascii h e

/-- Options that expand tabs and read every byte as a character. -/
def Options.western : Options := { Options.default with tabSize := 4, encoding := bytes "Latin_1" }

/-- A grammar without rules. -/
def ruleless : CompiledGrammar := .ofStates (bytes "ruleless") [] [⟨rootState, []⟩] none

/-- An accented letter is one column wide before a tab, though two bytes long. -/
theorem Lexer.decoded_text_valid_western :
    Encoding.parse? Options.western.encoding = some .latin1 ∧
    ∃ l s, Lexer.make ruleless .western = .ok l ∧ l.streamOfBytes [0xE9, 0x09, 0xFF] = .ok s ∧
      s.text = [0xC3, 0xA9, 0x20, 0x20, 0x20, 0xC3, 0xBF, 0x0A] ∧ isValid s.text = true := by
  have hencoding : Encoding.parse? Options.western.encoding = some .latin1 := by decide +kernel
  have haccepted : ruleless.Accepted :=
    ⟨CompiledGrammar.assembled_of_ownDelegates rfl, by decide +kernel⟩
  obtain ⟨l, hl, -, -, htext, hstarts, -, -⟩ := decoded_text_valid ruleless hencoding
  obtain ⟨s, hs⟩ := hstarts haccepted [0xE9, 0x09, 0xFF]
  obtain ⟨htext, hvalid⟩ := htext _ s hs
  have hwritten : Options.western.preprocess (l.decode [0xE9, 0x09, 0xFF]) =
      [0xC3, 0xA9, 0x20, 0x20, 0x20, 0xC3, 0xBF, 0x0A] := by
    rw [Lexer.make, hencoding] at hl
    cases hl
    decide +kernel
  exact ⟨hencoding, l, s, hl, hs, htext.trans hwritten, hvalid⟩

end StackLexer
