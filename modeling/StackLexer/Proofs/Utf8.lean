import Mathlib.Order.Bounds.Defs
import StackLexer.Utf8

/-!
# Encoding and validation agree

Two definitions in the library say what UTF-8 is, and neither looks at the other: `encode` computes
the bytes of a code point by cutting it into groups of bits, and `leading` decides by ranges of
bytes, with exceptions for what would be overlong, a surrogate or too large, whether a text starts
with a well-formed sequence. They meet in a table.

* `Sequence` — the well-formed sequences with the code points they stand for; `Sequence.of_char` is
  the side of the encoder, `Sequence.leading_append` and `Sequence.exists_of_leading` are the side
  of the validator;
* `encodeAll` — the bytes of a list of characters, which are exactly the code points from 0 to
  10FFFF that are not surrogates. `exists_encodeAll_append` cuts any text into such bytes and a rest
  that starts no sequence;
* `valid_iff_encoded` — a text is valid exactly when it is the bytes of some characters, which are
  then the only ones; otherwise the first fault stands after the longest part that is.
-/

namespace StackLexer.Utf8

/-! ## The table -/

/-- Well-formed sequences and the code points they stand for, by the number of bytes. -/
inductive Sequence : Bytes → Nat → Prop
  /-- an ASCII byte -/
  | one {a : UInt8} (ha : a.toNat < 0x80) : Sequence [a] a.toNat
  /-- two bytes; `C0` and `C1` in front would be overlong -/
  | two {a b : UInt8} (ha : 0xC2 ≤ a.toNat ∧ a.toNat ≤ 0xDF)
      (hb : 0x80 ≤ b.toNat ∧ b.toNat ≤ 0xBF) :
      Sequence [a, b] ((a.toNat - 0xC0) * 64 + (b.toNat - 0x80))
  /-- three bytes, neither overlong nor a surrogate -/
  | three {a b c : UInt8} (ha : 0xE0 ≤ a.toNat ∧ a.toNat ≤ 0xEF)
      (hb : 0x80 ≤ b.toNat ∧ b.toNat ≤ 0xBF) (hc : 0x80 ≤ c.toNat ∧ c.toNat ≤ 0xBF)
      (hlow : a.toNat = 0xE0 → 0xA0 ≤ b.toNat) (hhigh : a.toNat = 0xED → b.toNat < 0xA0) :
      Sequence [a, b, c] (((a.toNat - 0xE0) * 64 + (b.toNat - 0x80)) * 64 + (c.toNat - 0x80))
  /-- four bytes, neither overlong nor above U+10FFFF -/
  | four {a b c d : UInt8} (ha : 0xF0 ≤ a.toNat ∧ a.toNat ≤ 0xF4)
      (hb : 0x80 ≤ b.toNat ∧ b.toNat ≤ 0xBF) (hc : 0x80 ≤ c.toNat ∧ c.toNat ≤ 0xBF)
      (hd : 0x80 ≤ d.toNat ∧ d.toNat ≤ 0xBF) (hlow : a.toNat = 0xF0 → 0x90 ≤ b.toNat)
      (hhigh : a.toNat = 0xF4 → b.toNat ≤ 0x8F) :
      Sequence [a, b, c, d]
        ((((a.toNat - 0xF0) * 64 + (b.toNat - 0x80)) * 64 + (c.toNat - 0x80)) * 64
          + (d.toNat - 0x80))

theorem isContinuation_iff {b : UInt8} :
    isContinuation b = true ↔ 0x80 ≤ b.toNat ∧ b.toNat ≤ 0xBF := by
  simp [isContinuation, UInt8.le_iff_toNat_le]

/-- Below the bits that mark a first byte of four, adding bits and setting them are the same. -/
theorem or_eq_add {k : Nat} (h : k < 8) : 0xF0 ||| k = 0xF0 + k := by
  decide +revert

namespace Sequence

variable {q : Bytes} {v w : Nat}

theorem congr (h : Sequence q v) (hvw : v = w) : Sequence q w := hvw ▸ h

theorem ne_nil (h : Sequence q v) : q ≠ [] := by
  cases h <;> simp

/-! ### The side of the encoder -/

/-- A character is encoded by a sequence that stands for it. -/
theorem of_char (c : Char) : Sequence (encode c.toNat) c.toNat := by
  have hc : c.toNat < 0xD800 ∨ 0xDFFF < c.toNat ∧ c.toNat < 0x110000 := c.valid
  generalize c.toNat = n at hc
  fun_cases encode n with
  | case1 _ =>
    refine (one ?_).congr ?_ <;> simp <;> omega
  | case2 _ _ =>
    refine (two ?_ ?_).congr ?_ <;> simp <;> omega
  | case3 _ _ _ =>
    refine (three ?_ ?_ ?_ ?_ ?_).congr ?_ <;> simp <;> omega
  | case4 _ _ _ =>
    rw [or_eq_add (by omega)]
    refine (four ?_ ?_ ?_ ?_ ?_ ?_).congr ?_ <;> simp <;> omega

/-- A sequence stands for a character, and is its encoding. -/
theorem exists_char (h : Sequence q v) : ∃ c : Char, c.toNat = v ∧ encode c.toNat = q := by
  have hvalid : v.isValidChar := by
    unfold Nat.isValidChar
    cases h <;> omega
  refine ⟨Char.ofNatAux v hvalid, rfl, ?_⟩
  show encode v = q
  cases h with
  | one ha =>
    rw [encode, if_pos (by omega)]
    simp
  | two ha hb =>
    rw [encode, if_neg (by omega), if_pos (by omega)]
    simp [← UInt8.toNat_inj]
    omega
  | three ha hb hc hlow hhigh =>
    rw [encode, if_neg (by omega), if_neg (by omega), if_pos (by omega)]
    simp [← UInt8.toNat_inj]
    omega
  | four ha hb hc hd hlow hhigh =>
    rw [encode, if_neg (by omega), if_neg (by omega), if_neg (by omega), or_eq_add (by omega)]
    simp [← UInt8.toNat_inj]
    omega

/-- A sequence stands for one code point only. -/
theorem value_unique (hv : Sequence q v) (hw : Sequence q w) : v = w := by
  cases hv <;> cases hw <;> rfl

/-! ### The side of the validator -/

/-- A sequence in front of a text is found, at its full length. -/
theorem leading_append (h : Sequence q v) (rest : Bytes) : leading (q ++ rest) = q.length := by
  cases h with
  | one ha => simp [leading, UInt8.lt_iff_toNat_lt, ha]
  | @two a b ha hb =>
    have hone : ¬a.toNat < 0x80 := by omega
    simp [leading, UInt8.lt_iff_toNat_lt, UInt8.le_iff_toNat_le, isContinuation_iff, hone, ha, hb]
  | @three a b c ha hb hc hlow hhigh =>
    have hone : ¬a.toNat < 0x80 := by omega
    have htwo : ¬(0xC2 ≤ a.toNat ∧ a.toNat ≤ 0xDF) := by omega
    have hoverlong : ¬(a.toNat = 0xE0 ∧ b.toNat < 0xA0) := by omega
    have hsurrogate : ¬(a.toNat = 0xED ∧ 0xA0 ≤ b.toNat) := by omega
    simp [leading, UInt8.lt_iff_toNat_lt, UInt8.le_iff_toNat_le, ← UInt8.toNat_inj,
      isContinuation_iff.2 hb, isContinuation_iff.2 hc, hone, htwo, hoverlong, hsurrogate, ha]
  | @four a b c d ha hb hc hd hlow hhigh =>
    have hone : ¬a.toNat < 0x80 := by omega
    have htwo : ¬(0xC2 ≤ a.toNat ∧ a.toNat ≤ 0xDF) := by omega
    have hthree : ¬(0xE0 ≤ a.toNat ∧ a.toNat ≤ 0xEF) := by omega
    have hoverlong : ¬(a.toNat = 0xF0 ∧ b.toNat < 0x90) := by omega
    have hlarge : ¬(a.toNat = 0xF4 ∧ 0x8F < b.toNat) := by omega
    simp [leading, UInt8.lt_iff_toNat_lt, UInt8.le_iff_toNat_le, ← UInt8.toNat_inj,
      isContinuation_iff.2 hb, isContinuation_iff.2 hc, isContinuation_iff.2 hd, hone, htwo,
      hthree, hoverlong, hlarge, ha]

/-- So stepping over a character steps over the sequence. -/
theorem sequenceLength_append (h : Sequence q v) (rest : Bytes) :
    sequenceLength (q ++ rest) = q.length := by
  have hleading := h.leading_append rest
  have hpos : 0 < q.length := List.length_pos_iff.2 h.ne_nil
  have hne : q ++ rest ≠ [] := List.append_ne_nil_of_left_ne_nil h.ne_nil rest
  obtain ⟨b, more, hs⟩ := List.exists_cons_of_ne_nil hne
  rw [hs] at hleading ⊢
  rw [sequenceLength, if_neg (by omega), hleading]

/-- What is found in front of a text is a sequence. -/
theorem exists_of_leading (s : Bytes) :
    leading s ≠ 0 → ∃ q v rest, Sequence q v ∧ s = q ++ rest := by
  fun_cases leading s with
  | case2 a rest ha =>
    exact fun _ => ⟨[a], _, rest, .one (UInt8.lt_iff_toNat_lt.1 ha), rfl⟩
  | case3 a _ ha b rest hb =>
    simp [UInt8.le_iff_toNat_le, isContinuation_iff] at ha hb
    exact fun _ => ⟨[a, b], _, rest, .two ha hb, rfl⟩
  | case9 a _ _ ha b c rest htail hlow hhigh =>
    simp [UInt8.lt_iff_toNat_lt, UInt8.le_iff_toNat_le, ← UInt8.toNat_inj, isContinuation_iff]
      at ha htail hlow hhigh
    exact fun _ => ⟨[a, b, c], _, rest, .three ha htail.1 htail.2 hlow hhigh, rfl⟩
  | case14 a _ _ _ ha b c d rest htail hlow hhigh =>
    simp [UInt8.lt_iff_toNat_lt, UInt8.le_iff_toNat_le, ← UInt8.toNat_inj, isContinuation_iff]
      at ha htail hlow hhigh
    obtain ⟨⟨hb, hc⟩, hd⟩ := htail
    exact fun _ => ⟨[a, b, c, d], _, rest, .four ha hb hc hd hlow hhigh, rfl⟩
  | _ => exact fun h => absurd rfl h

/-- The greedy cut takes a sequence in front as one piece. -/
theorem cut_append (h : Sequence q v) (rest : Bytes) :
    cut (q ++ rest) = .sequence q :: cut rest := by
  have hleading := h.leading_append rest
  obtain ⟨b, more, rfl⟩ := List.exists_cons_of_ne_nil h.ne_nil
  rw [List.cons_append] at hleading ⊢
  rw [cut_cons, hleading]
  simp

end Sequence

/-! ## The bytes of characters -/

/-- The bytes of some characters, one after the other. -/
def encodeAll (cs : List Char) : Bytes := cs.flatMap fun c => encode c.toNat

@[simp] theorem encodeAll_nil : encodeAll [] = [] := rfl

@[simp] theorem encodeAll_cons (c : Char) (cs : List Char) :
    encodeAll (c :: cs) = encode c.toNat ++ encodeAll cs := rfl

@[simp] theorem encodeAll_append (cs ds : List Char) :
    encodeAll (cs ++ ds) = encodeAll cs ++ encodeAll ds := List.flatMap_append

/-- **Unique decoding.** Texts that come from characters come from one list of them only. -/
theorem encodeAll_injective {cs ds : List Char} (h : encodeAll cs = encodeAll ds) : cs = ds := by
  induction cs generalizing ds with
  | nil =>
    cases ds with
    | nil => rfl
    | cons d ds => exact absurd (List.append_eq_nil_iff.1 h.symm).1 (Sequence.of_char d).ne_nil
  | cons c cs ih =>
    cases ds with
    | nil => exact absurd (List.append_eq_nil_iff.1 h).1 (Sequence.of_char c).ne_nil
    | cons d ds =>
      rw [encodeAll_cons, encodeAll_cons] at h
      have hlength : (encode c.toNat).length = (encode d.toNat).length := by
        rw [← (Sequence.of_char c).leading_append (encodeAll cs), h,
          (Sequence.of_char d).leading_append]
      obtain ⟨hfirst, hrest⟩ := List.append_inj h hlength
      have hvalue : c.toNat = d.toNat :=
        (Sequence.of_char c).value_unique (hfirst ▸ Sequence.of_char d)
      rw [Char.toNat_inj.1 hvalue, ih hrest]

/-- Every text is the bytes of some characters and a rest that starts with none. -/
theorem exists_encodeAll_append (s : Bytes) :
    ∃ cs rest, s = encodeAll cs ++ rest ∧ leading rest = 0 := by
  induction hn : s.length using Nat.strongRecOn generalizing s with
  | ind n ih =>
    by_cases h : leading s = 0
    · exact ⟨[], s, rfl, h⟩
    · obtain ⟨q, v, more, hq, rfl⟩ := Sequence.exists_of_leading s h
      obtain ⟨c, -, rfl⟩ := hq.exists_char
      have hlength : more.length < n := by
        have hpos := List.length_pos_iff.2 hq.ne_nil
        rw [List.length_append] at hn
        omega
      obtain ⟨cs, rest, rfl, hrest⟩ := ih _ hlength more rfl
      exact ⟨c :: cs, rest, by rw [encodeAll_cons, List.append_assoc], hrest⟩

/-- The greedy cut goes through the bytes of characters one by one. -/
theorem cut_encodeAll_append (cs : List Char) (rest : Bytes) :
    cut (encodeAll cs ++ rest) = (cs.map fun c => .sequence (encode c.toNat)) ++ cut rest := by
  induction cs with
  | nil => rfl
  | cons c cs ih =>
    rw [encodeAll_cons, List.append_assoc, (Sequence.of_char c).cut_append, ih, List.map_cons,
      List.cons_append]

/-! ## Validation -/

/-- Validation passes over the bytes of characters. -/
theorem isValid_encodeAll_append (cs : List Char) (rest : Bytes) :
    isValid (encodeAll cs ++ rest) = isValid rest := by
  rw [isValid, cut_encodeAll_append, List.all_append, isValid]
  simp [Piece.isStray]

/-- Behind the bytes of characters, faults are where they were. -/
theorem firstFault?_encodeAll_append (cs : List Char) (rest : Bytes) :
    firstFault? (encodeAll cs ++ rest) = (firstFault? rest).map ((encodeAll cs).length + ·) := by
  have hclean : ∀ p ∈ cs.map fun c => Piece.sequence (encode c.toNat), (!p.isStray) = true := by
    intro p hp
    obtain ⟨c, -, rfl⟩ := List.mem_map.1 hp
    rfl
  have hbytes : (cs.map fun c => Piece.sequence (encode c.toNat)).flatMap Piece.bytes =
      encodeAll cs := by
    rw [List.flatMap_map]
    rfl
  have hany : (cs.map fun c => Piece.sequence (encode c.toNat)).any Piece.isStray = false :=
    List.any_eq_false.2 fun p hp => by simpa using hclean p hp
  simp only [firstFault?, cut_encodeAll_append, List.any_append, hany, Bool.false_or,
    List.takeWhile_append_of_pos hclean, List.flatMap_append, hbytes, List.length_append]
  split <;> rfl

/-- What starts no sequence is at fault right away, unless nothing is left. -/
theorem fault_of_leading {rest : Bytes} (h : leading rest = 0) (hne : rest ≠ []) :
    isValid rest = false ∧ firstFault? rest = some 0 := by
  obtain ⟨b, more, rfl⟩ := List.exists_cons_of_ne_nil hne
  have hcut : cut (b :: more) = .stray b :: cut more := by
    rw [cut_cons, h]
  simp [isValid, firstFault?, hcut, Piece.isStray]

/-- A text is valid exactly when it is the bytes of some characters. -/
theorem isValid_iff {s : Bytes} : isValid s = true ↔ ∃ cs, encodeAll cs = s := by
  constructor
  · intro h
    obtain ⟨cs, rest, rfl, hrest⟩ := exists_encodeAll_append s
    by_cases hne : rest = []
    · exact ⟨cs, by rw [hne, List.append_nil]⟩
    · rw [isValid_encodeAll_append, (fault_of_leading hrest hne).1] at h
      cases h
  · rintro ⟨cs, rfl⟩
    have h := isValid_encodeAll_append cs []
    rw [List.append_nil] at h
    rw [h, isValid, cut_nil, List.all_nil]

/-- The first fault stands behind the longest part of a text that is the bytes of characters. -/
theorem isGreatest_of_firstFault? {s : Bytes} {n : Nat} (h : firstFault? s = some n) :
    IsGreatest {m | m ≤ s.length ∧ ∃ cs, encodeAll cs = s.take m} n := by
  constructor
  · obtain ⟨cs, rest, rfl, hrest⟩ := exists_encodeAll_append s
    by_cases hne : rest = []
    · rw [hne, firstFault?_encodeAll_append, firstFault?, cut_nil] at h
      cases h
    · rw [firstFault?_encodeAll_append, (fault_of_leading hrest hne).2] at h
      obtain rfl := Option.some.inj h
      exact ⟨by simp, cs, by simp⟩
  · rintro m ⟨hm, cs, hcs⟩
    rw [← List.take_append_drop m s, ← hcs, firstFault?_encodeAll_append] at h
    obtain ⟨k, -, rfl⟩ := Option.map_eq_some_iff.1 h
    have hlength : (encodeAll cs).length = m := by
      rw [hcs, List.length_take, Nat.min_eq_left hm]
    omega

/-- A text is valid exactly when it has no fault. -/
theorem isValid_iff_firstFault? {s : Bytes} : isValid s = true ↔ firstFault? s = none := by
  rw [isValid, firstFault?, List.all_eq_not_any_not]
  by_cases h : (cut s).any Piece.isStray <;> simp [h]

/-- **Validation accepts exactly what encoding produces.** A text is valid, which is to say without
a fault, exactly when it is the bytes of some list of characters. There is at most one such list,
and the character that stands after some others is found at the end of their bytes, with the length
of its encoding. In a text that is not valid the first fault stands at the end of the longest part
that is the bytes of characters. -/
theorem valid_iff_encoded (s : Bytes) :
    (isValid s = true ↔ ∃ cs : List Char, encodeAll cs = s) ∧
    (∀ cs ds : List Char, encodeAll cs = s → encodeAll ds = s → cs = ds) ∧
    (∀ (before : List Char) (c : Char) (after : List Char), encodeAll (before ++ c :: after) = s →
      sequenceLength (s.drop (encodeAll before).length) = (encode c.toNat).length) ∧
    (isValid s = true ↔ firstFault? s = none) ∧
    (isValid s = false → ∃ n, firstFault? s = some n ∧
      IsGreatest {m | m ≤ s.length ∧ ∃ cs, encodeAll cs = s.take m} n) := by
  refine ⟨isValid_iff, ?_, ?_, isValid_iff_firstFault?, ?_⟩
  · rintro cs ds rfl hds
    exact encodeAll_injective hds.symm
  · rintro before c after rfl
    rw [encodeAll_append, List.drop_left, encodeAll_cons]
    exact (Sequence.of_char c).sequenceLength_append _
  · intro h
    obtain ⟨n, hn⟩ : ∃ n, firstFault? s = some n := by
      rw [← Option.isSome_iff_exists, Option.isSome_iff_ne_none, Ne, ← isValid_iff_firstFault?, h]
      exact Bool.false_ne_true
    exact ⟨n, hn, isGreatest_of_firstFault? hn⟩

/-- A letter, the euro sign and the first three bytes of a sequence of four: the fault stands behind
the euro sign. -/
theorem valid_iff_encoded_truncated :
    isValid [0x61, 0xE2, 0x82, 0xAC, 0xF0, 0x9F, 0x98] = false ∧
    IsGreatest {m | m ≤ 7 ∧
      ∃ cs, encodeAll cs = [0x61, 0xE2, 0x82, 0xAC, 0xF0, 0x9F, 0x98].take m} 4 ∧
    encodeAll ['a', '€'] = [0x61, 0xE2, 0x82, 0xAC] ∧
    sequenceLength [0xE2, 0x82, 0xAC] = 3 := by
  have hinvalid : isValid [0x61, 0xE2, 0x82, 0xAC, 0xF0, 0x9F, 0x98] = false := by
    decide +kernel
  have hencoded : encodeAll ['a', '€'] = [0x61, 0xE2, 0x82, 0xAC] := by decide +kernel
  obtain ⟨n, hn, hgreatest⟩ := (valid_iff_encoded _).2.2.2.2 hinvalid
  obtain rfl : n = 4 :=
    Option.some.inj (hn.symm.trans (by decide +kernel))
  exact ⟨hinvalid, hgreatest, hencoded, (valid_iff_encoded _).2.2.1 ['a'] '€' [] hencoded⟩

end StackLexer.Utf8
