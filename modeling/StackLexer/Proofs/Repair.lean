import StackLexer.Proofs.ValidText

/-!
# Repairing a text

A text is repaired from left to right: a well-formed sequence is kept, a byte that starts none is
replaced, and either way the next one is looked for behind it. How far one has to look depends on
what follows, up to three bytes on, so a text could be cut differently once it has been repaired. It
is not, because what is kept and what is put in are whole characters.

* `Utf8.Repairs` — a text and its repair, one character or stray byte after the other, in terms of
  the encoder alone; `Utf8.leading_eq_zero_iff` says that the bytes which start no sequence are the
  ones at which no character is encoded;
* `Utf8.repairs_replaceStrays` and `Utf8.Repairs.eq_replaceStrays` — every text has such a repair,
  and only the one found by going through its pieces;
* `Utf8.sanitize_eq_replaceStrays` — valid texts, which are returned at once, would come out the
  same;
* `Utf8.Repairs.length_text` — how much longer the text gets can be read off it;
* `Utf8.replaceStrays_encodeAll_append` — the bytes of characters in front stay, so that the first
  replacement stands at the first fault;
* `Utf8.sanitize_repairs` — all of it for one text.
-/

namespace StackLexer.Utf8

/-- A text and its repair. -/
inductive Repairs : Bytes → Repair → Prop
  /-- nothing is left -/
  | done : Repairs [] ⟨[], 0⟩
  /-- a character is kept -/
  | keep (c : Char) {s : Bytes} {r : Repair} (hrest : Repairs s r) :
      Repairs (encode c.toNat ++ s) ⟨encode c.toNat ++ r.text, r.replaced⟩
  /-- a byte at which no character is encoded is replaced -/
  | replace {b : UInt8} {s : Bytes} {r : Repair} (hnone : ∀ c : Char, ¬encode c.toNat <+: b :: s)
      (hrest : Repairs s r) : Repairs (b :: s) ⟨[0xEF, 0xBF, 0xBD] ++ r.text, r.replaced + 1⟩

/-! ## One character or stray byte -/

/-- What starts no sequence is where no character is encoded. -/
theorem leading_eq_zero_iff {s : Bytes} :
    leading s = 0 ↔ ∀ c : Char, ¬encode c.toNat <+: s := by
  constructor
  · rintro h c ⟨rest, rfl⟩
    have hc := Sequence.of_char c
    rw [hc.leading_append] at h
    exact hc.ne_nil (List.length_eq_zero_iff.1 h)
  · intro h
    refine Decidable.byContradiction fun hleading => ?_
    obtain ⟨q, v, rest, hq, rfl⟩ := Sequence.exists_of_leading s hleading
    obtain ⟨c, -, rfl⟩ := hq.exists_char
    exact h c (List.prefix_append _ rest)

@[simp] theorem replaceStrays_nil : replaceStrays [] = ⟨[], 0⟩ := by
  simp [replaceStrays]

/-- A character in front is kept. -/
theorem replaceStrays_encode_append (c : Char) (s : Bytes) :
    replaceStrays (encode c.toNat ++ s) =
      ⟨encode c.toNat ++ (replaceStrays s).text, (replaceStrays s).replaced⟩ := by
  simp only [replaceStrays, (Sequence.of_char c).cut_append, List.flatMap_cons, List.countP_cons]
  rfl

/-- A byte that starts no sequence is replaced. -/
theorem replaceStrays_cons {b : UInt8} {s : Bytes} (h : leading (b :: s) = 0) :
    replaceStrays (b :: s) =
      ⟨replacement ++ (replaceStrays s).text, (replaceStrays s).replaced + 1⟩ := by
  have hcut : cut (b :: s) = .stray b :: cut s := by
    rw [cut_cons, h]
  simp only [replaceStrays, hcut, List.flatMap_cons, List.countP_cons]
  rfl

/-! ## Whole texts -/

/-- Every text is repaired as computed. -/
theorem repairs_replaceStrays (s : Bytes) : Repairs s (replaceStrays s) := by
  -- the text is gone through by characters, so the induction is on the number of bytes left
  induction hn : s.length using Nat.strongRecOn generalizing s with
  | ind n ih =>
    by_cases h : leading s = 0
    · cases s with
      | nil => exact replaceStrays_nil ▸ .done
      | cons b s =>
        rw [replaceStrays_cons h]
        exact .replace (leading_eq_zero_iff.1 h) (ih s.length (by rw [← hn]; simp) s rfl)
    · obtain ⟨q, v, rest, hq, rfl⟩ := Sequence.exists_of_leading s h
      obtain ⟨c, -, rfl⟩ := hq.exists_char
      have hpos := List.length_pos_iff.2 hq.ne_nil
      rw [replaceStrays_encode_append]
      exact .keep c (ih rest.length (by rw [List.length_append] at hn; omega) rest rfl)

namespace Repairs

variable {s : Bytes} {r : Repair}

/-- A text has no other repair. -/
theorem eq_replaceStrays (h : Repairs s r) : replaceStrays s = r := by
  induction h with
  | done => exact replaceStrays_nil
  | keep c _ ih => rw [replaceStrays_encode_append, ih]
  | replace hnone _ ih => rw [replaceStrays_cons (leading_eq_zero_iff.2 hnone), ih]; rfl

/-- Each replacement makes the text two bytes longer. -/
theorem length_text (h : Repairs s r) : r.text.length = s.length + 2 * r.replaced := by
  induction h with
  | done => rfl
  | keep c _ ih =>
    rw [List.length_append, List.length_append, ih, Nat.add_assoc]
  | replace _ _ ih =>
    rw [List.length_append, List.length_cons, ih]
    simp
    omega

end Repairs

/-- The bytes of characters in front stay as they are. -/
theorem replaceStrays_encodeAll_append (cs : List Char) (rest : Bytes) :
    replaceStrays (encodeAll cs ++ rest) =
      ⟨encodeAll cs ++ (replaceStrays rest).text, (replaceStrays rest).replaced⟩ := by
  induction cs with
  | nil => rfl
  | cons c cs ih =>
    rw [encodeAll_cons, List.append_assoc, replaceStrays_encode_append, ih, List.append_assoc]

/-- Returning valid texts at once makes no difference. -/
theorem sanitize_eq_replaceStrays (s : Bytes) : sanitize s = replaceStrays s := by
  rw [sanitize]
  split
  · next h =>
    obtain ⟨cs, rfl⟩ := isValid_iff.1 h
    have hcs := replaceStrays_encodeAll_append cs []
    rw [List.append_nil, replaceStrays_nil, List.append_nil] at hcs
    exact hcs.symm
  · rfl

theorem isValid_sanitize (s : Bytes) : isValid (sanitize s).text = true :=
  isValid_iff_text.2 (text_sanitize s)

/-- Valid texts are those in which there is nothing to repair. -/
theorem isValid_iff_sanitize_eq {s : Bytes} : isValid s = true ↔ sanitize s = ⟨s, 0⟩ := by
  constructor
  · intro h
    rw [sanitize, if_pos h]
  · intro h
    have hvalid := isValid_sanitize s
    rwa [h] at hvalid

/-- In any other text, the first byte to be replaced is the one at the first fault. -/
theorem exists_first_replacement {s : Bytes} (h : isValid s = false) :
    ∃ off b rest, firstFault? s = some off ∧ s = s.take off ++ b :: rest ∧
      isValid (s.take off) = true ∧ (∀ c : Char, ¬encode c.toNat <+: b :: rest) ∧
      sanitize s = ⟨s.take off ++ replacement ++ (sanitize rest).text,
        (sanitize rest).replaced + 1⟩ := by
  obtain ⟨cs, tail, rfl, hleading⟩ := exists_encodeAll_append s
  cases tail with
  | nil =>
    rw [List.append_nil, isValid_iff.2 ⟨cs, rfl⟩] at h
    cases h
  | cons b rest =>
    have hfault := (fault_of_leading hleading (List.cons_ne_nil b rest)).2
    refine ⟨(encodeAll cs).length, b, rest, ?_, ?_, ?_, leading_eq_zero_iff.1 hleading, ?_⟩
    · rw [firstFault?_encodeAll_append, hfault]
      rfl
    · rw [List.take_left]
    · rw [List.take_left]
      exact isValid_iff.2 ⟨cs, rfl⟩
    · rw [sanitize_eq_replaceStrays, replaceStrays_encodeAll_append, replaceStrays_cons hleading,
        List.take_left, List.append_assoc, ← sanitize_eq_replaceStrays]

/-- **Repair.** What comes out of the repair of a text is valid. It is the text itself, without a
replacement, exactly when that was valid already. In general it is what one finds by going through
the text from the left, keeping each character and putting `EF BF BD` in the place of each byte at
which none is encoded; so it is longer by two bytes for each replacement. The first replacement
stands at the first fault, behind what is kept. Nothing is left to be repaired. -/
theorem sanitize_repairs (s : Bytes) :
    isValid (sanitize s).text = true ∧
    (sanitize s = ⟨s, 0⟩ ↔ isValid s = true) ∧
    (∀ r, Repairs s r ↔ sanitize s = r) ∧
    (sanitize s).text.length = s.length + 2 * (sanitize s).replaced ∧
    (isValid s = false → ∃ off b rest, firstFault? s = some off ∧ s = s.take off ++ b :: rest ∧
      isValid (s.take off) = true ∧ (∀ c : Char, ¬encode c.toNat <+: b :: rest) ∧
      sanitize s = ⟨s.take off ++ replacement ++ (sanitize rest).text,
        (sanitize rest).replaced + 1⟩) ∧
    sanitize (sanitize s).text = ⟨(sanitize s).text, 0⟩ := by
  have hrepairs : Repairs s (sanitize s) := sanitize_eq_replaceStrays s ▸ repairs_replaceStrays s
  refine ⟨isValid_sanitize s, isValid_iff_sanitize_eq.symm, fun r => ⟨fun h => ?_, ?_⟩,
    hrepairs.length_text, exists_first_replacement, isValid_iff_sanitize_eq.1 (isValid_sanitize s)⟩
  · rw [sanitize_eq_replaceStrays, h.eq_replaceStrays]
  · rintro rfl
    exact hrepairs

/-- Two bytes of the euro sign, cut off by a letter of two bytes, and a byte that is never used: the
first fault is the first byte of the broken sign, and its second byte is another one. -/
theorem sanitize_repairs_broken :
    isValid [0x61, 0xE2, 0x82, 0xC3, 0xA9, 0xFF] = false ∧
    sanitize [0x61, 0xE2, 0x82, 0xC3, 0xA9, 0xFF] =
      ⟨[0x61, 0xEF, 0xBF, 0xBD, 0xEF, 0xBF, 0xBD, 0xC3, 0xA9, 0xEF, 0xBF, 0xBD], 3⟩ ∧
    firstFault? [0x61, 0xE2, 0x82, 0xC3, 0xA9, 0xFF] = some 1 ∧
    ∀ c : Char, ¬encode c.toNat <+: [0xE2, 0x82, 0xC3, 0xA9, 0xFF] := by
  have hinvalid : isValid [0x61, 0xE2, 0x82, 0xC3, 0xA9, 0xFF] = false := by decide +kernel
  have hfault : firstFault? [0x61, 0xE2, 0x82, 0xC3, 0xA9, 0xFF] = some 1 := by decide +kernel
  obtain ⟨off, b, rest, hoff, htext, -, hnone, -⟩ := (sanitize_repairs _).2.2.2.2.1 hinvalid
  obtain rfl := Option.some.inj (hoff.symm.trans hfault)
  have hrest : [0xE2, 0x82, 0xC3, 0xA9, 0xFF] = b :: rest := (List.cons.inj htext).2
  rw [← hrest] at hnone
  exact ⟨hinvalid, by decide +kernel, hfault, hnone⟩

end StackLexer.Utf8
