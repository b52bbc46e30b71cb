import StackLexer.Bytes

/-!
# Cutting what was joined

Joining parts with a separator and cutting at it again gives the parts back, as long as there is a
part and none has the separator in it. Without parts, and with parts that have it, the same text
comes from several lists. The same goes for parts that each begin with the separator.
-/

namespace StackLexer.Bytes

theorem pieces_of_not_mem {sep : UInt8} {part : Bytes} (h : sep ∉ part) :
    pieces sep part = [part] := by
  induction part with
  | nil => rfl
  | cons b rest ih =>
    rw [List.mem_cons, not_or] at h
    rw [pieces, if_neg (Ne.symm h.1), ih h.2]

/-- No piece has the separator in it. -/
theorem not_mem_of_mem_pieces {sep : UInt8} {s piece : Bytes} (h : piece ∈ pieces sep s) :
    sep ∉ piece := by
  induction s generalizing piece with
  | nil =>
    rw [pieces, List.mem_singleton] at h
    rw [h]
    exact List.not_mem_nil
  | cons b rest ih =>
    rw [pieces] at h
    split at h
    · rcases List.mem_cons.1 h with rfl | h
      · exact List.not_mem_nil
      · exact ih h
    · next hb =>
      cases hrest : pieces sep rest with
      | nil => exact absurd hrest (pieces_ne_nil sep rest)
      | cons first more =>
        rw [hrest] at h ih
        rcases List.mem_cons.1 h with rfl | h
        · rw [List.mem_cons, not_or]
          exact ⟨Ne.symm hb, ih List.mem_cons_self⟩
        · exact ih (List.mem_cons_of_mem _ h)

/-- Cutting at a separator that was put in keeps the pieces on both sides. -/
theorem pieces_append_sep (sep : UInt8) (s rest : Bytes) :
    pieces sep (s ++ sep :: rest) = pieces sep s ++ pieces sep rest := by
  induction s with
  | nil => simp [pieces]
  | cons b s ih =>
    rw [List.cons_append, pieces, pieces, ih]
    split
    · rw [List.cons_append]
    · cases hs : pieces sep s with
      | nil => exact absurd hs (pieces_ne_nil sep s)
      | cons first more => rfl

/-- Cutting undoes joining. -/
theorem pieces_intercalate {sep : UInt8} {parts : List Bytes} (hne : parts ≠ [])
    (h : ∀ part ∈ parts, sep ∉ part) : pieces sep ([sep].intercalate parts) = parts := by
  induction parts with
  | nil => exact absurd rfl hne
  | cons part more ih =>
    have hpart : sep ∉ part := h part List.mem_cons_self
    cases more with
    | nil =>
      rw [show [sep].intercalate [part] = part by simp [List.intercalate]]
      exact pieces_of_not_mem hpart
    | cons next rest =>
      have hmore := ih (List.cons_ne_nil next rest) fun p hp => h p (List.mem_cons_of_mem _ hp)
      rw [show [sep].intercalate (part :: next :: rest) =
          part ++ sep :: [sep].intercalate (next :: rest) by simp [List.intercalate],
        pieces_append_sep, pieces_of_not_mem hpart, hmore, List.singleton_append]

/-- Cutting loses nothing but the separators. -/
theorem flatten_pieces (sep : UInt8) (s : Bytes) :
    ((pieces sep s).map (sep :: ·)).flatten = sep :: s := by
  induction s with
  | nil => rfl
  | cons b rest ih =>
    rw [pieces]
    split
    · next hb => rw [List.map_cons, List.flatten_cons, ih, hb, List.singleton_append]
    · cases hrest : pieces sep rest with
      | nil => exact absurd hrest (pieces_ne_nil sep rest)
      | cons first more =>
        rw [hrest, List.map_cons, List.flatten_cons, List.cons_append, List.cons.injEq] at ih
        simp only [List.map_cons, List.flatten_cons, List.cons_append, ih.2]

/-- Parts that begin with the separator and have no other in them are what cutting finds. -/
theorem pieces_of_flatten {sep : UInt8} {parts : List Bytes} {s : Bytes}
    (h : ∀ part ∈ parts, sep ∉ part) (hs : (parts.map (sep :: ·)).flatten = sep :: s) :
    pieces sep s = parts := by
  induction parts generalizing s with
  | nil => cases hs
  | cons part more ih =>
    have hpart : sep ∉ part := h part List.mem_cons_self
    rw [List.map_cons, List.flatten_cons, List.cons_append, List.cons.injEq] at hs
    obtain ⟨-, rfl⟩ := hs
    cases more with
    | nil => simpa using pieces_of_not_mem hpart
    | cons next rest =>
      have hmore := ih (s := next ++ (rest.map (sep :: ·)).flatten)
        (fun p hp => h p (List.mem_cons_of_mem _ hp)) rfl
      rw [List.map_cons, List.flatten_cons, List.cons_append, pieces_append_sep,
        pieces_of_not_mem hpart, hmore, List.singleton_append]

end StackLexer.Bytes
