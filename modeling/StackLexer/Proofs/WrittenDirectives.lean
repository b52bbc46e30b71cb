import StackLexer.Proofs.Bytes
import StackLexer.Proofs.Lists
import StackLexer.Proofs.Outcome
import StackLexer.Transition.Directive

/-!
# Written directives

A directive that starts with `#` is cut at every `#`, and each piece is read on its own. What can be
written is said here without cutting: as a row of parts, each with its `#`, of which none has another
one in it. That makes the two views the same.

* `Directive.Part.Written` — how a part is written;
* `Directive.Says` — what a directive says, part by part: nothing, a bare name, or a row of parts. It
  says one thing only (`Directive.Says.unique`);
* `Directive.parseWith_eq_ok_iff` — the directives that say something are those that are accepted,
  each with the moves of its parts, however merged counts are kept.
-/

namespace StackLexer.Directive

/-! ## What is written -/

/-- How a part is written. -/
inductive Part.Written : Bytes → Part → Prop
  /-- one entry is removed -/
  | pop : Written (bytes "#pop") (.pop 1)
  /-- as many entries are removed as the digits say -/
  | popCount {digits : Bytes} (hne : digits ≠ []) (hdigits : ∀ b ∈ digits, isDigit b = true)
      (hcount : 1 ≤ digits.toNat ∧ digits.toNat ≤ maxCount) :
      Written (bytes "#pop:" ++ digits) (.pop digits.toNat)
  /-- the current state is put on top once more -/
  | pushSame : Written (bytes "#push") .pushSame
  /-- a state is put on top -/
  | push {name : Bytes} (hne : name ≠ []) (hfree : 35 ∉ name) :
      Written (bytes "#push:" ++ name) (.push name)

/-- What a directive says, part by part. -/
inductive Says : Bytes → List Part → Prop
  /-- nothing -/
  | nothing : Says [] []
  /-- a bare name: the state is put on top -/
  | name {name : Bytes} (hne : name ≠ []) (hfree : 35 ∉ name) : Says name [.push name]
  /-- one part or more -/
  | parts {written : List Bytes} {parts : List Part} (hne : written ≠ [])
      (hparts : List.Forall₂ Part.Written written parts) : Says written.flatten parts

theorem count?_eq_some_iff {digits : Bytes} {n : Nat} :
    count? digits = some n ↔ digits ≠ [] ∧ (∀ b ∈ digits, isDigit b = true) ∧
      (1 ≤ digits.toNat ∧ digits.toNat ≤ maxCount) ∧ digits.toNat = n := by
  rw [count?]
  split
  · next h =>
    simp only [Bool.or_eq_true, List.isEmpty_iff, Bool.not_eq_true', List.all_eq_false] at h
    grind
  · next h =>
    simp only [Bool.or_eq_true, List.isEmpty_iff, Bool.not_eq_true', List.all_eq_false] at h
    split <;> grind

/-- What is written is a `#` and something that is read without another one. -/
theorem Part.Written.exists_part? {written : Bytes} {p : Part} (h : Written written p) :
    ∃ rest, written = 35 :: rest ∧ 35 ∉ rest ∧ part? rest = some p := by
  have hpop : bytes "pop" = [112, 111, 112] := by decide +kernel
  have hpopCount : bytes "pop:" = [112, 111, 112, 58] := by decide +kernel
  have hpush : bytes "push" = [112, 117, 115, 104] := by decide +kernel
  have hpushName : bytes "push:" = [112, 117, 115, 104, 58] := by decide +kernel
  cases h with
  | pop => exact ⟨bytes "pop", by decide +kernel, by decide +kernel, by decide +kernel⟩
  | @popCount digits hne hdigits hcount =>
    refine ⟨bytes "pop:" ++ digits, ?_, ?_, ?_⟩
    · rw [← List.cons_append, show bytes "#pop:" = 35 :: bytes "pop:" by decide +kernel]
    · -- a `#` is no digit
      have hfree : 35 ∉ digits := fun h => absurd (hdigits 35 h) (by decide)
      simp [hpopCount, hfree]
    · have hread : count? digits = some digits.toNat :=
        count?_eq_some_iff.2 ⟨hne, hdigits, hcount, rfl⟩
      simp [part?, hpop, hpopCount, hread]
  | pushSame => exact ⟨bytes "push", by decide +kernel, by decide +kernel, by decide +kernel⟩
  | @push name hne hfree =>
    refine ⟨bytes "push:" ++ name, ?_, ?_, ?_⟩
    · rw [← List.cons_append, show bytes "#push:" = 35 :: bytes "push:" by decide +kernel]
    · simp [hpushName, hfree]
    · have hlength : 0 < name.length := List.length_pos_iff.2 hne
      simp [part?, hpop, hpopCount, hpush, hpushName, hlength]

/-- A part is read as it is written. -/
theorem part?_eq_some_iff {rest : Bytes} (hfree : 35 ∉ rest) {p : Part} :
    part? rest = some p ↔ Part.Written (35 :: rest) p := by
  constructor
  · intro h
    rw [part?] at h
    split at h
    · next hpop =>
      cases h
      rw [hpop]
      exact .pop
    · split at h
      · next hstarts =>
        obtain ⟨digits, rfl⟩ := List.isPrefixOf_iff_prefix.1 hstarts
        obtain ⟨n, hn, rfl⟩ := Option.map_eq_some_iff.1 h
        rw [List.drop_left' (show (bytes "pop:").length = 4 by decide +kernel)] at hn
        obtain ⟨hne, hdigits, hcount, rfl⟩ := count?_eq_some_iff.1 hn
        exact .popCount hne hdigits hcount
      · split at h
        · next hpush =>
          cases h
          rw [hpush]
          exact .pushSame
        · split at h
          · next hnamed =>
            obtain ⟨hstarts, hlength⟩ := hnamed
            obtain ⟨name, rfl⟩ := List.isPrefixOf_iff_prefix.1 hstarts
            cases h
            rw [List.drop_left' (show (bytes "push:").length = 5 by decide +kernel)]
            have hne : name ≠ [] := by
              rintro rfl
              exact absurd hlength (by decide +kernel)
            exact .push hne fun hmem => hfree (List.mem_append_right _ hmem)
          · cases h
  · intro h
    obtain ⟨rest', hrest, -, hread⟩ := h.exists_part?
    cases hrest
    exact hread

/-- Parts are what a directive that starts with `#` is cut into. -/
theorem parts?_eq_some_iff {rest : Bytes} {parts : List Part} :
    parts? rest = some parts ↔
      ∃ written, List.Forall₂ Part.Written written parts ∧ written.flatten = 35 :: rest := by
  rw [parts?, Lists.mapM_eq_some_iff]
  constructor
  · intro h
    have hfree : ∀ piece ∈ rest.pieces 35, 35 ∉ piece := fun _ => Bytes.not_mem_of_mem_pieces
    refine ⟨(rest.pieces 35).map (35 :: ·), ?_, Bytes.flatten_pieces 35 rest⟩
    rw [List.forall₂_map_left_iff]
    refine ((List.forall₂_and_left _ _).2 ⟨hfree, h⟩).imp fun piece p hpiece => ?_
    exact (part?_eq_some_iff hpiece.1).1 hpiece.2
  · rintro ⟨written, hwritten, hflatten⟩
    -- without its `#`, what is written has no other, so it is a piece
    obtain ⟨pieces, rfl, hfree, hread⟩ : ∃ pieces : List Bytes, written = pieces.map (35 :: ·) ∧
        (∀ piece ∈ pieces, 35 ∉ piece) ∧
        List.Forall₂ (fun piece p => part? piece = some p) pieces parts := by
      clear hflatten
      induction hwritten with
      | nil => exact ⟨[], rfl, fun _ h => absurd h List.not_mem_nil, .nil⟩
      | cons hfirst _ ih =>
        obtain ⟨piece, rfl, hpiece, hp⟩ := hfirst.exists_part?
        obtain ⟨pieces, rfl, hfree, hread⟩ := ih
        exact ⟨piece :: pieces, rfl, List.forall_mem_cons.2 ⟨hpiece, hfree⟩, .cons hp hread⟩
    rwa [Bytes.pieces_of_flatten hfree hflatten]

/-- What a directive says is what is read: nothing, a bare name, or the parts after a `#`. -/
theorem says_iff {directive : Bytes} {parts : List Part} :
    Says directive parts ↔ directive = [] ∧ parts = [] ∨
      directive ≠ [] ∧ 35 ∉ directive ∧ parts = [.push directive] ∨
      ∃ rest, directive = 35 :: rest ∧ parts? rest = some parts := by
  constructor
  · intro h
    cases h with
    | nothing => exact .inl ⟨rfl, rfl⟩
    | name hne hfree => exact .inr (.inl ⟨hne, hfree, rfl⟩)
    | @parts written _ hne hparts =>
      obtain ⟨rest, hrest⟩ : ∃ rest, written.flatten = 35 :: rest := by
        cases hparts with
        | nil => exact absurd rfl hne
        | cons hfirst _ =>
          obtain ⟨piece, rfl, -, -⟩ := hfirst.exists_part?
          exact ⟨_, rfl⟩
      exact .inr (.inr ⟨rest, hrest, parts?_eq_some_iff.2 ⟨written, hparts, hrest⟩⟩)
  · rintro (⟨rfl, rfl⟩ | ⟨hne, hfree, rfl⟩ | ⟨rest, rfl, hparts⟩)
    · exact .nothing
    · exact .name hne hfree
    · obtain ⟨written, hwritten, hflatten⟩ := parts?_eq_some_iff.1 hparts
      rw [← hflatten]
      refine .parts ?_ hwritten
      rintro rfl
      cases hflatten

/-- A directive says one thing only. -/
theorem Says.unique {directive : Bytes} {parts others : List Part} (h : Says directive parts)
    (hothers : Says directive others) : parts = others := by
  rcases says_iff.1 h with ⟨rfl, rfl⟩ | ⟨hne, hfree, rfl⟩ | ⟨rest, rfl, hparts⟩ <;>
    rcases says_iff.1 hothers with ⟨h₁, rfl⟩ | ⟨h₁, h₂, rfl⟩ | ⟨rest', h₁, hparts'⟩ <;> simp_all

/-- **What is accepted.** The directives that say something, each with the moves of its parts. -/
theorem parseWith_eq_ok_iff {keep : Int → Int} {directive : Bytes} {ts : List Transition} :
    parseWith keep directive = .ok ts ↔
      ∃ parts, Says directive parts ∧ ts = ofParts keep parts := by
  simp only [says_iff]
  constructor
  · intro h
    rw [parseWith.eq_def] at h
    split at h
    · cases h
      exact ⟨[], .inl ⟨rfl, rfl⟩, rfl⟩
    · next first rest =>
      split at h
      · next hfirst =>
        subst hfirst
        split at h
        · next parts hparts =>
          cases h
          exact ⟨parts, .inr (.inr ⟨rest, rfl, hparts⟩), rfl⟩
        · cases h
      · next hfirst =>
        split at h
        · cases h
        · next hrest =>
          cases h
          have hfree : 35 ∉ first :: rest := List.mem_cons.not.2 (not_or.2 ⟨Ne.symm hfirst, hrest⟩)
          exact ⟨_, .inr (.inl ⟨List.cons_ne_nil first rest, hfree, rfl⟩), rfl⟩
  · rintro ⟨parts, ⟨rfl, rfl⟩ | ⟨hne, hfree, rfl⟩ | ⟨rest, rfl, hparts⟩, rfl⟩
    · rfl
    · cases directive with
      | nil => exact absurd rfl hne
      | cons first rest =>
        obtain ⟨hfirst, hrest⟩ := not_or.1 (List.mem_cons.not.1 hfree)
        rw [parseWith, if_neg (Ne.symm hfirst), if_neg hrest]
        rfl
    · rw [parseWith, if_pos rfl, hparts]

/-- A list of directives is accepted when each of them is. -/
theorem parseAllWith_eq_ok_iff {keep : Int → Int} {directives : List Bytes}
    {ts : List Transition} :
    parseAllWith keep directives = .ok ts ↔
      ∃ readings, List.Forall₂ Says directives readings ∧
        ts = (readings.map (ofParts keep)).flatten := by
  have heach : ∀ out, directives.mapM (parseWith keep) = .ok out ↔
      ∃ readings, List.Forall₂ Says directives readings ∧ out = readings.map (ofParts keep) := by
    simp only [Outcome.mapM_eq_ok]
    induction directives with
    | nil => simp
    | cons directive rest ih =>
      intro out
      cases out with
      | nil => simp
      | cons first more =>
        rw [List.map_cons, List.map_cons, List.cons.injEq, parseWith_eq_ok_iff, ih]
        simp only [List.forall₂_cons_left_iff]
        constructor
        · rintro ⟨⟨parts, hsays, rfl⟩, readings, hrest, rfl⟩
          exact ⟨parts :: readings, ⟨parts, readings, hsays, hrest, rfl⟩, rfl⟩
        · rintro ⟨_, ⟨parts, readings, hsays, hrest, rfl⟩, hout⟩
          obtain ⟨rfl, rfl⟩ := List.cons.inj hout
          exact ⟨⟨parts, hsays, rfl⟩, readings, hrest, rfl⟩
  rw [parseAllWith]
  constructor
  · intro h
    cases hout : directives.mapM (parseWith keep) with
    | error e =>
      rw [hout] at h
      cases h
    | ok out =>
      rw [hout] at h
      cases h
      obtain ⟨readings, hsays, rfl⟩ := (heach out).1 hout
      exact ⟨readings, hsays, rfl⟩
  · rintro ⟨readings, hsays, rfl⟩
    rw [(heach _).2 ⟨readings, hsays, rfl⟩]
    rfl

/-! ## Proper parts -/

/-- A pop that is written removes something. -/
def Part.Proper (p : Part) : Prop := ∀ count, p = .pop count → 1 ≤ count

theorem Part.Written.proper {written : Bytes} {p : Part} (h : Written written p) : p.Proper := by
  rintro count rfl
  cases h with
  | pop => exact Nat.le_refl 1
  | popCount _ _ hcount => exact hcount.1

theorem Says.proper {directive : Bytes} {parts : List Part} (h : Says directive parts) :
    ∀ p ∈ parts, p.Proper := by
  cases h with
  | nothing => exact fun p hp => absurd hp List.not_mem_nil
  | name =>
    intro p hp count hcount
    rw [List.mem_singleton.1 hp] at hcount
    cases hcount
  | parts _ hparts =>
    exact Lists.forall_of_forall₂ hparts fun _ _ hp => hp.proper

end StackLexer.Directive
