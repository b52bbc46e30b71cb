import Mathlib.Data.Nat.Digits.Defs
import StackLexer.Proofs.WrittenDirectives

/-!
# The language of directives

Directives are cut at every `#` and the pieces are told apart by how they begin, where `#pop` is the
beginning of `#pop:` and `#push` of `#push:`. Which texts get through is said here by what they look
like, without cutting and without a reader.

* `Bytes.toNat_eq_ofDigits` — the value of a digit string, read from the left, is the number with
  these decimal digits;
* `Directive.IsPart` — the texts of single parts; `Directive.isPart_iff` says that these are the
  parts that can be written;
* `Directive.IsDirective` — the texts of directives;
* `Directive.accepted_iff_isDirective` — these are the texts that are accepted. All others are
  refused with the same error, which names the whole text.
-/

namespace StackLexer

/-- Digits read from the left add up to what they stand for by their places. -/
theorem Bytes.toNat_eq_ofDigits (digits : Bytes) :
    digits.toNat = Nat.ofDigits 10 (digits.reverse.map fun b => b.toNat - 48) := by
  rw [Nat.ofDigits_eq_foldr, List.foldr_map, List.foldr_reverse, Bytes.toNat]
  congr 1
  funext value b
  rw [Nat.cast_id, Nat.mul_comm, Nat.add_comm]

namespace Directive

/-! ## Texts of directives -/

/-- The texts of parts. -/
inductive IsPart : Bytes → Prop
  /-- one entry is removed -/
  | pop : IsPart (bytes "#pop")
  /-- a number of entries is removed: decimal digits, leading zeros allowed, from 1 to a million -/
  | popCount {digits : Bytes} (hne : digits ≠ []) (hdigits : ∀ b ∈ digits, 48 ≤ b ∧ b ≤ 57)
      (hvalue : 1 ≤ Nat.ofDigits 10 (digits.reverse.map fun b => b.toNat - 48) ∧
        Nat.ofDigits 10 (digits.reverse.map fun b => b.toNat - 48) ≤ 1000000) :
      IsPart (bytes "#pop:" ++ digits)
  /-- the current state is put on top once more -/
  | pushSame : IsPart (bytes "#push")
  /-- a state is put on top -/
  | push {name : Bytes} (hne : name ≠ []) (hfree : 35 ∉ name) : IsPart (bytes "#push:" ++ name)

/-- The texts of directives: nothing, a name, or one part and more. -/
inductive IsDirective : Bytes → Prop
  /-- no move -/
  | nothing : IsDirective []
  /-- a bare name -/
  | name {name : Bytes} (hne : name ≠ []) (hfree : 35 ∉ name) : IsDirective name
  /-- parts, one after the other -/
  | parts {parts : List Bytes} (hne : parts ≠ []) (hparts : ∀ part ∈ parts, IsPart part) :
      IsDirective parts.flatten

theorem isDigit_iff {b : UInt8} : isDigit b = true ↔ 48 ≤ b ∧ b ≤ 57 := by
  rw [isDigit, Bool.and_eq_true, decide_eq_true_iff, decide_eq_true_iff]

/-- The texts of parts are those that can be written. -/
theorem isPart_iff {text : Bytes} : IsPart text ↔ ∃ p, Part.Written text p := by
  constructor
  · intro h
    cases h with
    | pop => exact ⟨_, .pop⟩
    | popCount hne hdigits hvalue =>
      rw [← Bytes.toNat_eq_ofDigits] at hvalue
      exact ⟨_, .popCount hne (fun b hb => isDigit_iff.2 (hdigits b hb)) hvalue⟩
    | pushSame => exact ⟨_, .pushSame⟩
    | push hne hfree => exact ⟨_, .push hne hfree⟩
  · rintro ⟨p, h⟩
    cases h with
    | pop => exact .pop
    | popCount hne hdigits hcount =>
      rw [Bytes.toNat_eq_ofDigits] at hcount
      exact .popCount hne (fun b hb => isDigit_iff.1 (hdigits b hb)) hcount
    | pushSame => exact .pushSame
    | push hne hfree => exact .push hne hfree

/-- The texts of directives are those that say something. -/
theorem isDirective_iff {directive : Bytes} :
    IsDirective directive ↔ ∃ parts, Says directive parts := by
  constructor
  · intro h
    cases h with
    | nothing => exact ⟨_, .nothing⟩
    | name hne hfree => exact ⟨_, .name hne hfree⟩
    | parts hne hparts =>
      obtain ⟨parts, hwritten⟩ :=
        Lists.exists_forall₂_iff.2 fun part hpart => isPart_iff.1 (hparts part hpart)
      exact ⟨parts, .parts hne hwritten⟩
  · rintro ⟨parts, h⟩
    cases h with
    | nothing => exact .nothing
    | name hne hfree => exact .name hne hfree
    | parts hne hwritten =>
      have hparts := Lists.exists_forall₂_iff.1 ⟨parts, hwritten⟩
      exact .parts hne fun part hpart => isPart_iff.2 (hparts part hpart)

/-! ## Acceptance -/

/-- There is one way to be refused. -/
theorem eq_invalidDirective_of_parseWith {keep : Int → Int} {directive : Bytes} {e : LexerError}
    (h : parseWith keep directive = .error e) : e = .invalidDirective directive := by
  rw [parseWith.eq_def] at h
  split at h
  · cases h
  · split at h
    · split at h
      · cases h
      · exact (Except.error.inj h).symm
    · split at h
      · exact (Except.error.inj h).symm
      · cases h

/-- **The language of directives.** The reader accepts a text exactly when it is empty, a name
without `#`, or a row of parts of the four forms; every other text is refused as an invalid
directive. -/
theorem accepted_iff_isDirective (directive : Bytes) :
    ((∃ ts, parse directive = .ok ts) ↔ IsDirective directive) ∧
    (parse directive = .error (.invalidDirective directive) ↔ ¬IsDirective directive) := by
  have haccepted : (∃ ts, parse directive = .ok ts) ↔ IsDirective directive := by
    rw [isDirective_iff]
    constructor
    · rintro ⟨ts, h⟩
      obtain ⟨parts, hsaid, -⟩ := parseWith_eq_ok_iff.1 h
      exact ⟨parts, hsaid⟩
    · rintro ⟨parts, hsaid⟩
      exact ⟨_, parseWith_eq_ok_iff.2 ⟨parts, hsaid, rfl⟩⟩
  refine ⟨haccepted, ?_⟩
  rw [← haccepted]
  cases h : parse directive with
  | ok ts => simp
  | error e => simp [eq_invalidDirective_of_parseWith h]

-- leading zeros do not count against the limit
example : parse (bytes "#pop:0001000000") = .ok [.pop 1000000] := by decide +kernel
example : parse (bytes "#pop:1000001") = .error (.invalidDirective (bytes "#pop:1000001")) := by
  decide +kernel

end Directive

end StackLexer
