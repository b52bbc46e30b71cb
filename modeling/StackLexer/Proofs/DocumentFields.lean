import Mathlib.Data.List.Forall2
import StackLexer.Document
import StackLexer.Proofs.Outcome

/-!
# Fields of documents

What the readers of fields accept, said by what is written, and what they do with everything else: a
refusal names the field that was asked for, or one within it. The name of a field does not matter
for what is read there, so it is left out of what is said about a field that is accepted.

* `Document.Reads` — a reader accepts what is written in some way, wherever it is asked;
* `Document.Optionally` — an optional field, with what it means to be missing;
* `Document.MovesWritten` — transitions, as one directive or as a list of them;
* `Document.RefusesAt` — failures are format errors at a field or within it, with one lemma for each
  way in which readers are put together;
* `Document.items_eq_ok_iff` — an array is read item by item.
-/

namespace StackLexer.Document

variable {α β : Type}

/-! ## Refusals -/

/-- If it fails, then because of the format of the field or of something within it. -/
def RefusesAt (field : Bytes) (x : Except LexerError α) : Prop :=
  ∀ e, x = .error e → ∃ within problem, e = .format (field ++ within) problem

namespace RefusesAt

variable {field inner : Bytes} {x : Except LexerError α}

theorem ok (field : Bytes) (a : α) : RefusesAt field (.ok a : Except LexerError α) := by
  intro e he
  cases he

theorem format (field problem : Bytes) :
    RefusesAt field (.error (.format field problem) : Except LexerError α) := by
  intro e he
  cases he
  exact ⟨[], problem, by simp⟩

theorem expected (field what : Bytes) (j : Json) :
    RefusesAt field (.error (expected field what j) : Except LexerError α) := format field _

/-- What is within something within a field is within the field. -/
theorem outer (h : RefusesAt inner x) (hinner : field <+: inner) : RefusesAt field x := by
  intro e he
  obtain ⟨deeper, problem, rfl⟩ := h e he
  obtain ⟨within, rfl⟩ := hinner
  exact ⟨within ++ deeper, problem, by rw [List.append_assoc]⟩

theorem bind {f : α → Except LexerError β} (h : RefusesAt field x)
    (hf : ∀ a, RefusesAt field (f a)) : RefusesAt field (x >>= f) := by
  intro e he
  rcases Outcome.bind_eq_error.1 he with he | ⟨a, -, he⟩
  · exact h e he
  · exact hf a e he

theorem mapM {f : β → Except LexerError α} {l : List β} (h : ∀ b ∈ l, RefusesAt field (f b)) :
    RefusesAt field (l.mapM f) := by
  induction l with
  | nil => exact ok field []
  | cons b l ih =>
    obtain ⟨hfirst, hrest⟩ := List.forall_mem_cons.1 h
    rw [List.mapM_cons]
    exact bind hfirst fun a => bind (ih hrest) fun more => ok field _

/-- What does not succeed is refused, and what is refused does not succeed. -/
theorem exists_error_iff (h : RefusesAt field x) :
    (∃ within problem, x = .error (.format (field ++ within) problem)) ↔ ¬∃ a, x = .ok a := by
  cases x with
  | ok a => simp
  | error e =>
    obtain ⟨within, problem, rfl⟩ := h e rfl
    simp

end RefusesAt

/-! ## Strings and truth values -/

/-- The reader accepts what is written in some way, and reads what is meant by it. -/
def Reads (read : Bytes → Json → Except LexerError α) (Written : Json → α → Prop) : Prop :=
  ∀ field j a, read field j = .ok a ↔ Written j a

/-- A string. -/
def StringWritten (j : Json) (s : Bytes) : Prop := j = .str s

/-- A truth value. -/
def BoolWritten (j : Json) (b : Bool) : Prop := j = .bool b

/-- An array of strings. -/
def StringsWritten (j : Json) (list : List Bytes) : Prop := j = .arr (list.map .str)

theorem reads_string : Reads string StringWritten := by
  intro field j s
  cases j <;> simp [string, StringWritten]

theorem reads_bool : Reads bool BoolWritten := by
  intro field j b
  cases j <;> simp [bool, BoolWritten]

theorem refusesAt_string (field : Bytes) (j : Json) : RefusesAt field (string field j) := by
  rw [string.eq_def]
  split
  · exact .ok field _
  · exact .expected field _ j

theorem refusesAt_bool (field : Bytes) (j : Json) : RefusesAt field (bool field j) := by
  rw [bool.eq_def]
  split
  · exact .ok field _
  · exact .expected field _ j

/-! ## Arrays -/

theorem mapM_eq_ok_iff {f : β → Except LexerError α} {l : List β} {out : List α} :
    l.mapM f = .ok out ↔ List.Forall₂ (fun b a => f b = .ok a) l out := by
  rw [Outcome.mapM_eq_ok, ← List.forall₂_eq_eq_eq, List.forall₂_map_left_iff,
    List.forall₂_map_right_iff]

/-- An array is read item by item, wherever the items are said to be. -/
theorem items_eq_ok_iff {read : Bytes → Json → Except LexerError α} {Written : Json → α → Prop}
    (h : Reads read Written) {field : Bytes} {items : List Json} {out : List α} :
    items.zipIdx.mapM (fun (j, i) => read (item field i) j) = .ok out ↔
      List.Forall₂ Written items out := by
  simp only [mapM_eq_ok_iff, h _ _ _]
  conv => rhs; rw [← List.zipIdx_map_fst 0 items, List.forall₂_map_left_iff]

theorem refusesAt_items {read : Bytes → Json → Except LexerError α}
    (h : ∀ field j, RefusesAt field (read field j)) (field : Bytes) (items : List Json) :
    RefusesAt field (items.zipIdx.mapM fun (j, i) => read (item field i) j) := by
  refine .mapM fun ⟨j, i⟩ _ => ?_
  have hitem : field <+: item field i :=
    ⟨bytes "[" ++ Bytes.ofNat i ++ bytes "]", by simp [item]⟩
  exact (h (item field i) j).outer hitem

theorem forall₂_stringWritten_iff {items : List Json} {list : List Bytes} :
    List.Forall₂ StringWritten items list ↔ items = list.map .str := by
  rw [← List.forall₂_eq_eq_eq, List.forall₂_map_right_iff]
  rfl

theorem reads_strings : Reads strings StringsWritten := by
  intro field j list
  cases j with
  | arr items =>
    rw [strings, items_eq_ok_iff reads_string, forall₂_stringWritten_iff]
    simp [StringsWritten]
  | _ => simp [strings, StringsWritten]

theorem refusesAt_strings (field : Bytes) (j : Json) : RefusesAt field (strings field j) := by
  rw [strings.eq_def]
  split
  · exact refusesAt_items refusesAt_string field _
  · exact .expected field _ j

theorem someStrings_eq_ok_iff {field problem : Bytes} {j : Json} {list : List Bytes} :
    someStrings field problem j = .ok list ↔ StringsWritten j list ∧ list ≠ [] := by
  rw [someStrings, Outcome.bind_eq_ok]
  simp only [reads_strings _ _ _]
  refine ⟨?_, ?_⟩
  · rintro ⟨found, hfound, h⟩
    split at h
    · cases h
    · next hne =>
      cases h
      exact ⟨hfound, by simpa using hne⟩
  · rintro ⟨hlist, hne⟩
    exact ⟨list, hlist, by simp [hne, pure, Except.pure]⟩

theorem refusesAt_someStrings (field problem : Bytes) (j : Json) :
    RefusesAt field (someStrings field problem j) := by
  refine (refusesAt_strings field j).bind fun list => ?_
  split
  · exact .format field problem
  · exact .ok field list

/-! ## Optional fields -/

/-- An optional field: as it is written, or what it means to be missing. -/
inductive Optionally (Written : Json → α → Prop) (absent : α) : Option Json → α → Prop
  /-- the field is missing -/
  | missing : Optionally Written absent none absent
  /-- the field is there -/
  | given {j : Json} {a : α} (h : Written j a) : Optionally Written absent (some j) a

theorem optional_eq_ok_iff {read : Bytes → Json → Except LexerError α} {Written : Json → α → Prop}
    (h : Reads read Written) {field : Bytes} {absent a : α} {found : Option Json} :
    optional read field absent found = .ok a ↔ Optionally Written absent found a := by
  cases found with
  | none =>
    refine ⟨fun heq => ?_, ?_⟩
    · cases heq
      exact .missing
    · rintro ⟨⟩
      rfl
  | some j =>
    rw [optional, h]
    refine ⟨.given, ?_⟩
    rintro ⟨h⟩
    assumption

theorem refusesAt_optional {read : Bytes → Json → Except LexerError α}
    (h : ∀ field j, RefusesAt field (read field j)) (field : Bytes) (absent : α)
    (found : Option Json) : RefusesAt field (optional read field absent found) := by
  cases found with
  | none => exact .ok field absent
  | some j => exact h field j

/-! ## Transitions -/

/-- Transitions: an accepted directive, or an array of accepted directives. -/
inductive MovesWritten : Json → List Transition → Prop
  /-- one directive -/
  | one {directive : Bytes} {ts : List Transition} (h : Directive.parse directive = .ok ts) :
      MovesWritten (.str directive) ts
  /-- any number of directives, whose moves are made one after the other -/
  | several {directives : List Bytes} {moves : List (List Transition)}
      (h : List.Forall₂ (fun directive ts => Directive.parse directive = .ok ts) directives moves) :
      MovesWritten (.arr (directives.map .str)) moves.flatten

theorem inField_eq_ok_iff {field : Bytes} {x : Except LexerError α} {a : α} :
    inField field x = .ok a ↔ x = .ok a := by
  cases x <;> simp [inField]

theorem refusesAt_inField (field : Bytes) (x : Except LexerError α) :
    RefusesAt field (inField field x) := by
  cases x with
  | ok a => exact .ok field a
  | error e => exact .format field e.message

/-- Several directives are accepted when each of them is. -/
theorem parseAll_eq_ok_iff {directives : List Bytes} {ts : List Transition} :
    Directive.parseAll directives = .ok ts ↔ ∃ moves,
      List.Forall₂ (fun directive ts => Directive.parse directive = .ok ts) directives moves ∧
        ts = moves.flatten := by
  rw [Directive.parseAll, Directive.parseAllWith]
  simp only [Directive.parse, ← mapM_eq_ok_iff]
  cases directives.mapM (Directive.parseWith Directive.wordCount) with
  | error e => simp [Except.map]
  | ok moves => simp [Except.map, eq_comm]

theorem reads_transitions : Reads transitions MovesWritten := by
  intro field j ts
  rw [transitions.eq_def]
  split
  · rw [inField_eq_ok_iff]
    refine ⟨.one, ?_⟩
    rintro ⟨h⟩
    exact h
  · next hnot =>
    simp only [Outcome.bind_eq_ok, reads_strings _ _ _, inField_eq_ok_iff, parseAll_eq_ok_iff]
    refine ⟨?_, fun h => ?_⟩
    · rintro ⟨directives, rfl, moves, h, rfl⟩
      exact .several h
    · cases h with
      | one _ => exact absurd rfl (hnot _)
      | several h => exact ⟨_, rfl, _, h, rfl⟩

theorem refusesAt_transitions (field : Bytes) (j : Json) :
    RefusesAt field (transitions field j) := by
  rw [transitions.eq_def]
  split
  · exact refusesAt_inField field _
  · exact (refusesAt_strings field j).bind fun directives => refusesAt_inField field _

end StackLexer.Document
