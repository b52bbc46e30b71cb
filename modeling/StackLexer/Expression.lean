import StackLexer.Cursor

/-!
# Regular expressions

Patterns are read and searched for by a library, and it does not matter to anything in this project
which library that is. Little is used of it:

* `Library` — reads patterns, or says why it does not;
* `Expression` — a pattern that was read. It can be searched for in one place of a text, where the
  match has to start, and anywhere in a text. Instead of an answer a search may end with a
  complaint: it was given up, which does not say that there is no match (`Answer`).

A library reports a match in whole numbers, counted from the place of the search. That these are
numbers of bytes in what is left of the text is the one thing asked of an expression
(`Report.Within`). A pattern that moves the start of its match beyond the end of it, or captures what
stands before the place of the search, has no expression. `Expression.matchAt` gives the match as it
is used from there on, in natural numbers.

`StackLexer.Regex.Engine` is a library for the patterns of a small language.
-/

namespace StackLexer

/-! ## Matches -/

/-- A stretch of a text, relative to where the match started. -/
structure Span where
  /-- where it starts -/
  start : Nat
  /-- how many bytes it has -/
  length : Nat
  deriving DecidableEq, Repr

/-- A match: how many bytes it takes, and the span of each capturing group that took part. -/
structure Match where
  /-- how many bytes the whole match takes -/
  length : Nat
  /-- the spans of the groups in the order of their numbers -/
  groups : List (Option Span)
  deriving DecidableEq, Repr

/-- A match as a library reports it, in bytes from the place of the search. -/
structure Report where
  /-- how far the match goes -/
  length : Int
  /-- where each group that took part starts, and how far it goes from there, in the order of the
  numbers of the groups -/
  groups : List (Option (Int × Int))

namespace Report

/-- The match and its groups lie in the `room` bytes that follow the place of the search. -/
structure Within (room : Nat) (r : Report) : Prop where
  /-- the match does not end before that place -/
  length_nonneg : 0 ≤ r.length
  /-- it does not go beyond the text -/
  length_le : r.length ≤ room
  /-- no group starts before that place -/
  start_nonneg : ∀ start length, some (start, length) ∈ r.groups → 0 ≤ start
  /-- no group ends before it starts -/
  groups_nonneg : ∀ start length, some (start, length) ∈ r.groups → 0 ≤ length
  /-- no group goes beyond the text -/
  groups_le : ∀ start length, some (start, length) ∈ r.groups → start + length ≤ room

/-- The match that is reported. -/
def toMatch (r : Report) : Match :=
  ⟨r.length.toNat, r.groups.map (Option.map fun (start, length) => ⟨start.toNat, length.toNat⟩)⟩

namespace Within

variable {room : Nat} {r : Report}

/-- The match goes as far as was reported. -/
theorem length_toMatch (h : r.Within room) : (r.toMatch.length : Int) = r.length :=
  Int.toNat_of_nonneg h.length_nonneg

/-- Its groups are those that were reported. -/
theorem groups_toMatch (h : r.Within room) :
    r.toMatch.groups.map (Option.map fun a => ((a.start : Int), (a.length : Int))) = r.groups := by
  rw [toMatch, List.map_map]
  refine (List.map_congr_left fun group hgroup => ?_).trans (List.map_id _)
  cases group with
  | none => rfl
  | some group =>
    obtain ⟨start, length⟩ := group
    have hstart := Int.toNat_of_nonneg (h.start_nonneg start length hgroup)
    have hlength := Int.toNat_of_nonneg (h.groups_nonneg start length hgroup)
    exact congrArg some (Prod.ext hstart hlength)

end Within

end Report

/-! ## Libraries -/

/-- How a search ends. -/
inductive Answer (α : Type) where
  /-- with a match -/
  | found (a : α)
  /-- without one -/
  | missed
  /-- with neither, for a reason -/
  | gaveUp (reason : Bytes)

/-- A pattern that was read. -/
structure Expression where
  /-- search for a match that starts in a place, which may look at what stands before it -/
  searchAt : Cursor → Answer Report
  /-- search for a match anywhere in a text -/
  searchIn : Bytes → Answer Unit
  /-- what is reported lies in the text -/
  within : ∀ (c : Cursor) (r : Report), searchAt c = .found r → r.Within c.rest.length

/-- A library of regular expressions. -/
structure Library where
  /-- read a pattern, with ASCII letters in either case or as they are; or say what is wrong with
  it -/
  read (ignoreCase : Bool) (pattern : Bytes) : Except Bytes Expression

namespace Expression

/-- The match that starts in a place. A search that is given up has none. -/
def matchAt (e : Expression) (c : Cursor) : Option Match :=
  match e.searchAt c with
  | .found r => some r.toMatch
  | .missed => none
  | .gaveUp _ => none

/-- Whether a search of a text ends with a match. -/
def occursIn (e : Expression) (text : Bytes) : Bool :=
  match e.searchIn text with
  | .found _ => true
  | .missed => false
  | .gaveUp _ => false

variable {e : Expression} {c : Cursor} {m : Match}

/-- A match is one that was reported. -/
theorem exists_report_of_matchAt (h : e.matchAt c = some m) :
    ∃ r : Report, r.Within c.rest.length ∧ m = r.toMatch := by
  rw [matchAt] at h
  split at h
  · next r hr =>
    cases h
    exact ⟨r, e.within c r hr, rfl⟩
  · cases h
  · cases h

/-- A match takes no more bytes than there are. -/
theorem length_le_of_matchAt (h : e.matchAt c = some m) : m.length ≤ c.rest.length := by
  obtain ⟨r, hr, rfl⟩ := exists_report_of_matchAt h
  exact Int.ofNat_le.1 (hr.length_toMatch ▸ hr.length_le)

/-- The groups of a match lie in the text, whether in the match or not. -/
theorem group_le_of_matchAt (h : e.matchAt c = some m) {a : Span} (ha : some a ∈ m.groups) :
    a.start + a.length ≤ c.rest.length := by
  obtain ⟨r, hr, rfl⟩ := exists_report_of_matchAt h
  have hgroup : some ((a.start : Int), (a.length : Int)) ∈ r.groups :=
    hr.groups_toMatch ▸ List.mem_map_of_mem ha
  exact Int.ofNat_le.1 (hr.groups_le _ _ hgroup)

end Expression

end StackLexer
