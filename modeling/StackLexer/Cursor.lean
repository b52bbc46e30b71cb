import StackLexer.Bytes

/-!
# Cursors

A place in a text, together with what is around it: the byte before it and the bytes from it on.
Both follow from the text and the position, and the type says how; keeping them means that looking
around and moving on cost what they look at and move over, not the length of the text.

* `Cursor.start`, `Cursor.advance` — the beginning of a text, and a place further on;
* `Cursor.slice` — a stretch of the text, counted from the place.
-/

namespace StackLexer

/-- A place in a text. -/
structure Cursor where
  /-- the whole text -/
  text : Bytes
  /-- how many bytes are before the place -/
  position : Nat
  /-- the byte before the place, if there is one -/
  before : Option UInt8
  /-- the bytes from the place on -/
  rest : Bytes
  /-- `before` is the last byte before the place -/
  before_eq : before = if position = 0 then none else text[position - 1]?
  /-- `rest` is what is left of the text -/
  rest_eq : rest = text.drop position

namespace Cursor

/-- The beginning of a text. -/
def start (text : Bytes) : Cursor := ⟨text, 0, none, text, rfl, rfl⟩

/-- The place `n` bytes further on. -/
def advance (c : Cursor) (n : Nat) : Cursor where
  text := c.text
  position := c.position + n
  before := if n = 0 then c.before else c.rest[n - 1]?
  rest := c.rest.drop n
  before_eq := by
    by_cases hn : n = 0
    · subst hn
      simpa using c.before_eq
    · have hp : c.position + n ≠ 0 := by omega
      have hi : c.position + (n - 1) = c.position + n - 1 := by omega
      rw [if_neg hn, if_neg hp, c.rest_eq, List.getElem?_drop, hi]
  rest_eq := by rw [c.rest_eq, List.drop_drop]

/-- The stretch of `length` bytes that starts `start` bytes after the place. -/
def slice (c : Cursor) (start length : Nat) : Bytes := (c.rest.drop start).take length

@[simp] theorem text_start (text : Bytes) : (start text).text = text := rfl

@[simp] theorem position_start (text : Bytes) : (start text).position = 0 := rfl

@[simp] theorem text_advance (c : Cursor) (n : Nat) : (c.advance n).text = c.text := rfl

@[simp] theorem position_advance (c : Cursor) (n : Nat) :
    (c.advance n).position = c.position + n := rfl

/-- How many bytes are left. -/
theorem length_rest (c : Cursor) : c.rest.length = c.text.length - c.position := by
  rw [c.rest_eq, List.length_drop]

/-- Nothing is left exactly from the end of the text on. -/
theorem rest_eq_nil_iff (c : Cursor) : c.rest = [] ↔ c.text.length ≤ c.position := by
  rw [c.rest_eq, List.drop_eq_nil_iff]

/-- A slice is a stretch of the whole text. -/
theorem slice_eq (c : Cursor) (start length : Nat) :
    c.slice start length = (c.text.drop (c.position + start)).take length := by
  rw [slice, c.rest_eq, List.drop_drop]

/-- A slice that lies in the text has the length asked for. -/
theorem length_slice {c : Cursor} {start length : Nat} (h : start + length ≤ c.rest.length) :
    (c.slice start length).length = length := by
  refine List.length_take_of_le ?_
  rw [List.length_drop]
  exact Nat.le_sub_of_add_le' h

end Cursor

end StackLexer
