import StackLexer.Bytes

/-!
# Maps keyed by byte strings

An association list kept strictly sorted by key. The order of the keys is part of what callers
see (states are compiled, and names listed, in byte order), so the sortedness is a field of the
type and not a hypothesis of every statement about it.

* `ByteMap.insert` replaces the value of a key that is present and otherwise puts the entry in
  its place;
* `find?_insert` — looking up after an insertion: the new value at its key, the old map elsewhere.
-/

namespace StackLexer

/-- Put an entry into a key-sorted list, replacing the entry of the same key. -/
def insertEntry {α : Type} (key : Bytes) (value : α) : List (Bytes × α) → List (Bytes × α)
  | [] => [(key, value)]
  | entry :: rest =>
    if key = entry.1 then (key, value) :: rest
    else if key < entry.1 then (key, value) :: entry :: rest
    else entry :: insertEntry key value rest

/-- The keys after an insertion are the new key and the old ones. -/
theorem mem_insertEntry {α : Type} {key : Bytes} {value : α} {entries : List (Bytes × α)}
    {e : Bytes × α} (h : e ∈ insertEntry key value entries) : e = (key, value) ∨ e ∈ entries := by
  induction entries with
  | nil => simpa [insertEntry] using h
  | cons entry rest ih =>
    rw [insertEntry] at h
    split at h
    · rcases List.mem_cons.1 h with h | h
      · exact Or.inl h
      · exact Or.inr (List.mem_cons_of_mem _ h)
    · split at h
      · rcases List.mem_cons.1 h with h | h
        · exact Or.inl h
        · exact Or.inr h
      · rcases List.mem_cons.1 h with h | h
        · exact Or.inr (h ▸ List.mem_cons_self)
        · exact (ih h).imp id (List.mem_cons_of_mem _)

/-- Insertion keeps a list strictly sorted. -/
theorem pairwise_insertEntry {α : Type} {key : Bytes} {value : α} {entries : List (Bytes × α)}
    (h : entries.Pairwise fun a b => a.1 < b.1) :
    (insertEntry key value entries).Pairwise fun a b => a.1 < b.1 := by
  induction entries with
  | nil => simp [insertEntry]
  | cons entry rest ih =>
    obtain ⟨hfirst, hrest⟩ := List.pairwise_cons.1 h
    rw [insertEntry]
    split
    · next heq =>
      exact List.pairwise_cons.2 ⟨fun e he => heq ▸ hfirst e he, hrest⟩
    · split
      · next hlt =>
        refine List.pairwise_cons.2 ⟨fun e he => ?_, h⟩
        rcases List.mem_cons.1 he with he | he
        · exact he ▸ hlt
        · exact List.lt_trans hlt (hfirst e he)
      · next hne hnlt =>
        refine List.pairwise_cons.2 ⟨fun e he => ?_, ih hrest⟩
        rcases mem_insertEntry he with he | he
        · subst he
          refine Decidable.by_contra fun hge => hne ?_
          exact List.le_antisymm hge hnlt
        · exact hfirst e he

/-- A finite map from byte strings, as its entries in strictly increasing order of the keys. -/
structure ByteMap (α : Type) where
  /-- the entries, sorted -/
  entries : List (Bytes × α)
  /-- strictly increasing keys, so no key occurs twice -/
  sorted : entries.Pairwise fun a b => a.1 < b.1

namespace ByteMap

variable {α : Type}

/-- The map without entries. -/
def empty : ByteMap α := ⟨[], List.Pairwise.nil⟩

/-- The value of a key. -/
def find? (m : ByteMap α) (key : Bytes) : Option α := m.entries.lookup key

/-- Whether a key has a value. -/
def contains (m : ByteMap α) (key : Bytes) : Bool := (m.find? key).isSome

/-- The keys, in byte order. -/
def keys (m : ByteMap α) : List Bytes := m.entries.map (·.1)

/-- The values, in the byte order of their keys. -/
def values (m : ByteMap α) : List α := m.entries.map (·.2)

/-- How many keys have a value. -/
def size (m : ByteMap α) : Nat := m.entries.length

/-- Give `key` the value `value`, whatever it had before. -/
def insert (m : ByteMap α) (key : Bytes) (value : α) : ByteMap α :=
  ⟨insertEntry key value m.entries, pairwise_insertEntry m.sorted⟩

/-- The map of a list of entries, the last of several with one key winning. -/
def ofList (entries : List (Bytes × α)) : ByteMap α :=
  entries.foldl (fun m e => m.insert e.1 e.2) empty

/-- Looking up after an insertion. -/
theorem lookup_insertEntry (key k : Bytes) (value : α) (entries : List (Bytes × α)) :
    (insertEntry key value entries).lookup k =
      if k = key then some value else entries.lookup k := by
  induction entries with
  | nil =>
    by_cases hk : k = key
    · simp [insertEntry, hk]
    · simp [insertEntry, hk, List.lookup_cons, beq_eq_false_iff_ne.2 hk]
  | cons entry rest ih =>
    obtain ⟨key', value'⟩ := entry
    rw [insertEntry]
    by_cases hk : k = key
    · subst hk
      split
      · simp
      · next hne =>
        split
        · simp
        · simpa [List.lookup_cons, beq_eq_false_iff_ne.2 hne] using ih
    · have hb := beq_eq_false_iff_ne.2 hk
      split
      · next heq =>
        simp only [] at heq
        subst heq
        simp [List.lookup_cons, hb]
      · split
        · simp [List.lookup_cons, hb]
        · simp only [List.lookup_cons, ih, hk, if_false]

/-- **Reading back.** After an insertion the key has the new value and every other key the old
one. -/
@[simp] theorem find?_insert (m : ByteMap α) (key k : Bytes) (value : α) :
    (m.insert key value).find? k = if k = key then some value else m.find? k :=
  lookup_insertEntry key k value m.entries

@[simp] theorem find?_empty (k : Bytes) : (empty : ByteMap α).find? k = none := rfl

end ByteMap

end StackLexer
