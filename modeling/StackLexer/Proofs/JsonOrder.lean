import StackLexer.Json.Parser

/-!
# Ordered documents

Objects are read with their members in byte order of the names, each name once, whatever the text
has. The type of JSON values does not say so, and what is read off a document may depend on it:
states are kept in byte order too.

* `Json.Ordered` — every object in a value has its members in strictly increasing order;
* `Json.orderedWithin` — values, items and members are read in order, one more round at a time;
* `Json.ordered_of_parse?` — so every document that is read from a text is ordered.
-/

namespace StackLexer.Json

/-- A value with the members of all its objects in order. -/
inductive Ordered : Json → Prop
  /-- `null` -/
  | null : Ordered .null
  /-- a truth value -/
  | bool (b : Bool) : Ordered (.bool b)
  /-- a whole number -/
  | int (n : Int) : Ordered (.int n)
  /-- any other number -/
  | real (q : Rat) : Ordered (.real q)
  /-- a string -/
  | str (s : Bytes) : Ordered (.str s)
  /-- an array of such values -/
  | arr {items : List Json} (hitems : ∀ j ∈ items, Ordered j) : Ordered (.arr items)
  /-- an object of such values, each name once and the names in byte order -/
  | obj {members : List (Bytes × Json)} (hsorted : members.Pairwise fun a b => a.1 < b.1)
      (hmembers : ∀ m ∈ members, Ordered m.2) : Ordered (.obj members)

attribute [simp] Ordered.null Ordered.bool Ordered.int Ordered.real Ordered.str

@[simp] theorem ordered_arr_iff {items : List Json} :
    Ordered (.arr items) ↔ ∀ j ∈ items, Ordered j := by
  refine ⟨fun h => ?_, .arr⟩
  cases h with
  | arr hitems => exact hitems

@[simp] theorem ordered_obj_iff {members : List (Bytes × Json)} :
    Ordered (.obj members) ↔
      (members.Pairwise fun a b => a.1 < b.1) ∧ ∀ m ∈ members, Ordered m.2 := by
  refine ⟨fun h => ?_, fun h => .obj h.1 h.2⟩
  cases h with
  | obj hsorted hmembers => exact ⟨hsorted, hmembers⟩

namespace Ordered

variable {members : List (Bytes × Json)} {j : Json} {name : Bytes}

theorem pairwise (h : Ordered (.obj members)) : members.Pairwise fun a b => a.1 < b.1 :=
  (ordered_obj_iff.1 h).1

/-- One more member, or another value for one that is there. -/
theorem insert (h : Ordered (.obj members)) (hj : Ordered j) :
    Ordered (.obj (insertEntry name j members)) := by
  refine .obj (pairwise_insertEntry h.pairwise) fun m hm => ?_
  rcases mem_insertEntry hm with rfl | hm
  · exact hj
  · exact (ordered_obj_iff.1 h).2 m hm

/-- What is found in an ordered value is ordered. -/
theorem member? (h : Ordered j) {found : Json} (hfound : j.member? name = some found) :
    Ordered found := by
  cases h with
  | @obj members _ hmembers =>
    obtain ⟨_, key, hm, -⟩ := List.lookup_eq_some_iff.1 hfound
    apply hmembers (name, found)
    simp_all
  | _ => cases hfound

end Ordered

/-! ## Reading -/

theorem ordered_of_number {s rest : Bytes} {j : Json} (h : number s = some (j, rest)) :
    Ordered j := by
  simp only [number, Option.bind_eq_bind, Option.bind_eq_some_iff] at h
  obtain ⟨⟨n, _⟩, -, value, hvalue, heq⟩ := h
  cases heq
  rw [Numeral.value?] at hvalue
  split at hvalue
  · cases hvalue
    exact .int _
  · split at hvalue
    · cases hvalue
      exact .int _
    · obtain ⟨q, -, rfl⟩ := Option.map_eq_some_iff.1 hvalue
      exact .real q

theorem eq_of_word {w s rest : Bytes} {known j : Json} (h : word w known s = some (j, rest)) :
    j = known := by
  rw [word] at h
  split at h
  · cases h
    rfl
  · cases h

/-- What is read within a number of rounds is ordered, if the members that are known already are. -/
structure OrderedWithin (rounds : Nat) : Prop where
  /-- values -/
  value : ∀ {s j rest}, value rounds s = some (j, rest) → Ordered j
  /-- the items of an array -/
  items : ∀ {s js rest}, items rounds s = some (js, rest) → ∀ j ∈ js, Ordered j
  /-- the members of an object -/
  members : ∀ {s known ms rest}, members rounds s known = some (ms, rest) →
    Ordered (.obj known) → Ordered (.obj ms)

namespace OrderedWithin

variable {rounds : Nat} {s rest : Bytes}

theorem value_succ (h : OrderedWithin rounds) {j : Json}
    (hread : Json.value (rounds + 1) s = some (j, rest)) : Ordered j := by
  have hnone : Ordered (.obj []) := by simp
  rw [Json.value] at hread
  split at hread
  · cases hread
  · split at hread
    · split at hread
      · cases hread
        exact hnone
      · obtain ⟨⟨ms, _⟩, hms, heq⟩ := Option.map_eq_some_iff.1 hread
        cases heq
        exact h.members hms hnone
    · split at hread
      · split at hread
        · cases hread
          simp
        · obtain ⟨⟨js, _⟩, hjs, heq⟩ := Option.map_eq_some_iff.1 hread
          cases heq
          exact .arr (h.items hjs)
      · split at hread
        · obtain ⟨⟨t, _⟩, -, heq⟩ := Option.map_eq_some_iff.1 hread
          cases heq
          exact .str t
        · split at hread
          · exact eq_of_word hread ▸ .bool true
          · split at hread
            · exact eq_of_word hread ▸ .bool false
            · split at hread
              · exact eq_of_word hread ▸ .null
              · exact ordered_of_number hread

theorem items_succ (h : OrderedWithin rounds) {js : List Json}
    (hread : Json.items (rounds + 1) s = some (js, rest)) : ∀ j ∈ js, Ordered j := by
  rw [Json.items] at hread
  split at hread
  · cases hread
  · next hj =>
    split at hread
    · cases hread
      simpa using h.value hj
    · obtain ⟨⟨more, _⟩, hmore, heq⟩ := Option.map_eq_some_iff.1 hread
      cases heq
      exact List.forall_mem_cons.2 ⟨h.value hj, h.items hmore⟩
    · cases hread

theorem members_succ (h : OrderedWithin rounds) {known ms : List (Bytes × Json)}
    (hread : Json.members (rounds + 1) s known = some (ms, rest)) (hknown : Ordered (.obj known)) :
    Ordered (.obj ms) := by
  rw [Json.members] at hread
  split at hread
  · split at hread
    · cases hread
    · split at hread
      · split at hread
        · cases hread
        · next hj =>
          split at hread
          · cases hread
            exact hknown.insert (h.value hj)
          · exact h.members hread (hknown.insert (h.value hj))
          · cases hread
      · cases hread
  · cases hread

end OrderedWithin

theorem orderedWithin (rounds : Nat) : OrderedWithin rounds := by
  induction rounds with
  | zero => exact ⟨by simp [value], by simp [items], by simp [members]⟩
  | succ rounds ih => exact ⟨ih.value_succ, ih.items_succ, ih.members_succ⟩

/-- **Ordered documents.** What is read from a text has the members of all objects in order. -/
theorem ordered_of_parse? {text : Bytes} {j : Json} (h : parse? text = some j) : Ordered j := by
  rw [parse?] at h
  split at h
  · split at h
    · next hvalue =>
      split at h
      · cases h
        exact (orderedWithin _).value hvalue
      · cases h
    · cases h
  · cases h

end StackLexer.Json
