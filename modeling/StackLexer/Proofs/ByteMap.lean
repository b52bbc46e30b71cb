import StackLexer.ByteMap

/-!
# Keys of a map

A map is sorted by key, so it is determined by what can be found in it: the entries are exactly
the keys with their values, two maps with the same keys list them in the same order, and two maps in
which the same is found are equal. A list that is sorted by key is a map already.
-/

namespace StackLexer.ByteMap

variable {α β : Type}

/-- No byte string comes before itself. -/
theorem key_ne_of_lt {a b : Bytes} (h : a < b) : a ≠ b := fun heq => List.lt_irrefl b (heq ▸ h)

/-- In a list sorted by key, what is found under a key is its entry. -/
theorem lookup_eq_some_iff {entries : List (Bytes × α)}
    (h : entries.Pairwise fun a b => a.1 < b.1) {key : Bytes} {value : α} :
    entries.lookup key = some value ↔ (key, value) ∈ entries := by
  induction entries with
  | nil => simp
  | cons entry rest ih =>
    obtain ⟨key', value'⟩ := entry
    obtain ⟨hfirst, hrest⟩ := List.pairwise_cons.1 h
    rw [List.lookup_cons, List.mem_cons, Prod.mk.injEq]
    by_cases hk : key = key'
    · subst hk
      -- the key does not occur again, so its first entry is the only one
      have hnot : (key, value) ∉ rest := fun hmem => key_ne_of_lt (hfirst _ hmem) rfl
      simp [hnot, eq_comm]
    · simp [beq_eq_false_iff_ne.2 hk, hk, ih hrest]

/-- What is found under a key is its entry. -/
theorem find?_eq_some_iff {m : ByteMap α} {key : Bytes} {value : α} :
    m.find? key = some value ↔ (key, value) ∈ m.entries := lookup_eq_some_iff m.sorted

/-- The entry of a key is the first one with that key. -/
theorem find?_entries {m : ByteMap α} {key : Bytes} {value : α} (h : m.find? key = some value) :
    m.entries.find? (fun e => e.1 == key) = some (key, value) := by
  obtain ⟨e, he⟩ : ∃ e, m.entries.find? (fun e => e.1 == key) = some e := by
    refine Option.isSome_iff_exists.1 (List.find?_isSome.2 ⟨(key, value), ?_, beq_self_eq_true _⟩)
    exact find?_eq_some_iff.1 h
  obtain ⟨key', value'⟩ := e
  obtain rfl : key' = key := beq_iff_eq.1 (List.find?_some he :)
  have hvalue := find?_eq_some_iff.2 (List.mem_of_find?_eq_some he)
  rw [h] at hvalue
  rw [he, Option.some.inj hvalue]

theorem contains_iff {m : ByteMap α} {key : Bytes} :
    m.contains key = true ↔ ∃ value, m.find? key = some value := Option.isSome_iff_exists

/-- The keys are what the map contains. -/
theorem mem_keys_iff {m : ByteMap α} {key : Bytes} : key ∈ m.keys ↔ m.contains key = true := by
  rw [contains_iff, keys, List.mem_map]
  constructor
  · rintro ⟨⟨_, value⟩, hmem, rfl⟩
    exact ⟨value, find?_eq_some_iff.2 hmem⟩
  · rintro ⟨value, h⟩
    exact ⟨(key, value), find?_eq_some_iff.1 h, rfl⟩

/-- The keys stand in strictly increasing order. -/
theorem pairwise_keys (m : ByteMap α) : m.keys.Pairwise (· < ·) := List.pairwise_map.2 m.sorted

/-- Two maps that contain the same keys list them alike. -/
theorem keys_eq_of_contains {m : ByteMap α} {n : ByteMap β}
    (h : ∀ key, m.contains key = n.contains key) : m.keys = n.keys := by
  have hm := m.pairwise_keys
  have hn := n.pairwise_keys
  refine List.Perm.eq_of_pairwise ?_ hm hn ?_
  · exact fun a b _ _ hab hba => absurd (List.lt_trans hab hba) (List.lt_irrefl a)
  · refine (List.perm_ext_iff_of_nodup (hm.imp key_ne_of_lt) (hn.imp key_ne_of_lt)).2 fun key => ?_
    rw [mem_keys_iff, mem_keys_iff, h]

@[simp] theorem contains_insert (m : ByteMap α) (key k : Bytes) (value : α) :
    (m.insert key value).contains k = (decide (k = key) || m.contains k) := by
  rw [contains, find?_insert, contains]
  by_cases hk : k = key <;> simp [hk]

/-- Two lists sorted by key that have the same entries are the same. -/
theorem eq_of_mem_iff {l l' : List (Bytes × α)} (hl : l.Pairwise fun a b => a.1 < b.1)
    (hl' : l'.Pairwise fun a b => a.1 < b.1) (h : ∀ e, e ∈ l ↔ e ∈ l') : l = l' := by
  have hne {a b : Bytes × α} (hlt : a.1 < b.1) : a ≠ b := fun heq =>
    key_ne_of_lt hlt (congrArg Prod.fst heq)
  have hperm : l.Perm l' := (List.perm_ext_iff_of_nodup (hl.imp hne) (hl'.imp hne)).2 h
  refine hperm.eq_of_pairwise (fun a b _ _ hab hba => ?_) hl hl'
  exact absurd (List.lt_trans hab hba) (List.lt_irrefl a.1)

/-- Two maps in which the same is found are the same. -/
theorem ext_find? {m n : ByteMap α} (h : ∀ key, m.find? key = n.find? key) : m = n := by
  have hentries : m.entries = n.entries := by
    refine eq_of_mem_iff m.sorted n.sorted fun ⟨key, value⟩ => ?_
    rw [← find?_eq_some_iff, ← find?_eq_some_iff, h]
  cases m
  cases n
  simpa using hentries

/-- Giving a key the value it has changes nothing. -/
theorem insert_of_find? {m : ByteMap α} {key : Bytes} {value : α} (h : m.find? key = some value) :
    m.insert key value = m := by
  apply ext_find?
  intro k
  by_cases hk : k = key <;> simp [hk, h]

/-- The keys of a list of entries are those that some entry has. -/
theorem mem_keys_ofList {entries : List (Bytes × α)} {key : Bytes} :
    key ∈ (ofList entries).keys ↔ ∃ value, (key, value) ∈ entries := by
  -- along the insertions, whatever was there before
  have hgrows : ∀ m : ByteMap α,
      (entries.foldl (fun m e => m.insert e.1 e.2) m).contains key = true ↔
        (∃ value, (key, value) ∈ entries) ∨ m.contains key = true := by
    induction entries with
    | nil => simp
    | cons entry rest ih =>
      obtain ⟨first, value⟩ := entry
      intro m
      rw [List.foldl_cons, ih, contains_insert, Bool.or_eq_true, decide_eq_true_eq]
      simp only [List.mem_cons, Prod.mk.injEq]
      grind
  rw [mem_keys_iff, ofList, hgrows]
  simp [contains]

/-- An entry behind all others is put at the end. -/
theorem insertEntry_of_lt {entries : List (Bytes × α)} {key : Bytes} {value : α}
    (h : ∀ e ∈ entries, e.1 < key) : insertEntry key value entries = entries ++ [(key, value)] := by
  induction entries with
  | nil => rfl
  | cons e rest ih =>
    obtain ⟨hfirst, hrest⟩ := List.forall_mem_cons.1 h
    have hnot : ¬key < e.1 := fun hlt => List.lt_irrefl e.1 (List.lt_trans hfirst hlt)
    rw [insertEntry, if_neg (Ne.symm (key_ne_of_lt hfirst)), if_neg hnot, ih hrest,
      List.cons_append]

/-- Entries that are sorted already are kept as they are. -/
theorem entries_ofList {entries : List (Bytes × α)} (h : entries.Pairwise fun a b => a.1 < b.1) :
    (ofList entries).entries = entries := by
  -- along the insertions, behind whatever was there before
  have hbehind : ∀ m : ByteMap α, (∀ a ∈ m.entries, ∀ b ∈ entries, a.1 < b.1) →
      (entries.foldl (fun m e => m.insert e.1 e.2) m).entries = m.entries ++ entries := by
    induction entries with
    | nil => simp
    | cons entry rest ih =>
      intro m hm
      obtain ⟨hfirst, hrest⟩ := List.pairwise_cons.1 h
      have hinsert : (m.insert entry.1 entry.2).entries = m.entries ++ [entry] :=
        insertEntry_of_lt fun a ha => hm a ha entry List.mem_cons_self
      rw [List.foldl_cons, ih hrest, hinsert, List.append_assoc, List.singleton_append]
      intro a ha b hb
      rw [hinsert, List.mem_append, List.mem_singleton] at ha
      rcases ha with ha | rfl
      · exact hm a ha b (List.mem_cons_of_mem _ hb)
      · exact hfirst b hb
  exact hbehind empty (by simp [empty])

/-- A map is that of its entries. -/
theorem ofList_entries (m : ByteMap α) : ofList m.entries = m := by
  obtain ⟨entries, sorted⟩ := m
  exact (ByteMap.mk.injEq ..).mpr (entries_ofList sorted)

end StackLexer.ByteMap
