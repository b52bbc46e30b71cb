import Mathlib.Data.List.Induction
import StackLexer.Options
import StackLexer.Proofs.ByteMap
import StackLexer.Proofs.DocumentFields
import StackLexer.Proofs.JsonOrder

/-!
# Documents of options

Options are read member by member, and each member may set a field of the options read so far. Most
fields can be set under two names, and then the order of the members decides: what a document says
about a field is what it says under the last of its names. Nothing else decides, since a member
leaves all fields alone but its own.

* `Options.Key.spellings` and `Options.Key.Admits` — the names of an option, and the values it may
  have; a member is `Options.Admissible` unless it gives an option some other value;
* `Options.field` — the value that a field has, as it would be written. Options are determined by
  their fields (`Options.ext_field`);
* `Options.FieldWritten` — what a document says about a field, over given options;
* `Options.fields_of_override` is what one member does, `Options.fieldWritten_of_foldlM` what all of
  them do;
* `Options.exists_of_ofDocument_eq_error` — a refusal names the first member that is not admissible;
* `Options.ofDocument_overrides` — which documents are accepted, what is read, and who is to blame.
-/

namespace StackLexer.Options

open Document

variable {o o' base : Options} {key : Key} {name place : Bytes} {value : Json}
  {m : Bytes × Json} {members : List (Bytes × Json)}

/-! ## Names, values and fields -/

/-- The names of an option, in byte order. -/
def Key.spellings : Key → List Bytes
  | .stripNewlines => [bytes "strip_leading_trailing_newlines", bytes "stripnl"]
  | .stripAll => [bytes "strip_all", bytes "stripall"]
  | .ensureNewline => [bytes "ensure_trailing_newline", bytes "ensurenl"]
  | .normalizeNewlines => [bytes "normalize_newlines"]
  | .tabSize => [bytes "tab_size", bytes "tabsize"]
  | .encoding => [bytes "encoding", bytes "input_encoding"]

/-- A whole number from zero up to what a signed 64-bit word can hold. -/
def SizeWritten (j : Json) (n : Nat) : Prop := j = .int n ∧ n ≤ 9223372036854775807

/-- The values an option may have. -/
def Key.Admits : Key → Json → Prop
  | .tabSize, j => ∃ n, SizeWritten j n
  | .encoding, j => ∃ s, StringWritten j s
  | _, j => ∃ b, BoolWritten j b

/-- A member that gives an option a value it may have, or that is not about an option. -/
def Admissible (m : Bytes × Json) : Prop := ∀ key : Key, m.1 ∈ key.spellings → key.Admits m.2

/-- The value of a field, as it would be written. -/
def field (o : Options) : Key → Json
  | .stripNewlines => .bool o.stripNewlines
  | .stripAll => .bool o.stripAll
  | .ensureNewline => .bool o.ensureNewline
  | .normalizeNewlines => .bool o.normalizeNewlines
  | .tabSize => .int o.tabSize
  | .encoding => .str o.encoding

theorem key?_eq_some_iff : key? name = some key ↔ name ∈ key.spellings := by
  refine ⟨fun h => ?_, fun h => ?_⟩
  · rw [key?] at h
    repeat' split at h
    all_goals cases h
    all_goals simp_all [Key.spellings, or_comm]
  · cases key <;> simp only [Key.spellings, List.mem_cons, List.not_mem_nil, or_false] at h
    all_goals rcases h with rfl | rfl <;> decide +kernel

theorem ext_field (h : ∀ key, o.field key = o'.field key) : o = o' := by
  have hstripNewlines := h .stripNewlines
  have hstripAll := h .stripAll
  have hensure := h .ensureNewline
  have hnormalize := h .normalizeNewlines
  have htab : o.tabSize = o'.tabSize := Int.natCast_inj.1 (Json.int.inj (h .tabSize))
  have hencoding := h .encoding
  cases o
  cases o'
  simp_all [field]

/-! ## Setting one field -/

theorem reads_size : Reads readSize SizeWritten := by
  intro field j n
  have hmax : maxSize = 9223372036854775807 := rfl
  cases j with
  | int k =>
    simp only [readSize, SizeWritten, Json.int.injEq]
    by_cases h : 0 ≤ k ∧ k ≤ maxSize
    · rw [if_pos h, Except.ok.injEq]
      omega
    · simp only [if_neg h, reduceCtorEq, false_iff]
      omega
  | _ => simp [readSize, SizeWritten]

/-- Reading a value and putting it somewhere succeeds when there is a value. -/
theorem exists_read_iff {α : Type} {read : Bytes → Json → Except LexerError α}
    {Written : Json → α → Prop} (h : Reads read Written) (put : α → Options) :
    (∃ o', (do let a ← read place value; return put a : Except LexerError Options) = .ok o') ↔
      ∃ a, Written value a := by
  simp only [Outcome.bind_eq_ok, h place value]
  refine ⟨?_, ?_⟩
  · rintro ⟨-, a, ha, -⟩
    exact ⟨a, ha⟩
  · rintro ⟨a, ha⟩
    exact ⟨put a, a, ha, rfl⟩

/-- An option can be set to the values it may have. -/
theorem exists_set_iff : (∃ o', o.set place value key = .ok o') ↔ key.Admits value := by
  cases key with
  | stripNewlines | stripAll | ensureNewline | normalizeNewlines =>
    exact exists_read_iff reads_bool _
  | tabSize => exact exists_read_iff reads_size _
  | encoding => exact exists_read_iff reads_string _

/-- **Frame.** The field set has the value, and all others are as they were. -/
theorem field_of_set (h : o.set place value key = .ok o') :
    o'.field key = value ∧ ∀ other, other ≠ key → o'.field other = o.field other := by
  cases key <;>
  · obtain ⟨a, hread, h⟩ := Outcome.bind_eq_ok.1 h
    simp only [reads_bool _ _ _, reads_string _ _ _, reads_size _ _ _] at hread
    cases h
    refine ⟨?_, fun other hother => ?_⟩
    · simp_all [field, BoolWritten, StringWritten, SizeWritten]
    · cases other <;> simp_all [field]

/-- A value that an option may not have is refused at the place of the member. -/
theorem exists_of_set_eq_error {e : LexerError} (h : o.set place value key = .error e) :
    ∃ problem, e = .format place problem := by
  cases key <;>
  · obtain h | ⟨a, -, h⟩ := Outcome.bind_eq_error.1 h
    · simp only [Document.bool.eq_def, Document.string.eq_def, readSize.eq_def] at h
      repeat' split at h
      all_goals cases h
      all_goals exact ⟨_, rfl⟩
    · cases h

/-! ## One member -/

theorem override_of_mem (h : m.1 ∈ key.spellings) :
    o.override m = o.set (bytes "options." ++ m.1) m.2 key := by
  rw [override, key?_eq_some_iff.2 h]

theorem override_of_forall_not_mem (h : ∀ key : Key, m.1 ∉ key.spellings) :
    o.override m = .ok o := by
  have hnone : key? m.1 = none :=
    Option.eq_none_iff_forall_ne_some.2 fun key hkey => h key (key?_eq_some_iff.1 hkey)
  rw [override, hnone]

/-- No name is the name of two options. -/
theorem Key.eq_of_mem {other : Key} (h : name ∈ key.spellings) (hother : name ∈ other.spellings) :
    key = other := by
  rw [← key?_eq_some_iff] at h hother
  exact Option.some.inj (h.symm.trans hother)

/-- Members are taken in exactly when they are admissible. -/
theorem exists_override_iff : (∃ o', o.override m = .ok o') ↔ Admissible m := by
  by_cases h : ∃ key : Key, m.1 ∈ key.spellings
  · obtain ⟨key, hkey⟩ := h
    rw [override_of_mem hkey, exists_set_iff]
    refine ⟨fun hadmits other hother => ?_, fun hadmissible => hadmissible key hkey⟩
    obtain rfl := Key.eq_of_mem hkey hother
    exact hadmits
  · have hnone := not_exists.1 h
    rw [override_of_forall_not_mem hnone]
    exact ⟨fun _ key hkey => absurd hkey (hnone key), fun _ => ⟨o, rfl⟩⟩

/-- **One member.** It sets the field that it names, and only that. -/
theorem fields_of_override (h : o.override m = .ok o') (key : Key) :
    o'.field key = if m.1 ∈ key.spellings then m.2 else o.field key := by
  by_cases hown : m.1 ∈ key.spellings
  · rw [override_of_mem hown] at h
    rw [if_pos hown, (field_of_set h).1]
  rw [if_neg hown]
  by_cases hnamed : ∃ other : Key, m.1 ∈ other.spellings
  · obtain ⟨other, hother⟩ := hnamed
    rw [override_of_mem hother] at h
    apply (field_of_set h).2
    rintro rfl
    exact hown hother
  · rw [override_of_forall_not_mem (not_exists.1 hnamed)] at h
    cases h
    rfl

/-- A member that is refused is not admissible, and the refusal names it. -/
theorem exists_of_override_eq_error {e : LexerError} (h : o.override m = .error e) :
    ¬Admissible m ∧ ∃ problem, e = .format (bytes "options." ++ m.1) problem := by
  refine ⟨fun hadmissible => ?_, ?_⟩
  · obtain ⟨o', ho'⟩ := exists_override_iff.2 hadmissible
    cases h.symm.trans ho'
  · rw [override] at h
    split at h
    · exact exists_of_set_eq_error h
    · cases h

/-! ## All members -/

/-- What a document says about a field, over given options. -/
inductive FieldWritten (base : Options) (members : List (Bytes × Json)) (key : Key) : Json → Prop
  /-- the value under the last of its names that is there -/
  | given {name : Bytes} {value : Json} (hname : name ∈ key.spellings)
      (hmem : (name, value) ∈ members)
      (hlast : ∀ other ∈ key.spellings, ∀ v, (other, v) ∈ members → ¬name < other) :
      FieldWritten base members key value
  /-- the value it had, if none of its names is there -/
  | kept (habsent : ∀ name ∈ key.spellings, ∀ v, (name, v) ∉ members) :
      FieldWritten base members key (base.field key)

namespace FieldWritten

/-- Among members in order, a document says at most one thing about a field. -/
theorem unique {v w : Json} (hsorted : members.Pairwise fun a b => a.1 < b.1)
    (hv : FieldWritten base members key v) (hw : FieldWritten base members key w) : v = w := by
  cases hv with
  | given hname hmem hlast =>
    cases hw with
    | given hname' hmem' hlast' =>
      obtain rfl := List.le_antisymm (hlast' _ hname _ hmem) (hlast _ hname' _ hmem')
      rw [← ByteMap.lookup_eq_some_iff hsorted] at hmem hmem'
      exact Option.some.inj (hmem.symm.trans hmem')
    | kept habsent => exact absurd hmem (habsent _ hname _)
  | kept habsent =>
    cases hw with
    | given hname hmem _ => exact absurd hmem (habsent _ hname _)
    | kept _ => rfl

/-- One more member that is about something else. -/
theorem append_other (h : FieldWritten base members key value) (hm : m.1 ∉ key.spellings) :
    FieldWritten base (members ++ [m]) key value := by
  have hold {name : Bytes} {v : Json} (hname : name ∈ key.spellings)
      (hmem : (name, v) ∈ members ++ [m]) : (name, v) ∈ members := by
    rcases List.mem_append.1 hmem with hmem | hmem
    · exact hmem
    · obtain rfl := List.mem_singleton.1 hmem
      exact absurd hname hm
  cases h with
  | given hname hmem hlast =>
    refine .given hname (List.mem_append_left _ hmem) fun other hother v hv => ?_
    exact hlast other hother v (hold hother hv)
  | kept habsent => exact .kept fun name hname v hv => habsent name hname v (hold hname hv)

/-- One more member that is about the field and comes last. -/
theorem append_own (hm : m.1 ∈ key.spellings) (hlast : ∀ a ∈ members, a.1 < m.1) :
    FieldWritten base (members ++ [m]) key m.2 := by
  refine .given hm (List.mem_append_right _ (List.mem_singleton_self m)) fun other _ v hv hlt => ?_
  rcases List.mem_append.1 hv with hv | hv
  · exact List.lt_irrefl _ (List.lt_trans hlt (hlast _ hv))
  · obtain rfl := List.mem_singleton.1 hv
    exact List.lt_irrefl _ hlt

end FieldWritten

/-- **All members.** Every field is as the document says. -/
theorem fieldWritten_of_foldlM (hsorted : members.Pairwise fun a b => a.1 < b.1)
    (h : members.foldlM override base = .ok o) (key : Key) :
    FieldWritten base members key (o.field key) := by
  -- from the end, because it is the last member of a field that counts
  induction members using List.reverseRecOn generalizing o with
  | nil =>
    cases h
    exact .kept fun name _ v => List.not_mem_nil
  | append_singleton members m ih =>
    obtain ⟨hbefore, -, hlast⟩ := List.pairwise_append.1 hsorted
    rw [List.foldlM_append, Outcome.bind_eq_ok] at h
    obtain ⟨between, hbetween, h⟩ := h
    rw [List.foldlM_cons, Outcome.bind_eq_ok] at h
    obtain ⟨after, hafter, h⟩ := h
    cases h
    rw [fields_of_override hafter key]
    split
    · next hown => exact .append_own hown fun a ha => hlast a ha m (List.mem_singleton_self m)
    · next hother => exact (ih hbefore hbetween).append_other hother

/-- Members are taken in one after the other exactly when all of them are admissible. -/
theorem exists_foldlM_iff :
    (∃ o, members.foldlM override base = .ok o) ↔ ∀ m ∈ members, Admissible m := by
  induction members generalizing base with
  | nil => exact ⟨fun _ m hm => absurd hm List.not_mem_nil, fun _ => ⟨base, rfl⟩⟩
  | cons m rest ih =>
    simp only [List.foldlM_cons, Outcome.bind_eq_ok, List.forall_mem_cons]
    refine ⟨?_, ?_⟩
    · rintro ⟨o, between, hfirst, hrest⟩
      exact ⟨exists_override_iff.1 ⟨between, hfirst⟩, ih.1 ⟨o, hrest⟩⟩
    · rintro ⟨hfirst, hrest⟩
      obtain ⟨between, hbetween⟩ := exists_override_iff.2 hfirst
      obtain ⟨o, ho⟩ := ih.2 hrest
      exact ⟨o, between, hbetween, ho⟩

/-- **Blame.** The refusal of an object names its first member that is not admissible. -/
theorem exists_of_ofDocument_eq_error {e : LexerError}
    (h : ofDocument base (.obj members) = .error e) :
    ∃ before m after problem, members = before ++ m :: after ∧ (∀ a ∈ before, Admissible a) ∧
      ¬Admissible m ∧ e = .format (bytes "options." ++ m.1) problem := by
  induction members generalizing base with
  | nil => cases h
  | cons m rest ih =>
    rw [ofDocument, List.foldlM_cons, Outcome.bind_eq_error] at h
    obtain h | ⟨between, hbetween, h⟩ := h
    · obtain ⟨hfaulty, problem, rfl⟩ := exists_of_override_eq_error h
      exact ⟨[], m, rest, problem, rfl, by simp, hfaulty, rfl⟩
    · obtain ⟨before, faulty, after, problem, rfl, hbefore, hfaulty, rfl⟩ := ih h
      have hfirst : Admissible m := exists_override_iff.1 ⟨between, hbetween⟩
      exact ⟨m :: before, faulty, after, problem, rfl, List.forall_mem_cons.2 ⟨hfirst, hbefore⟩,
        hfaulty, rfl⟩

/-! ## Members that are not about an option -/

theorem foldlM_filter :
    (members.filter fun m => (key? m.1).isSome).foldlM override base =
      members.foldlM override base := by
  induction members generalizing base with
  | nil => rfl
  | cons m rest ih =>
    rw [List.foldlM_cons, List.filter_cons]
    split
    · simp only [List.foldlM_cons, ih]
    · next hnone =>
      rw [Option.not_isSome_iff_eq_none] at hnone
      rw [ih, override, hnone]
      rfl

/-- Objects with the same members about options are read alike. -/
theorem foldlM_eq_of_same {others : List (Bytes × Json)}
    (hmembers : members.Pairwise fun a b => a.1 < b.1)
    (hothers : others.Pairwise fun a b => a.1 < b.1)
    (hsame : ∀ m, (∃ key : Key, m.1 ∈ key.spellings) → (m ∈ members ↔ m ∈ others)) :
    members.foldlM override base = others.foldlM override base := by
  have hfilter : (members.filter fun m => (key? m.1).isSome) =
      others.filter fun m => (key? m.1).isSome := by
    refine ByteMap.eq_of_mem_iff (hmembers.filter _) (hothers.filter _) fun m => ?_
    simp only [List.mem_filter, Option.isSome_iff_exists, key?_eq_some_iff]
    exact and_congr_left fun hnamed => hsame m hnamed
  rw [← foldlM_filter, hfilter, foldlM_filter]

/-! ## Documents -/

/-- **Options are overridden field by field.** An object is accepted when every option in it has a
value that it may have, and what is read differs from the given options in the fields that are
mentioned: such a field has the value under the last of its names. Otherwise the first option with
some other value is to blame. Members that are not about an option make no difference, and nothing
but an object is accepted. -/
theorem ofDocument_overrides (base : Options) :
    (∀ members, (Json.obj members).Ordered →
      ((∃ o, ofDocument base (.obj members) = .ok o) ↔ ∀ m ∈ members, Admissible m) ∧
      (∀ o, ofDocument base (.obj members) = .ok o ↔
        (∀ m ∈ members, Admissible m) ∧ ∀ key, FieldWritten base members key (o.field key)) ∧
      (∀ e, ofDocument base (.obj members) = .error e → ∃ before m after problem,
        members = before ++ m :: after ∧ (∀ a ∈ before, Admissible a) ∧ ¬Admissible m ∧
        e = .format (bytes "options." ++ m.1) problem) ∧
      ∀ others, (Json.obj others).Ordered →
        (∀ m, (∃ key : Key, m.1 ∈ key.spellings) → (m ∈ members ↔ m ∈ others)) →
        ofDocument base (.obj others) = ofDocument base (.obj members)) ∧
    ∀ j, (∀ members, j ≠ .obj members) →
      ∃ problem, ofDocument base j = .error (.format (bytes "options") problem) := by
  refine ⟨fun members hordered => ⟨exists_foldlM_iff, fun o => ⟨fun h => ?_, ?_⟩,
    fun e => exists_of_ofDocument_eq_error, ?_⟩, ?_⟩
  · exact ⟨exists_foldlM_iff.1 ⟨o, h⟩, fieldWritten_of_foldlM hordered.pairwise h⟩
  · rintro ⟨hadmissible, hfields⟩
    obtain ⟨read, hread⟩ := exists_foldlM_iff.2 hadmissible
    obtain rfl : read = o := ext_field fun key =>
      (fieldWritten_of_foldlM hordered.pairwise hread key).unique hordered.pairwise (hfields key)
    exact hread
  · intro others hothers hsame
    exact (foldlM_eq_of_same hordered.pairwise hothers.pairwise hsame).symm
  · intro j hj
    rw [ofDocument.eq_def]
    split
    · exact absurd rfl (hj _)
    · exact ⟨_, rfl⟩

/-- The encoding and the tab stops, each under both of its names. -/
def twice : List (Bytes × Json) :=
  [(bytes "encoding", .str (bytes "latin-1")), (bytes "input_encoding", .str (bytes "ascii")),
    (bytes "tab_size", .int 4), (bytes "tabsize", .int 8)]

/-- The later names count, a member that is not about an option does not, and the rest is kept. -/
theorem ofDocument_overrides_twice :
    (Json.obj twice).Ordered ∧
      FieldWritten .default twice .encoding (.str (bytes "ascii")) ∧
      FieldWritten .default twice .stripAll (.bool false) ∧
      ofDocument .default (.obj (twice ++ [(bytes "unknown", .null)])) =
        .ok ⟨true, false, true, 8, bytes "ascii", true⟩ ∧
      ∃ problem, ofDocument .default .null = .error (.format (bytes "options") problem) := by
  have hordered : (Json.obj twice).Ordered :=
    Json.ordered_obj_iff.2 ⟨by decide +kernel, by simp [twice]⟩
  have hmore : (Json.obj (twice ++ [(bytes "unknown", .null)])).Ordered :=
    Json.ordered_obj_iff.2 ⟨by decide +kernel, by simp [twice]⟩
  obtain ⟨hobjects, hrefused⟩ := ofDocument_overrides .default
  obtain ⟨-, hread, -, hsame⟩ := hobjects twice hordered
  have hwritten := (hread ⟨true, false, true, 8, bytes "ascii", true⟩).1 rfl
  refine ⟨hordered, hwritten.2 .encoding, hwritten.2 .stripAll, ?_, hrefused .null (by simp)⟩
  rw [hsame _ hmore]
  · rfl
  · rintro m ⟨key, hkey⟩
    have hunknown : m ≠ (bytes "unknown", .null) := by
      rintro rfl
      cases key <;> revert hkey <;> decide +kernel
    simp [hunknown]

end StackLexer.Options
