import Mathlib.Data.List.Forall2
import Mathlib.Data.List.Induction
import StackLexer.Proofs.ByteMap
import StackLexer.Registry

/-!
# The latest registration wins

Registering a lexer writes several slots at once. It may take some names from a lexer and leave it
others, and it may write one slot twice, so what a registry holds depends on all that was ever
registered. What can be found in it does not take the slots to say:

* `Bytes.SameLetters` — names are compared up to the case of ASCII letters, which is what folding
  them comes to (`Bytes.lower_eq_lower_iff`);
* `Registered.AnswersTo` — a name belongs to a lexer: its own name or an alias, unless it is empty;
* `Registry.find?_register` — a registration takes over the names of its lexer and no others. This
  is the step; `Registry.find?_after_eq_some_iff` is the run over a history of registrations, after
  which a name leads to the lexer registered last among those that answer to it;
* `Registry.mem_names_after_iff` — the names listed are those of the lexers that can be found;
* `Registry.latest_registration_wins` — all of it together.
-/

namespace StackLexer

/-! ## Names up to case -/

/-- The same bytes, up to the case of ASCII letters. -/
def Bytes.SameLetters (a b : Bytes) : Prop := List.Forall₂ (fun x y => x = y ∨ x = swapCase y) a b

theorem lowerByte_eq_lowerByte_iff {a b : UInt8} :
    lowerByte a = lowerByte b ↔ a = b ∨ a = swapCase b := by
  rw [lowerByte, lowerByte, swapCase]
  grind

/-- Two names are folded to the same one exactly when they differ in case only. -/
theorem Bytes.lower_eq_lower_iff {a b : Bytes} : a.lower = b.lower ↔ a.SameLetters b := by
  rw [lower, lower, SameLetters, ← List.forall₂_eq_eq_eq, List.forall₂_map_left_iff,
    List.forall₂_map_right_iff]
  simp only [lowerByte_eq_lowerByte_iff]

instance (a b : Bytes) : Decidable (a.SameLetters b) :=
  decidable_of_iff (a.lower = b.lower) Bytes.lower_eq_lower_iff

/-- A lexer answers to its own name and to its aliases, in any case, but never to the empty
name. -/
def Registered.AnswersTo (r : Registered) (name : Bytes) : Prop :=
  ∃ key ∈ r.keys, key ≠ [] ∧ key.SameLetters name

instance (r : Registered) (name : Bytes) : Decidable (r.AnswersTo name) :=
  inferInstanceAs (Decidable (∃ key ∈ r.keys, key ≠ [] ∧ key.SameLetters name))

/-- A lexer answers to its own name, unless that is empty. -/
theorem Registered.answersTo_self (r : Registered) (h : r.lexer.name ≠ []) :
    r.AnswersTo r.lexer.name :=
  ⟨r.lexer.name, List.mem_cons_self, h, Bytes.lower_eq_lower_iff.1 rfl⟩

namespace Registry

/-! ## One registration -/

/-- A registration under one name. -/
theorem find?_assign (registry : Registry) (r : Registered) (key name : Bytes) :
    (registry.assign r key).find? name =
      if key ≠ [] ∧ key.SameLetters name then some r else registry.find? name := by
  rw [assign, find?]
  split
  · next hempty => simp [List.isEmpty_iff.1 hempty, find?]
  · next hempty =>
    have hne : key ≠ [] := fun h => hempty (List.isEmpty_iff.2 h)
    simp only [ByteMap.find?_insert, eq_comm (a := name.lower), Bytes.lower_eq_lower_iff, hne,
      ne_eq, not_false_eq_true, true_and, find?]

/-- **The step.** A registration takes over the names its lexer answers to, and leaves all others as
they were. -/
theorem find?_register (registry : Registry) (r : Registered) (name : Bytes) :
    (registry.register r).find? name =
      if r.AnswersTo name then some r else registry.find? name := by
  -- one name after the other; a name written twice leads to the same lexer
  have hkeys : ∀ keys : List Bytes,
      (keys.foldl (fun registry key => registry.assign r key) registry).find? name =
        if ∃ key ∈ keys, key ≠ [] ∧ key.SameLetters name then some r
        else registry.find? name := by
    intro keys
    induction keys generalizing registry with
    | nil => simp
    | cons key rest ih =>
      rw [List.foldl_cons, ih, find?_assign, ← ite_or]
      simp only [List.exists_mem_cons_iff, or_comm]
  exact hkeys r.keys

/-! ## Histories -/

/-- A registration of a lexer that may be missing; a missing one is ignored. -/
def registerOn (registry : Registry) : Option Registered → Registry
  | some r => registry.register r
  | none => registry

/-- The registry after a history of registrations. -/
def after (calls : List (Option Registered)) : Registry := calls.foldl registerOn empty

theorem after_concat (calls : List (Option Registered)) (call : Option Registered) :
    after (calls ++ [call]) = (after calls).registerOn call := by
  rw [after, List.foldl_append]
  rfl

/-- `r` answers to a name, and no lexer registered after it does. -/
def Latest (calls : List (Option Registered)) (name : Bytes) (r : Registered) : Prop :=
  ∃ earlier later, calls = earlier ++ some r :: later ∧ r.AnswersTo name ∧
    ∀ other, some other ∈ later → ¬other.AnswersTo name

/-- After one more call, the latest lexer is that of the call if it answers, and else the one
before. -/
theorem latest_concat_iff {calls : List (Option Registered)} {call : Option Registered}
    {name : Bytes} {r : Registered} :
    Latest (calls ++ [call]) name r ↔
      call = some r ∧ r.AnswersTo name ∨
        Latest calls name r ∧ ∀ other, call = some other → ¬other.AnswersTo name := by
  constructor
  · rintro ⟨earlier, later, hcalls, hanswers, hothers⟩
    rcases List.eq_nil_or_concat' later with rfl | ⟨later, last, rfl⟩
    · obtain ⟨-, hcall⟩ := List.append_inj' hcalls rfl
      exact .inl ⟨List.singleton_inj.1 hcall, hanswers⟩
    · rw [← List.cons_append, ← List.append_assoc] at hcalls
      obtain ⟨rfl, hcall⟩ := List.append_inj' hcalls rfl
      obtain rfl := List.singleton_inj.1 hcall
      refine .inr ⟨⟨earlier, later, rfl, hanswers, fun other hother => ?_⟩, fun other hother => ?_⟩
      · exact hothers other (List.mem_append_left _ hother)
      · exact hothers other (List.mem_append_right _ (hother ▸ List.mem_singleton_self _))
  · rintro (⟨rfl, hanswers⟩ | ⟨⟨earlier, later, rfl, hanswers, hothers⟩, hcall⟩)
    · exact ⟨calls, [], rfl, hanswers, fun _ h => absurd h List.not_mem_nil⟩
    · refine ⟨earlier, later ++ [call], by simp, hanswers, fun other hother => ?_⟩
      rcases List.mem_append.1 hother with hother | hother
      · exact hothers other hother
      · exact hcall other (List.mem_singleton.1 hother).symm

/-- **The run.** A name leads to the latest lexer that answers to it. -/
theorem find?_after_eq_some_iff {calls : List (Option Registered)} {name : Bytes}
    {r : Registered} : (after calls).find? name = some r ↔ Latest calls name r := by
  induction calls using List.reverseRecOn generalizing r with
  | nil => simp [after, Latest, empty, find?]
  | append_singleton calls call ih =>
    rw [after_concat, latest_concat_iff, ← ih]
    cases call with
    | none => simp [registerOn]
    | some newest =>
      rw [registerOn, find?_register]
      grind

/-- A name leads nowhere when nobody ever answered to it. -/
theorem find?_after_eq_none_iff {calls : List (Option Registered)} {name : Bytes} :
    (after calls).find? name = none ↔ ∀ r, some r ∈ calls → ¬r.AnswersTo name := by
  induction calls using List.reverseRecOn with
  | nil => simp [after, empty, find?]
  | append_singleton calls call ih =>
    rw [after_concat]
    cases call with
    | none => simp [registerOn, ih]
    | some newest =>
      rw [registerOn, find?_register]
      grind

/-! ## The names listed -/

/-- Slots are only ever written under folded names. -/
def Folded (registry : Registry) : Prop :=
  ∀ key r, registry.slots.find? key = some r → ∃ name, key = Bytes.lower name

theorem Folded.assign {registry : Registry} (h : registry.Folded) (r : Registered) (key : Bytes) :
    (registry.assign r key).Folded := by
  rw [Registry.assign]
  split
  · exact h
  · intro k found hfound
    rw [ByteMap.find?_insert] at hfound
    split at hfound
    · next hk => exact ⟨key, hk⟩
    · exact h k found hfound

theorem Folded.register {registry : Registry} (h : registry.Folded) (r : Registered) :
    (registry.register r).Folded := by
  rw [Registry.register]
  induction r.keys generalizing registry with
  | nil => exact h
  | cons key rest ih => exact ih (h.assign r key)

theorem folded_after (calls : List (Option Registered)) : (after calls).Folded := by
  induction calls using List.reverseRecOn with
  | nil => exact fun key r h => by cases h
  | append_singleton calls call ih =>
    rw [after_concat]
    cases call with
    | none => exact ih
    | some r => exact ih.register r

/-- What is in a slot can be found, so the names listed are those of the lexers that can. -/
theorem Folded.mem_names_iff {registry : Registry} (h : registry.Folded) {n : Bytes} :
    n ∈ registry.names ↔ ∃ name r, registry.find? name = some r ∧ r.lexer.name = n := by
  rw [names, ByteMap.mem_keys_ofList]
  simp only [List.mem_map, Prod.mk.injEq, and_true, exists_const, ByteMap.values]
  constructor
  · rintro ⟨r, ⟨⟨key, r'⟩, hentry, rfl⟩, hname⟩
    have hfound := ByteMap.find?_eq_some_iff.2 hentry
    obtain ⟨name, rfl⟩ := h key r' hfound
    exact ⟨name, r', hfound, hname⟩
  · rintro ⟨name, r, hfound, hname⟩
    exact ⟨r, ⟨(name.lower, r), ByteMap.find?_eq_some_iff.1 hfound, rfl⟩, hname⟩

/-- The names listed after a history are those of the lexers that are still the latest for some
name. -/
theorem mem_names_after_iff {calls : List (Option Registered)} {n : Bytes} :
    n ∈ (after calls).names ↔ ∃ name r, Latest calls name r ∧ r.lexer.name = n := by
  simp only [(folded_after calls).mem_names_iff, find?_after_eq_some_iff]

theorem get_eq_ok_iff {registry : Registry} {name : Bytes} {r : Registered} :
    registry.get name = .ok r ↔ registry.find? name = some r := by
  rw [get]
  split
  · next found h => rw [h, Except.ok.injEq, Option.some.injEq]
  · next h => simp [h]

theorem get_eq_error_iff {registry : Registry} {name : Bytes} {e : LexerError} :
    registry.get name = .error e ↔ e = .lexerNotFound name ∧ registry.find? name = none := by
  rw [get]
  split
  · next found h => simp [h]
  · next h => simp [h, eq_comm]

/-- **The latest registration wins.** After any history of registrations, missing lexers among them,
a name leads to the lexer registered last among those that answer to it, and nowhere exactly when
none ever did; asking for a lexer that has to exist fails in that case and in no other, and a
reference to a grammar is to that of the lexer found. The names listed are strictly sorted and are
those of the lexers that some name still leads to. Each of them can be looked up unless it is empty,
though it may lead to a lexer of another name by now. -/
theorem latest_registration_wins (calls : List (Option Registered)) :
    (∀ name, (∀ r, (after calls).find? name = some r ↔ Latest calls name r) ∧
      ((after calls).find? name = none ↔ ∀ r, some r ∈ calls → ¬r.AnswersTo name) ∧
      (∀ r, (after calls).get name = .ok r ↔ Latest calls name r) ∧
      (∀ e, (after calls).get name = .error e ↔
        e = .lexerNotFound name ∧ ∀ r, some r ∈ calls → ¬r.AnswersTo name) ∧
      ∀ g, (after calls).resolve name = some g ↔
        ∃ r, Latest calls name r ∧ r.lexer.grammar = g) ∧
    (after calls).names.Pairwise (· < ·) ∧
    (∀ n, n ∈ (after calls).names ↔ ∃ name r, Latest calls name r ∧ r.lexer.name = n) ∧
    ∀ n ∈ (after calls).names, n ≠ [] → ∃ r, (after calls).find? n = some r := by
  refine ⟨fun name => ⟨fun r => find?_after_eq_some_iff, find?_after_eq_none_iff, ?_, ?_, ?_⟩,
    ByteMap.pairwise_keys _, fun n => mem_names_after_iff, fun n hn hne => ?_⟩
  · intro r
    rw [get_eq_ok_iff, find?_after_eq_some_iff]
  · intro e
    rw [get_eq_error_iff, find?_after_eq_none_iff]
  · intro g
    simp only [resolve, Option.map_eq_some_iff, find?_after_eq_some_iff]
  · obtain ⟨name, r, ⟨earlier, later, rfl, -, -⟩, rfl⟩ := mem_names_after_iff.1 hn
    -- the lexer was registered under its own name, which never becomes free again
    refine Option.ne_none_iff_exists'.1 fun hnone => ?_
    exact find?_after_eq_none_iff.1 hnone r (by simp) (r.answersTo_self hne)

/-- A lexer that goes by the given names. -/
def lexerNamed (id : Nat) (name : Bytes) (aliases : List Bytes) : Registered :=
  ⟨id, .ofStates name aliases [⟨rootState, []⟩] none, .default, .utf8⟩

/-- Three lexers, of which the last takes a name from each of the others. -/
def overlapping : List (Option Registered) :=
  [some (lexerNamed 0 (bytes "Python") [bytes "py", bytes "PY", []]), none,
    some (lexerNamed 1 (bytes "Cython") [bytes "pyx"]),
    some (lexerNamed 2 (bytes "Snake") [bytes "PYTHON", bytes "pyX"])]

/-- The first lexer keeps a name that differs from its alias in case only, and its own name leads to
the third. -/
theorem latest_registration_overlapping :
    (after overlapping).find? (bytes "pY") =
      some (lexerNamed 0 (bytes "Python") [bytes "py", bytes "PY", []]) ∧
    (after overlapping).find? [] = none ∧
    bytes "Python" ∈ (after overlapping).names ∧ bytes "Python" ≠ [] ∧
    ∃ r, (after overlapping).find? (bytes "Python") = some r := by
  obtain ⟨hnames, -, hlisted, hlook⟩ := latest_registration_wins overlapping
  have hlatest : Latest overlapping (bytes "pY")
      (lexerNamed 0 (bytes "Python") [bytes "py", bytes "PY", []]) := by
    refine ⟨[], _, rfl, by decide +kernel, fun other hother => ?_⟩
    simp only [List.mem_cons, List.not_mem_nil, or_false, reduceCtorEq, Option.some.injEq,
      false_or] at hother
    rcases hother with rfl | rfl <;> decide +kernel
  have hmem : bytes "Python" ∈ (after overlapping).names := (hlisted _).2 ⟨_, _, hlatest, rfl⟩
  have hne : bytes "Python" ≠ [] := by decide +kernel
  refine ⟨((hnames _).1 _).2 hlatest, (hnames []).2.1.2 fun r _ => ?_, hmem, hne, hlook _ hmem hne⟩
  rintro ⟨key, -, hkey, hempty⟩
  exact hkey (List.forall₂_nil_right_iff.1 hempty)

end Registry

end StackLexer
