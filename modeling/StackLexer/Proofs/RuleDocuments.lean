import StackLexer.Grammar.Document
import StackLexer.Proofs.DocumentFields

/-!
# The language of rules

A rule has a dozen optional fields. Some exclude each other, some matter only beside another one,
and they are looked at in several places, one after the other, until one of them is refused. What a
rule may look like is said here without an order of looking: by the fields it has, and with the rule
that they write.

* `Grammar.PatternWritten`, `Grammar.DelegateWritten`, `Grammar.EmissionWritten`,
  `Grammar.TransitionsWritten` — the parts of a rule, each with a lemma that its reader accepts just
  that;
* `Grammar.EntryWritten` — the three forms of an entry of a state: `Grammar.reads_entry` says that
  these are what is accepted;
* `Grammar.refusesAt_readEntry` — everything else is refused for its format, at the entry or within
  it.
-/

namespace StackLexer.Grammar

open Document

/-- A field within a field. -/
theorem subfield_within (field : Bytes) (name : String) : field <+: subfield field name :=
  ⟨bytes "." ++ bytes name, by simp [subfield]⟩

/-! ## Patterns -/

/-- The pattern of a rule: a regular expression, or a list of words. -/
inductive PatternWritten (r : Json) : Bytes → Prop
  /-- `regex` without `words` -/
  | regex {pattern : Bytes} (hregex : r.member? (bytes "regex") = some (.str pattern))
      (hwords : r.member? (bytes "words") = none) : PatternWritten r pattern
  /-- `words` without `regex`, one word at least, with what stands before and behind them -/
  | words {list : List Bytes} {front back : Bytes} (hregex : r.member? (bytes "regex") = none)
      (hwords : r.member? (bytes "words") = some (.arr (list.map .str))) (hne : list ≠ [])
      (hfront : Optionally StringWritten [] (r.member? (bytes "prefix")) front)
      (hback : Optionally StringWritten [] (r.member? (bytes "suffix")) back) :
      PatternWritten r (wordsPattern list front back)

theorem readPattern_eq_ok_iff {field : Bytes} {r : Json} {pattern : Bytes} :
    readPattern field r = .ok pattern ↔ PatternWritten r pattern := by
  refine ⟨fun h => ?_, fun h => ?_⟩
  · rw [readPattern] at h
    split at h
    · next regex hregex hwords =>
      rw [reads_string] at h
      obtain rfl := h
      exact .regex hregex hwords
    · next words hregex hwords =>
      simp only [Outcome.bind_eq_ok, optional_eq_ok_iff reads_string, someStrings_eq_ok_iff] at h
      obtain ⟨front, hfront, back, hback, list, ⟨rfl, hne⟩, heq⟩ := h
      cases heq
      exact .words hregex hwords hne hfront hback
    · cases h
  · cases h with
    | regex hregex hwords => simp [readPattern, hregex, hwords, string]
    | words hregex hwords hne hfront hback =>
      simp only [readPattern, hregex, hwords, Outcome.bind_eq_ok, optional_eq_ok_iff reads_string,
        someStrings_eq_ok_iff]
      exact ⟨_, hfront, _, hback, _, ⟨rfl, hne⟩, rfl⟩

theorem refusesAt_readPattern (field : Bytes) (r : Json) :
    RefusesAt field (readPattern field r) := by
  rw [readPattern]
  split
  · exact (refusesAt_string _ _).outer (subfield_within field _)
  · refine .bind ?_ fun front => .bind ?_ fun back => .bind ?_ fun list => .ok field _
    · exact (refusesAt_optional refusesAt_string _ _ _).outer (subfield_within field _)
    · exact (refusesAt_optional refusesAt_string _ _ _).outer (subfield_within field _)
    · exact (refusesAt_someStrings _ _ _).outer (subfield_within field _)
  · exact .format field _

/-! ## Delegates -/

/-- The type for tokens that were not classified: a flag for the usual one, or a name. -/
inductive WrapWritten : Json → Option TokenType → Prop
  /-- the usual type or none -/
  | flag (wraps : Bool) : WrapWritten (.bool wraps) (if wraps then some TokenType.other else none)
  /-- a type of its own -/
  | type (name : Bytes) : WrapWritten (.str name) (some (TokenType.parse name))

/-- A delegate: `using` is `this` or the name of a grammar that is known, and `using_state` and
`wrap` are optional. -/
structure DelegateWritten (resolve : Resolver) (r : Json) (d : Delegate CompiledGrammar) :
    Prop where
  /-- the grammar itself, or the one that is found under the name -/
  target : ∃ name, r.member? (bytes "using") = some (.str name) ∧
    if name = bytes "this" then d.target = none else ∃ g, resolve name = some g ∧ d.target = some g
  /-- the state to start in -/
  state : Optionally StringWritten [] (r.member? (bytes "using_state")) d.state
  /-- the type for tokens that were not classified -/
  wrap : Optionally WrapWritten none (r.member? (bytes "wrap")) d.wrap

theorem readType_eq_ok_iff {field : Bytes} {j : Json} {type : TokenType} :
    readType field j = .ok type ↔ ∃ name, j = .str name ∧ type = TokenType.parse name := by
  simp only [readType, Outcome.bind_eq_ok, reads_string _ _ _, StringWritten, pure, Except.pure,
    Except.ok.injEq, eq_comm (a := type)]

theorem refusesAt_readType (field : Bytes) (j : Json) : RefusesAt field (readType field j) :=
  (refusesAt_string field j).bind fun _ => .ok field _

theorem reads_wrap : Reads readWrap WrapWritten := by
  intro field j wrap
  rw [readWrap.eq_def]
  split
  · refine ⟨fun h => ?_, fun h => ?_⟩
    · cases h
      exact .flag _
    · cases h
      rfl
  · next hnot =>
    simp only [Outcome.bind_eq_ok, readType_eq_ok_iff]
    refine ⟨?_, fun h => ?_⟩
    · rintro ⟨type, ⟨name, rfl, rfl⟩, heq⟩
      cases heq
      exact .type name
    · cases h with
      | flag wraps => exact absurd rfl (hnot wraps)
      | type name => exact ⟨_, ⟨name, rfl, rfl⟩, rfl⟩

theorem refusesAt_readWrap (field : Bytes) (j : Json) : RefusesAt field (readWrap field j) := by
  rw [readWrap.eq_def]
  split
  · exact .ok field _
  · exact (refusesAt_readType field j).bind fun _ => .ok field _

theorem readTarget_eq_ok_iff {resolve : Resolver} {field name : Bytes}
    {target : Option CompiledGrammar} : readTarget resolve field name = .ok target ↔
      if name = bytes "this" then target = none
      else ∃ g, resolve name = some g ∧ target = some g := by
  rw [readTarget]
  split
  · simp [eq_comm]
  · cases resolve name with
    | none => simp
    | some g => simp [eq_comm]

theorem refusesAt_readTarget (resolve : Resolver) (field name : Bytes) :
    RefusesAt field (readTarget resolve field name) := by
  rw [readTarget]
  split
  · exact .ok field _
  · split
    · exact .ok field _
    · exact (RefusesAt.format _ _).outer (subfield_within field _)

theorem readDelegate_eq_ok_iff {resolve : Resolver} {field : Bytes} {r written : Json}
    (h : r.member? (bytes "using") = some written) {d : Delegate CompiledGrammar} :
    readDelegate resolve field r written = .ok d ↔ DelegateWritten resolve r d := by
  simp only [readDelegate, Outcome.bind_eq_ok, reads_string _ _ _, optional_eq_ok_iff reads_string,
    readTarget_eq_ok_iff, optional_eq_ok_iff reads_wrap]
  refine ⟨?_, fun hd => ?_⟩
  · rintro ⟨name, rfl, state, hstate, target, htarget, wrap, hwrap, heq⟩
    cases heq
    exact ⟨⟨name, h, htarget⟩, hstate, hwrap⟩
  · obtain ⟨name, hname, htarget⟩ := hd.target
    have hwritten : written = .str name := Option.some.inj (h.symm.trans hname)
    exact ⟨name, hwritten, d.state, hd.state, d.target, htarget, d.wrap, hd.wrap, rfl⟩

theorem refusesAt_readDelegate (resolve : Resolver) (field : Bytes) (r written : Json) :
    RefusesAt field (readDelegate resolve field r written) := by
  refine .bind ?_ fun name => .bind ?_ fun state => .bind ?_ fun target => .bind ?_ fun wrap =>
    .ok field _
  · exact (refusesAt_string _ _).outer (subfield_within field _)
  · exact (refusesAt_optional refusesAt_string _ _ _).outer (subfield_within field _)
  · exact refusesAt_readTarget resolve field name
  · exact (refusesAt_optional refusesAt_readWrap _ _ _).outer (subfield_within field _)

/-! ## Emissions -/

/-- What becomes of a capturing group: nothing, a type, or a delegate. -/
inductive GroupWritten (resolve : Resolver) : Json → GroupAction CompiledGrammar → Prop
  /-- `null` -/
  | skip : GroupWritten resolve .null .skip
  /-- the name of a type -/
  | emit (name : Bytes) : GroupWritten resolve (.str name) (.emit (TokenType.parse name))
  /-- an object with a `using` -/
  | delegate {members : List (Bytes × Json)} {d : Delegate CompiledGrammar}
      (h : DelegateWritten resolve (.obj members) d) :
      GroupWritten resolve (.obj members) (.delegate d)

/-- What becomes of a match: at most one of `token`, `groups` and `using` says so. -/
inductive EmissionWritten (resolve : Resolver) (r : Json) : Emission CompiledGrammar → Prop
  /-- none of them -/
  | silent (htoken : r.member? (bytes "token") = none) (hgroups : r.member? (bytes "groups") = none)
      (husing : r.member? (bytes "using") = none) : EmissionWritten resolve r (.emit none)
  /-- a token that is `null` -/
  | untyped (htoken : r.member? (bytes "token") = some .null)
      (hgroups : r.member? (bytes "groups") = none) (husing : r.member? (bytes "using") = none) :
      EmissionWritten resolve r (.emit none)
  /-- a token of a type -/
  | typed {name : Bytes} (htoken : r.member? (bytes "token") = some (.str name))
      (hgroups : r.member? (bytes "groups") = none) (husing : r.member? (bytes "using") = none) :
      EmissionWritten resolve r (.emit (some (TokenType.parse name)))
  /-- an array with one action for each group -/
  | groups {items : List Json} {actions : List (GroupAction CompiledGrammar)}
      (htoken : r.member? (bytes "token") = none)
      (hgroups : r.member? (bytes "groups") = some (.arr items))
      (husing : r.member? (bytes "using") = none)
      (hactions : List.Forall₂ (GroupWritten resolve) items actions) :
      EmissionWritten resolve r (.groups actions)
  /-- a delegate for the whole match -/
  | delegate {d : Delegate CompiledGrammar} (htoken : r.member? (bytes "token") = none)
      (hgroups : r.member? (bytes "groups") = none) (hd : DelegateWritten resolve r d) :
      EmissionWritten resolve r (.delegate d)

theorem DelegateWritten.exists_using {resolve : Resolver} {r : Json} {d : Delegate CompiledGrammar}
    (h : DelegateWritten resolve r d) : ∃ written, r.member? (bytes "using") = some written := by
  obtain ⟨name, hname, -⟩ := h.target
  exact ⟨_, hname⟩

theorem reads_group (resolve : Resolver) : Reads (readGroup resolve) (GroupWritten resolve) := by
  intro field j action
  refine ⟨fun h => ?_, fun h => ?_⟩
  · cases j with
    | null =>
      cases h
      exact .skip
    | str name =>
      cases h
      exact .emit name
    | obj members =>
      cases husing : (Json.obj members).member? (bytes "using") with
      | none => simp [readGroup, husing] at h
      | some written =>
        simp only [readGroup, husing, Outcome.bind_eq_ok, readDelegate_eq_ok_iff husing] at h
        obtain ⟨d, hd, heq⟩ := h
        cases heq
        exact .delegate hd
    | _ => cases h
  · cases h with
    | skip => rfl
    | emit name => rfl
    | delegate hd =>
      obtain ⟨written, husing⟩ := hd.exists_using
      simp only [readGroup, husing, Outcome.bind_eq_ok, readDelegate_eq_ok_iff husing]
      exact ⟨_, hd, rfl⟩

theorem refusesAt_readGroup (resolve : Resolver) (field : Bytes) (j : Json) :
    RefusesAt field (readGroup resolve field j) := by
  rw [readGroup.eq_def]
  split
  · exact .ok field _
  · exact .ok field _
  · exact (refusesAt_readDelegate resolve field _ _).bind fun _ => .ok field _
  · exact .format field _

theorem readGroups_eq_ok_iff {resolve : Resolver} {field : Bytes} {j : Json}
    {actions : List (GroupAction CompiledGrammar)} :
    readGroups resolve field j = .ok actions ↔
      ∃ items, j = .arr items ∧ List.Forall₂ (GroupWritten resolve) items actions := by
  cases j with
  | arr items => simp [readGroups, items_eq_ok_iff (reads_group resolve)]
  | _ => simp [readGroups]

theorem refusesAt_readGroups (resolve : Resolver) (field : Bytes) (j : Json) :
    RefusesAt field (readGroups resolve field j) := by
  rw [readGroups.eq_def]
  split
  · exact refusesAt_items (refusesAt_readGroup resolve) field _
  · exact .expected field _ j

theorem readEmission_eq_ok_iff {resolve : Resolver} {field : Bytes} {r : Json}
    {emission : Emission CompiledGrammar} :
    readEmission resolve field r = .ok emission ↔ EmissionWritten resolve r emission := by
  refine ⟨fun h => ?_, fun h => ?_⟩
  · rw [readEmission.eq_def] at h
    split at h
    · next htoken hgroups husing =>
      cases h
      exact .silent htoken hgroups husing
    · next htoken hgroups husing =>
      cases h
      exact .untyped htoken hgroups husing
    · next token _ htoken hgroups husing =>
      simp only [Outcome.bind_eq_ok, readType_eq_ok_iff] at h
      obtain ⟨type, ⟨name, rfl, rfl⟩, heq⟩ := h
      cases heq
      exact .typed htoken hgroups husing
    · next groups htoken hgroups husing =>
      simp only [Outcome.bind_eq_ok, readGroups_eq_ok_iff] at h
      obtain ⟨actions, ⟨items, rfl, hactions⟩, heq⟩ := h
      cases heq
      exact .groups htoken hgroups husing hactions
    · next written htoken hgroups husing =>
      simp only [Outcome.bind_eq_ok, readDelegate_eq_ok_iff husing] at h
      obtain ⟨d, hd, heq⟩ := h
      cases heq
      exact .delegate htoken hgroups hd
    · cases h
  · cases h with
    | silent htoken hgroups husing => simp [readEmission, htoken, hgroups, husing]
    | untyped htoken hgroups husing => simp [readEmission, htoken, hgroups, husing]
    | typed htoken hgroups husing =>
      simp only [readEmission, htoken, hgroups, husing, Outcome.bind_eq_ok, readType_eq_ok_iff]
      exact ⟨_, ⟨_, rfl, rfl⟩, rfl⟩
    | groups htoken hgroups husing hactions =>
      simp only [readEmission, htoken, hgroups, husing, Outcome.bind_eq_ok, readGroups_eq_ok_iff]
      exact ⟨_, ⟨_, rfl, hactions⟩, rfl⟩
    | delegate htoken hgroups hd =>
      obtain ⟨written, husing⟩ := hd.exists_using
      simp only [readEmission, htoken, hgroups, husing, Outcome.bind_eq_ok,
        readDelegate_eq_ok_iff husing]
      exact ⟨_, hd, rfl⟩

theorem refusesAt_readEmission (resolve : Resolver) (field : Bytes) (r : Json) :
    RefusesAt field (readEmission resolve field r) := by
  rw [readEmission.eq_def]
  split
  · exact .ok field _
  · exact .ok field _
  · refine .bind ?_ fun _ => .ok field _
    exact (refusesAt_readType _ _).outer (subfield_within field _)
  · refine .bind ?_ fun _ => .ok field _
    exact (refusesAt_readGroups resolve _ _).outer (subfield_within field _)
  · exact (refusesAt_readDelegate resolve field r _).bind fun _ => .ok field _
  · exact .format field _

/-! ## Transitions -/

/-- The transitions of a rule: those under `state`, and then the combined state, of one state at
least. -/
inductive TransitionsWritten (r : Json) : List Transition → Prop
  /-- without a combined state -/
  | plain {ts : List Transition}
      (hstate : Optionally MovesWritten [] (r.member? (bytes "state")) ts)
      (hcombined : r.member? (bytes "combined") = none) : TransitionsWritten r ts
  /-- with a combined state -/
  | combined {ts : List Transition} {states : List Bytes}
      (hstate : Optionally MovesWritten [] (r.member? (bytes "state")) ts)
      (hcombined : r.member? (bytes "combined") = some (.arr (states.map .str)))
      (hne : states ≠ []) : TransitionsWritten r (ts ++ [.pushCombined states])

theorem readTransitions_eq_ok_iff {field : Bytes} {r : Json} {ts : List Transition} :
    readTransitions field r = .ok ts ↔ TransitionsWritten r ts := by
  simp only [readTransitions, Outcome.bind_eq_ok, optional_eq_ok_iff reads_transitions]
  refine ⟨?_, fun h => ?_⟩
  · rintro ⟨written, hstate, h⟩
    split at h
    · next hcombined =>
      cases h
      exact .plain hstate hcombined
    · next states hcombined =>
      obtain ⟨members, hmembers, heq⟩ := Outcome.bind_eq_ok.1 h
      obtain ⟨rfl, hne⟩ := someStrings_eq_ok_iff.1 hmembers
      cases heq
      exact .combined hstate hcombined hne
  · cases h with
    | plain hstate hcombined => exact ⟨_, hstate, by simp [hcombined, pure, Except.pure]⟩
    | combined hstate hcombined hne =>
      refine ⟨_, hstate, ?_⟩
      simp only [hcombined, Outcome.bind_eq_ok, someStrings_eq_ok_iff]
      exact ⟨_, ⟨rfl, hne⟩, rfl⟩

theorem refusesAt_readTransitions (field : Bytes) (r : Json) :
    RefusesAt field (readTransitions field r) := by
  refine .bind ?_ fun written => ?_
  · exact (refusesAt_optional refusesAt_transitions _ _ _).outer (subfield_within field _)
  · split
    · exact .ok field _
    · refine .bind ?_ fun _ => .ok field _
      exact (refusesAt_someStrings _ _ _).outer (subfield_within field _)

/-! ## Entries -/

/-- A rule with a pattern, by its fields. -/
structure RuleWritten (resolve : Resolver) (members : List (Bytes × Json)) (r : Rule) : Prop where
  /-- there is no other field -/
  known : ∀ m ∈ members, ∃ name ∈ ["regex", "words", "prefix", "suffix", "token", "groups", "using",
    "using_state", "wrap", "state", "combined"], m.1 = bytes name
  /-- the pattern -/
  pattern : PatternWritten (.obj members) r.pattern
  /-- what becomes of the match -/
  emission : EmissionWritten resolve (.obj members) r.emission
  /-- what happens to the stack -/
  transitions : TransitionsWritten (.obj members) r.transitions

/-- The three forms of an entry. -/
inductive EntryWritten (resolve : Resolver) : Json → Entry → Prop
  /-- the one field `include`, a string -/
  | inclusion (state : Bytes) :
      EntryWritten resolve (.obj [(bytes "include", .str state)]) (.inclusion state)
  /-- the one field `default`, transitions -/
  | moving {written : Json} {ts : List Transition} (h : MovesWritten written ts) :
      EntryWritten resolve (.obj [(bytes "default", written)]) (.rule (.moving ts))
  /-- neither of these fields, and a rule with a pattern -/
  | rule {members : List (Bytes × Json)} {r : Rule}
      (hinclude : members.lookup (bytes "include") = none)
      (hdefault : members.lookup (bytes "default") = none) (h : RuleWritten resolve members r) :
      EntryWritten resolve (.obj members) (.rule r)

theorem find?_unknown_eq_none_iff {members : List (Bytes × Json)} :
    members.find? (fun m => !ruleFields.contains m.1) = none ↔
      ∀ m ∈ members, ∃ name ∈ ["regex", "words", "prefix", "suffix", "token", "groups", "using",
        "using_state", "wrap", "state", "combined"], m.1 = bytes name := by
  rw [List.find?_eq_none]
  refine forall₂_congr fun m _ => ?_
  simp only [ruleFields, Bool.not_eq_true', Bool.not_eq_false, List.contains_iff_mem, List.mem_map,
    eq_comm (a := m.1)]

theorem readRule_eq_ok_iff {resolve : Resolver} {field : Bytes} {members : List (Bytes × Json)}
    {r : Rule} : readRule resolve field members = .ok r ↔ RuleWritten resolve members r := by
  simp only [readRule, Outcome.bind_eq_ok, readPattern_eq_ok_iff, readEmission_eq_ok_iff,
    readTransitions_eq_ok_iff]
  refine ⟨?_, fun h => ?_⟩
  · rintro ⟨pattern, hpattern, emission, hemission, transitions, htransitions, h⟩
    split at h
    · cases h
    · next hknown =>
      cases h
      exact ⟨find?_unknown_eq_none_iff.1 hknown, hpattern, hemission, htransitions⟩
  · refine ⟨_, h.pattern, _, h.emission, _, h.transitions, ?_⟩
    rw [find?_unknown_eq_none_iff.2 h.known]
    rfl

theorem refusesAt_readRule (resolve : Resolver) (field : Bytes) (members : List (Bytes × Json)) :
    RefusesAt field (readRule resolve field members) := by
  refine .bind (refusesAt_readPattern field _) fun _ =>
    .bind (refusesAt_readEmission resolve field _) fun _ =>
      .bind (refusesAt_readTransitions field _) fun _ => ?_
  split
  · exact .format field _
  · exact .ok field _

/-- The one member of an object is what is found in it. -/
theorem eq_singleton_of_lookup {members : List (Bytes × Json)} {name : Bytes} {j : Json}
    (hfound : members.lookup name = some j) (hlength : members.length = 1) :
    members = [(name, j)] := by
  obtain ⟨⟨name', j'⟩, rfl⟩ := List.length_eq_one_iff.1 hlength
  by_cases hname : name = name'
  · subst hname
    simp_all
  · simp [List.lookup_cons, beq_eq_false_iff_ne.2 hname] at hfound

/-- Entries are accepted in their three forms. -/
theorem reads_entry (resolve : Resolver) : Reads (readEntry resolve) (EntryWritten resolve) := by
  intro field j e
  refine ⟨fun h => ?_, fun h => ?_⟩
  · rw [readEntry.eq_def] at h
    split at h
    · next members =>
      split at h
      · next state hstate =>
        split at h
        · cases h
        · next hlength =>
          obtain ⟨name, hname, heq⟩ := Outcome.bind_eq_ok.1 h
          cases heq
          rw [reads_string] at hname
          rw [eq_singleton_of_lookup hstate (Decidable.not_not.1 hlength), hname]
          exact .inclusion name
      · next directives _ hdirectives =>
        split at h
        · cases h
        · next hlength =>
          obtain ⟨ts, hts, heq⟩ := Outcome.bind_eq_ok.1 h
          cases heq
          rw [reads_transitions] at hts
          rw [eq_singleton_of_lookup hdirectives (Decidable.not_not.1 hlength)]
          exact .moving hts
      · next hinclude hdefault =>
        obtain ⟨r, hr, heq⟩ := Outcome.bind_eq_ok.1 h
        cases heq
        exact .rule hinclude hdefault (readRule_eq_ok_iff.1 hr)
    · cases h
  · cases h with
    | inclusion state => rfl
    | moving h =>
      have hother : (bytes "include" == bytes "default") = false := by decide +kernel
      simp only [readEntry, List.lookup_cons, hother, beq_self_eq_true, List.lookup_nil,
        List.length_singleton, ne_eq, not_true_eq_false, if_false, Outcome.bind_eq_ok,
        reads_transitions _ _ _]
      exact ⟨_, h, rfl⟩
    | rule hinclude hdefault h =>
      simp only [readEntry, hinclude, hdefault, Outcome.bind_eq_ok, readRule_eq_ok_iff]
      exact ⟨_, h, rfl⟩

theorem refusesAt_readEntry (resolve : Resolver) (field : Bytes) (j : Json) :
    RefusesAt field (readEntry resolve field j) := by
  rw [readEntry.eq_def]
  split
  · split
    · split
      · exact .format field _
      · refine .bind ?_ fun _ => .ok field _
        exact (refusesAt_string _ _).outer (subfield_within field _)
    · split
      · exact .format field _
      · refine .bind ?_ fun _ => .ok field _
        exact (refusesAt_transitions _ _).outer (subfield_within field _)
    · exact (refusesAt_readRule resolve field _).bind fun _ => .ok field _
  · exact .expected field _ j

end StackLexer.Grammar
