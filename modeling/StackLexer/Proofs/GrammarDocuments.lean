import StackLexer.Proofs.ByteMap
import StackLexer.Proofs.DirectiveLanguage
import StackLexer.Proofs.JsonOrder
import StackLexer.Proofs.RuleDocuments
import StackLexer.Regex.Engine

/-!
# The language of grammar documents

A document is read field by field and state by state until something is refused. The states are put
into a map one by one, so a document with a state twice would lose one of them. There are no such
documents: objects have their members in order.

* `Grammar.StatesWritten` — states and their entries, in the order in which they are written;
* `Grammar.DocumentWritten` — a whole grammar, with the states of the document and no others;
  `Grammar.ofDocument_eq_ok_iff` says that this is what is read;
* `Grammar.IsDocument` — which documents these are, whatever grammar they write;
* `Grammar.documents_are_read` — what is accepted and what is refused, for entries and documents.
-/

namespace StackLexer.Grammar

open Document

/-! ## States -/

/-- A state: an array with its entries in order. -/
def StateWritten (resolve : Resolver) (j : Json) (entries : List Entry) : Prop :=
  ∃ items, j = .arr items ∧ List.Forall₂ (EntryWritten resolve) items entries

/-- The states of a document, in order and each under its name. -/
def StatesWritten (resolve : Resolver) (members : List (Bytes × Json))
    (states : List (Bytes × List Entry)) : Prop :=
  List.Forall₂ (fun m s => m.1 = s.1 ∧ StateWritten resolve m.2 s.2) members states

theorem readState_eq_ok_iff {resolve : Resolver} {name : Bytes} {j : Json} {entries : List Entry} :
    readState resolve name j = .ok entries ↔ StateWritten resolve j entries := by
  cases j with
  | arr items => simp [readState, StateWritten, items_eq_ok_iff (reads_entry resolve)]
  | _ => simp [readState, StateWritten]

theorem refusesAt_readState (resolve : Resolver) (name : Bytes) (j : Json) :
    RefusesAt (bytes "states." ++ name) (readState resolve name j) := by
  rw [readState.eq_def]
  split
  · exact refusesAt_items (refusesAt_readEntry resolve) _ _
  · exact .expected _ _ j

namespace StatesWritten

variable {resolve : Resolver} {members : List (Bytes × Json)} {states : List (Bytes × List Entry)}

theorem names_eq (h : StatesWritten resolve members states) :
    states.map (·.1) = members.map (·.1) := by
  induction h with
  | nil => rfl
  | cons hfirst _ ih => rw [List.map_cons, List.map_cons, ih, hfirst.1]

/-- States under names that are in order are in order. -/
theorem pairwise (h : StatesWritten resolve members states)
    (hsorted : members.Pairwise fun a b => a.1 < b.1) :
    states.Pairwise fun a b => a.1 < b.1 := by
  apply List.pairwise_map.1
  rw [h.names_eq]
  exact List.pairwise_map.2 hsorted

end StatesWritten

/-- States can be written by anything that is an array of entries each. -/
theorem exists_statesWritten_iff {resolve : Resolver} {members : List (Bytes × Json)} :
    (∃ states, StatesWritten resolve members states) ↔
      ∀ m ∈ members, ∃ items, m.2 = .arr items ∧ ∀ j ∈ items, ∃ e, EntryWritten resolve j e := by
  simp only [StatesWritten, Lists.exists_forall₂_iff]
  refine forall₂_congr fun m _ => ?_
  simp only [StateWritten, ← Lists.exists_forall₂_iff]
  refine ⟨?_, ?_⟩
  · rintro ⟨⟨name, entries⟩, -, items, hitems, hentries⟩
    exact ⟨items, hitems, entries, hentries⟩
  · rintro ⟨items, hitems, entries, hentries⟩
    exact ⟨(m.1, entries), rfl, items, hitems, hentries⟩

theorem mapM_readState_eq_ok_iff {resolve : Resolver} {members : List (Bytes × Json)}
    {states : List (Bytes × List Entry)} :
    members.mapM (fun (name, j) => do
      let entries ← readState resolve name j
      return (name, entries)) = .ok states ↔ StatesWritten resolve members states := by
  rw [mapM_eq_ok_iff, StatesWritten]
  refine ⟨fun h => h.imp ?_, fun h => h.imp ?_⟩
  · rintro ⟨name, j⟩ s hs
    obtain ⟨entries, hentries, heq⟩ := Outcome.bind_eq_ok.1 hs
    cases heq
    exact ⟨rfl, readState_eq_ok_iff.1 hentries⟩
  · rintro ⟨name, j⟩ ⟨_, entries⟩ ⟨rfl, hentries⟩
    exact Outcome.bind_eq_ok.2 ⟨entries, readState_eq_ok_iff.2 hentries, rfl⟩

theorem readStates_eq_ok_iff {resolve : Resolver} {j : Json} (hj : j.Ordered)
    {states : ByteMap (List Entry)} : readStates resolve j = .ok states ↔
      ∃ members, j = .obj members ∧ StatesWritten resolve members states.entries := by
  cases j with
  | obj members =>
    simp only [readStates, Outcome.bind_eq_ok, mapM_readState_eq_ok_iff, Json.obj.injEq]
    refine ⟨?_, ?_⟩
    · rintro ⟨list, hlist, heq⟩
      cases heq
      refine ⟨members, rfl, ?_⟩
      rwa [ByteMap.entries_ofList (hlist.pairwise hj.pairwise)]
    · rintro ⟨_, rfl, hstates⟩
      exact ⟨states.entries, hstates, congrArg Except.ok (ByteMap.ofList_entries states)⟩
  | _ => simp [readStates]

theorem refusesAt_readStates (resolve : Resolver) (j : Json) :
    RefusesAt [] (readStates resolve j) := by
  rw [readStates.eq_def]
  split
  · refine .bind (.mapM fun ⟨name, j⟩ _ => .bind ?_ fun _ => .ok [] _) fun _ => .ok [] _
    exact (refusesAt_readState resolve name j).outer List.nil_prefix
  · exact (RefusesAt.expected _ _ j).outer List.nil_prefix

/-! ## Confidence -/

/-- A check: a `regex` that can be read and a `score` that is a number. -/
structure CheckWritten (library : Library) (ignoreCase : Bool) (j : Json) (c : Check) : Prop where
  /-- what to look for -/
  regex : ∃ written, j.member? (bytes "regex") = some (.str written) ∧
    library.read ignoreCase written = .ok c.regex
  /-- the score if it is found -/
  score : ∃ score, j.member? (bytes "score") = some score ∧ score.number? = some c.score

/-- A heuristic: an array of checks. -/
def ConfidenceWritten (library : Library) (ignoreCase : Bool) (j : Json)
    (heuristic : Option Heuristic) : Prop :=
  ∃ items checks, j = .arr items ∧ List.Forall₂ (CheckWritten library ignoreCase) items checks ∧
    heuristic = some (.checks checks)

theorem reads_check (library : Library) (ignoreCase : Bool) :
    Reads (readCheck library ignoreCase) (CheckWritten library ignoreCase) := by
  intro field j c
  refine ⟨fun h => ?_, fun h => ?_⟩
  · rw [readCheck] at h
    split at h
    · next regex score hregex hscore =>
      split at h
      · cases h
      · next q hq =>
        obtain ⟨written, hwritten, hcompiled⟩ := Outcome.bind_eq_ok.1 h
        rw [reads_string] at hwritten
        split at hcompiled
        · next expression hread =>
          cases hcompiled
          exact ⟨⟨written, hwritten ▸ hregex, hread⟩, score, hscore, hq⟩
        · cases hcompiled
    · cases h
  · obtain ⟨written, hregex, hread⟩ := h.regex
    obtain ⟨score, hscore, hq⟩ := h.score
    simp only [readCheck, hregex, hscore, hq, Outcome.bind_eq_ok, reads_string _ _ _]
    exact ⟨written, rfl, by simp [hread, pure, Except.pure]⟩

theorem refusesAt_readCheck (library : Library) (ignoreCase : Bool) (field : Bytes) (j : Json) :
    RefusesAt field (readCheck library ignoreCase field j) := by
  rw [readCheck]
  split
  · split
    · exact (RefusesAt.format _ _).outer (subfield_within field _)
    · refine .bind ?_ fun written => ?_
      · exact (refusesAt_string _ _).outer (subfield_within field _)
      · split
        · exact .ok field _
        · exact (RefusesAt.format _ _).outer (subfield_within field _)
  · exact .format field _

theorem readConfidence_eq_ok_iff {library : Library} {ignoreCase : Bool} {j : Json}
    {heuristic : Heuristic} : readConfidence library ignoreCase j = .ok heuristic ↔
      ConfidenceWritten library ignoreCase j (some heuristic) := by
  cases j with
  | arr items =>
    simp only [readConfidence, Outcome.bind_eq_ok, items_eq_ok_iff (reads_check library ignoreCase),
      ConfidenceWritten]
    refine ⟨?_, ?_⟩
    · rintro ⟨checks, hchecks, heq⟩
      cases heq
      exact ⟨items, checks, rfl, hchecks, rfl⟩
    · rintro ⟨_, checks, ⟨⟩, hchecks, heq⟩
      cases heq
      exact ⟨checks, hchecks, rfl⟩
  | _ => simp [readConfidence, ConfidenceWritten]

/-- An optional heuristic is missing, or it is read. -/
theorem optionally_confidenceWritten_iff {library : Library} {ignoreCase : Bool}
    {found : Option Json} {heuristic : Option Heuristic} :
    Optionally (ConfidenceWritten library ignoreCase) none found heuristic ↔
      found = none ∧ none = heuristic ∨ ∃ checks read, found = some checks ∧
        readConfidence library ignoreCase checks = .ok read ∧ some read = heuristic := by
  refine ⟨fun h => ?_, ?_⟩
  · cases h with
    | missing => exact .inl ⟨rfl, rfl⟩
    | given h =>
      obtain ⟨items, checks, hitems, hchecks, rfl⟩ := h
      exact .inr ⟨_, _, rfl, readConfidence_eq_ok_iff.2 ⟨items, checks, hitems, hchecks, rfl⟩, rfl⟩
  · rintro (⟨rfl, rfl⟩ | ⟨checks, read, rfl, hread, rfl⟩)
    · exact .missing
    · exact .given (readConfidence_eq_ok_iff.1 hread)

theorem refusesAt_readConfidence (library : Library) (ignoreCase : Bool) (j : Json) :
    RefusesAt [] (readConfidence library ignoreCase j) := by
  rw [readConfidence.eq_def]
  split
  · refine .bind ?_ fun _ => .ok [] _
    exact (refusesAt_items (refusesAt_readCheck library ignoreCase) _ _).outer List.nil_prefix
  · exact (RefusesAt.expected _ _ j).outer List.nil_prefix

/-! ## Documents -/

/-- A document and the grammar it writes. -/
structure DocumentWritten (library : Library) (resolve : Resolver) (doc : Json) (g : Grammar) :
    Prop where
  /-- the name, empty if there is none -/
  name : Optionally StringWritten [] (doc.member? (bytes "name")) g.name
  /-- the other names -/
  aliases : Optionally StringsWritten [] (doc.member? (bytes "aliases")) g.aliases
  /-- whether letters match in either case, which they do not unless it is said -/
  ignoreCase : Optionally BoolWritten false (doc.member? (bytes "ignore_case")) g.ignoreCase
  /-- the states of the document, each with its entries in order, and no others -/
  states : ∃ members, doc.member? (bytes "states") = some (.obj members) ∧
    StatesWritten resolve members g.states.entries
  /-- the heuristic, if there is one -/
  heuristic : Optionally (ConfidenceWritten library g.ignoreCase) none
    (doc.member? (bytes "confidence")) g.heuristic

/-- What a document looks like: its fields are what they should be, and the states are arrays of
entries. -/
structure IsDocument (library : Library) (resolve : Resolver) (doc : Json) : Prop where
  /-- a name, if there is one -/
  name : ∃ name, Optionally StringWritten [] (doc.member? (bytes "name")) name
  /-- other names, if there are any -/
  aliases : ∃ aliases, Optionally StringsWritten [] (doc.member? (bytes "aliases")) aliases
  /-- states, all of whose entries have one of the three forms -/
  states : ∃ members, doc.member? (bytes "states") = some (.obj members) ∧
    ∀ m ∈ members, ∃ items, m.2 = .arr items ∧ ∀ j ∈ items, ∃ e, EntryWritten resolve j e
  /-- checks, if there are any, that can be read as the letters are to match -/
  heuristic : ∃ ignoreCase heuristic,
    Optionally BoolWritten false (doc.member? (bytes "ignore_case")) ignoreCase ∧
    Optionally (ConfidenceWritten library ignoreCase) none (doc.member? (bytes "confidence"))
      heuristic

/-- A document is read field by field, whatever the order of its members. -/
theorem ofDocument_eq_ok_iff_fields {library : Library} {resolve : Resolver} {doc : Json}
    {g : Grammar} : ofDocument library resolve doc = .ok g ↔
      Optionally StringWritten [] (doc.member? (bytes "name")) g.name ∧
      Optionally StringsWritten [] (doc.member? (bytes "aliases")) g.aliases ∧
      Optionally BoolWritten false (doc.member? (bytes "ignore_case")) g.ignoreCase ∧
      (∃ written, doc.member? (bytes "states") = some written ∧
        readStates resolve written = .ok g.states) ∧
      Optionally (ConfidenceWritten library g.ignoreCase) none (doc.member? (bytes "confidence"))
        g.heuristic := by
  cases doc with
  | obj fields =>
    simp only [ofDocument, Outcome.bind_eq_ok, optional_eq_ok_iff reads_string,
      optional_eq_ok_iff reads_strings, optional_eq_ok_iff reads_bool]
    refine ⟨?_, ?_⟩
    · rintro ⟨name, hname, aliases, haliases, ignoreCase, hcase, h⟩
      split at h
      · cases h
      · next written hwritten =>
        obtain ⟨states, hread, hrest⟩ := Outcome.bind_eq_ok.1 h
        split at hrest
        · next hfound =>
          cases hrest
          exact ⟨hname, haliases, hcase, ⟨written, hwritten, hread⟩,
            optionally_confidenceWritten_iff.2 (.inl ⟨hfound, rfl⟩)⟩
        · next checks hfound =>
          obtain ⟨read, hchecks, heq⟩ := Outcome.bind_eq_ok.1 hrest
          cases heq
          exact ⟨hname, haliases, hcase, ⟨written, hwritten, hread⟩,
            optionally_confidenceWritten_iff.2 (.inr ⟨checks, read, hfound, hchecks, rfl⟩)⟩
    · rintro ⟨hname, haliases, hcase, ⟨written, hwritten, hread⟩, hheuristic⟩
      refine ⟨g.name, hname, g.aliases, haliases, g.ignoreCase, hcase, ?_⟩
      simp only [hwritten, Outcome.bind_eq_ok]
      refine ⟨g.states, hread, ?_⟩
      rcases optionally_confidenceWritten_iff.1 hheuristic with
        ⟨hfound, hnone⟩ | ⟨checks, read, hfound, hchecks, hsome⟩
      · simp only [hfound, hnone]
        rfl
      · simp only [hfound, Outcome.bind_eq_ok]
        exact ⟨read, hchecks, by rw [hsome]; rfl⟩
  | _ =>
    refine ⟨(by rintro ⟨⟩), ?_⟩
    rintro ⟨-, -, -, ⟨written, hwritten, -⟩, -⟩
    cases hwritten

theorem ofDocument_eq_ok_iff {library : Library} {resolve : Resolver} {doc : Json}
    (hdoc : doc.Ordered) {g : Grammar} :
    ofDocument library resolve doc = .ok g ↔ DocumentWritten library resolve doc g := by
  rw [ofDocument_eq_ok_iff_fields]
  refine ⟨?_, fun hg => ?_⟩
  · rintro ⟨hname, haliases, hcase, ⟨written, hwritten, hread⟩, hheuristic⟩
    obtain ⟨members, rfl, hstates⟩ := (readStates_eq_ok_iff (hdoc.member? hwritten)).1 hread
    exact ⟨hname, haliases, hcase, ⟨members, hwritten, hstates⟩, hheuristic⟩
  · obtain ⟨members, hwritten, hstates⟩ := hg.states
    have hread := (readStates_eq_ok_iff (hdoc.member? hwritten)).2 ⟨members, rfl, hstates⟩
    exact ⟨hg.name, hg.aliases, hg.ignoreCase, ⟨_, hwritten, hread⟩, hg.heuristic⟩

theorem exists_documentWritten_iff {library : Library} {resolve : Resolver} {doc : Json}
    (hdoc : doc.Ordered) :
    (∃ g, DocumentWritten library resolve doc g) ↔ IsDocument library resolve doc := by
  refine ⟨?_, fun h => ?_⟩
  · rintro ⟨g, hg⟩
    obtain ⟨members, hwritten, hstates⟩ := hg.states
    exact ⟨⟨_, hg.name⟩, ⟨_, hg.aliases⟩,
      ⟨members, hwritten, exists_statesWritten_iff.1 ⟨_, hstates⟩⟩,
      ⟨_, _, hg.ignoreCase, hg.heuristic⟩⟩
  · obtain ⟨name, hname⟩ := h.name
    obtain ⟨aliases, haliases⟩ := h.aliases
    obtain ⟨members, hwritten, hmembers⟩ := h.states
    obtain ⟨ignoreCase, heuristic, hcase, hheuristic⟩ := h.heuristic
    obtain ⟨states, hstates⟩ := exists_statesWritten_iff.2 hmembers
    have hsorted := hstates.pairwise (hdoc.member? hwritten).pairwise
    refine ⟨⟨name, aliases, ignoreCase, ⟨states, hsorted⟩, heuristic⟩, ?_⟩
    exact ⟨hname, haliases, hcase, ⟨members, hwritten, hstates⟩, hheuristic⟩

theorem ordered_of_readJson {field text : Bytes} {doc : Json} (h : readJson field text = .ok doc) :
    doc.Ordered := by
  rw [readJson] at h
  split at h
  · next hparse =>
    cases h
    exact Json.ordered_of_parse? hparse
  · cases h

theorem refusesAt_ofDocument (library : Library) (resolve : Resolver) (doc : Json) :
    RefusesAt [] (ofDocument library resolve doc) := by
  rw [ofDocument.eq_def]
  split
  · refine .bind ?_ fun name => .bind ?_ fun aliases => .bind ?_ fun ignoreCase => ?_
    · exact (refusesAt_optional refusesAt_string _ _ _).outer List.nil_prefix
    · exact (refusesAt_optional refusesAt_strings _ _ _).outer List.nil_prefix
    · exact (refusesAt_optional refusesAt_bool _ _ _).outer List.nil_prefix
    · split
      · exact (RefusesAt.format _ _).outer List.nil_prefix
      · refine .bind (refusesAt_readStates resolve _) fun states => ?_
        split
        · exact .ok [] _
        · exact (refusesAt_readConfidence library ignoreCase _).bind fun _ => .ok [] _
  · exact (RefusesAt.expected _ _ doc).outer List.nil_prefix

/-- **Grammar documents.** An entry of a state is accepted exactly when it has one of three forms:
the one field `include` with a string; the one field `default` with accepted directives; or, without
these two, known fields only, a pattern under one of `regex` and `words`, at most one of `token`,
`groups` and `using`, and transitions. It is then read as the entry that is written, and every other
value is refused for its format, at the field of the entry or within it. A document is accepted
exactly when its fields and all of its entries are, and then the grammar has the states of the
document, each with its entries in order, and no others; every other document is refused for its
format. The members of its objects have to be in order, as they are in every document that is read
from a text. -/
theorem documents_are_read (library : Library) (resolve : Resolver) :
    (∀ field j e, readEntry resolve field j = .ok e ↔ EntryWritten resolve j e) ∧
    (∀ field j, (∃ within problem,
        readEntry resolve field j = .error (.format (field ++ within) problem)) ↔
      ¬∃ e, EntryWritten resolve j e) ∧
    (∀ field text doc, readJson field text = .ok doc → doc.Ordered) ∧
    ∀ doc, doc.Ordered →
      (∀ g, ofDocument library resolve doc = .ok g ↔ DocumentWritten library resolve doc g) ∧
      ((∃ g, ofDocument library resolve doc = .ok g) ↔ IsDocument library resolve doc) ∧
      ((∃ field problem, ofDocument library resolve doc = .error (.format field problem)) ↔
        ¬IsDocument library resolve doc) := by
  refine ⟨reads_entry resolve, fun field j => ?_, fun _ _ _ => ordered_of_readJson,
    fun doc hdoc => ?_⟩
  · simp only [(refusesAt_readEntry resolve field j).exists_error_iff, reads_entry resolve _ _ _]
  · have haccepts :
        (∃ g, ofDocument library resolve doc = .ok g) ↔ IsDocument library resolve doc := by
      simp only [ofDocument_eq_ok_iff hdoc, exists_documentWritten_iff hdoc]
    refine ⟨fun g => ofDocument_eq_ok_iff hdoc, haccepts, ?_⟩
    rw [← haccepts]
    exact (refusesAt_ofDocument library resolve doc).exists_error_iff

/-- A document with all three forms of entries, and a delegate for a group. -/
def nestedDocument : Json :=
  .obj [(bytes "states", .obj [
    (bytes "a", .arr [
      .obj [(bytes "default", .arr [.str (bytes "#pop"), .str (bytes "#push")])]]),
    (bytes "root", .arr [
      .obj [(bytes "include", .str (bytes "a"))],
      .obj [
        (bytes "combined", .arr [.str (bytes "a")]),
        (bytes "groups", .arr [
          .null,
          .obj [(bytes "using", .str (bytes "this")), (bytes "wrap", .bool true)]]),
        (bytes "regex", .str (bytes "(x)(y)")),
        (bytes "state", .str (bytes "a"))]])])]

theorem documents_are_read_nested :
    nestedDocument.Ordered ∧ IsDocument Regex.backtracking (fun _ => none) nestedDocument ∧
    ∃ g, ofDocument Regex.backtracking (fun _ => none) nestedDocument = .ok g ∧
      g.states.keys = [bytes "a", bytes "root"] := by
  have hstates : bytes "a" < bytes "root" := by decide +kernel
  have hdelegate : bytes "using" < bytes "wrap" := by decide +kernel
  have hrule :
      [bytes "combined", bytes "groups", bytes "regex", bytes "state"].Pairwise (· < ·) := by
    decide +kernel
  have hordered : nestedDocument.Ordered := by
    simpa [nestedDocument, hstates, hdelegate] using hrule
  have hread : (ofDocument Regex.backtracking (fun _ => none) nestedDocument).isOk = true := by
    decide +kernel
  obtain ⟨g, hg⟩ := Outcome.exists_of_isOk hread
  obtain ⟨hwrites, haccepts, -⟩ :=
    (documents_are_read Regex.backtracking fun _ => none).2.2.2 nestedDocument hordered
  obtain ⟨members, hmembers, hwritten⟩ := ((hwrites g).1 hg).states
  refine ⟨hordered, haccepts.1 ⟨g, hg⟩, g, hg, ?_⟩
  cases hmembers
  rw [ByteMap.keys, hwritten.names_eq]
  rfl

end StackLexer.Grammar
