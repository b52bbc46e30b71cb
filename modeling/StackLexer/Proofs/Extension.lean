import Mathlib.Data.List.Forall2
import StackLexer.Proofs.StateSafety

/-!
# Grammars with rules appended

Two compiled grammars can have the same rules without having the same records. A rule that is
appended to a state may be the first one with its pattern, and the expressions that are made after
it are counted on from there; so the slots of the rules in later states are other ones. What lexing
looks at is the same.

* `CompiledRule.Alike` — rules that match, emit and move in the same way;
* `CompiledGrammar.ExtendedBy` — the same states in the same order, each with the same rules and
  others appended to them;
* `Grammar.WithMore` — two grammars as they are declared, the second with rules appended to the
  states of the first. `Grammar.WithMore.extendedBy` says that what the second one compiles to
  extends what the first one compiles to.
-/

namespace StackLexer

/-- Rules that match the same, emit the same and move the same. The rest of a rule only says where
it comes from. -/
structure CompiledRule.Alike {γ : Type} (r r' : CompiledRule γ) : Prop where
  /-- the same expression -/
  regex_eq : r'.regex = r.regex
  /-- the same emission -/
  emission_eq : r'.emission = r.emission
  /-- and the same transitions -/
  transitions_eq : r'.transitions = r.transitions

/-- The same name, and the same rules with others appended. -/
structure CompiledState.ExtendedBy {γ : Type} (s s' : CompiledState γ) : Prop where
  /-- the name stays -/
  name_eq : s'.name = s.name
  /-- the rules that were there come first -/
  rules : ∃ old appended, s'.rules = old ++ appended ∧ List.Forall₂ CompiledRule.Alike s.rules old

namespace CompiledGrammar

variable {g g' : CompiledGrammar}

/-- The same states in the same order, each with rules appended or as it was. -/
def ExtendedBy (g g' : CompiledGrammar) : Prop :=
  List.Forall₂ CompiledState.ExtendedBy g.states g'.states

namespace ExtendedBy

/-- The names are found at the same positions. -/
theorem stateIndex?_eq (h : g.ExtendedBy g') : g'.stateIndex? = g.stateIndex? := by
  funext name
  rw [stateIndex?, stateIndex?]
  rw [ExtendedBy] at h
  generalize g.states = states at h ⊢
  generalize g'.states = states' at h ⊢
  induction h with
  | nil => rfl
  | cons hstate _ ih => rw [List.findIdx?_cons, List.findIdx?_cons, hstate.name_eq, ih]

/-- At each position stands the same state, with rules appended; beyond the last one there is
nothing on either side. -/
theorem stateAt (h : g.ExtendedBy g') (i : Nat) :
    ((g.states[i]?).getD ⟨[], []⟩).ExtendedBy ((g'.states[i]?).getD ⟨[], []⟩) := by
  have hlength := h.length_eq
  by_cases hi : i < g.states.length
  · have hi' : i < g'.states.length := hlength ▸ hi
    rw [List.getElem?_eq_getElem hi, List.getElem?_eq_getElem hi']
    exact h.get hi hi'
  · have hi' : ¬i < g'.states.length := hlength ▸ hi
    rw [List.getElem?_eq_none (Nat.le_of_not_lt hi), List.getElem?_eq_none (Nat.le_of_not_lt hi')]
    exact ⟨rfl, [], [], rfl, .nil⟩

end ExtendedBy

end CompiledGrammar

/-! ## Compiling -/

namespace Grammar

variable {library : Library} {g g' : Grammar} {c c' : CompiledGrammar}

/-- Whatever grammars declare a rule, it compiles to rules that are alike, as long as both have the
same case rule. -/
theorem Compiles.alike {state state' : Bytes} {i i' : Nat} {r : Rule}
    {rule rule' : CompiledRule CompiledGrammar} (h : g.Compiles library state i r rule)
    (h' : g'.Compiles library state' i' r rule') (hcase : g'.ignoreCase = g.ignoreCase) :
    rule.Alike rule' where
  regex_eq := Except.ok.inj ((hcase ▸ h'.regex_eq).symm.trans h.regex_eq)
  emission_eq := h'.emission_eq.trans h.emission_eq.symm
  transitions_eq := h'.transitions_eq.trans h.transitions_eq.symm

/-- Whether rules push combined states can be seen from their entries. -/
theorem not_pushes_of_entries (h : (g.states.entries.all fun entry => entry.2.all fun
      | .rule r => r.transitions.all fun t => t.members?.isNone
      | .inclusion _ => true) = true) (members : List Bytes) : ¬g.Pushes members := by
  rintro ⟨state, i, r, hr, hu⟩
  cases List.all_eq_true.1 (hr.check h) _ hu

/-- A grammar that pushes no combined state compiles to the states it declares. -/
theorem hasState_of_plain (hplain : ∀ members, ¬g.Pushes members) (h : g.compile library = .ok c)
    {s : CompiledState CompiledGrammar} (hs : s ∈ c.states) : g.hasState s.name = true := by
  obtain ⟨-, w, hw, rfl⟩ := compile_eq_ok h
  rcases hw.mem_compiledStates.1 hs with ⟨state, rules, hfind, rfl⟩ | ⟨members, hpush, -⟩
  · rw [← hw.contains_eq]
    exact ByteMap.contains_iff.2 ⟨rules, hfind⟩
  · exact absurd hpush (hplain members)

/-- Its states have the names of the declared ones, and their rules are those of the entries. -/
theorem names_of_plain (hplain : ∀ members, ¬g.Pushes members) (h : g.compile library = .ok c) :
    c.states.map (·.name) = g.states.keys := by
  obtain ⟨hnames, -⟩ := compile_flattens h
  rwa [List.filter_eq_self.2 fun s hs => hasState_of_plain hplain h hs] at hnames

/-- The second grammar has the states of the first, with rules appended to them. States that are
included or combined are left out here: what is appended to them comes out in the middle of other
states. -/
structure WithMore (g g' : Grammar) : Prop where
  /-- both have the same case rule -/
  ignoreCase_eq : g'.ignoreCase = g.ignoreCase
  /-- they declare the same states -/
  keys_eq : g'.states.keys = g.states.keys
  /-- which consist of rules, in the second one of the same rules and others -/
  entries : ∀ state, ∃ rules appended : List Rule,
    g.entries state = rules.map .rule ∧ g'.entries state = (rules ++ appended).map .rule
  /-- and no rule pushes a combined state -/
  plain : ∀ members, ¬g'.Pushes members

/-- Without inclusions, the rules of a state compile one by one, and those appended to them come
after. -/
theorem exists_alike_of_expands (hcase : g'.ignoreCase = g.ignoreCase) {state state' : Bytes}
    {rules appended : List Rule} {i i' : Nat} {old new : List (CompiledRule CompiledGrammar)}
    (h : g.Expands (g.Compiles library) state i (rules.map .rule) old)
    (h' : g'.Expands (g'.Compiles library) state' i' ((rules ++ appended).map .rule) new) :
    ∃ kept more, new = kept ++ more ∧ List.Forall₂ CompiledRule.Alike old kept := by
  induction rules generalizing i i' old new with
  | nil =>
    cases h
    exact ⟨[], new, rfl, .nil⟩
  | cons r rules ih =>
    cases h with
    | rule hrule hrest =>
      cases h' with
      | rule hrule' hrest' =>
        obtain ⟨kept, more, rfl, halike⟩ := ih hrest hrest'
        exact ⟨_ :: kept, more, rfl, .cons (hrule.alike hrule' hcase) halike⟩

namespace WithMore

/-- What the first grammar pushes the second one pushes too. -/
theorem pushes (h : g.WithMore g') {members : List Bytes} (hpush : g.Pushes members) :
    g'.Pushes members := by
  obtain ⟨state, i, r, hr, hu⟩ := hpush
  refine ⟨state, i, r, ?_, hu⟩
  obtain ⟨rules, appended, hentries, hentries'⟩ := h.entries state
  rw [RuleAt, hentries] at hr
  rw [RuleAt, hentries', List.map_append]
  exact List.getElem?_append_left (List.getElem?_eq_some_iff.1 hr).1 ▸ hr

/-- **Rules that are appended stay behind.** What the second grammar compiles to has the states of
what the first one compiles to, with rules appended to them. -/
theorem extendedBy (hmore : g.WithMore g') (h : g.compile library = .ok c)
    (h' : g'.compile library = .ok c') : c.ExtendedBy c' := by
  have hplain : ∀ members, ¬g.Pushes members :=
    fun members hpush => hmore.plain members (hmore.pushes hpush)
  have hnames : c'.states.map (·.name) = c.states.map (·.name) := by
    rw [names_of_plain hmore.plain h', names_of_plain hplain h, hmore.keys_eq]
  obtain ⟨-, -, hrules, -, -⟩ := compile_flattens h
  obtain ⟨-, -, hrules', -, -⟩ := compile_flattens h'
  refine List.forall₂_iff_get.2 ⟨by simpa using (congrArg List.length hnames).symm, ?_⟩
  intro i hi hi'
  have hs := List.get_mem c.states ⟨i, hi⟩
  have hs' := List.get_mem c'.states ⟨i, hi'⟩
  have hname : (c'.states.get ⟨i, hi'⟩).name = (c.states.get ⟨i, hi⟩).name := by
    have hget := congrArg (·[i]?) hnames
    simpa [List.getElem?_eq_getElem hi, List.getElem?_eq_getElem hi'] using hget
  obtain ⟨rules, appended, hentries, hentries'⟩ := hmore.entries (c.states.get ⟨i, hi⟩).name
  have hold := hrules _ hs (hasState_of_plain hplain h hs)
  have hnew := hrules' _ hs' (hasState_of_plain hmore.plain h' hs')
  rw [hentries] at hold
  rw [hname, hentries'] at hnew
  obtain ⟨kept, more, hkept, halike⟩ := exists_alike_of_expands hmore.ignoreCase_eq hold hnew
  exact ⟨hname, kept, more, hkept, halike⟩

end WithMore

end Grammar

end StackLexer
