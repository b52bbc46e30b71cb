import StackLexer.Proofs.Totality

/-!
# Stretches for delegates

All that a step asks of the way in which delegates are lexed is what becomes of the stretches that
it hands to them. They are parts of the match that decides the step.

* `Stream.HandsTo` — the stretches, each with its delegate; `Stream.HandsTo.exists_yield` says that
  a step takes over what they yield;
* `Stream.stepWith_congr` — two ways to lex them make the same step if they yield the same.
-/

namespace StackLexer.Stream

variable {s : Stream} {a b : Option SubLexer}

/-- The match that decides the next step hands a stretch to a delegate: the whole match, or that of
a capturing group. -/
inductive HandsTo (s : Stream) : Delegate CompiledGrammar → Nat → Nat → Prop
  /-- the whole match -/
  | whole {rule : CompiledRule CompiledGrammar} {m : Match} {d : Delegate CompiledGrammar}
      (hfound : s.found? = some (rule, m)) (hemission : rule.emission = .delegate d) :
      HandsTo s d 0 m.length
  /-- a capturing group that took part -/
  | group {rule : CompiledRule CompiledGrammar} {m : Match} {d : Delegate CompiledGrammar}
      {actions : List (GroupAction CompiledGrammar)} {span : Span}
      (hfound : s.found? = some (rule, m)) (hemission : rule.emission = .groups actions)
      (hgroup : (.delegate d, some span) ∈ actions.zip m.groups) :
      HandsTo s d span.start span.length

/-- A stretch is handed to a delegate of a rule of the grammar. -/
theorem HandsTo.exists_rule {d : Delegate CompiledGrammar} {start length : Nat}
    (h : s.HandsTo d start length) :
    ∃ rule, s.grammar.HasRule rule ∧ d ∈ rule.emission.delegates := by
  cases h with
  | whole hfound hemission =>
    refine ⟨_, (found?_eq_some hfound).1, ?_⟩
    rw [hemission]
    exact List.mem_singleton_self d
  | group hfound hemission hgroup =>
    refine ⟨_, (found?_eq_some hfound).1, ?_⟩
    rw [hemission]
    exact List.mem_filterMap.2 ⟨_, (List.of_mem_zip hgroup).1, rfl⟩

/-- What one of several groups yields is a part of what they yield together. -/
theorem infix_groupsYield {lexer : Option SubLexer}
    {groups : List (GroupAction CompiledGrammar × Option Span)} {y : Yield}
    (hy : groupsYield lexer s groups = .ok y) {d : Delegate CompiledGrammar} {span : Span}
    (hmem : (.delegate d, some span) ∈ groups) :
    ∃ z, delegateYield lexer s d span.start span.length = .ok z ∧ z.tokens <:+: y.tokens := by
  induction groups generalizing y with
  | nil => cases hmem
  | cons group more ih =>
    obtain ⟨first, hfirst, hy⟩ := Outcome.bind_eq_ok.1 hy
    obtain ⟨second, hsecond, hy⟩ := Outcome.bind_eq_ok.1 hy
    cases hy
    rcases List.mem_cons.1 hmem with rfl | hmem
    · exact ⟨first, hfirst, [], second.tokens, rfl⟩
    · obtain ⟨z, hz, hinfix⟩ := ih hsecond hmem
      exact ⟨z, hz, hinfix.trans (List.suffix_append first.tokens second.tokens).isInfix⟩

/-- What a delegate of the next step yields waits, after the step, to be handed out. -/
theorem HandsTo.exists_yield {lexer : Option SubLexer} {s' : Stream}
    {d : Delegate CompiledGrammar} {offset length : Nat} (h : s.HandsTo d offset length)
    (hstep : s.stepWith lexer = .ok s') :
    ∃ y, delegateYield lexer s d offset length = .ok y ∧ y.tokens <:+: s'.pending := by
  have hstepped := stepped_of_stepWith hstep
  cases h with
  | whole hfound hemission =>
    obtain ⟨y, hy, hinfix⟩ := hstepped.exists_yield hfound
    rw [hemission] at hy
    exact ⟨y, hy, hinfix⟩
  | group hfound hemission hgroup =>
    obtain ⟨y, hy, hinfix⟩ := hstepped.exists_yield hfound
    rw [hemission] at hy
    obtain ⟨z, hz, hpart⟩ := infix_groupsYield hy hgroup
    exact ⟨z, hz, hpart.trans hinfix⟩

/-- Groups yield the same when their delegates do. -/
theorem groupsYield_congr {groups : List (GroupAction CompiledGrammar × Option Span)}
    (h : ∀ d span, (.delegate d, some span) ∈ groups →
      delegateYield a s d span.start span.length = delegateYield b s d span.start span.length) :
    groupsYield a s groups = groupsYield b s groups := by
  induction groups with
  | nil => rfl
  | cons group more ih =>
    have hgroup : groupYield a s group = groupYield b s group := by
      obtain ⟨action, span⟩ := group
      cases span with
      | none => cases action <;> rfl
      | some span =>
        cases action with
        | skip => rfl
        | emit type => rfl
        | delegate d => exact h d span List.mem_cons_self
    have hmore := ih fun d span hmem => h d span (List.mem_cons_of_mem _ hmem)
    rw [groupsYield, groupsYield, hgroup, hmore]

/-- **What a step depends on.** Two ways to lex stretches make the same step when they yield the
same for the delegates of the match that decides it. -/
theorem stepWith_congr (h : ∀ d offset length, s.HandsTo d offset length →
    delegateYield a s d offset length = delegateYield b s d offset length) :
    s.stepWith a = s.stepWith b := by
  rw [stepWith, stepWith]
  split
  · rfl
  · next rule m hfound =>
    have hyield : emissionYield a s m rule.emission = emissionYield b s m rule.emission := by
      cases hemission : rule.emission with
      | emit type => cases type <;> rfl
      | groups actions =>
        exact groupsYield_congr fun d span hmem => h d _ _ (.group hfound hemission hmem)
      | delegate d => exact h d 0 m.length (.whole hfound hemission)
    rw [hyield]

end StackLexer.Stream
