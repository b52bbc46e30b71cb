import StackLexer.Proofs.CaptureOrder
import StackLexer.Proofs.Progress
import StackLexer.Regex.Engine

/-!
# Tokens in the order of the text

Tokens come out in the order in which they are found, which is that of the text as far as a stream
and its delegates are concerned: each step yields tokens between the place before it and the place
after it. What may spoil it are capturing groups, which yield in the order of their numbers wherever
they lie.

* `CompiledRule.Orderly` — whatever the rule matches, the groups it does something with are a row in
  the match. For the small patterns of `StackLexer.Regex` there is `CompiledRule.SideBySide`, which
  is enough and can be read off the pattern;
* `Stream.row_emissionYield`, `Stream.exists_row_of_stepped`, `Stream.runsInRow` — the tokens of a
  match, of a step and, by induction on the depth of delegates, of a run are a row where all rules
  are orderly;
* `Stream.Decides`, `Stream.Decides.pairwise_typed` — conversely, in a run with tokens in order the
  groups that become tokens were captured in the order of their numbers, in every match;
* `Stream.drain_in_order` — both together; `Stream.swapped_out_of_order` — a run with tokens out of
  order.
-/

namespace StackLexer

/-- The first token ends before the second one starts. -/
def Token.Precedes (a b : Token) : Prop := a.offset + a.value.length ≤ b.offset

instance (a b : Token) : Decidable (a.Precedes b) :=
  inferInstanceAs (Decidable (a.offset + a.value.length ≤ b.offset))

/-- Where a token was found. -/
def Token.span (t : Token) : Span := ⟨t.offset, t.value.length⟩

namespace GroupAction

/-- The span of a group that something is done with, unless it is empty. -/
def handled? : GroupAction CompiledGrammar × Option Span → Option Span
  | (.emit _, some a) | (.delegate _, some a) => if a.length = 0 then none else some a
  | (.skip, some _) | (_, none) => none

/-- The span of a group that becomes a token, unless it is empty. -/
def typed? (group : GroupAction CompiledGrammar × Option Span) : Option Span :=
  if group.1.delegate?.isNone then handled? group else none

/-- Something is done with a group that took part and is not empty. -/
theorem eq_some_of_handled? {group : GroupAction CompiledGrammar × Option Span} {a : Span}
    (h : handled? group = some a) : group.2 = some a ∧ a.length ≠ 0 := by
  rw [handled?.eq_def] at h
  split at h
  · obtain ⟨hlength, h⟩ := Option.ite_none_left_eq_some.1 h
    cases h
    exact ⟨rfl, hlength⟩
  · obtain ⟨hlength, h⟩ := Option.ite_none_left_eq_some.1 h
    cases h
    exact ⟨rfl, hlength⟩
  · cases h
  · cases h

end GroupAction

namespace CompiledRule

/-- Whatever the rule matches, the groups it does something with lie in the match, in the order of
their numbers and without overlap. -/
def Orderly (rule : CompiledRule CompiledGrammar) : Prop :=
  ∀ actions, rule.emission = .groups actions → ∀ c m, rule.regex.matchAt c = some m →
      Span.Row 0 ((actions.zip m.groups).filterMap GroupAction.handled?) m.length

/-- The rule does not take its match apart, or it is for a small pattern with its groups written
side by side. -/
def SideBySide (rule : CompiledRule CompiledGrammar) : Prop :=
  ∀ actions, rule.emission = .groups actions →
    ∃ p : Pattern, p.SideBySide ∧ rule.regex = p.expression

/-- The groups a rule does something with are among those of the match. -/
theorem sublist_groups (actions : List (GroupAction CompiledGrammar))
    (groups : List (Option Span)) :
    ((actions.zip groups).filterMap GroupAction.handled?).Sublist (groups.filterMap id) := by
  induction actions generalizing groups with
  | nil => exact List.nil_sublist _
  | cons action actions ih =>
    cases groups with
    | nil => exact List.nil_sublist _
    | cons group groups =>
      rw [List.zip_cons_cons]
      cases hhandled : GroupAction.handled? (action, group) with
      | none =>
        rw [List.filterMap_cons_none hhandled]
        exact (ih groups).trans ((List.sublist_cons_self _ _).filterMap _)
      | some a =>
        have hgroup : group = some a := (GroupAction.eq_some_of_handled? hhandled).1
        rw [List.filterMap_cons_some hhandled, List.filterMap_cons_some hgroup]
        exact (ih groups).cons_cons a

theorem SideBySide.orderly {rule : CompiledRule CompiledGrammar} (h : rule.SideBySide) :
    rule.Orderly := by
  intro actions hactions c m hmatch
  obtain ⟨p, hp, hregex⟩ := h actions hactions
  rw [hregex, Pattern.matchAt_expression] at hmatch
  exact (Pattern.row_of_sideBySide hp hmatch).sublist (sublist_groups actions m.groups)

end CompiledRule

namespace Stream

variable {s s' : Stream} {depth : Nat}

/-! ## Yields -/

/-- The token of a stretch lies in the stretch. -/
theorem row_excerpt (c : Cursor) (type : TokenType) (start length : Nat) :
    Span.Row (c.position + start) ((excerpt c type start length).map Token.span)
      (c.position + start + length) := by
  rw [excerpt]
  split
  · exact .nil (Nat.le_add_right _ _)
  · refine .cons (Nat.le_refl _) (.nil (Nat.add_le_add_left ?_ _))
    exact List.length_take_le _ _

/-- An adopted token lies where its delegate found it, as seen from the outer text. -/
theorem span_adopt (d : Delegate CompiledGrammar) (offset : Nat) (t : Token) :
    (adopt d offset t).span = t.span.shift offset := by
  rw [adopt_eq]
  exact congrArg (Span.mk · t.value.length) (Nat.add_comm _ _)

/-- In runs with room for `depth` levels of delegates, the tokens found are a row in the text. -/
def RunsInRow (depth : Nat) : Prop :=
  ∀ (s : Stream) (tokens : List Token) (last : Stream),
    s.grammar.EveryRule CompiledRule.Orderly → s.InRange → Drains (nested depth) s tokens last →
      ∃ found, tokens = s.pending ++ found ∧
        Span.Row s.position (found.map Token.span) s.text.length

/-- Whatever stretch is handed to a delegate, the tokens it yields are a row in the stretch. -/
def LexesInRow (depth : Nat) (s : Stream) (d : Delegate CompiledGrammar) : Prop :=
  ∀ (start length : Nat) (y : Yield), delegateYield (nested depth) s d start length = .ok y →
    Span.Row (s.position + start) (y.tokens.map Token.span) (s.position + start + length)

/-- Delegates find rows when their runs do. -/
theorem lexesInRow (hinner : ∀ inner, depth = inner + 1 → RunsInRow inner)
    {d : Delegate CompiledGrammar}
    (hd : (d.target.getD s.grammar).EveryRule CompiledRule.Orderly) : LexesInRow depth s d := by
  intro start length y hy
  by_cases hlength : length = 0
  · rw [delegateYield.eq_def, if_pos hlength] at hy
    cases hy
    exact .nil (Nat.le_add_right _ _)
  · rcases tokens_of_delegateYield hy hlength with
      ⟨-, htokens⟩ | ⟨inner, t, tokens, last, rfl, ht, hrun, htokens⟩
    · rw [htokens]
      exact row_excerpt _ _ _ _
    · have hgrammar := (grammar_of_start ht).symm ▸ hd
      have hrange := inRange_of_start ht
      obtain ⟨found, hfound, hrow⟩ := hinner inner rfl t tokens last hgrammar hrange hrun
      obtain ⟨-, stack, -, rfl⟩ := start_eq_ok_iff.1 ht
      obtain rfl : tokens = found := hfound
      have hspans : Token.span ∘ adopt d (s.position + start)
          = Span.shift (s.position + start) ∘ Token.span := funext (span_adopt d _)
      rw [htokens, List.map_map, hspans, ← List.map_map]
      exact (hrow.shift _).mono (Nat.le_refl _) (Nat.add_le_add_left (List.length_take_le _ _) _)

/-- A group that nothing is done with, or whose span is empty, yields no tokens. -/
theorem tokens_groupYield_eq_nil {lexer : Option SubLexer}
    {group : GroupAction CompiledGrammar × Option Span} (h : GroupAction.handled? group = none)
    {y : Yield} (hy : groupYield lexer s group = .ok y) : y.tokens = [] := by
  rw [groupYield.eq_def] at hy
  split at hy
  · next type a =>
    have hlength : a.length = 0 := by simpa [GroupAction.handled?] using h
    cases hy
    exact if_pos hlength
  · next d a =>
    have hlength : a.length = 0 := by simpa [GroupAction.handled?] using h
    rw [delegateYield.eq_def, if_pos hlength] at hy
    cases hy
    rfl
  · cases hy
    rfl
  · cases hy
    rfl

/-- What a group yields lies in its span. -/
theorem row_groupYield {group : GroupAction CompiledGrammar × Option Span} {a : Span}
    (h : GroupAction.handled? group = some a)
    (hdelegate : ∀ d, group.1.delegate? = some d → LexesInRow depth s d)
    {y : Yield} (hy : groupYield (nested depth) s group = .ok y) :
    Span.Row (s.position + a.start) (y.tokens.map Token.span) (s.position + a.stop) := by
  obtain ⟨action, span⟩ := group
  obtain rfl : span = some a := (GroupAction.eq_some_of_handled? h).1
  rw [Span.stop, ← Nat.add_assoc]
  cases action with
  | skip => cases h
  | emit type =>
    cases hy
    exact row_excerpt s.cursor type a.start a.length
  | delegate d => exact hdelegate d rfl _ _ y hy

/-- Groups that are a row yield tokens that are a row. -/
theorem row_groupsYield {groups : List (GroupAction CompiledGrammar × Option Span)} {lo hi : Nat}
    (h : Span.Row lo (groups.filterMap GroupAction.handled?) hi)
    (hdelegate : ∀ group ∈ groups, ∀ d, group.1.delegate? = some d → LexesInRow depth s d)
    {y : Yield} (hy : groupsYield (nested depth) s groups = .ok y) :
    Span.Row (s.position + lo) (y.tokens.map Token.span) (s.position + hi) := by
  induction groups generalizing lo y with
  | nil =>
    cases hy
    exact .nil (Nat.add_le_add_left h.le _)
  | cons group more ih =>
    obtain ⟨first, hfirst, hy⟩ := Outcome.bind_eq_ok.1 hy
    obtain ⟨second, hsecond, hy⟩ := Outcome.bind_eq_ok.1 hy
    cases hy
    rw [List.forall_mem_cons] at hdelegate
    rw [Yield.append, List.map_append]
    cases hhandled : GroupAction.handled? group with
    | none =>
      rw [List.filterMap_cons_none hhandled] at h
      rw [tokens_groupYield_eq_nil hhandled hfirst]
      exact ih h hdelegate.2 hsecond
    | some a =>
      rw [List.filterMap_cons_some hhandled] at h
      cases h with
      | cons hle hmore =>
        have hrow := row_groupYield hhandled hdelegate.1 hfirst
        exact (hrow.mono (Nat.add_le_add_left hle _) (Nat.le_refl _)).append
          (ih hmore hdelegate.2 hsecond)

/-- **What a match yields** lies in the match and is a row, where the rules are orderly. -/
theorem row_emissionYield (hinner : ∀ inner, depth = inner + 1 → RunsInRow inner)
    (hrules : s.grammar.EveryRule CompiledRule.Orderly) {rule : CompiledRule CompiledGrammar}
    {m : Match} (hfound : s.found? = some (rule, m)) {y : Yield}
    (hy : emissionYield (nested depth) s m rule.emission = .ok y) :
    Span.Row s.position (y.tokens.map Token.span) (s.position + m.length) := by
  obtain ⟨hrule, hmatch⟩ := found?_eq_some hfound
  have hdelegate : ∀ d ∈ rule.emission.delegates, LexesInRow depth s d :=
    fun d hd => lexesInRow hinner (hrules.delegate hrule hd)
  cases hemission : rule.emission with
  | emit type =>
    rw [hemission] at hy
    cases type with
    | none =>
      cases hy
      exact .nil (Nat.le_add_right _ _)
    | some type =>
      cases hy
      exact row_excerpt s.cursor type 0 m.length
  | groups actions =>
    rw [hemission] at hy hdelegate
    refine row_groupsYield (hrules.here hrule actions hemission _ m hmatch) ?_ hy
    exact fun group hgroup d hd =>
      hdelegate d (List.mem_filterMap.2 ⟨group.1, (List.of_mem_zip hgroup).1, hd⟩)
  | delegate d =>
    rw [hemission] at hy hdelegate
    exact hdelegate d (List.mem_singleton_self d) 0 m.length y hy

/-! ## Steps and runs -/

/-- **What a step finds** lies between the places it leads from and to. -/
theorem exists_row_of_stepped (hinner : ∀ inner, depth = inner + 1 → RunsInRow inner)
    (hrules : s.grammar.EveryRule CompiledRule.Orderly) (h : Stepped (nested depth) s s') :
    ∃ found, s'.pending = s.pending ++ found ∧
      Span.Row s.position (found.map Token.span) s'.position := by
  cases h with
  | unmatched => exact ⟨_, rfl, row_excerpt s.cursor .error 0 _⟩
  | @consumed rule m y hfound hy _ =>
    exact ⟨y.tokens, rfl, row_emissionYield hinner hrules hfound hy⟩
  | @moved rule m y hfound hy hlength _ _ =>
    have hrow := row_emissionYield hinner hrules hfound hy
    rw [hlength] at hrow
    exact ⟨y.tokens, rfl, hrow⟩
  | @stalled rule m y message hfound hy hlength _ =>
    have hrow := row_emissionYield hinner hrules hfound hy
    rw [hlength] at hrow
    refine ⟨_, List.append_assoc _ _ _, ?_⟩
    rw [List.map_append]
    exact hrow.append (row_excerpt s.cursor .error 0 _)

/-- Runs find rows when those of their delegates do. -/
theorem runsInRow_of_inner (hinner : ∀ inner, depth = inner + 1 → RunsInRow inner) :
    RunsInRow depth := by
  intro s tokens last hrules hrange hrun
  induction hrun with
  | @finished s hp hs => exact ⟨[], by rw [hp]; rfl, .nil hrange.position_le⟩
  | handOut hp _ ih =>
    obtain ⟨found, htokens, hrow⟩ := ih hrules ⟨hrange.position_le, hrange.steps_le⟩
    refine ⟨found, ?_, hrow⟩
    rw [hp, htokens]
    rfl
  | @step s s' last tokens hp hs hstep _ ih =>
    have hstepped := stepped_of_stepWith hstep
    obtain ⟨found, hpending, hrow⟩ := exists_row_of_stepped hinner hrules hstepped
    obtain ⟨more, htokens, hmore⟩ :=
      ih (hstepped.grammar_eq.symm ▸ hrules) (hstepped.inRange hrange)
    refine ⟨found ++ more, ?_, ?_⟩
    · rw [htokens, hpending, List.append_assoc]
    · rw [text_stepWith hstep] at hmore
      rw [List.map_append]
      exact hrow.append hmore

/-- Runs find rows, however deep their delegates are nested. -/
theorem runsInRow (depth : Nat) : RunsInRow depth :=
  forall_depth (fun _ => runsInRow_of_inner) depth

/-! ## Conversely -/

/-- While `s` is drained, some step is decided by a match of a rule. -/
inductive Decides (lexer : Option SubLexer) (rule : CompiledRule CompiledGrammar) (m : Match) :
    Stream → Prop
  /-- the step that is made next -/
  | here {s : Stream} (hp : s.pending = []) (hs : s.rest ≠ [])
      (hfound : s.found? = some (rule, m)) : Decides lexer rule m s
  /-- one after a token was handed out -/
  | handOut {s : Stream} {t : Token} {more : List Token} (hp : s.pending = t :: more)
      (hrest : Decides lexer rule m { s with pending := more }) : Decides lexer rule m s
  /-- one after the next step -/
  | step {s s' : Stream} (hp : s.pending = []) (hs : s.rest ≠ [])
      (hstep : s.stepWith lexer = .ok s') (hrest : Decides lexer rule m s') :
      Decides lexer rule m s

/-- What the match has yielded is among the tokens drained. -/
theorem Decides.exists_yield {lexer : Option SubLexer} {rule : CompiledRule CompiledGrammar}
    {m : Match} {tokens : List Token} {last : Stream} (h : Decides lexer rule m s)
    (hrun : Drains lexer s tokens last) :
    ∃ t y, t.found? = some (rule, m) ∧ emissionYield lexer t m rule.emission = .ok y ∧
      y.tokens.Sublist tokens := by
  induction h generalizing tokens with
  | @here s hp hs hfound =>
    obtain ⟨s', hstep, hrest⟩ := hrun.exists_step hp hs
    obtain ⟨y, hy, hsub⟩ := (stepped_of_stepWith hstep).exists_yield hfound
    exact ⟨s, y, hfound, hy, hsub.sublist.trans hrest.prefix_tokens.sublist⟩
  | handOut hp _ ih =>
    obtain ⟨rest, rfl, hrest⟩ := hrun.exists_handOut hp
    obtain ⟨t, y, hfound, hy, hsub⟩ := ih hrest
    exact ⟨t, y, hfound, hy, hsub.cons _⟩
  | step hp hs hstep _ ih =>
    obtain ⟨s', hstep', hrest⟩ := hrun.exists_step hp hs
    rw [hstep] at hstep'
    cases hstep'
    exact ih hrest

/-- A group that becomes a token becomes one with its span. -/
theorem tokens_groupYield_typed {lexer : Option SubLexer}
    {group : GroupAction CompiledGrammar × Option Span} {a : Span}
    (h : GroupAction.typed? group = some a) (hle : a.start + a.length ≤ s.rest.length) {y : Yield}
    (hy : groupYield lexer s group = .ok y) :
    y.tokens.map Token.span = [a.shift s.position] := by
  obtain ⟨action, span⟩ := group
  obtain ⟨hnone, hhandled⟩ := Option.ite_none_right_eq_some.1 h
  obtain ⟨rfl : span = some a, hlength⟩ := GroupAction.eq_some_of_handled? hhandled
  cases action with
  | skip => cases hhandled
  | delegate d => cases hnone
  | emit type =>
    cases hy
    rw [excerpt, if_neg hlength, List.map_singleton, Token.span, Cursor.length_slice hle]
    rfl

/-- The groups that become tokens do so in the order of their numbers. -/
theorem sublist_typed {lexer : Option SubLexer}
    {groups : List (GroupAction CompiledGrammar × Option Span)}
    (hle : ∀ group ∈ groups, ∀ a, group.2 = some a → a.start + a.length ≤ s.rest.length) {y : Yield}
    (hy : groupsYield lexer s groups = .ok y) :
    ((groups.filterMap GroupAction.typed?).map (Span.shift s.position)).Sublist
      (y.tokens.map Token.span) := by
  induction groups generalizing y with
  | nil => exact List.nil_sublist _
  | cons group more ih =>
    obtain ⟨first, hfirst, hy⟩ := Outcome.bind_eq_ok.1 hy
    obtain ⟨second, hsecond, hy⟩ := Outcome.bind_eq_ok.1 hy
    cases hy
    rw [List.forall_mem_cons] at hle
    rw [Yield.append, List.map_append]
    cases htyped : GroupAction.typed? group with
    | none =>
      rw [List.filterMap_cons_none htyped]
      exact (ih hle.2 hsecond).trans (List.sublist_append_right _ _)
    | some a =>
      have hspan := (GroupAction.eq_some_of_handled? (Option.ite_none_right_eq_some.1 htyped).2).1
      rw [List.filterMap_cons_some htyped, List.map_cons,
        tokens_groupYield_typed htyped (hle.1 a hspan) hfirst]
      exact (ih hle.2 hsecond).cons_cons _

/-- **Tokens in order need groups in order.** -/
theorem Decides.pairwise_typed {lexer : Option SubLexer} {rule : CompiledRule CompiledGrammar}
    {m : Match} {actions : List (GroupAction CompiledGrammar)} (h : Decides lexer rule m s)
    (hactions : rule.emission = .groups actions) {tokens : List Token} {last : Stream}
    (hrun : Drains lexer s tokens last) (hordered : tokens.Pairwise Token.Precedes) :
    ((actions.zip m.groups).filterMap GroupAction.typed?).Pairwise fun a b => a.stop ≤ b.start := by
  obtain ⟨t, y, hfound, hy, hsub⟩ := h.exists_yield hrun
  rw [hactions] at hy
  have hle : ∀ group ∈ actions.zip m.groups, ∀ a, group.2 = some a →
      a.start + a.length ≤ t.rest.length := fun group hgroup a ha =>
    Expression.group_le_of_matchAt (found?_eq_some hfound).2 (ha ▸ (List.of_mem_zip hgroup).2)
  have hspans : (tokens.map Token.span).Pairwise fun a b => a.stop ≤ b.start :=
    List.pairwise_map.2 hordered
  have htyped := hspans.sublist ((sublist_typed hle hy).trans (hsub.map _))
  refine (List.pairwise_map.1 htyped).imp fun {a b} hab => ?_
  rw [Span.stop_shift] at hab
  exact Nat.le_of_add_le_add_left hab

/-- **Tokens in the order of the text.** A stream that has started over an assembled grammar can be
drained, whatever the text and the initial states. The tokens come out in the order of the text and
do not overlap if, here and in every grammar that text may be handed to, all rules are orderly, and
in particular if all rules that take their matches apart are for small patterns with groups side by
side. Conversely, they come out like this only if in every match that decides a step the groups that
become tokens do not overlap and lie in the order of their numbers. -/
theorem drain_in_order {g : CompiledGrammar} (hg : g.Assembled) {text : Bytes}
    {states : List Bytes} (hs : start g text states = .ok s) :
    ∃ tokens last, s.drain = .ok (tokens, last) ∧
      (g.EveryRule CompiledRule.Orderly → tokens.Pairwise Token.Precedes) ∧
      (g.EveryRule CompiledRule.SideBySide → tokens.Pairwise Token.Precedes) ∧
      (tokens.Pairwise Token.Precedes → ∀ rule m actions,
        Decides (nested maxDelegateDepth) rule m s → rule.emission = .groups actions →
          ((actions.zip m.groups).filterMap GroupAction.typed?).Pairwise
            fun a b => a.stop ≤ b.start) := by
  have hgrammar := grammar_of_start hs
  obtain ⟨tokens, last, hrun⟩ := exists_drains_of_total (total_nested maxDelegateDepth)
    (accepted_of_start hg hs)
  have horderly : g.EveryRule CompiledRule.Orderly → tokens.Pairwise Token.Precedes := by
    intro hrules
    obtain ⟨found, htokens, hrow⟩ := runsInRow maxDelegateDepth s tokens last
      (hgrammar.symm ▸ hrules) (inRange_of_start hs) hrun
    obtain ⟨-, stack, -, rfl⟩ := start_eq_ok_iff.1 hs
    obtain rfl : tokens = found := htokens
    have hspans := List.pairwise_map.1 hrow.pairwise
    exact hspans
  refine ⟨tokens, last, hrun.drainWith_eq, horderly, fun hrules => ?_, ?_⟩
  · exact horderly fun h hreach rule hrule => (hrules h hreach rule hrule).orderly
  · intro hordered rule m actions hdecides hactions
    exact hdecides.pairwise_typed hactions hrun hordered

/-- A grammar for settings such as `a=1`, which leaves out the sign and hands the value on. -/
def settings : CompiledGrammar :=
  .ofStates (bytes "settings") [] [
    ⟨rootState, [
      ⟨0, Pattern.expression ⟨.seq (.capture 1 (.one ⟨[(0x61, 0x7a)], false, false⟩))
          (.seq (.capture 2 (.one ⟨[(0x3d, 0x3d)], false, false⟩))
            (.repeated (.capture 3 (.one ⟨[(0x30, 0x39)], false, false⟩)) 0 (some 1) true)), 3⟩,
        bytes "([a-z])(=)([0-9])?",
        .groups [.emit .other, .skip, .delegate ⟨none, bytes "value", none⟩], [], rootState, 0⟩]⟩,
    ⟨bytes "value", [
      ⟨1, Pattern.expression ⟨.one ⟨[(0x30, 0x39)], false, false⟩, 0⟩, bytes "[0-9]",
        .emit (some .plain), [], bytes "value", 0⟩]⟩] none

/-- On two settings, one of them without a value. -/
theorem drain_in_order_settings : settings.EveryRule CompiledRule.SideBySide ∧
    ∃ s last, start settings (bytes "a=1b=") [rootState] = .ok s ∧
      s.drain = .ok ([⟨0, .other, bytes "a"⟩, ⟨2, .plain, bytes "1"⟩, ⟨3, .other, bytes "b"⟩],
        last) ∧
      List.Pairwise Token.Precedes
        [⟨0, .other, bytes "a"⟩, ⟨2, .plain, bytes "1"⟩, ⟨3, .other, bytes "b"⟩] := by
  have hassembled : settings.Assembled := CompiledGrammar.assembled_of_ownDelegates rfl
  have hrules : ∀ rule, settings.HasRule rule → rule.SideBySide := by
    intro rule hrule
    simp only [CompiledGrammar.HasRule, settings, CompiledGrammar.ofStates, List.mem_cons,
      List.not_mem_nil, or_false, exists_eq_or_imp, exists_eq_left] at hrule
    rcases hrule with rfl | rfl
    · exact fun _ _ => ⟨_, by decide, rfl⟩
    · exact fun _ h => (by cases h)
  have hordered : settings.EveryRule CompiledRule.SideBySide := .of_ownDelegates rfl hrules
  obtain ⟨s, hs⟩ := Outcome.exists_of_isOk (x := start settings (bytes "a=1b=") [rootState]) rfl
  obtain ⟨tokens, last, hdrain, -, hpairwise, -⟩ := drain_in_order hassembled hs
  have htokens : tokensFor 300 settings (bytes "a=1b=") [rootState] =
      some [⟨0, .other, bytes "a"⟩, ⟨2, .plain, bytes "1"⟩, ⟨3, .other, bytes "b"⟩] := by
    decide +kernel
  obtain rfl := eq_of_tokensFor htokens hs hdrain
  exact ⟨hordered, s, last, hs, hdrain, hpairwise hordered⟩

/-- A grammar for two letters in any order, each with a group of its own. -/
def swapped : CompiledGrammar :=
  .ofStates (bytes "swapped") [] [
    ⟨rootState, [
      ⟨0, Pattern.expression ⟨.repeated (.alt (.capture 1 (.one ⟨[(0x61, 0x61)], false, false⟩))
          (.capture 2 (.one ⟨[(0x62, 0x62)], false, false⟩))) 1 none true, 2⟩,
        bytes "(?:(a)|(b))+", .groups [.emit .other, .emit .plain], [], rootState, 0⟩]⟩] none

/-- The group of the second letter comes first. -/
theorem swapped_out_of_order : swapped.Assembled ∧
    ∃ s last, start swapped (bytes "ba") [rootState] = .ok s ∧
      s.drain = .ok ([⟨1, .other, bytes "a"⟩, ⟨0, .plain, bytes "b"⟩], last) ∧
      ¬List.Pairwise Token.Precedes [⟨1, .other, bytes "a"⟩, ⟨0, .plain, bytes "b"⟩] := by
  obtain ⟨s, hs⟩ := Outcome.exists_of_isOk (x := start swapped (bytes "ba") [rootState]) rfl
  have htokens : tokensFor 300 swapped (bytes "ba") [rootState] =
      some [⟨1, .other, bytes "a"⟩, ⟨0, .plain, bytes "b"⟩] := by decide +kernel
  obtain ⟨last, hdrain⟩ := exists_drain_of_tokensFor htokens hs
  exact ⟨CompiledGrammar.assembled_of_ownDelegates rfl, s, last, hs, hdrain, by decide +kernel⟩

end Stream

end StackLexer
