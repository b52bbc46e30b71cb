import Mathlib.Data.List.Chain
import StackLexer.Proofs.Evaluation
import StackLexer.Regex.Engine

/-!
# A run tiles its text

Whatever a stream does with a text, it consumes all of it, from left to right and every byte once.
A byte is consumed as part of a token or silently, by a rule that matches and emits nothing; tokens
of delegates are counted at their place in the outer text. Capturing groups are left out here: they
may skip parts of what was matched.

* `Stretch` — a part of the text consumed in one go, `Stretch.Tiles` — stretches that make up a text
  without gaps and overlaps;
* `Stream.StepCuts`, `Stream.RunCuts` — the stretches that one step consumes, and a whole run;
* `Stream.exists_stepCuts`, `Stream.runsTile` — what they have to do with the tokens found and the
  place reached, for a step and, by induction on the depth of delegates, for a run;
* `Stream.drain_tiles` — draining never fails, and the stretches of its run tile the text.
-/

namespace StackLexer

/-! ## Stretches -/

/-- A part of a text that was consumed in one go: as a token or, without a type, silently. -/
structure Stretch where
  /-- where it starts, in bytes -/
  offset : Nat
  /-- the type of its token, if it gave one -/
  type : Option TokenType
  /-- its bytes -/
  value : Bytes

namespace Stretch

/-- The token of a stretch, if it gave one. -/
def token? (p : Stretch) : Option Token := p.type.map fun type => ⟨p.offset, type, p.value⟩

/-- A stretch that a delegate consumed, as part of the outer text. -/
def adopt (d : Delegate CompiledGrammar) (offset : Nat) (p : Stretch) : Stretch where
  offset := p.offset + offset
  type := p.token?.map fun t => (Stream.adopt d offset t).type
  value := p.value

/-- The token of an adopted stretch is its token, adopted. -/
theorem token?_adopt (d : Delegate CompiledGrammar) (offset : Nat) (p : Stretch) :
    (p.adopt d offset).token? = p.token?.map (Stream.adopt d offset) := by
  obtain ⟨start, type, value⟩ := p
  cases type with
  | none => rfl
  | some type => simp only [adopt, token?, Option.map_some, Stream.adopt_eq]

/-- An adopted stretch is silent only if it was. -/
theorem type_adopt_ne_none {d : Delegate CompiledGrammar} {offset : Nat} {p : Stretch}
    (h : p.type ≠ none) : (p.adopt d offset).type ≠ none := by
  obtain ⟨type, htype⟩ := Option.ne_none_iff_exists'.1 h
  simp [adopt, token?, htype]

/-- **Tilings.** Stretches that start at `start` and make up `text`, none of them empty: each one
starts where the one before it ends. -/
inductive Tiles : Nat → Bytes → List Stretch → Prop
  /-- nothing is made up of nothing -/
  | nil (start : Nat) : Tiles start [] []
  /-- a stretch at the front, and the others from its end on -/
  | cons {p : Stretch} {rest : Bytes} {more : List Stretch} (hne : p.value ≠ [])
      (hrest : Tiles (p.offset + p.value.length) rest more) :
      Tiles p.offset (p.value ++ rest) (p :: more)

namespace Tiles

variable {start : Nat} {text : Bytes} {pieces : List Stretch}

/-- A text that is not empty, as one stretch. -/
theorem single (type : Option TokenType) (h : text ≠ []) :
    Tiles start text [⟨start, type, text⟩] := by
  have := Tiles.cons (p := ⟨start, type, text⟩) h (.nil _)
  rwa [List.append_nil] at this

/-- One tiling after another. -/
theorem append {rest : Bytes} {more : List Stretch} (h : Tiles start text pieces)
    (hrest : Tiles (start + text.length) rest more) :
    Tiles start (text ++ rest) (pieces ++ more) := by
  induction h with
  | nil start => exact hrest
  | cons hne _ ih =>
    rw [List.append_assoc]
    refine .cons hne (ih ?_)
    rwa [List.length_append, ← Nat.add_assoc] at hrest

/-- A delegate's tiling of its stretch is a tiling of that part of the outer text. -/
theorem adopt (d : Delegate CompiledGrammar) (offset : Nat) (h : Tiles start text pieces) :
    Tiles (start + offset) text (pieces.map (Stretch.adopt d offset)) := by
  induction h with
  | nil start => exact .nil _
  | @cons p rest more hne _ ih =>
    refine Tiles.cons (p := p.adopt d offset) hne ?_
    rwa [Nat.add_right_comm] at ih

/-- When no stretch is silent, the tokens make up the text and each one starts where the one before
it ends. -/
theorem tokens (h : Tiles start text pieces) (htyped : ∀ p ∈ pieces, p.type ≠ none) :
    ((pieces.filterMap token?).map (·.value)).flatten = text ∧
      (pieces.filterMap token?).IsChain (fun a b => b.offset = a.offset + a.value.length) ∧
        ∀ t ∈ (pieces.filterMap token?).head?, t.offset = start := by
  induction h with
  | nil start => exact ⟨rfl, .nil, fun t ht => (by cases ht)⟩
  | @cons p rest more hne _ ih =>
    rw [List.forall_mem_cons] at htyped
    obtain ⟨type, htype⟩ := Option.ne_none_iff_exists'.1 htyped.1
    obtain ⟨hvalues, hchain, hhead⟩ := ih htyped.2
    have hp : p.token? = some ⟨p.offset, type, p.value⟩ := by rw [token?, htype]; rfl
    rw [List.filterMap_cons_some hp]
    refine ⟨?_, List.isChain_cons.2 ⟨hhead, hchain⟩, ?_⟩
    · rw [List.map_cons, List.flatten_cons, hvalues]
    · rintro t ⟨⟩
      rfl

end Tiles

end Stretch

/-! ## What a step consumes -/

namespace CompiledRule

/-- A rule that does not take its match apart into groups. -/
def Ungrouped (rule : CompiledRule CompiledGrammar) : Prop :=
  ∀ actions, rule.emission ≠ .groups actions

/-- A rule that does not pass over its match silently. -/
def Loud (rule : CompiledRule CompiledGrammar) : Prop := rule.emission ≠ .emit none

end CompiledRule

namespace Stream

variable {s s' : Stream} {depth : Nat}

/-- The stretch of `length` bytes at the place reached. -/
def stretch (s : Stream) (type : Option TokenType) (length : Nat) : Stretch :=
  ⟨s.position, type, s.cursor.slice 0 length⟩

/-- The character at the place reached, as an error. -/
def errorStretch (s : Stream) : Stretch := s.stretch (some .error) (Utf8.sequenceLength s.rest)

mutual

/-- The stretches that a step consumes, with room for `depth` levels of delegates. -/
inductive StepCuts : Nat → Stream → List Stretch → Prop
  /-- no rule matches: a character -/
  | unmatched {depth : Nat} {s : Stream} (hfound : s.found? = none) :
      StepCuts depth s [s.errorStretch]
  /-- a match that is one token, or passed over silently -/
  | emitted {depth : Nat} {s : Stream} {rule : CompiledRule CompiledGrammar} {m : Match}
      {type : Option TokenType} (hfound : s.found? = some (rule, m))
      (hemission : rule.emission = .emit type) (hlength : m.length ≠ 0) :
      StepCuts depth s [s.stretch type m.length]
  /-- a match for a delegate where no level is left: one token -/
  | unlexed {s : Stream} {rule : CompiledRule CompiledGrammar} {m : Match}
      {d : Delegate CompiledGrammar} (hfound : s.found? = some (rule, m))
      (hemission : rule.emission = .delegate d) (hlength : m.length ≠ 0) :
      StepCuts 0 s [s.stretch (some d.unlexedType) m.length]
  /-- a match for a delegate: what the delegate's own run consumes -/
  | delegated {depth : Nat} {s t last : Stream} {rule : CompiledRule CompiledGrammar} {m : Match}
      {d : Delegate CompiledGrammar} {pieces : List Stretch} (hfound : s.found? = some (rule, m))
      (hemission : rule.emission = .delegate d) (hlength : m.length ≠ 0)
      (ht : start (d.target.getD s.grammar) (s.cursor.slice 0 m.length) (delegateStack d) = .ok t)
      (hrun : RunCuts depth t pieces last) :
      StepCuts (depth + 1) s (pieces.map (Stretch.adopt d s.position))
  /-- a match of length zero that moves the stack: nothing -/
  | moved {depth : Nat} {s : Stream} {rule : CompiledRule CompiledGrammar} {m : Match}
      (hfound : s.found? = some (rule, m)) (hlength : m.length = 0)
      (hmoves : rule.transitions ≠ []) (hsteps : s.zeroWidthSteps < maxZeroWidthSteps) :
      StepCuts depth s []
  /-- a match of length zero where the run has stalled: a character -/
  | stalled {depth : Nat} {s : Stream} {rule : CompiledRule CompiledGrammar} {m : Match}
      (hfound : s.found? = some (rule, m)) (hlength : m.length = 0)
      (hstall : rule.transitions = [] ∨ maxZeroWidthSteps ≤ s.zeroWidthSteps) :
      StepCuts depth s [s.errorStretch]

/-- The stretches that a run consumes up to its end in the state `last`. -/
inductive RunCuts : Nat → Stream → List Stretch → Stream → Prop
  /-- nothing is left to hand out or to consume -/
  | finished {depth : Nat} {s : Stream} (hp : s.pending = []) (hs : s.rest = []) :
      RunCuts depth s [] s
  /-- handing out a token consumes nothing -/
  | handOut {depth : Nat} {s last : Stream} {t : Token} {more : List Token}
      {pieces : List Stretch} (hp : s.pending = t :: more)
      (hrest : RunCuts depth { s with pending := more } pieces last) :
      RunCuts depth s pieces last
  /-- what a step consumes, and then the others -/
  | step {depth : Nat} {s s' last : Stream} {pieces more : List Stretch} (hp : s.pending = [])
      (hs : s.rest ≠ []) (hstep : s.stepWith (nested depth) = .ok s')
      (hcuts : StepCuts depth s pieces) (hrest : RunCuts depth s' more last) :
      RunCuts depth s (pieces ++ more) last

end

/-- What has to be right when a step to `s'` consumes `pieces`. -/
structure StepAccount (s : Stream) (pieces : List Stretch) (s' : Stream) : Prop where
  /-- the tokens of the stretches are waiting to be handed out -/
  pending_eq : s'.pending = s.pending ++ pieces.filterMap Stretch.token?
  /-- the stretches tile what was passed over -/
  tiles : ∃ n, n ≤ s.rest.length ∧ s'.position = s.position + n ∧ s'.rest = s.rest.drop n ∧
    Stretch.Tiles s.position (s.rest.take n) pieces
  /-- silent stretches come from silent rules -/
  typed : s.grammar.EveryRule CompiledRule.Loud → ∀ p ∈ pieces, p.type ≠ none

/-- What has to be right when a run consumes `pieces` and hands out `tokens`. -/
structure RunAccount (s : Stream) (pieces : List Stretch) (tokens : List Token) : Prop where
  /-- the tokens handed out are those of the stretches, after those that were waiting -/
  tokens_eq : tokens = s.pending ++ pieces.filterMap Stretch.token?
  /-- the stretches tile what was left of the text -/
  tiles : Stretch.Tiles s.position s.rest pieces
  /-- silent stretches come from silent rules -/
  typed : s.grammar.EveryRule CompiledRule.Loud → ∀ p ∈ pieces, p.type ≠ none

/-- The token of a stretch that is not empty. -/
theorem excerpt_eq_filterMap {type : TokenType} {length : Nat} (h : length ≠ 0) :
    excerpt s.cursor type 0 length
      = [s.stretch (some type) length].filterMap Stretch.token? := by
  rw [excerpt, if_neg h]
  rfl

/-- The account of a step that consumes one stretch. -/
theorem StepAccount.single {type : Option TokenType} {n : Nat} (hn : n ≠ 0)
    (hle : n ≤ s.rest.length) (hcursor : s'.cursor = s.cursor.advance n)
    (hpending : s'.pending = s.pending ++ [s.stretch type n].filterMap Stretch.token?)
    (htyped : s.grammar.EveryRule CompiledRule.Loud → type ≠ none) :
    StepAccount s [s.stretch type n] s' where
  pending_eq := hpending
  tiles := by
    have hne : s.rest.take n ≠ [] := by
      intro hnil
      have hlength := congrArg List.length hnil
      rw [List.length_take_of_le hle] at hlength
      exact hn hlength
    exact ⟨n, hle, congrArg Cursor.position hcursor, congrArg Cursor.rest hcursor,
      Stretch.Tiles.single type hne⟩
  typed hloud p hp := by
    rw [List.mem_singleton.1 hp]
    exact htyped hloud

/-- The account of a character that becomes an error. -/
theorem StepAccount.errorChar {t : Stream} (hs : s.rest ≠ []) (hcursor : t.cursor = s.cursor)
    (hpending : t.pending = s.pending) : StepAccount s [s.errorStretch] t.errorChar := by
  have hrest : t.rest = s.rest := congrArg Cursor.rest hcursor
  have hn : Utf8.sequenceLength s.rest ≠ 0 := Nat.ne_of_gt (Utf8.sequenceLength_pos hs)
  refine .single hn (Utf8.sequenceLength_le _) ?_ ?_ (fun _ => Option.some_ne_none _)
  · rw [Stream.errorChar, hrest, hcursor]
  · rw [Stream.errorChar, hrest, hcursor, hpending, excerpt_eq_filterMap hn]

/-- The account of a delegate's run, made part of the outer text. -/
theorem StepAccount.delegated {t : Stream} {g : CompiledGrammar} {n : Nat} {states : List Bytes}
    {d : Delegate CompiledGrammar} {pieces : List Stretch} {tokens : List Token}
    (hle : n ≤ s.rest.length) (ht : Stream.start g (s.cursor.slice 0 n) states = .ok t)
    (haccount : RunAccount t pieces tokens) (hcursor : s'.cursor = s.cursor.advance n)
    (hpending : s'.pending = s.pending ++ tokens.map (adopt d s.position))
    (hloud : s.grammar.EveryRule CompiledRule.Loud → g.EveryRule CompiledRule.Loud) :
    StepAccount s (pieces.map (Stretch.adopt d s.position)) s' := by
  obtain ⟨-, stack, -, rfl⟩ := start_eq_ok_iff.1 ht
  obtain ⟨htokens, htiles, htyped⟩ := haccount
  refine ⟨?_, ⟨n, hle, congrArg Cursor.position hcursor, congrArg Cursor.rest hcursor, ?_⟩, ?_⟩
  · rw [hpending, htokens, List.nil_append, List.map_filterMap, List.filterMap_map]
    congr 2
    funext p
    exact (Stretch.token?_adopt d s.position p).symm
  · have := htiles.adopt d s.position
    rwa [show position _ + s.position = s.position from Nat.zero_add _] at this
  · intro h p hp
    obtain ⟨q, hq, rfl⟩ := List.mem_map.1 hp
    exact Stretch.type_adopt_ne_none (htyped (hloud h) q hq)

/-- A match of length zero yields no tokens. -/
theorem tokens_emissionYield_zero {lexer : Option SubLexer}
    {rule : CompiledRule CompiledGrammar} (hrule : rule.Ungrouped) {m : Match}
    (hlength : m.length = 0) {y : Yield}
    (hy : emissionYield lexer s m rule.emission = .ok y) : y.tokens = [] := by
  cases hemission : rule.emission with
  | emit type =>
    rw [hemission] at hy
    cases type with
    | none =>
      cases hy
      rfl
    | some type =>
      cases hy
      rw [excerpt, if_pos hlength]
  | groups actions => exact absurd hemission (hrule actions)
  | delegate d =>
    rw [hemission, emissionYield, delegateYield.eq_def, if_pos hlength] at hy
    cases hy
    rfl

/-! ## Runs -/

/-- Runs with room for `depth` levels of delegates tile their texts. -/
def RunsTile (depth : Nat) : Prop :=
  ∀ (s : Stream) (tokens : List Token) (last : Stream),
    s.grammar.EveryRule CompiledRule.Ungrouped → Drains (nested depth) s tokens last →
      ∃ pieces, RunCuts depth s pieces last ∧ RunAccount s pieces tokens

/-- What a match that is not empty consumes, when the runs of delegates tile their texts. -/
theorem exists_stepCuts_of_match (hgroups : s.grammar.EveryRule CompiledRule.Ungrouped)
    (hinner : ∀ inner, depth = inner + 1 → RunsTile inner)
    {rule : CompiledRule CompiledGrammar} {m : Match} {y : Yield}
    (hfound : s.found? = some (rule, m)) (hlength : m.length ≠ 0)
    (hy : emissionYield (nested depth) s m rule.emission = .ok y)
    (hcursor : s'.cursor = s.cursor.advance m.length)
    (hpending : s'.pending = s.pending ++ y.tokens) :
    ∃ pieces, StepCuts depth s pieces ∧ StepAccount s pieces s' := by
  obtain ⟨hrule, hmatch⟩ := found?_eq_some hfound
  have hle := Expression.length_le_of_matchAt hmatch
  cases hemission : rule.emission with
  | emit type =>
    rw [hemission] at hy
    refine ⟨_, .emitted hfound hemission hlength, .single hlength hle hcursor ?_ ?_⟩
    · cases type with
      | none =>
        cases hy
        exact hpending
      | some type =>
        cases hy
        rw [hpending, excerpt_eq_filterMap hlength]
    · rintro hloud rfl
      exact hloud.here hrule hemission
  | groups actions => exact absurd hemission (hgroups.here hrule actions)
  | delegate d =>
    rw [hemission] at hy
    have hd : d ∈ rule.emission.delegates := by
      rw [hemission]
      exact List.mem_singleton_self d
    -- at the deepest level the match is one token; above it, a run of its own has cut it up
    rcases tokens_of_delegateYield hy hlength with
      ⟨rfl, htokens⟩ | ⟨inner, t, tokens, last, rfl, ht, hrun, htokens⟩
    · refine ⟨_, .unlexed hfound hemission hlength, .single hlength hle hcursor ?_ ?_⟩
      · rw [hpending, htokens, excerpt_eq_filterMap hlength]
      · exact fun _ => Option.some_ne_none _
    · have hinherited : t.grammar.EveryRule CompiledRule.Ungrouped :=
        (grammar_of_start ht).symm ▸ hgroups.delegate hrule hd
      obtain ⟨pieces, hcuts, haccount⟩ := hinner inner rfl t tokens last hinherited hrun
      refine ⟨_, .delegated hfound hemission hlength ht hcuts,
        .delegated hle ht haccount hcursor ?_ fun h => h.delegate hrule hd⟩
      rw [hpending, htokens, Nat.add_zero]

/-- **What a step consumes**, when the runs of delegates tile their texts. -/
theorem exists_stepCuts (hgroups : s.grammar.EveryRule CompiledRule.Ungrouped)
    (hinner : ∀ inner, depth = inner + 1 → RunsTile inner) (hs : s.rest ≠ [])
    (h : Stepped (nested depth) s s') :
    ∃ pieces, StepCuts depth s pieces ∧ StepAccount s pieces s' := by
  cases h with
  | unmatched hfound => exact ⟨_, .unmatched hfound, .errorChar hs rfl rfl⟩
  | consumed hfound hy hlength =>
    exact exists_stepCuts_of_match hgroups hinner hfound hlength hy rfl rfl
  | moved hfound hy hlength hmoves hsteps =>
    have hnone := tokens_emissionYield_zero (hgroups.here (found?_eq_some hfound).1) hlength hy
    refine ⟨[], .moved hfound hlength hmoves hsteps, ?_,
      ⟨0, Nat.zero_le _, rfl, rfl, .nil _⟩, fun _ p hp => absurd hp List.not_mem_nil⟩
    exact congrArg (s.pending ++ ·) hnone
  | @stalled rule m y message hfound hy hlength hstall =>
    have hnone := tokens_emissionYield_zero (hgroups.here (found?_eq_some hfound).1) hlength hy
    refine ⟨_, .stalled hfound hlength hstall, .errorChar hs rfl ?_⟩
    show s.pending ++ y.tokens = s.pending
    rw [hnone, List.append_nil]

/-- A step's account and that of the run after it make that of the whole run. -/
theorem StepAccount.append {pieces more : List Stretch} {tokens : List Token}
    (hp : s.pending = []) (hgrammar : s'.grammar = s.grammar) (h : StepAccount s pieces s')
    (hrest : RunAccount s' more tokens) : RunAccount s (pieces ++ more) tokens where
  tokens_eq := by
    rw [hrest.tokens_eq, h.pending_eq, hp, List.filterMap_append, List.nil_append,
      List.nil_append]
  tiles := by
    -- the run goes on exactly where the stretches of the step end
    obtain ⟨n, hle, hposition, hdrop, htiles⟩ := h.tiles
    have := hrest.tiles
    rw [hposition, hdrop] at this
    rw [← List.take_append_drop n s.rest]
    refine htiles.append ?_
    rwa [List.length_take_of_le hle]
  typed hloud p hmem := by
    rcases List.mem_append.1 hmem with hmem | hmem
    · exact h.typed hloud p hmem
    · exact hrest.typed (hgrammar.symm ▸ hloud) p hmem

/-- Runs tile their texts when those of their delegates do. -/
theorem runsTile_of_inner (hinner : ∀ inner, depth = inner + 1 → RunsTile inner) :
    RunsTile depth := by
  intro s tokens last hgroups hrun
  induction hrun with
  | finished hp hs =>
    refine ⟨[], .finished hp hs, ?_, ?_, fun _ p hp => absurd hp List.not_mem_nil⟩
    · rw [hp]
      rfl
    · rw [hs]
      exact .nil _
  | handOut hp _ ih =>
    -- a token that was waiting belongs to no stretch of this run
    obtain ⟨pieces, hcuts, haccount⟩ := ih hgroups
    refine ⟨pieces, .handOut hp hcuts, ?_, haccount.tiles, haccount.typed⟩
    rw [hp, haccount.tokens_eq]
    rfl
  | step hp hs hstep _ ih =>
    have hstepped := stepped_of_stepWith hstep
    obtain ⟨pieces, hcuts, haccount⟩ := exists_stepCuts hgroups hinner hs hstepped
    obtain ⟨more, hmore, hrest⟩ := ih (hstepped.grammar_eq.symm ▸ hgroups)
    exact ⟨pieces ++ more, .step hp hs hstep hcuts hmore,
      haccount.append hp hstepped.grammar_eq hrest⟩

/-- Runs tile their texts, however deep their delegates are nested. -/
theorem runsTile (depth : Nat) : RunsTile depth :=
  forall_depth (fun _ => runsTile_of_inner) depth

/-- **Tiling and reconstruction.** Over an assembled grammar without capturing groups, a stream that
has started can be drained, whatever the text and the initial states. The stretches of its run,
those of delegates included, tile the text, and their tokens are the tokens drained. When no rule is
silent, the values of the tokens make up the text and each token starts where the one before it
ends. -/
theorem drain_tiles {g : CompiledGrammar} (hg : g.Assembled)
    (hgroups : g.EveryRule CompiledRule.Ungrouped) {text : Bytes} {states : List Bytes}
    (hs : start g text states = .ok s) :
    ∃ tokens last pieces, s.drain = .ok (tokens, last) ∧
      RunCuts maxDelegateDepth s pieces last ∧ pieces.filterMap Stretch.token? = tokens ∧
      Stretch.Tiles 0 text pieces ∧
      (g.EveryRule CompiledRule.Loud → (tokens.map (·.value)).flatten = text ∧
        tokens.IsChain (fun a b => b.offset = a.offset + a.value.length) ∧
        ∀ t ∈ tokens.head?, t.offset = 0) := by
  obtain ⟨hdangling, stack, -, rfl⟩ := start_eq_ok_iff.1 hs
  obtain ⟨tokens, last, hrun⟩ := exists_drains_of_total
    (s := ⟨g, .start text, stack, 0, stack, [], []⟩) (total_nested maxDelegateDepth)
    ⟨hg, hdangling⟩
  obtain ⟨pieces, hcuts, htokens, htiles, htyped⟩ :=
    runsTile maxDelegateDepth _ tokens last hgroups hrun
  obtain rfl : tokens = pieces.filterMap Stretch.token? := htokens
  exact ⟨_, last, pieces, hrun.drainWith_eq, hcuts, rfl, htiles,
    fun hloud => htiles.tokens (htyped hloud)⟩

/-- A grammar that passes over blanks silently, hands brackets back to itself, and otherwise goes
round in circles without consuming anything. -/
def brackets : CompiledGrammar :=
  .ofStates (bytes "brackets") [] [
    ⟨rootState, [
      ⟨0, Pattern.expression ⟨.one ⟨[(0x20, 0x20)], false, false⟩, 0⟩, bytes " ", .emit none, [],
        rootState, 0⟩,
      ⟨1, Pattern.expression ⟨.seq (.one ⟨[(0x28, 0x28)], false, false⟩)
          (.one ⟨[(0x61, 0x7a)], false, false⟩), 0⟩,
        bytes "[(][a-z]", .delegate ⟨none, bytes "letter", none⟩, [], rootState, 1⟩,
      ⟨2, Pattern.expression ⟨.empty, 0⟩, [], .emit none, [.pushSame], rootState, 2⟩]⟩,
    ⟨bytes "letter", [
      ⟨3, Pattern.expression ⟨.one ⟨[(0x61, 0x7a)], false, false⟩, 0⟩, bytes "[a-z]",
        .emit (some .other), [], bytes "letter", 0⟩]⟩] none

/-- A text with a bracket, a blank and a character on which the grammar stalls. The bracket is an
error of the delegate, and the blank has no token. -/
theorem drain_tiles_brackets : ∃ s, start brackets (bytes "(a !") [rootState] = .ok s ∧
    ∃ last pieces,
      s.drain = .ok ([⟨0, .error, bytes "("⟩, ⟨1, .other, bytes "a"⟩, ⟨3, .error, bytes "!"⟩],
        last) ∧
      RunCuts maxDelegateDepth s pieces last ∧
      pieces.filterMap Stretch.token? =
        [⟨0, .error, bytes "("⟩, ⟨1, .other, bytes "a"⟩, ⟨3, .error, bytes "!"⟩] ∧
      Stretch.Tiles 0 (bytes "(a !") pieces := by
  have hassembled : brackets.Assembled := CompiledGrammar.assembled_of_ownDelegates rfl
  have hrules : ∀ rule, brackets.HasRule rule → rule.Ungrouped := by
    intro rule hrule
    simp only [CompiledGrammar.HasRule, brackets, CompiledGrammar.ofStates, List.mem_cons,
      List.not_mem_nil, or_false, exists_eq_or_imp, exists_eq_left] at hrule
    rcases hrule with (rfl | rfl | rfl) | rfl <;> simp [CompiledRule.Ungrouped]
  have hgroups : brackets.EveryRule CompiledRule.Ungrouped := .of_ownDelegates rfl hrules
  obtain ⟨s, hs⟩ := Outcome.exists_of_isOk (x := start brackets (bytes "(a !") [rootState]) rfl
  obtain ⟨tokens, last, pieces, hdrain, hcuts, htokens, htiles, -⟩ :=
    drain_tiles hassembled hgroups hs
  have hfound : tokensFor 300 brackets (bytes "(a !") [rootState] =
      some [⟨0, .error, bytes "("⟩, ⟨1, .other, bytes "a"⟩, ⟨3, .error, bytes "!"⟩] := by
    decide +kernel
  obtain rfl := eq_of_tokensFor hfound hs hdrain
  exact ⟨s, hs, last, pieces, hdrain, hcuts, htokens, htiles⟩

end Stream

end StackLexer
