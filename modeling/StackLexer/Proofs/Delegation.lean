import StackLexer.Proofs.DefinedNames
import StackLexer.Proofs.Evaluation

/-!
# Delegates lex as if alone

A stretch handed to a delegate is lexed by a stream of its own. Next to a stream that somebody
starts on the same bytes it differs in one thing: it is already some levels deep, so there is less
room below it. Room is used up by delegates only, and shows only where it has run out; everything
else in a step is the same whatever the room.

* `Stream.CutsOff` — a run comes to a stretch for a delegate where no level is left, itself or in
  the run of one of its delegates;
* `Stream.drainWith_eq_of_le` — a run that is not cut off stays the same with more room, by
  induction on the room, since a step asks for nothing but what its delegates yield.
  `Stream.not_cutsOff_of_nestsWithin` says when there is room enough;
* `Stream.delegate_lexes_alone` — the tokens of a delegate are those of the stretch lexed alone.
-/

namespace StackLexer

/-- Delegates of a grammar are nested at most so many levels deep. -/
def CompiledGrammar.NestsWithin : Nat → CompiledGrammar → Prop
  | 0, g => ∀ rule, g.HasRule rule → rule.emission.delegates = []
  | depth + 1, g => ∀ rule, g.HasRule rule → ∀ d ∈ rule.emission.delegates,
      NestsWithin depth (d.target.getD g)

namespace Stream

variable {s : Stream} {depth : Nat}

/-- A delegate starts in the root state, with its own above it if that is another one. -/
theorem delegateStack_eq (d : Delegate CompiledGrammar) :
    delegateStack d =
      if d.state = [] ∨ d.state = rootState then [rootState] else [rootState, d.state] := by
  simp [delegateStack]

/-! ## Running out of room -/

/-- While `s` is drained with room for `depth` levels of delegates, a stretch for a delegate comes
up where no level is left. -/
inductive CutsOff : Nat → Stream → Prop
  /-- in the next step -/
  | here {s : Stream} {d : Delegate CompiledGrammar} {offset length : Nat} (hp : s.pending = [])
      (hs : s.rest ≠ []) (hhands : s.HandsTo d offset length) (hlength : length ≠ 0) : CutsOff 0 s
  /-- in the run of a delegate that the next step hands a stretch to -/
  | delegate {depth : Nat} {s t : Stream} {d : Delegate CompiledGrammar} {offset length : Nat}
      (hp : s.pending = []) (hs : s.rest ≠ []) (hhands : s.HandsTo d offset length)
      (hlength : length ≠ 0)
      (hstart : start (d.target.getD s.grammar) (s.cursor.slice offset length) (delegateStack d)
        = .ok t)
      (hcut : CutsOff depth t) : CutsOff (depth + 1) s
  /-- after a token was handed out -/
  | handOut {depth : Nat} {s : Stream} {t : Token} {more : List Token} (hp : s.pending = t :: more)
      (hcut : CutsOff depth { s with pending := more }) : CutsOff depth s
  /-- after the next step -/
  | step {depth : Nat} {s s' : Stream} (hp : s.pending = []) (hs : s.rest ≠ [])
      (hstep : s.stepWith (nested depth) = .ok s') (hcut : CutsOff depth s') : CutsOff depth s

/-! ## Steps with more or less room -/

/-- What a delegate yields where a level is left: the tokens of a run of its own, taken over. -/
theorem delegateYield_succ {d : Delegate CompiledGrammar} {offset length : Nat}
    (hlength : length ≠ 0) :
    delegateYield (nested (depth + 1)) s d offset length =
      (start (d.target.getD s.grammar) (s.cursor.slice offset length) (delegateStack d)).bind
        fun t => (t.drainWith (nested depth)).map
          fun r => ⟨r.1.map (adopt d (s.position + offset)), r.2.notes.reverse⟩ := by
  rw [delegateYield.eq_def, if_neg hlength, nested]
  cases hstart :
    start (d.target.getD s.grammar) (s.cursor.slice offset length) (delegateStack d) with
  | error e => simp [hstart, Except.bind, bind]
  | ok t =>
    cases hdrain : t.drainWith (nested depth) with
    | error e => simp [hstart, hdrain, Except.bind, bind, Except.map]
    | ok r => simp [hstart, hdrain, Except.bind, bind, Except.map, pure, Except.pure]

/-- Delegates of the next step yield the same with more room, when their runs do and are not cut
off. -/
theorem delegateYield_eq_of_le {more : Nat} (hle : depth ≤ more)
    (hinner : ∀ inner, depth = inner + 1 → ∀ wider, inner ≤ wider → ∀ t, ¬CutsOff inner t →
      t.drainWith (nested inner) = t.drainWith (nested wider))
    (hp : s.pending = []) (hs : s.rest ≠ []) (hcut : ¬CutsOff depth s)
    {d : Delegate CompiledGrammar} {offset length : Nat} (hhands : s.HandsTo d offset length) :
    delegateYield (nested depth) s d offset length =
      delegateYield (nested more) s d offset length := by
  by_cases hlength : length = 0
  · rw [delegateYield.eq_def, delegateYield.eq_def, if_pos hlength, if_pos hlength]
  · cases depth with
    | zero => exact absurd (.here hp hs hhands hlength) hcut
    | succ inner =>
      obtain ⟨wider, rfl⟩ : ∃ wider, more = wider + 1 := ⟨more - 1, by omega⟩
      rw [delegateYield_succ hlength, delegateYield_succ hlength]
      cases hstart : start (d.target.getD s.grammar) (s.cursor.slice offset length)
        (delegateStack d) with
      | error e => rfl
      | ok t =>
        have huncut : ¬CutsOff inner t :=
          fun h => hcut (.delegate hp hs hhands hlength hstart h)
        have hrun := hinner inner rfl wider (Nat.le_of_succ_le_succ hle) t huncut
        simp only [Except.bind, hrun]

/-- **More room changes nothing** in a run that is not cut off. -/
theorem drainWith_eq_of_le {more : Nat} (hle : depth ≤ more) (hcut : ¬CutsOff depth s) :
    s.drainWith (nested depth) = s.drainWith (nested more) := by
  revert more s
  refine forall_depth (P := fun depth => ∀ {s : Stream} {more : Nat}, depth ≤ more →
    ¬CutsOff depth s → s.drainWith (nested depth) = s.drainWith (nested more)) ?_ depth
  intro depth hinner s more hle hcut
  have hstep : ∀ s : Stream, s.pending = [] → s.rest ≠ [] → ¬CutsOff depth s →
      s.stepWith (nested depth) = s.stepWith (nested more) := by
    intro s hp hs hcut
    apply stepWith_congr
    intro d offset length hhands
    exact delegateYield_eq_of_le hle (fun inner hdepth wider hwider t ht =>
      hinner inner hdepth hwider ht) hp hs hcut hhands
  -- along the run with less room, whose steps are also those with more
  induction s using drainWith.induct (nested depth) with
  | case1 s t waiting hp e he ih | case2 s t waiting hp tokens last hok ih =>
    rw [drainWith_pending hp, drainWith_pending hp, ih fun h => hcut (.handOut hp h)]
  | case3 s hp hs => rw [drainWith_end hp hs, drainWith_end hp hs]
  | case4 s hp hs e he =>
    rw [drainWith_step hp hs, drainWith_step hp hs, ← hstep s hp hs hcut, he]
    rfl
  | case5 s hp hs s' hok ih =>
    rw [drainWith_step hp hs, drainWith_step hp hs, ← hstep s hp hs hcut, hok]
    exact ih fun h => hcut (.step hp hs hok h)

/-- Where a level is left and the run of a delegate is not cut off, what it yields is what the
stretch yields alone, taken over. -/
theorem delegateYield_eq_alone {d : Delegate CompiledGrammar} {offset length : Nat}
    (hlength : length ≠ 0) {alone last : Stream} {tokens : List Token}
    (halone : start (d.target.getD s.grammar) (s.cursor.slice offset length) (delegateStack d)
      = .ok alone)
    (hdrain : alone.drain = .ok (tokens, last)) (hdepth : depth ≤ maxDelegateDepth)
    (hcut : ¬CutsOff depth alone) :
    delegateYield (nested (depth + 1)) s d offset length = .ok ⟨tokens.map fun x =>
      ⟨x.offset + (s.position + offset), d.retype x.type, x.value⟩, last.notes.reverse⟩ := by
  have hrun : alone.drainWith (nested depth) = .ok (tokens, last) :=
    (drainWith_eq_of_le hdepth hcut).trans hdrain
  have hadopt := funext (adopt_eq d (s.position + offset))
  rw [delegateYield_succ hlength, halone, hadopt]
  simp only [Except.bind, hrun, Except.map]

/-! ## Room enough -/

/-- A run is not cut off when the delegates of its grammar are not nested deeper than there is
room. -/
theorem not_cutsOff_of_nestsWithin {levels : Nat} (hle : levels ≤ depth)
    (hg : s.grammar.NestsWithin levels) : ¬CutsOff depth s := by
  intro hcut
  induction hcut generalizing levels with
  | here hp hs hhands hlength =>
    obtain rfl := Nat.le_zero.1 hle
    obtain ⟨rule, hrule, hd⟩ := hhands.exists_rule
    rw [hg rule hrule] at hd
    cases hd
  | delegate hp hs hhands hlength hstart _ ih =>
    obtain ⟨rule, hrule, hd⟩ := hhands.exists_rule
    cases levels with
    | zero =>
      rw [hg rule hrule] at hd
      cases hd
    | succ levels =>
      refine ih (Nat.le_of_succ_le_succ hle) ?_
      rw [grammar_of_start hstart]
      exact hg rule hrule _ hd
  | handOut hp _ ih => exact ih hle hg
  | step hp hs hstep _ ih => exact ih hle ((stepped_of_stepWith hstep).grammar_eq.symm ▸ hg)

/-- **Delegation agrees with lexing alone.** Take any stream at work over an assembled grammar,
whatever the text, and a stretch it hands to a delegate where a level is left. A stream started on
the bytes of the stretch alone, in the root state of the delegate's grammar and its own state above
that, can be drained. The step succeeds and takes over what the delegate yields; and if the run of
the delegate is not cut off, that is exactly the tokens of the stream alone, each moved by the place
of the stretch and wrapped. The same holds for any other stream with these bytes in its text, at any
level and wherever they are: neither the level nor the bytes around the stretch make a
difference. -/
theorem delegate_lexes_alone {g : CompiledGrammar} (hg : g.Assembled) {text : Bytes}
    {states : List Bytes} (hs : start g text states = .ok s) {level room : Nat} {t : Stream}
    (ht : Engaged s level room t) (hlevel : level + 1 ≤ 64) {d : Delegate CompiledGrammar}
    {offset length : Nat} (hhands : t.HandsTo d offset length) (hlength : length ≠ 0) :
    ∃ alone tokens last, start (d.target.getD t.grammar) (t.cursor.slice offset length)
        (if d.state = [] ∨ d.state = rootState then [rootState] else [rootState, d.state])
          = .ok alone ∧
      alone.drain = .ok (tokens, last) ∧
      (∃ u y, t.stepWith (nested room) = .ok u ∧
        delegateYield (nested room) t d offset length = .ok y ∧ y.tokens <:+: u.pending ∧
        (¬CutsOff (64 - (level + 1)) alone → y.tokens = tokens.map fun x =>
          ⟨x.offset + (t.position + offset), d.retype x.type, x.value⟩)) ∧
      ∀ (other : Stream) (level' offset' : Nat), level' + 1 ≤ 64 →
        d.target.getD other.grammar = d.target.getD t.grammar →
        other.cursor.slice offset' length = t.cursor.slice offset length →
        ¬CutsOff (64 - (level' + 1)) alone →
        delegateYield (nested (64 - level')) other d offset' length = .ok ⟨tokens.map fun x =>
          ⟨x.offset + (other.position + offset'), d.retype x.type, x.value⟩,
          last.notes.reverse⟩ := by
  have haccepted := accepted_of_start hg hs
  have hgrammar := haccepted.of_reaches ht.reaches
  obtain ⟨rule, hrule, hd⟩ := hhands.exists_rule
  have htarget := hgrammar.delegate hrule hd
  obtain ⟨alone, halone⟩ := exists_start htarget.dangling_eq (t.cursor.slice offset length)
    (delegateStack_ne_nil d) (hasState_of_mem_delegateStack hgrammar hrule hd)
  obtain ⟨tokens, last, hrun⟩ := exists_drains_of_total (s := alone)
    (total_nested maxDelegateDepth) ((grammar_of_start halone).symm ▸ htarget)
  have hdrain : alone.drain = .ok (tokens, last) := hrun.drainWith_eq
  refine ⟨alone, tokens, last, delegateStack_eq d ▸ halone, hdrain, ?_, ?_⟩
  · obtain ⟨u, hu⟩ := exists_stepWith (total_nested room) hgrammar
    obtain ⟨y, hy, hinfix⟩ := hhands.exists_yield hu
    refine ⟨u, y, hu, hy, hinfix, fun hcut => ?_⟩
    obtain ⟨hlevels, -, -⟩ := ht.invariant haccepted (inRange_of_start hs)
    obtain rfl : room = 64 - (level + 1) + 1 := by
      simp only [maxDelegateDepth] at hlevels
      omega
    have hyield := delegateYield_eq_alone hlength halone hdrain (Nat.sub_le 64 _) hcut
    rw [hy] at hyield
    cases hyield
    rfl
  · intro other level' offset' hlevel' hsame hbytes hcut
    have hroom : 64 - level' = 64 - (level' + 1) + 1 := by omega
    rw [← hsame, ← hbytes] at halone
    rw [hroom]
    exact delegateYield_eq_alone hlength halone hdrain (Nat.sub_le _ _) hcut

/-- A grammar that takes letters for plain text. -/
def letters : CompiledGrammar :=
  .ofStates (bytes "letters") [] [
    ⟨rootState, [
      ⟨0, Pattern.expression ⟨.one ⟨[(0x61, 0x7a)], false, false⟩, 0⟩, bytes "[a-z]",
        .emit (some .plain), [], [], -1⟩]⟩] none

/-- A rule that hands on a word to `letters`. -/
def wordRule : CompiledRule CompiledGrammar :=
  ⟨0, Pattern.expression ⟨.repeated (.one ⟨[(0x61, 0x7a)], false, false⟩) 1 none true, 0⟩,
    bytes "[a-z]+", .delegate ⟨some letters, [], none⟩, [], [], -1⟩

/-- A grammar for words, which are found in a state of their own. -/
def words : CompiledGrammar :=
  .ofStates (bytes "words") [] [⟨rootState, []⟩, ⟨bytes "word", [wordRule]⟩] none

/-- Find words, and give their plain text another type. -/
def wrapWords : Delegate CompiledGrammar := ⟨some words, bytes "word", some .other⟩

/-- A rule that wraps the word after a bracket. -/
def bracketRule : CompiledRule CompiledGrammar :=
  ⟨0, Pattern.expression ⟨.seq (.one ⟨[(0x28, 0x28)], false, false⟩)
      (.capture 1 (.repeated (.one ⟨[(0x61, 0x7a)], false, false⟩) 1 none true)), 1⟩,
    bytes "[(]([a-z]+)", .groups [.delegate wrapWords], [], [], -1⟩

/-- A grammar with that rule only. -/
def bracketed : CompiledGrammar :=
  .ofStates (bytes "bracketed") [] [⟨rootState, [bracketRule]⟩] none

/-- On a word after a bracket, two levels deep; and on the same word five levels further down and
with something after it. -/
theorem delegate_lexes_alone_bracketed : bracketed.Assembled ∧ words.NestsWithin 1 ∧
    ∃ s, start bracketed (bytes "(ab") [rootState] = .ok s ∧ s.HandsTo wrapWords 1 2 ∧
      ∃ alone last y, start words (bytes "ab") [rootState, bytes "word"] = .ok alone ∧
        alone.drain = .ok ([⟨0, .plain, bytes "a"⟩, ⟨1, .plain, bytes "b"⟩], last) ∧
        delegateYield (nested 64) s wrapWords 1 2 = .ok y ∧
        y.tokens = [⟨1, .other, bytes "a"⟩, ⟨2, .other, bytes "b"⟩] ∧
        ∃ other, start bracketed (bytes "(ab!") [rootState] = .ok other ∧
          delegateYield (nested (64 - 5)) other wrapWords 1 2 =
            .ok ⟨[⟨1, .other, bytes "a"⟩, ⟨2, .other, bytes "b"⟩], last.notes.reverse⟩ := by
  have hletters : letters.Assembled := CompiledGrammar.assembled_of_ownDelegates rfl
  have hwords : words.Assembled := by
    refine .ofStates _ _ _ _ ?_
    simp [wordRule, Emission.delegates, hletters]
  have hbracketed : bracketed.Assembled := by
    refine .ofStates _ _ _ _ ?_
    simp [bracketRule, wrapWords, Emission.delegates, GroupAction.delegate?, hwords]
  have hnests : words.NestsWithin 1 := by
    simp [words, letters, CompiledGrammar.NestsWithin, CompiledGrammar.HasRule,
      CompiledGrammar.ofStates, wordRule, Emission.delegates]
  obtain ⟨s, hs, hgroup, hslice, hposition⟩ :
      ∃ s, start bracketed (bytes "(ab") [rootState] = .ok s ∧ s.HandsTo wrapWords 1 2 ∧
        s.cursor.slice 1 2 = bytes "ab" ∧ s.position = 0 :=
    ⟨_, rfl, @HandsTo.group _ bracketRule ⟨3, [some ⟨1, 2⟩]⟩ _ _ ⟨1, 2⟩ rfl rfl
      List.mem_cons_self, rfl, rfl⟩
  have hstates : (if wrapWords.state = [] ∨ wrapWords.state = rootState then [rootState]
      else [rootState, wrapWords.state]) = [rootState, bytes "word"] := by decide +kernel
  obtain ⟨alone, tokens, last, halone, hdrain, ⟨-, y, -, hy, -, htokens⟩, hanywhere⟩ :=
    delegate_lexes_alone hbracketed hs .self (by decide) hgroup (by decide)
  rw [hslice, hstates] at halone
  have hfound : tokensFor 300 words (bytes "ab") [rootState, bytes "word"] =
      some [⟨0, .plain, bytes "a"⟩, ⟨1, .plain, bytes "b"⟩] := by decide +kernel
  obtain rfl := eq_of_tokensFor hfound halone hdrain
  have huncut : ∀ room, 1 ≤ room → ¬CutsOff room alone := by
    intro room hroom
    refine not_cutsOff_of_nestsWithin hroom ?_
    rw [grammar_of_start halone]
    exact hnests
  have hwrapped : List.map (fun x : Token =>
      (⟨x.offset + 1, wrapWords.retype x.type, x.value⟩ : Token))
        [⟨0, .plain, bytes "a"⟩, ⟨1, .plain, bytes "b"⟩] =
      [⟨1, .other, bytes "a"⟩, ⟨2, .other, bytes "b"⟩] := by decide +kernel
  have hplace := htokens (huncut 63 (by decide))
  rw [hposition, Nat.zero_add, hwrapped] at hplace
  obtain ⟨other, hother, hslice', hposition'⟩ :
      ∃ other, start bracketed (bytes "(ab!") [rootState] = .ok other ∧
        other.cursor.slice 1 2 = bytes "ab" ∧ other.position = 0 := ⟨_, rfl, rfl, rfl⟩
  have hbelow := hanywhere other 5 1 (by decide) rfl (hslice'.trans hslice.symm)
    (huncut 58 (by decide))
  rw [hposition', Nat.zero_add, hwrapped] at hbelow
  exact ⟨hbracketed, hnests, s, hs, hgroup, alone, last, y, halone, hdrain, hy, hplace, other,
    hother, hbelow⟩

end Stream

end StackLexer
