import StackLexer.Regex.Matcher

/-!
# How a search moves

Whatever success comes out of `Regex.run`, the search went on from some place after the expression.
What is known of that place is a relation to the one it started from, and the loops and the
constructors are gone through once, for all such relations.

* `Regex.Matcher.Leads` — a matcher goes on only from places a relation leads to;
* `Regex.Thread.Moves` — relations that hold along every search, captures apart: nothing was done,
  one thing was done after another, a byte was taken, or one looked ahead;
* `Regex.run_leads` — every expression goes on only from places such a relation leads to, if its own
  captures respect the relation too; the loops (`exactly`, `oneMore`, `atMost`, `atMostBytes`,
  `unlimited`) have one lemma each.

Two relations are of use: the search only moves forward and stays in the text (`Regex.run_forward`),
and an expression without groups keeps the captures there are (`Regex.run_keeps`).
`Pattern.matchAt_length_le` and `Pattern.group_le_of_matchAt` say the first of matches and of their
groups.
-/

namespace StackLexer

namespace Regex

/-- The numbers of the groups in an expression. -/
def numbers : Regex → List Nat
  | .empty | .one _ | .lineStart | .lineEnd | .wordEdge _ => []
  | .seq first second | .alt first second => first.numbers ++ second.numbers
  | .capture index inner => index :: inner.numbers
  | .repeated inner _ _ _ | .lookahead _ inner => inner.numbers

/-- A matcher goes on only from places that `moves` leads to. -/
def Matcher.Leads (moves : Thread → Thread → Prop) (m : Matcher) : Prop :=
  ∀ (t : Thread) (k : Continuation) (u : Thread), m t k = some u →
    ∃ v : Thread, moves t v ∧ k v = some u

/-- A relation that holds along a search, captures apart. -/
structure Thread.Moves (moves : Thread → Thread → Prop) : Prop where
  /-- nothing was done -/
  refl (t : Thread) : moves t t
  /-- one thing was done after another -/
  trans {t u v : Thread} : moves t u → moves u v → moves t v
  /-- a byte was taken -/
  take {t : Thread} {b : UInt8} {rest : Bytes} (hrest : t.rest = b :: rest) :
    moves t ⟨some b, t.offset + 1, rest, t.captures⟩
  /-- the captures of what was looked at are kept, the place is not -/
  look {t v : Thread} : moves t v → moves t { t with captures := v.captures }

section Leads

variable {moves : Thread → Thread → Prop}

/-! ## Loops -/

/-- One matcher after another. -/
theorem Matcher.Leads.seq (h : Thread.Moves moves) {first second : Matcher}
    (hfirst : first.Leads moves) (hsecond : second.Leads moves) :
    Matcher.Leads moves fun t k => first t fun u => second u k := by
  intro t k u hu
  obtain ⟨v, hv, hk⟩ := hfirst t _ u hu
  obtain ⟨w, hw, hk'⟩ := hsecond v k u hk
  exact ⟨w, h.trans hv hw, hk'⟩

theorem exactly_leads (h : Thread.Moves moves) {m : Matcher} (hm : m.Leads moves) (n : Nat) :
    Matcher.Leads moves (exactly m n) := by
  induction n with
  | zero => exact fun t k u hu => ⟨t, h.refl t, hu⟩
  | succ n ih => exact hm.seq h ih

/-- One round more, or none: greedy and lazy only differ in which is tried first. -/
theorem eq_some_of_oneMore {m more : Matcher} {greedy : Bool} {t u : Thread} {k : Continuation}
    (h : oneMore m greedy more t k = some u) :
    (m t fun v => if v.offset = t.offset then k v else more v k) = some u ∨ k t = some u := by
  rw [oneMore] at h
  split at h
  · rw [Option.orElse_eq_or, Option.or_eq_some_iff] at h
    exact h.imp id And.right
  · rw [Option.orElse_eq_or, Option.or_eq_some_iff] at h
    exact (h.imp id And.right).symm

theorem oneMore_leads (h : Thread.Moves moves) {m more : Matcher} (hm : m.Leads moves)
    (hmore : more.Leads moves) (greedy : Bool) : (oneMore m greedy more).Leads moves := by
  intro t k u hu
  rcases eq_some_of_oneMore hu with hround | hnone
  · obtain ⟨v, hv, hk⟩ := hm t _ u hround
    split at hk
    · exact ⟨v, hv, hk⟩
    · obtain ⟨w, hw, hk'⟩ := hmore v k u hk
      exact ⟨w, h.trans hv hw, hk'⟩
  · exact ⟨t, h.refl t, hnone⟩

theorem atMost_leads (h : Thread.Moves moves) {m : Matcher} (hm : m.Leads moves) (greedy : Bool)
    (n : Nat) : (atMost m greedy n).Leads moves := by
  induction n with
  | zero => exact fun t k u hu => ⟨t, h.refl t, hu⟩
  | succ n ih => exact oneMore_leads h hm ih greedy

theorem atMostBytes_leads (h : Thread.Moves moves) {m : Matcher} (hm : m.Leads moves)
    (greedy : Bool) (left : Bytes) : (atMostBytes m greedy left).Leads moves := by
  induction left with
  | nil => exact fun t k u hu => ⟨t, h.refl t, hu⟩
  | cons b left ih => exact oneMore_leads h hm ih greedy

theorem unlimited_leads (h : Thread.Moves moves) {m : Matcher} (hm : m.Leads moves)
    (greedy : Bool) : (unlimited m greedy).Leads moves :=
  fun t k u hu => oneMore_leads h hm (atMostBytes_leads h hm greedy t.rest) greedy t k u hu

/-! ## Expressions -/

/-- An assertion goes on from where it is, or not at all. -/
theorem assertion_leads (h : Thread.Moves moves) {test : Thread → Bool} {m : Matcher}
    (hm : ∀ t k, m t k = if test t then k t else none) : m.Leads moves := by
  intro t k u hu
  rw [hm] at hu
  split at hu
  · exact ⟨t, h.refl t, hu⟩
  · cases hu

/-- **How expressions move.** Along every relation that holds along a search and that the groups of
the expression respect. -/
theorem run_leads (h : Thread.Moves moves) (r : Regex)
    (hcapture : ∀ index ∈ r.numbers, ∀ t v : Thread, moves t v →
      moves t (v.capture index t.offset)) : Matcher.Leads moves r.run := by
  induction r with
  | empty => exact fun t k u hu => ⟨t, h.refl t, hu⟩
  | one set =>
    intro t k u hu
    rw [run] at hu
    split at hu
    · cases hu
    · next b rest hrest =>
      split at hu
      · exact ⟨_, h.take hrest, hu⟩
      · cases hu
  | seq first second ihf ihs =>
    exact (ihf fun i hi => hcapture i (List.mem_append_left _ hi)).seq h
      (ihs fun i hi => hcapture i (List.mem_append_right _ hi))
  | alt first second ihf ihs =>
    intro t k u hu
    rw [run, Option.orElse_eq_or, Option.or_eq_some_iff] at hu
    rcases hu with hu | ⟨-, hu⟩
    · exact ihf (fun i hi => hcapture i (List.mem_append_left _ hi)) t k u hu
    · exact ihs (fun i hi => hcapture i (List.mem_append_right _ hi)) t k u hu
  | capture index inner ih =>
    intro t k u hu
    obtain ⟨v, hv, hk⟩ := ih (fun i hi => hcapture i (List.mem_cons_of_mem _ hi)) t _ u hu
    exact ⟨_, hcapture index List.mem_cons_self t v hv, hk⟩
  | repeated inner least extra greedy ih =>
    refine (exactly_leads h (ih hcapture) least).seq h ?_
    cases extra with
    | none => exact unlimited_leads h (ih hcapture) greedy
    | some n => exact atMost_leads h (ih hcapture) greedy n
  | lookahead positive inner ih =>
    intro t k u hu
    rw [run] at hu
    split at hu
    · next v hv =>
      obtain ⟨w, hw, hwv⟩ := ih hcapture t some v hv
      obtain rfl := Option.some.inj hwv
      split at hu
      · exact ⟨_, h.look hw, hu⟩
      · cases hu
    · split at hu
      · cases hu
      · exact ⟨t, h.refl t, hu⟩
  | lineStart => exact assertion_leads h fun _ _ => rfl
  | lineEnd => exact assertion_leads h fun _ _ => rfl
  | wordEdge atEdge => exact assertion_leads h fun _ _ => rfl

end Leads

/-! ## Forward, in the text -/

/-- A thread of a search over `total` bytes: what was taken and what is left make up the whole, and
every capture lies in it. -/
structure Thread.Within (total : Nat) (t : Thread) : Prop where
  /-- what was taken and what is left -/
  length_eq : t.offset + t.rest.length = total
  /-- where the captures lie -/
  captures_le : ∀ c ∈ t.captures, c.2.start + c.2.length ≤ total

/-- Remembering a stretch that started earlier keeps a thread in the text. -/
theorem Thread.Within.capture {total : Nat} {t : Thread} (h : t.Within total) {start : Nat}
    (hstart : start ≤ t.offset) (index : Nat) : (t.capture index start).Within total := by
  refine ⟨h.length_eq, fun c hc => ?_⟩
  rcases List.mem_cons.1 hc with hc | hc
  · subst hc
    have := h.length_eq
    show start + (t.offset - start) ≤ total
    omega
  · exact h.captures_le c hc

/-- The search has moved forward and has not left a text of `total` bytes. -/
def Thread.Forward (total : Nat) (t v : Thread) : Prop :=
  t.Within total → v.Within total ∧ t.offset ≤ v.offset

theorem Thread.Forward.moves (total : Nat) : Moves (Forward total) where
  refl t ht := ⟨ht, Nat.le_refl _⟩
  trans huv hvw hu := by
    obtain ⟨hv, hle⟩ := huv hu
    obtain ⟨hw, hle'⟩ := hvw hv
    exact ⟨hw, Nat.le_trans hle hle'⟩
  take {t b rest} hrest ht := by
    have hlen := ht.length_eq
    rw [hrest, List.length_cons] at hlen
    exact ⟨⟨by show t.offset + 1 + rest.length = total; omega, ht.captures_le⟩, Nat.le_succ _⟩
  look hv ht := ⟨⟨ht.length_eq, (hv ht).1.captures_le⟩, Nat.le_refl _⟩

/-- **Expressions only move forward**, and their captures lie in the text. -/
theorem run_forward (r : Regex) (total : Nat) : Matcher.Leads (Thread.Forward total) r.run :=
  run_leads (Thread.Forward.moves total) r fun index _ _ _ hv ht =>
    ⟨(hv ht).1.capture (hv ht).2 index, (hv ht).2⟩

/-! ## Without groups -/

/-- The search has moved forward and made no captures. -/
def Thread.Keeps (t v : Thread) : Prop := v.captures = t.captures ∧ t.offset ≤ v.offset

theorem Thread.Keeps.moves : Moves Keeps where
  refl _ := ⟨rfl, Nat.le_refl _⟩
  trans huv hvw := ⟨hvw.1.trans huv.1, Nat.le_trans huv.2 hvw.2⟩
  take _ := ⟨rfl, Nat.le_succ _⟩
  look hv := ⟨hv.1, Nat.le_refl _⟩

/-- **An expression without groups** keeps the captures there are. -/
theorem run_keeps {r : Regex} (hr : r.numbers = []) : Matcher.Leads Thread.Keeps r.run :=
  run_leads Thread.Keeps.moves r fun index hindex => by
    rw [hr] at hindex
    cases hindex

end Regex

namespace Pattern

variable {p : Pattern} {before : Option UInt8} {rest : Bytes} {m : Match}

/-- A match ends in a place that the expression leads to, and the spans of its groups are captures
made on the way. -/
theorem exists_moves_of_matchAt {moves : Regex.Thread → Regex.Thread → Prop}
    (hp : Regex.Matcher.Leads moves p.body.run) (h : p.matchAt before rest = some m) :
    ∃ v : Regex.Thread, moves ⟨before, 0, rest, []⟩ v ∧ m.length = v.offset ∧
      m.groups = (List.range p.groups).map fun i => v.captures.lookup (i + 1) := by
  obtain ⟨t, ht, rfl⟩ := Option.map_eq_some_iff.1 h
  obtain ⟨v, hv, hvt⟩ := hp _ some t ht
  obtain rfl := Option.some.inj hvt
  exact ⟨v, hv, rfl, rfl⟩

/-- What is looked up is a capture. -/
theorem mem_of_lookup {captures : List (Nat × Span)} {i : Nat} {a : Span}
    (h : captures.lookup i = some a) : (i, a) ∈ captures := by
  obtain ⟨front, back, hsplit, -⟩ := List.lookup_eq_some_iff.1 h
  rw [hsplit]
  exact List.mem_append_right _ List.mem_cons_self

/-- The search ends in the text it was given. -/
theorem exists_within_of_matchAt (h : p.matchAt before rest = some m) :
    ∃ v : Regex.Thread, v.Within rest.length ∧ m.length = v.offset ∧
      m.groups = (List.range p.groups).map fun i => v.captures.lookup (i + 1) := by
  have hstart : Regex.Thread.Within rest.length ⟨before, 0, rest, []⟩ :=
    ⟨Nat.zero_add _, fun c hc => absurd hc List.not_mem_nil⟩
  obtain ⟨v, hv, hm⟩ := exists_moves_of_matchAt (Regex.run_forward p.body rest.length) h
  exact ⟨v, (hv hstart).1, hm⟩

/-- A match takes no more bytes than there are. -/
theorem matchAt_length_le (h : p.matchAt before rest = some m) : m.length ≤ rest.length := by
  obtain ⟨v, hv, hlength, -⟩ := exists_within_of_matchAt h
  have := hv.length_eq
  omega

/-- The groups of a match lie in the text, whether in the match or not. -/
theorem group_le_of_matchAt (h : p.matchAt before rest = some m) {a : Span}
    (ha : some a ∈ m.groups) : a.start + a.length ≤ rest.length := by
  obtain ⟨v, hv, -, hgroups⟩ := exists_within_of_matchAt h
  rw [hgroups] at ha
  obtain ⟨i, -, hi⟩ := List.mem_map.1 ha
  exact hv.captures_le _ (mem_of_lookup hi)

end Pattern

end StackLexer
