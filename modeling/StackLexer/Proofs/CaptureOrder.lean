import StackLexer.Regex.Bounds

/-!
# Groups side by side

The groups of a match come in the order of their numbers, which is that of their opening brackets.
Their spans need not: a group inside another one lies in its span, one in a repetition may be made
again after a later one, and one in a lookahead may lie beyond the match. Where nothing of the kind
is written, the spans do come in the order of the numbers.

* `Span.Row` — spans of a part of a text, one after the other;
* `Regex.lastGroup?` — the last number of an expression whose groups are written side by side, none
  if they are not;
* `Regex.Thread.InOrder` — the captures of a thread come in the order of their numbers.
  `Regex.run_inOrder` is its run lemma, one case per constructor;
* `Pattern.row_of_sideBySide` — the groups of a match of such a pattern are a row in it.
-/

namespace StackLexer

/-! ## Rows -/

namespace Span

/-- Where a span ends. -/
def stop (a : Span) : Nat := a.start + a.length

/-- The same span, seen from `n` bytes before. -/
def shift (n : Nat) (a : Span) : Span := ⟨n + a.start, a.length⟩

theorem stop_shift (n : Nat) (a : Span) : (a.shift n).stop = n + a.stop := Nat.add_assoc _ _ _

/-- Spans between `lo` and `hi`, each one starting no earlier than the one before it ends. -/
inductive Row : Nat → List Span → Nat → Prop
  /-- no spans -/
  | nil {lo hi : Nat} (h : lo ≤ hi) : Row lo [] hi
  /-- a span, and the others from its end on -/
  | cons {lo hi : Nat} {a : Span} {more : List Span} (h : lo ≤ a.start)
      (hmore : Row a.stop more hi) : Row lo (a :: more) hi

namespace Row

variable {lo mid hi : Nat} {spans more : List Span}

theorem le (h : Row lo spans hi) : lo ≤ hi := by
  induction h with
  | nil h => exact h
  | @cons lo hi a more h _ ih =>
    rw [stop] at ih
    omega

/-- What starts later or ends earlier is between as well. -/
theorem mono {lo' hi' : Nat} (h : Row lo spans hi) (hlo : lo' ≤ lo) (hhi : hi ≤ hi') :
    Row lo' spans hi' := by
  induction h generalizing lo' with
  | nil h => exact .nil (by omega)
  | cons h _ ih => exact .cons (Nat.le_trans hlo h) (ih (Nat.le_refl _) hhi)

/-- One row after another. -/
theorem append (h : Row lo spans mid) (hmore : Row mid more hi) : Row lo (spans ++ more) hi := by
  induction h with
  | nil h => exact hmore.mono h (Nat.le_refl _)
  | cons h _ ih => exact .cons h (ih hmore)

/-- A row, seen from `n` bytes before. -/
theorem shift (h : Row lo spans hi) (n : Nat) :
    Row (n + lo) (spans.map (Span.shift n)) (n + hi) := by
  induction h with
  | nil h => exact .nil (Nat.add_le_add_left h n)
  | @cons lo hi a more h _ ih =>
    rw [← stop_shift] at ih
    exact .cons (Nat.add_le_add_left h n) ih

/-- Spans may be left out of a row. -/
theorem sublist (h : Row lo spans hi) (hsub : more.Sublist spans) : Row lo more hi := by
  induction hsub generalizing lo with
  | slnil => exact h
  | cons a _ ih =>
    cases h with
    | cons hle hmore =>
      have hstop : lo ≤ a.stop := Nat.le_trans hle (Nat.le_add_right _ _)
      exact ih (hmore.mono hstop (Nat.le_refl _))
  | cons_cons a _ ih =>
    cases h with
    | cons hle hmore => exact .cons hle (ih hmore)

/-- Spans between two places that follow each other are a row. -/
theorem of_pairwise (h : lo ≤ hi) (hlo : ∀ a ∈ spans, lo ≤ a.start) (hhi : ∀ a ∈ spans, a.stop ≤ hi)
    (hpairwise : spans.Pairwise fun a b => a.stop ≤ b.start) : Row lo spans hi := by
  induction spans generalizing lo with
  | nil => exact .nil h
  | cons a more ih =>
    rw [List.forall_mem_cons] at hlo hhi
    rw [List.pairwise_cons] at hpairwise
    exact .cons hlo.1 (ih hhi.1 hpairwise.1 hhi.2 hpairwise.2)

/-- Every span of a row starts after its lower end. -/
theorem le_start (h : Row lo spans hi) : ∀ a ∈ spans, lo ≤ a.start := by
  induction h with
  | nil => exact fun a ha => absurd ha List.not_mem_nil
  | @cons lo hi a more h _ ih =>
    rw [List.forall_mem_cons]
    refine ⟨h, fun b hb => ?_⟩
    have := ih b hb
    rw [stop] at this
    omega

/-- Of two spans in a row, the first one ends before the second one starts. -/
theorem pairwise (h : Row lo spans hi) : spans.Pairwise fun a b => a.stop ≤ b.start := by
  induction h with
  | nil => exact .nil
  | cons _ hmore ih => exact .cons hmore.le_start ih

end Row

end Span

/-! ## Groups written side by side -/

namespace Regex

/-- The last group number of an expression that comes after the group `n`, if its groups are written
side by side: in the order of their numbers, no group inside another one, in a lookahead or in
anything that may be repeated. -/
def lastGroup? : Regex → Nat → Option Nat
  | .seq first second, n | .alt first second, n => (first.lastGroup? n).bind second.lastGroup?
  | .capture index inner, n => if n < index ∧ inner.numbers = [] then some index else none
  | .repeated inner least extra _, n =>
    if inner.numbers = [] then some n
    else if least = 0 ∧ extra = some 1 then inner.lastGroup? n
    else none
  | .lookahead _ inner, n => if inner.numbers = [] then some n else none
  | .empty, n | .one _, n | .lineStart, n | .lineEnd, n | .wordEdge _, n => some n

/-- The numbers go up. -/
theorem le_of_lastGroup? {r : Regex} {n last : Nat} (h : r.lastGroup? n = some last) :
    n ≤ last := by
  induction r generalizing n last with
  | seq first second ihf ihs | alt first second ihf ihs =>
    obtain ⟨mid, hmid, hlast⟩ := Option.bind_eq_some_iff.1 h
    exact Nat.le_trans (ihf hmid) (ihs hlast)
  | capture index inner _ =>
    rw [lastGroup?] at h
    split at h
    · next hindex =>
      obtain rfl := Option.some.inj h
      exact Nat.le_of_lt hindex.1
    · cases h
  | repeated inner least extra greedy ih =>
    rw [lastGroup?] at h
    split at h
    · exact Nat.le_of_eq (Option.some.inj h)
    · split at h
      · exact ih h
      · cases h
  | lookahead positive inner _ =>
    rw [lastGroup?] at h
    split at h
    · exact Nat.le_of_eq (Option.some.inj h)
    · cases h
  | empty | one | lineStart | lineEnd | wordEdge => exact Nat.le_of_eq (Option.some.inj h)

/-- The captures of a thread come in the order of their numbers, none of which is above `n`. -/
structure Thread.InOrder (n : Nat) (t : Thread) : Prop where
  /-- no higher number was used, and nothing beyond this place was captured -/
  bound : ∀ c ∈ t.captures, c.1 ≤ n ∧ c.2.stop ≤ t.offset
  /-- captures with a higher number start later -/
  ordered : ∀ c ∈ t.captures, ∀ d ∈ t.captures, c.1 < d.1 → c.2.stop ≤ d.2.start

namespace Thread.InOrder

variable {n : Nat} {t v : Thread}

theorem mono {last : Nat} (h : t.InOrder n) (hle : n ≤ last) : t.InOrder last :=
  ⟨fun c hc => ⟨Nat.le_trans (h.bound c hc).1 hle, (h.bound c hc).2⟩, h.ordered⟩

/-- Moving forward without a capture keeps the order. -/
theorem keeps (h : t.InOrder n) (hv : t.Keeps v) : v.InOrder n := by
  obtain ⟨hcaptures, hle⟩ := hv
  refine ⟨fun c hc => ?_, ?_⟩
  · rw [hcaptures] at hc
    exact ⟨(h.bound c hc).1, Nat.le_trans (h.bound c hc).2 hle⟩
  · rw [hcaptures]
    exact h.ordered

/-- A capture with a higher number, of what was taken since. -/
theorem capture (h : t.InOrder n) (hv : t.Keeps v) {index : Nat} (hindex : n < index) :
    (v.capture index t.offset).InOrder index := by
  have hnew : (⟨t.offset, v.offset - t.offset⟩ : Span).stop = v.offset :=
    Nat.add_sub_cancel' hv.2
  have hold : ∀ c ∈ v.captures, c.1 ≤ n ∧ c.2.stop ≤ t.offset := by
    rw [hv.1]
    exact h.bound
  refine ⟨fun c hc => ?_, fun c hc d hd hlt => ?_⟩
  · rcases List.mem_cons.1 hc with rfl | hc
    · exact ⟨Nat.le_refl _, Nat.le_of_eq hnew⟩
    · obtain ⟨hle, hstop⟩ := hold c hc
      exact ⟨by omega, Nat.le_trans hstop hv.2⟩
  · rcases List.mem_cons.1 hc with rfl | hc <;> rcases List.mem_cons.1 hd with rfl | hd
    · exact absurd hlt (Nat.lt_irrefl _)
    · -- the numbers used before are lower
      have hle := (hold d hd).1
      have : index < d.1 := hlt
      omega
    · exact (hold c hc).2
    · exact (h.keeps hv).ordered c hc d hd hlt

end Thread.InOrder

/-- Captures stay in order while nothing is captured. -/
theorem run_inOrder_of_numbers {r : Regex} (hr : r.numbers = []) (n : Nat) :
    Matcher.Leads (fun t v => t.InOrder n → v.InOrder n) r.run := by
  intro t k u hu
  obtain ⟨v, hv, hk⟩ := run_keeps hr t k u hu
  exact ⟨v, fun ht => ht.keeps hv, hk⟩

/-- **Captures stay in order** while the groups of an expression are written side by side. -/
theorem run_inOrder {r : Regex} {n last : Nat} (h : r.lastGroup? n = some last) :
    Matcher.Leads (fun t v => t.InOrder n → v.InOrder last) r.run := by
  induction r generalizing n last with
  | seq first second ihf ihs =>
    obtain ⟨mid, hmid, hlast⟩ := Option.bind_eq_some_iff.1 h
    intro t k u hu
    obtain ⟨v, hv, hk⟩ := ihf hmid t _ u hu
    obtain ⟨w, hw, hk'⟩ := ihs hlast v k u hk
    exact ⟨w, fun ht => hw (hv ht), hk'⟩
  | alt first second ihf ihs =>
    obtain ⟨mid, hmid, hlast⟩ := Option.bind_eq_some_iff.1 h
    intro t k u hu
    rw [run, Option.orElse_eq_or, Option.or_eq_some_iff] at hu
    rcases hu with hu | ⟨-, hu⟩
    · obtain ⟨v, hv, hk⟩ := ihf hmid t k u hu
      exact ⟨v, fun ht => (hv ht).mono (le_of_lastGroup? hlast), hk⟩
    · obtain ⟨v, hv, hk⟩ := ihs hlast t k u hu
      exact ⟨v, fun ht => hv (ht.mono (le_of_lastGroup? hmid)), hk⟩
  | capture index inner _ =>
    rw [lastGroup?] at h
    split at h
    · next hindex =>
      obtain rfl := Option.some.inj h
      intro t k u hu
      obtain ⟨v, hv, hk⟩ := run_keeps hindex.2 t _ u hu
      exact ⟨_, fun ht => ht.capture hv hindex.1, hk⟩
    · cases h
  | repeated inner least extra greedy ih =>
    rw [lastGroup?] at h
    split at h
    · next hnone =>
      obtain rfl := Option.some.inj h
      exact run_inOrder_of_numbers (r := .repeated inner least extra greedy) hnone n
    · split at h
      · next honce =>
        -- one round at most
        obtain ⟨rfl, rfl⟩ := honce
        intro t k u hu
        rcases eq_some_of_oneMore hu with hround | hnone
        · obtain ⟨v, hv, hk⟩ := ih h t _ u hround
          refine ⟨v, hv, ?_⟩
          split at hk <;> exact hk
        · exact ⟨t, fun ht => ht.mono (le_of_lastGroup? h), hnone⟩
      · cases h
  | lookahead positive inner _ =>
    rw [lastGroup?] at h
    split at h
    · next hnone =>
      obtain rfl := Option.some.inj h
      exact run_inOrder_of_numbers (r := .lookahead positive inner) hnone n
    · cases h
  | empty | one | lineStart | lineEnd | wordEdge =>
    obtain rfl := Option.some.inj h
    exact run_inOrder_of_numbers rfl n

end Regex

namespace Pattern

/-- A pattern whose groups are written side by side. -/
def SideBySide (p : Pattern) : Prop := (p.body.lastGroup? 0).isSome = true

instance (p : Pattern) : Decidable p.SideBySide :=
  inferInstanceAs (Decidable ((p.body.lastGroup? 0).isSome = true))

/-- **Groups written side by side are a row in the match.** -/
theorem row_of_sideBySide {p : Pattern} (hp : p.SideBySide) {before : Option UInt8} {rest : Bytes}
    {m : Match} (h : p.matchAt before rest = some m) :
    Span.Row 0 (m.groups.filterMap id) m.length := by
  obtain ⟨last, hlast⟩ := Option.isSome_iff_exists.1 hp
  obtain ⟨v, hv, hlength, hgroups⟩ := exists_moves_of_matchAt (Regex.run_inOrder hlast) h
  have hnone : ∀ c : Nat × Span, c ∉ ([] : List (Nat × Span)) := fun c => List.not_mem_nil
  obtain ⟨hbound, hordered⟩ := hv ⟨fun c hc => absurd hc (hnone c), fun c hc => absurd hc (hnone c)⟩
  rw [hlength, hgroups, List.filterMap_map]
  refine .of_pairwise (Nat.zero_le _) (fun a _ => Nat.zero_le _) (fun a ha => ?_) ?_
  · obtain ⟨i, -, hi⟩ := List.mem_filterMap.1 ha
    exact (hbound _ (mem_of_lookup hi)).2
  · rw [List.pairwise_filterMap]
    refine List.pairwise_lt_range.imp fun {i j} hlt a ha b hb => ?_
    exact hordered _ (mem_of_lookup ha) _ (mem_of_lookup hb) (Nat.succ_lt_succ hlt)

-- a group beside another one, and inside it
example : SideBySide ⟨.seq (.capture 1 .empty) (.capture 2 .empty), 2⟩ ∧
    ¬SideBySide ⟨.capture 1 (.seq (.capture 2 .empty) .lineEnd), 2⟩ := by decide

end Pattern

end StackLexer
