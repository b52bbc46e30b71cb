import Mathlib.Data.List.Basic
import StackLexer.Proofs.Interning

/-!
# What the past decides

A node is found by its path alone, and with dots in segments a path can be made of other segments
as well. Then the first request for a path decides what later ones for it yield, whatever segments
they give (`TypeTable.Sound.ofSegments_ofSegments`), and a request may be answered differently after
different histories.

* `TypeTable.Sound.ofSegments_of_find?` and `TypeTable.Sound.ofSegments_of_miss` — what a request
  yields when its path is known, and when it is not;
* `Whole` — segments that no others have the path of: at most one, and not one that could be cut in
  two at a dot. All others have a rival (`exists_rival`), which a history can put in their place;
* `Session.Steady` — a request is answered alike after all histories with a common beginning, such
  as the standard types being entered before anything else;
* `Session.steady_iff` — this is so exactly when the beginning already has the path, or the segments
  are whole; and without dots in segments it is always so.
-/

namespace StackLexer

variable {P : Bytes → Prop}

namespace TypeTable

variable {table : TypeTable} {segments : List Bytes}

/-! ## Known and unknown paths -/

/-- Only the segments that count lead anywhere. -/
theorem ofSegments_counted (table : TypeTable) (segments : List Bytes) :
    table.ofSegments (TokenType.ofSegments segments).segments = table.ofSegments segments := by
  induction segments using List.reverseRecOn with
  | nil => rfl
  | append_singleton segments s ih =>
    by_cases hs : s = []
    · rw [hs, TokenType.ofSegments_concat_nil, ofSegments_concat, descend_nil, ih]
    · rw [TokenType.ofSegments_concat hs, ofSegments_concat, ofSegments_concat, ih]

/-- The node yielded has the path of the segments, whatever its own segments are. -/
theorem Sound.path_ofSegments (h : table.Sound P) (hproper : Proper P segments) :
    (table.ofSegments segments).2.path = (⟨segments⟩ : TokenType).path := by
  induction segments using List.reverseRecOn with
  | nil => rfl
  | append_singleton segments s ih =>
    obtain ⟨hsegments, hs⟩ := proper_append.1 hproper
    obtain ⟨hsound, -, -⟩ := h.ofSegments fun x hx => (hsegments x hx).2
    rw [ofSegments_concat, hsound.path_descend (proper_singleton.1 hs).1, TypeNode.extend,
      TypeNode.path, ih hsegments, TokenType.path_concat]
    simp only [List.isEmpty_iff, TokenType.path_eq_nil_iff hsegments]

/-- Only the root has an empty path. -/
theorem Sound.segments_eq_nil_iff (h : table.Sound P) {n : TypeNode} (hn : table.Holds n) :
    n.segments = [] ↔ n.path = [] := by
  rw [h.path_of_holds hn]
  exact (TokenType.path_eq_nil_iff (h.of_holds hn).2).symm

/-- What was asked for is known. -/
theorem Sound.find?_ofSegments_self (h : table.Sound P) (hproper : Proper P segments)
    (hne : segments ≠ []) :
    (table.ofSegments segments).1.find? (⟨segments⟩ : TokenType).path =
      some (table.ofSegments segments).2 := by
  obtain ⟨-, hholds, -⟩ := h.ofSegments fun x hx => (hproper x hx).2
  have hpath := h.path_ofSegments hproper
  rw [← hpath]
  refine hholds.resolve_left fun hroot => hne ?_
  rw [← TokenType.path_eq_nil_iff hproper, ← hpath, hroot]
  rfl

/-- When the path is known, the node entered under it is what a request yields. -/
theorem Sound.ofSegments_of_find? (h : table.Sound P) (hproper : Proper P segments) {n : TypeNode}
    (hn : table.find? (⟨segments⟩ : TokenType).path = some n) :
    (table.ofSegments segments).2 = n := by
  obtain ⟨-, -, hext⟩ := h.ofSegments fun x hx => (hproper x hx).2
  have hne : segments ≠ [] := by
    -- nothing is entered under the path of the root
    rintro rfl
    have hnil := (h.segments_eq_nil_iff (h.holds_of_find? hn)).2 (h.path_eq _ n hn)
    exact (h.proper _ n hn).1 hnil
  have hself := h.find?_ofSegments_self hproper hne
  rw [hext _ n hn] at hself
  exact (Option.some.inj hself).symm

/-- **The first request for a path decides** what the next one for it yields. -/
theorem Sound.ofSegments_ofSegments (h : table.Sound P) {a b : List Bytes} (ha : Proper P a)
    (hb : Proper P b) (hpath : (⟨b⟩ : TokenType).path = (⟨a⟩ : TokenType).path) :
    ((table.ofSegments a).1.ofSegments b).2 = (table.ofSegments a).2 := by
  obtain ⟨hsound, -, -⟩ := h.ofSegments fun x hx => (ha x hx).2
  by_cases hne : a = []
  · subst hne
    obtain rfl := (TokenType.path_eq_nil_iff hb).1 hpath
    rfl
  · refine hsound.ofSegments_of_find? hb ?_
    rw [hpath, h.find?_ofSegments_self ha hne]

/-- Nothing is entered under a longer path than that of the segments. -/
theorem Sound.find?_ofSegments (h : table.Sound P) (hproper : Proper P segments) {path : Bytes}
    {n : TypeNode} (hn : (table.ofSegments segments).1.find? path = some n) :
    table.find? path = some n ∨ path.length ≤ (⟨segments⟩ : TokenType).path.length := by
  induction segments using List.reverseRecOn with
  | nil => exact .inl hn
  | append_singleton segments s ih =>
    obtain ⟨hsegments, hs⟩ := proper_append.1 hproper
    have hlonger : (⟨segments⟩ : TokenType).path.length ≤
        (⟨segments ++ [s]⟩ : TokenType).path.length := by
      rw [TokenType.path_concat]
      split
      · next hnil => simp [hnil, TokenType.path]
      · simp
    have hbefore : (table.ofSegments segments).1.find? path = some n → _ := fun hn =>
      (ih hsegments hn).imp_right fun hle => Nat.le_trans hle hlonger
    have hpath := h.path_ofSegments hproper
    rw [ofSegments_concat] at hn hpath
    rcases descend_cases (table.ofSegments segments).1 (table.ofSegments segments).2
      (proper_singleton.1 hs).1 with ⟨known, -, heq⟩ | ⟨-, table', htable', heq⟩
    · rw [heq] at hn
      exact hbefore hn
    · rw [heq] at hn hpath
      rw [htable'] at hn
      split at hn
      · next hnew => exact .inr (Nat.le_of_eq (by rw [← hnew, ← hpath]))
      · exact hbefore hn

/-- When the path is not known, a request enters a node below the one that all segments but the last
lead to. -/
theorem Sound.ofSegments_of_miss (h : table.Sound P) {s : Bytes}
    (hproper : Proper P (segments ++ [s]))
    (hmiss : table.find? (⟨segments ++ [s]⟩ : TokenType).path = none) :
    (table.ofSegments (segments ++ [s])).2 = (table.ofSegments segments).2.extend s := by
  obtain ⟨hsegments, hs⟩ := proper_append.1 hproper
  have hne : s ≠ [] := (proper_singleton.1 hs).1
  obtain ⟨hsound, -, -⟩ := h.ofSegments fun x hx => (hsegments x hx).2
  have hpath := h.path_ofSegments hproper
  rw [ofSegments_concat, hsound.path_descend hne] at hpath
  rw [ofSegments_concat]
  rcases descend_cases (table.ofSegments segments).1 (table.ofSegments segments).2 hne with
    ⟨known, hknown, -⟩ | ⟨-, table', -, heq⟩
  · rw [hpath] at hknown
    rcases h.find?_ofSegments hsegments hknown with hfound | hshorter
    · rw [hmiss] at hfound
      cases hfound
    · rw [TokenType.path_concat] at hshorter
      split at hshorter
      · next hnil =>
        rw [hnil] at hshorter
        exact absurd (List.length_eq_zero_iff.1 (Nat.le_zero.1 hshorter)) hne
      · rw [List.length_append, List.length_cons] at hshorter
        omega
  · rw [heq]

/-- Without dots in the table, what is known under a path without dots in segments has these
segments. -/
theorem Sound.segments_of_find? (h : table.Sound DotFree) (hproper : Proper DotFree segments)
    {n : TypeNode} (hn : table.find? (⟨segments⟩ : TokenType).path = some n) :
    n.segments = segments := by
  rw [← h.ofSegments_of_find? hproper hn, h.ofSegments_of_proper hproper, TypeNode.segments_ofType]

/-- So it enters one right below the root only for a single segment. -/
theorem Sound.length_of_miss (h : table.Sound P) (hproper : Proper P segments)
    (hne : segments ≠ []) (hmiss : table.find? (⟨segments⟩ : TokenType).path = none) :
    (table.ofSegments segments).2.segments.length = 1 ↔ segments.length = 1 := by
  obtain ⟨before, s, rfl⟩ := (List.eq_nil_or_concat' segments).resolve_left hne
  obtain ⟨hbefore, -⟩ := proper_append.1 hproper
  obtain ⟨hsound, hholds, -⟩ := h.ofSegments fun x hx => (hbefore x hx).2
  have hnil : (table.ofSegments before).2.segments = [] ↔ before = [] := by
    rw [hsound.segments_eq_nil_iff hholds, h.path_ofSegments hbefore,
      TokenType.path_eq_nil_iff hbefore]
  rw [h.ofSegments_of_miss hproper hmiss]
  simp [hnil]

/-- The standard types are of any kind that their segments are of. -/
theorem sound_standard (hP : ∀ entry ∈ TokenType.standard, ∀ s ∈ entry.1.segments, P s) :
    standard.Sound P :=
  List.foldlRecOn _ _ sound_empty fun _ h entry hentry => (h.ofSegments (hP entry hentry)).1

theorem sound_standard_dotFree : standard.Sound DotFree := by
  refine sound_standard fun entry hentry => ?_
  obtain ⟨⟨dotted, short⟩, -, rfl⟩ := List.mem_map.1 hentry
  exact fun s hs => (proper_splitDotted _ s hs).2

end TypeTable

/-! ## Rivals -/

variable {segments : List Bytes}

/-- At most one segment, and not one that could be cut in two at a dot. -/
def Whole (segments : List Bytes) : Prop :=
  segments = [] ∨ ∃ s, segments = [s] ∧ ∀ x y, s = x ++ 46 :: y → x = [] ∨ y = []

/-- No others have the path of whole segments. -/
theorem Whole.legible (h : Whole segments) (hproper : Proper P segments) : Legible P segments := by
  intro others hothers hpath
  rcases h with rfl | ⟨s, rfl, hcut⟩
  · exact (TokenType.path_eq_nil_iff hothers).1 hpath
  · rw [TokenType.path_singleton] at hpath
    rcases List.eq_nil_or_concat' others with rfl | ⟨before, last, rfl⟩
    · exact absurd hpath.symm (proper_singleton.1 hproper).1
    · obtain ⟨hbefore, hlast⟩ := proper_append.1 hothers
      rw [TokenType.path_concat] at hpath
      split at hpath
      · next hnil => rw [hnil, hpath, List.nil_append]
      · next hne =>
        rcases hcut _ _ hpath.symm with hnil | hnil
        · exact absurd ((TokenType.path_eq_nil_iff hbefore).1 hnil) hne
        · exact absurd hnil (proper_singleton.1 hlast).1

/-- Without dots, a segment cannot be cut. -/
theorem whole_iff_of_dotFree (h : Proper DotFree segments) :
    Whole segments ↔ segments.length ≤ 1 := by
  constructor
  · rintro (rfl | ⟨s, rfl, -⟩) <;> simp
  · intro hlength
    cases segments with
    | nil => exact .inl rfl
    | cons s rest =>
      obtain rfl : rest = [] := by simpa using hlength
      refine .inr ⟨s, rfl, fun x y hs => ?_⟩
      exact absurd (hs ▸ by simp) (proper_singleton.1 h).2

/-- Segments that are not whole share their path with others: several with a single one, a single
one with the two it can be cut in. -/
theorem exists_rival (hproper : Proper (fun _ => True) segments) (h : ¬Whole segments) :
    ∃ others, others ≠ [] ∧ Proper (fun _ => True) others ∧
      (⟨segments⟩ : TokenType).path = (⟨others⟩ : TokenType).path ∧
      ¬(others.length = 1 ↔ segments.length = 1) := by
  match segments with
  | [] => exact absurd (.inl rfl) h
  | [s] =>
    have hcut : ∃ x y, s = x ++ 46 :: y ∧ x ≠ [] ∧ y ≠ [] := by
      by_contra hwhole
      refine h (.inr ⟨s, rfl, fun x y hs => ?_⟩)
      by_contra hne
      rw [not_or] at hne
      exact hwhole ⟨x, y, hs, hne⟩
    obtain ⟨x, y, hs, hx, hy⟩ := hcut
    refine ⟨[x, y], List.cons_ne_nil _ _, by simp [Proper, hx, hy], ?_, by simp⟩
    rw [show [x, y] = [x] ++ [y] from rfl, TokenType.path_concat, if_neg (List.cons_ne_nil _ _),
      TokenType.path_singleton, TokenType.path_singleton, hs]
  | first :: next :: rest =>
    have hpath : (⟨first :: next :: rest⟩ : TokenType).path ≠ [] := fun hnil =>
      absurd ((TokenType.path_eq_nil_iff hproper).1 hnil) (List.cons_ne_nil _ _)
    exact ⟨[(⟨first :: next :: rest⟩ : TokenType).path], List.cons_ne_nil _ _,
      proper_singleton.2 ⟨hpath, trivial⟩, (TokenType.path_singleton _).symm, by simp⟩

namespace Session

/-! ## Histories with a common beginning -/

/-- Whatever segments were given, a session is sound. -/
theorem sound_after_any (history : List Request) : (after history).Sound fun _ => True := by
  refine sound_after (fun _ _ => trivial) fun r _ => ?_
  cases r <;> simp [Request.Gives]

theorem extends_answer {s : Session} (h : s.Sound fun _ => True) (r : Request) :
    s.table.Extends (s.answer r).table := by
  have hrequest (segments : List Bytes) : s.table.Extends (s.table.ofSegments segments).1 :=
    (h.table.ofSegments fun _ _ => trivial).2.2
  cases r with
  | intern dotted => exact hrequest _
  | parse name => exact hrequest _
  | ofSegments segments => exact hrequest _
  | child i name => exact hrequest _
  | parent i => exact fun _ _ hn => hn

/-- What is known stays known. -/
theorem extends_after (beginning history : List Request) :
    (after beginning).table.Extends (after (beginning ++ history)).table := by
  induction history using List.reverseRecOn with
  | nil =>
    rw [List.append_nil]
    exact fun _ _ hn => hn
  | append_singleton history r ih =>
    intro path n hn
    have hstep := extends_answer (sound_after_any (beginning ++ history)) r path n (ih path n hn)
    rwa [← List.append_assoc, after, List.foldl_append]

theorem table_after_ofSegments (beginning : List Request) (segments : List Bytes) :
    (after (beginning ++ [.ofSegments segments])).table =
      ((after beginning).table.ofSegments segments).1 := by
  rw [after, List.foldl_append]
  rfl

/-- What was asked for is known. -/
theorem known_of_mem {history : List Request} (hmem : .ofSegments segments ∈ history)
    (hproper : Proper (fun _ => True) segments) (hne : segments ≠ []) :
    ∃ n, (after history).table.find? (⟨segments⟩ : TokenType).path = some n := by
  obtain ⟨before, rest, rfl⟩ := List.append_of_mem hmem
  have hself := (sound_after_any before).table.find?_ofSegments_self hproper hne
  rw [← table_after_ofSegments] at hself
  rw [List.append_cons]
  exact ⟨_, extends_after _ rest _ _ hself⟩

/-- A known path is answered alike from then on. -/
theorem ofSegments_after_of_find? {beginning : List Request}
    (hproper : Proper (fun _ => True) segments) {n : TypeNode}
    (hn : (after beginning).table.find? (⟨segments⟩ : TokenType).path = some n)
    (history : List Request) :
    ((after (beginning ++ history)).table.ofSegments segments).2 = n :=
  (sound_after_any _).table.ofSegments_of_find? hproper (extends_after _ _ _ n hn)

/-- Whole segments lead to the node of their type, after any history. -/
theorem ofSegments_after_of_whole (hproper : Proper (fun _ => True) segments)
    (hwhole : Whole segments) (history : List Request) :
    ((after history).table.ofSegments segments).2 = .ofType ⟨segments⟩ :=
  (sound_after_any history).table.ofSegments_of_legible hproper (hwhole.legible hproper)

/-- Where the path is not known and the segments are not whole, the answer may go either way: it
depends on whether a rival is asked for first. -/
theorem exists_divergence {beginning : List Request} (hproper : Proper (fun _ => True) segments)
    (hmiss : (after beginning).table.find? (⟨segments⟩ : TokenType).path = none)
    (hwhole : ¬Whole segments) :
    ∃ history, ((after (beginning ++ history)).table.ofSegments segments).2.segments ≠
      ((after beginning).table.ofSegments segments).2.segments := by
  obtain ⟨others, hne, hothers, hpath, hlength⟩ := exists_rival hproper hwhole
  have hsound := (sound_after_any beginning).table
  refine ⟨[.ofSegments others], fun heq => hlength ?_⟩
  rw [table_after_ofSegments, hsound.ofSegments_ofSegments hothers hproper hpath] at heq
  rw [← hsound.length_of_miss hothers hne (hpath ▸ hmiss), heq]
  refine hsound.length_of_miss hproper ?_ hmiss
  rintro rfl
  exact hwhole (.inl rfl)

end Session

/-! ## Steady answers -/

/-- What can be read off two nodes is the same. -/
structure TypeNode.Alike (a b : TypeNode) : Prop where
  /-- the path -/
  path : a.path = b.path
  /-- the segments -/
  segments : a.segments = b.segments
  /-- the depth -/
  depth : a.depth = b.depth
  /-- the path of the node above, if there is one -/
  parent : a.parent?.map TypeNode.path = b.parent?.map TypeNode.path

theorem TypeNode.alike_of_eq {a b : TypeNode} (h : a = b) : a.Alike b := by
  rw [h]
  exact ⟨rfl, rfl, rfl, rfl⟩

namespace Session

/-- The answers are alike after all histories that have a beginning in common. -/
def Steady (beginning : List Request) (ask : TypeTable → TypeTable × TypeNode) : Prop :=
  ∀ history history',
    (ask (after (beginning ++ history)).table).2.Alike
      (ask (after (beginning ++ history')).table).2

/-- Answers are steady when the path is known, and else for whole segments only. -/
theorem steady_ofSegments_iff (beginning : List Request)
    (hproper : Proper (fun _ => True) segments) :
    Steady beginning (·.ofSegments segments) ↔
      (∃ n, (after beginning).table.find? (⟨segments⟩ : TokenType).path = some n) ∨
      Whole segments := by
  constructor
  · intro hsteady
    by_contra hneither
    obtain ⟨hknown, hwhole⟩ := not_or.1 hneither
    have hmiss := Option.eq_none_iff_forall_ne_some.2 (not_exists.1 hknown)
    obtain ⟨history, hdiffers⟩ := exists_divergence hproper hmiss hwhole
    have halike := (hsteady history []).segments
    rw [List.append_nil] at halike
    exact hdiffers halike
  · rintro (⟨n, hn⟩ | hwhole) history history'
    · refine TypeNode.alike_of_eq ?_
      rw [ofSegments_after_of_find? hproper hn, ofSegments_after_of_find? hproper hn]
    · refine TypeNode.alike_of_eq ?_
      rw [ofSegments_after_of_whole hproper hwhole, ofSegments_after_of_whole hproper hwhole]

/-- The segments given are those of the answer when the path is known for them, and else for whole
segments only. -/
theorem segments_ofSegments_iff (beginning : List Request)
    (hproper : Proper (fun _ => True) segments) :
    (∀ history,
        ((after (beginning ++ history)).table.ofSegments segments).2.segments = segments) ↔
      (∃ n, (after beginning).table.find? (⟨segments⟩ : TokenType).path = some n ∧
        n.segments = segments) ∨ Whole segments := by
  constructor
  · intro hkept
    by_cases hwhole : Whole segments
    · exact .inr hwhole
    have hnow := hkept []
    rw [List.append_nil] at hnow
    cases hfind : (after beginning).table.find? (⟨segments⟩ : TokenType).path with
    | some n =>
      rw [(sound_after_any beginning).table.ofSegments_of_find? hproper hfind] at hnow
      exact .inl ⟨n, rfl, hnow⟩
    | none =>
      obtain ⟨history, hdiffers⟩ := exists_divergence hproper hfind hwhole
      exact absurd ((hkept history).trans hnow.symm) hdiffers
  · rintro (⟨n, hn, hsegments⟩ | hwhole) history
    · rw [ofSegments_after_of_find? hproper hn, hsegments]
    · rw [ofSegments_after_of_whole hproper hwhole, TypeNode.segments_ofType]

/-- Without dots in segments, the past does not matter. -/
theorem ofSegments_after_of_dotFree {history : List Request} (h : ∀ r ∈ history, r.Gives DotFree)
    (hsegments : ∀ x ∈ segments, DotFree x) :
    ((after history).table.ofSegments segments).2 = .ofType (TokenType.ofSegments segments) :=
  (sound_after (fun _ hx => hx) h).table.ofSegments_eq hsegments
    (legible_of_dotFree (proper_ofSegments hsegments))

/-- **When the past does not matter.** Whatever requests come first, a request for segments is
answered alike from then on exactly when its path is known by then or the segments that count are
whole; it is answered with these very segments exactly when they are known by them or whole. A
request for a dotted path is steady exactly when it is known or has at most one segment. So dots in
segments are what makes the past matter: as long as none is given, all requests without dots in
segments are answered alike, with the segments given. -/
theorem steady_iff (beginning : List Request) (segments : List Bytes) (dotted : Bytes) :
    (Steady beginning (·.ofSegments segments) ↔
      (∃ n, (after beginning).table.find? (TokenType.ofSegments segments).path = some n) ∨
      Whole (TokenType.ofSegments segments).segments) ∧
    ((∀ history, ((after (beginning ++ history)).table.ofSegments segments).2.segments =
        segments.filter fun s => !s.isEmpty) ↔
      (∃ n, (after beginning).table.find? (TokenType.ofSegments segments).path = some n ∧
        n.segments = segments.filter fun s => !s.isEmpty) ∨
      Whole (TokenType.ofSegments segments).segments) ∧
    (Steady beginning (·.intern dotted) ↔
      (∃ n, (after beginning).table.find? (TokenType.intern dotted).path = some n) ∨
      (splitDotted dotted).length ≤ 1) ∧
    ∀ history history', (∀ r ∈ history, r.Gives DotFree) → (∀ r ∈ history', r.Gives DotFree) →
      ((after history).table.intern dotted).2.Alike ((after history').table.intern dotted).2 ∧
      ((∀ x ∈ segments, DotFree x) →
        ((after history).table.ofSegments segments).2.Alike
          ((after history').table.ofSegments segments).2 ∧
        ((after history).table.ofSegments segments).2.segments =
          segments.filter fun s => !s.isEmpty) := by
  have hcounted : Proper (fun _ => True) (TokenType.ofSegments segments).segments :=
    proper_ofSegments fun _ _ => trivial
  have hdotted : Proper DotFree (splitDotted dotted) := proper_splitDotted dotted
  refine ⟨?_, ?_, ?_, ?_⟩
  · rw [← steady_ofSegments_iff beginning hcounted]
    simp only [Steady, TypeTable.ofSegments_counted]
  · have hiff := segments_ofSegments_iff beginning hcounted
    simp only [TypeTable.ofSegments_counted] at hiff
    exact hiff
  · rw [← whole_iff_of_dotFree hdotted]
    exact steady_ofSegments_iff beginning fun x hx => ⟨(hdotted x hx).1, trivial⟩
  · intro history history' h h'
    constructor
    · have hsegments : ∀ x ∈ splitDotted dotted, DotFree x := fun x hx => (hdotted x hx).2
      refine TypeNode.alike_of_eq ?_
      rw [TypeTable.intern, TypeTable.intern, ofSegments_after_of_dotFree h hsegments,
        ofSegments_after_of_dotFree h' hsegments]
    · intro hsegments
      rw [ofSegments_after_of_dotFree h hsegments, ofSegments_after_of_dotFree h' hsegments,
        TypeNode.segments_ofType]
      exact ⟨TypeNode.alike_of_eq rfl, rfl⟩

theorem steady_keywords :
    (∀ r ∈ [Request.parse (bytes "Token.Keyword.Constant")], r.Gives DotFree) ∧
    (∀ x ∈ [bytes "Keyword", [], bytes "Constant"], DotFree x) ∧
    ((after []).table.ofSegments [bytes "Keyword", [], bytes "Constant"]).2.Alike
      ((after [.parse (bytes "Token.Keyword.Constant")]).table.ofSegments
        [bytes "Keyword", [], bytes "Constant"]).2 := by
  have hhistory : ∀ r ∈ [Request.parse (bytes "Token.Keyword.Constant")], r.Gives DotFree := by
    simp [Request.Gives]
  have hsegments : ∀ x ∈ [bytes "Keyword", [], bytes "Constant"], DotFree x := by
    unfold DotFree
    decide +kernel
  have hsteady := (steady_iff [] [bytes "Keyword", [], bytes "Constant"] []).2.2.2 []
    [.parse (bytes "Token.Keyword.Constant")] (fun _ h => absurd h List.not_mem_nil) hhistory
  exact ⟨hhistory, hsegments, (hsteady.2 hsegments).1⟩

/-! ## The standard types -/

/-- The requests that enter the standard types. -/
def standardRequests : List Request :=
  TokenType.standard.map fun entry => .ofSegments entry.1.segments

theorem table_after_standardRequests : (after standardRequests).table = .standard := by
  rw [after, standardRequests, List.foldl_map]
  exact (List.foldl_hom Session.table fun _ _ => rfl).symm

/-- No standard type starts with `A`, so the path is not known. -/
theorem find?_standard_unknown : TypeTable.standard.find? (bytes "A.B") = none := by
  have hother : TypeTable.standard.Sound fun s => s ≠ bytes "A" :=
    TypeTable.sound_standard (by decide +kernel)
  have hproper : Proper DotFree [bytes "A", bytes "B"] := by
    unfold Proper DotFree
    decide +kernel
  cases hfind : TypeTable.standard.find? (bytes "A.B") with
  | none => rfl
  | some n =>
    have hsegments := TypeTable.sound_standard_dotFree.segments_of_find? hproper hfind
    have hfirst := (hother.proper _ n hfind).2 (bytes "A") (hsegments ▸ List.mem_cons_self)
    exact absurd rfl hfirst.2

/-- Once the standard types are entered, a segment with a dot in it leads to a type with other
segments; and if no type has its path yet, it changes what the path leads to. -/
theorem standard_unsteady :
    (after standardRequests).table = .standard ∧
    ((after standardRequests).table.ofSegments [bytes "Keyword.Constant"]).2.segments =
      [bytes "Keyword", bytes "Constant"] ∧
    ((after standardRequests).table.intern (bytes "A.B")).2.segments = [bytes "A", bytes "B"] ∧
    ((after (standardRequests ++ [.ofSegments [bytes "A.B"]])).table.intern
      (bytes "A.B")).2.segments = [bytes "A.B"] := by
  have hsound := TypeTable.sound_standard_dotFree
  have hsplit : splitDotted (bytes "A.B") = [bytes "A", bytes "B"] := by decide +kernel
  refine ⟨table_after_standardRequests, ?_, ?_, ?_⟩
  · have hmem : .ofSegments [bytes "Keyword", bytes "Constant"] ∈ standardRequests :=
      List.mem_map.2 ⟨(⟨[bytes "Keyword", bytes "Constant"]⟩, bytes "kc"), by decide +kernel, rfl⟩
    have hproper : Proper DotFree [bytes "Keyword", bytes "Constant"] := by
      unfold Proper DotFree
      decide +kernel
    obtain ⟨n, hn⟩ := known_of_mem hmem (fun x hx => ⟨(hproper x hx).1, trivial⟩)
      (List.cons_ne_nil _ _)
    have hsingle : Proper (fun _ => True) [bytes "Keyword.Constant"] :=
      proper_singleton.2 ⟨by decide +kernel, trivial⟩
    -- both lists of segments have the same path
    rw [(sound_after_any standardRequests).table.ofSegments_of_find? hsingle hn]
    rw [table_after_standardRequests] at hn
    exact hsound.segments_of_find? hproper hn
  · rw [table_after_standardRequests, TypeTable.intern,
      hsound.ofSegments_of_proper (proper_splitDotted _), TypeNode.segments_ofType]
    exact hsplit
  · have hany := (sound_after_any standardRequests).table
    have hsingle : Proper (fun _ => True) [bytes "A.B"] :=
      proper_singleton.2 ⟨by decide +kernel, trivial⟩
    have hboth : Proper (fun _ => True) (splitDotted (bytes "A.B")) := fun x hx =>
      ⟨(proper_splitDotted _ x hx).1, trivial⟩
    have hpath : (⟨splitDotted (bytes "A.B")⟩ : TokenType).path =
        (⟨[bytes "A.B"]⟩ : TokenType).path := by
      rw [hsplit]
      decide +kernel
    have hmiss : (after standardRequests).table.find? (bytes "A.B") = none := by
      rw [table_after_standardRequests, find?_standard_unknown]
    have hnew := hany.ofSegments_of_miss (show Proper _ ([] ++ [bytes "A.B"]) from hsingle) hmiss
    rw [table_after_ofSegments, TypeTable.intern, hany.ofSegments_ofSegments hsingle hboth hpath]
    exact congrArg TypeNode.segments hnew

end Session

end StackLexer
