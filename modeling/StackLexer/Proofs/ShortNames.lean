import Mathlib.Data.List.Infix
import Mathlib.Data.List.Nodup
import StackLexer.Proofs.Histories

/-!
# Short names

A short name is found by going up from a node until a standard type is met, and what is left behind
is written after it. Nothing in the loop says that it ends: at the root there would be no last
segment to write and no node to go to. It ends there at the latest because the root is a standard
type. And nodes are met by their paths, while what counts are their segments.

* `TokenType.NearestStandard` — the standard type that has most of some segments, and those that
  remain; there always is one (`TokenType.exists_nearestStandard`);
* `TokenType.Clear` — segments of which no part in front can be taken for a standard type by its
  path. This is so without dots in segments (`TokenType.clear_of_dotFree`), and for all nodes of a
  table in which the standard types were entered first (`TypeTable.Sound.clear_of_holds`);
* `TokenType.climb_of_nearestStandard` — going up segment by segment leads to the nearest standard
  type, `TypeNode.nearestName?_ofType` — going up from node to node does the same;
* `Session.shortName_from_nearest` — the short names of all types that are asked for.
-/

namespace StackLexer

namespace TokenType

variable {segments known rest : List Bytes} {short s : Bytes}

/-! ## The table of standard types -/

theorem proper_standard {entry : TokenType × Bytes} (h : entry ∈ standard) :
    Proper DotFree entry.1.segments := by
  obtain ⟨⟨dotted, short⟩, -, rfl⟩ := List.mem_map.1 h
  exact proper_splitDotted _

/-- No type is listed twice. -/
theorem nodup_standard : (standard.map (·.1.segments)).Nodup := by decide +kernel

/-- The root is listed. -/
theorem root_mem_standard : (root, []) ∈ standard := by decide +kernel

/-- Looking a path up finds the one entry that has it. -/
theorem standardNameAt?_eq_some_iff {path : Bytes} :
    standardNameAt? path = some short ↔ ∃ t, (t, short) ∈ standard ∧ t.path = path := by
  rw [standardNameAt?, Option.map_eq_some_iff]
  refine ⟨?_, ?_⟩
  · rintro ⟨entry, hfind, rfl⟩
    exact ⟨entry.1, List.mem_of_find?_eq_some hfind, by simpa using List.find?_some hfind⟩
  · rintro ⟨t, hlisted, rfl⟩
    have hsome : (standard.find? fun entry => entry.1.path == t.path).isSome :=
      List.find?_isSome.2 ⟨(t, short), hlisted, by simp⟩
    obtain ⟨entry, hfind⟩ := Option.isSome_iff_exists.1 hsome
    have hentry := List.mem_of_find?_eq_some hfind
    have hpath : entry.1.path = t.path := by simpa using List.find?_some hfind
    have hsegments := (path_inj (proper_standard hentry) (proper_standard hlisted)).1 hpath
    refine ⟨entry, hfind, ?_⟩
    rw [List.inj_on_of_nodup_map nodup_standard hentry hlisted hsegments]

/-! ## The nearest standard type -/

/-- Segments in front that make a standard type, as many as possible, and what remains. -/
structure NearestStandard (segments known rest : List Bytes) (short : Bytes) : Prop where
  /-- together they are the segments -/
  split : known ++ rest = segments
  /-- the type and its name are listed -/
  listed : (⟨known⟩, short) ∈ standard
  /-- no listed type has more of the segments -/
  longest : ∀ entry ∈ standard, entry.1.segments <+: segments → entry.1.segments <+: known

/-- With one segment less, the type is still the nearest one. -/
theorem NearestStandard.of_concat
    (h : NearestStandard (segments ++ [s]) known (rest ++ [s]) short) :
    NearestStandard segments known rest short := by
  have hsplit : known ++ rest = segments := by
    have hsplit := h.split
    rw [← List.append_assoc] at hsplit
    exact List.append_cancel_right hsplit
  exact ⟨hsplit, h.listed, fun entry hentry hfront =>
    h.longest entry hentry (hfront.trans (List.prefix_append _ _))⟩

/-- There always is one: the root, if no other. -/
theorem exists_nearestStandard (segments : List Bytes) :
    ∃ known rest short, NearestStandard segments known rest short := by
  induction segments using List.reverseRecOn with
  | nil => exact ⟨[], [], [], rfl, root_mem_standard, fun _ _ hfront => hfront⟩
  | append_singleton segments s ih =>
    by_cases hlisted : ∃ short, (⟨segments ++ [s]⟩, short) ∈ standard
    · obtain ⟨short, hlisted⟩ := hlisted
      exact ⟨segments ++ [s], [], short, by simp, hlisted, fun _ _ hfront => hfront⟩
    · obtain ⟨known, rest, short, h⟩ := ih
      refine ⟨known, rest ++ [s], short, by simp [← h.split], h.listed, ?_⟩
      intro entry hentry hfront
      rcases List.prefix_concat_iff.1 hfront with hall | hfront
      · exact absurd ⟨entry.2, hall ▸ hentry⟩ hlisted
      · exact h.longest entry hentry hfront

/-! ## Paths and standard types -/

/-- What comes first in the segments has the path of a standard type only if it is that type. -/
def Clear (segments : List Bytes) : Prop :=
  ∀ known, known <+: segments → ∀ entry ∈ standard,
    entry.1.path = (⟨known⟩ : TokenType).path → entry.1.segments = known

theorem Clear.mono (h : Clear segments) (hfront : known <+: segments) : Clear known :=
  fun front hpart => h front (hpart.trans hfront)

/-- Without dots in segments, paths are as good as segments. -/
theorem clear_of_dotFree (h : Proper DotFree segments) : Clear segments := by
  intro known hfront entry hentry hpath
  have hknown : Proper DotFree known := fun s hs => h s (hfront.subset hs)
  exact (path_inj (proper_standard hentry) hknown).1 hpath

/-- Looking a type up by its path finds its entry. -/
theorem standardName?_eq_some_iff (h : Clear segments) :
    standardName? ⟨segments⟩ = some short ↔ (⟨segments⟩, short) ∈ standard := by
  rw [standardName?, standardNameAt?_eq_some_iff]
  refine ⟨?_, fun hlisted => ⟨_, hlisted, rfl⟩⟩
  rintro ⟨t, hlisted, hpath⟩
  obtain rfl := h segments List.prefix_rfl _ hlisted hpath
  exact hlisted

/-! ## Going up segment by segment -/

theorem climb_of_standard (h : standardName? ⟨segments⟩ = some short) (below : Bytes) :
    climb below segments.reverse = short ++ below := by
  induction segments using List.reverseRecOn with
  | nil => simp [climb, root, h]
  | append_singleton segments s _ => simp [climb, h]

theorem climb_concat (h : standardName? ⟨segments ++ [s]⟩ = none) (below : Bytes) :
    climb below (segments ++ [s]).reverse = climb (45 :: s ++ below) segments.reverse := by
  simp [climb, h]

/-- The name of a standard type with segments behind it, each after a `-`. -/
def nameBelow (short : Bytes) (rest : List Bytes) : Bytes := short ++ rest.flatMap fun s => 45 :: s

/-- **The way up** ends at the nearest standard type, and the segments on it are written in
order. -/
theorem climb_of_nearestStandard (hclear : Clear segments)
    (h : NearestStandard segments known rest short) (below : Bytes) :
    climb below segments.reverse = nameBelow short rest ++ below := by
  induction rest using List.reverseRecOn generalizing segments below with
  | nil =>
    obtain rfl : known = segments := by simpa using h.split
    have hname := (standardName?_eq_some_iff hclear).2 h.listed
    simp [climb_of_standard hname, nameBelow]
  | append_singleton rest s ih =>
    obtain rfl : (known ++ rest) ++ [s] = segments := by simpa using h.split
    have hnone : standardName? ⟨known ++ rest ++ [s]⟩ = none := by
      cases hname : standardName? ⟨known ++ rest ++ [s]⟩ with
      | none => rfl
      | some other =>
        -- it would be a longer one
        have hlisted := (standardName?_eq_some_iff hclear).1 hname
        have hlength := (h.longest _ hlisted List.prefix_rfl).length_le
        simp only [List.length_append, List.length_singleton] at hlength
        omega
    rw [climb_concat hnone, ih (hclear.mono (List.prefix_append _ _)) h.of_concat]
    simp [nameBelow]

end TokenType

/-! ## Going up from node to node -/

namespace TypeNode

/-- Going up from node to node never fails, and it is going up segment by segment. -/
theorem nearestName?_ofType {P : Bytes → Prop} {t : TokenType} (h : Proper P t.segments)
    (below : Bytes) :
    (ofType t).nearestName? below = some (TokenType.climb below t.segments.reverse) := by
  obtain ⟨segments⟩ := t
  induction segments using List.reverseRecOn generalizing below with
  | nil =>
    have hroot : TokenType.standardNameAt? [] = some [] := by decide +kernel
    simp [ofType, nearestName?, TokenType.climb, TokenType.standardName?, TokenType.root,
      TokenType.path, hroot]
  | append_singleton segments s ih =>
    have hpath := path_ofType h
    rw [ofType_concat, extend, TypeNode.path] at hpath
    rw [ofType_concat, extend, nearestName?, hpath, segments_ofType, ← TokenType.standardName?]
    cases hname : TokenType.standardName? ⟨segments ++ [s]⟩ with
    | some short => rw [TokenType.climb_of_standard hname]
    | none =>
      have hup := ih (45 :: s ++ below) (proper_append.1 h).1
      rw [TokenType.climb_concat hname, ← hup]
      simp

/-- The short name is that of the nearest standard type, followed by the segments that remain. -/
structure NamedFromNearest (n : TypeNode) : Prop where
  /-- there is a nearest standard type -/
  nearest : ∃ known rest short, TokenType.NearestStandard n.segments known rest short
  /-- going up finds its name and never asks the root for more, and the type is named alike -/
  name : ∀ known rest short, TokenType.NearestStandard n.segments known rest short →
    n.shortName? = some (TokenType.nameBelow short rest) ∧
      n.type.shortName = TokenType.nameBelow short rest

theorem namedFromNearest {P : Bytes → Prop} {n : TypeNode} (hn : n = ofType n.type)
    (hproper : Proper P n.segments) (hclear : TokenType.Clear n.segments) :
    n.NamedFromNearest := by
  have hfound : n.shortName? = some n.type.shortName := by
    have hup : (ofType n.type).nearestName? [] = some n.type.shortName :=
      nearestName?_ofType hproper []
    rwa [← hn] at hup
  refine ⟨TokenType.exists_nearestStandard _, fun known rest short h => ?_⟩
  have htype : n.type.shortName = TokenType.nameBelow short rest ++ [] :=
    TokenType.climb_of_nearestStandard hclear h []
  rw [List.append_nil] at htype
  exact ⟨hfound.trans (congrArg some htype), htype⟩

end TypeNode

/-! ## Tables -/

namespace TypeTable

variable {P : Bytes → Prop} {table : TypeTable} {known segments : List Bytes}

/-- A table has all nodes above those it has. -/
theorem Sound.holds_above (h : table.Sound P) (hholds : table.Holds (.ofType ⟨segments⟩))
    (hfront : known <+: segments) : table.Holds (.ofType ⟨known⟩) := by
  induction segments using List.reverseRecOn with
  | nil =>
    obtain rfl := List.prefix_nil.1 hfront
    exact hholds
  | append_singleton segments s ih =>
    rcases List.prefix_concat_iff.1 hfront with rfl | hfront
    · exact hholds
    · refine ih ?_ hfront
      rcases hholds with hroot | hfind
      · rw [TypeNode.ofType_concat] at hroot
        cases hroot
      · obtain ⟨above, habove, hheld⟩ := h.parent _ _ hfind
        rw [TypeNode.ofType_concat] at habove
        cases habove
        exact hheld

/-- A table has one node of a path. -/
theorem Sound.eq_of_path (h : table.Sound P) {a b : TypeNode} (ha : table.Holds a)
    (hb : table.Holds b) (hpath : a.path = b.path) : a = b := by
  by_cases hroot : a.path = []
  · have hnil : a.segments = [] ∧ b.segments = [] :=
      ⟨(h.segments_eq_nil_iff ha).2 hroot, (h.segments_eq_nil_iff hb).2 (hpath ▸ hroot)⟩
    rw [(h.of_holds ha).1, (h.of_holds hb).1, TypeNode.type, TypeNode.type, hnil.1, hnil.2]
  · have hfind {n : TypeNode} (hn : table.Holds n) (hne : n.path ≠ []) :
        table.find? n.path = some n :=
      hn.resolve_left fun heq => hne (heq ▸ rfl)
    have hsame := hfind hb (hpath ▸ hroot)
    rw [← hpath, hfind ha hroot] at hsame
    exact Option.some.inj hsame

/-- The table of the standard types has them under their own segments. -/
theorem holds_standard {entry : TokenType × Bytes} (hentry : entry ∈ TokenType.standard) :
    standard.Holds (.ofType entry.1) := by
  obtain ⟨⟨segments⟩, short⟩ := entry
  have hproper := TokenType.proper_standard hentry
  by_cases hne : segments = []
  · exact .inl (by rw [hne]; rfl)
  · have hmem : .ofSegments segments ∈ Session.standardRequests := List.mem_map_of_mem hentry
    obtain ⟨n, hn⟩ := Session.known_of_mem hmem (fun x hx => ⟨(hproper x hx).1, trivial⟩) hne
    rw [Session.table_after_standardRequests] at hn
    have hsegments := sound_standard_dotFree.segments_of_find? hproper hn
    have hholds := sound_standard_dotFree.holds_of_find? hn
    rwa [sound_standard_dotFree.eq_ofType _ n hn, TypeNode.type, hsegments] at hholds

/-- Where the standard types were entered first, no other type has the path of one of them. -/
theorem Sound.clear_of_holds (h : table.Sound P) (hext : standard.Extends table) {n : TypeNode}
    (hn : table.Holds n) : TokenType.Clear n.segments := by
  intro known hfront entry hentry hpath
  obtain ⟨heq, hproper⟩ := h.of_holds hn
  have hknown : Proper P known := fun s hs => hproper s (hfront.subset hs)
  have hsame : TypeNode.ofType entry.1 = .ofType ⟨known⟩ := by
    apply h.eq_of_path ((holds_standard hentry).mono hext)
    · apply h.holds_above _ hfront
      exact heq ▸ hn
    · rw [TypeNode.path_ofType (TokenType.proper_standard hentry), hpath]
      exact (TypeNode.path_ofType hknown).symm
  have hsegments := congrArg TypeNode.segments hsame
  rwa [TypeNode.segments_ofType, TypeNode.segments_ofType] at hsegments

end TypeTable

namespace Session

theorem extends_standard (history : List Request) :
    TypeTable.standard.Extends (after (standardRequests ++ history)).table := by
  rw [← table_after_standardRequests]
  exact extends_after standardRequests history

/-- **Short names come from the nearest standard type.** Take any type without dots in its segments,
after any history of requests: going up from it ends at the standard type that has most of its
segments, without the root being asked for a last segment or a node above it, and the short name is
the name of that type followed by `-` and each remaining segment in order. The same holds for every
type, with dots in its segments or not, if the standard types were entered first. As long as no
segment that is given has a dot in it, the segments of a type that is asked for are those given. -/
theorem shortName_from_nearest (history : List Request) :
    (∀ n, (after history).table.Holds n → (∀ s ∈ n.segments, DotFree s) → n.NamedFromNearest) ∧
    (∀ n, (after (standardRequests ++ history)).table.Holds n → n.NamedFromNearest) ∧
    ((∀ r ∈ history, r.Gives DotFree) → ∀ segments, (∀ s ∈ segments, DotFree s) →
      ((after history).table.ofSegments segments).2.segments =
          (segments.filter fun s => !s.isEmpty) ∧
        ((after history).table.ofSegments segments).2.NamedFromNearest) := by
  refine ⟨fun n hn hfree => ?_, fun n hn => ?_, fun hhistory segments hsegments => ?_⟩
  · obtain ⟨heq, hproper⟩ := (sound_after_any history).table.of_holds hn
    have hdots : Proper DotFree n.segments := fun s hs => ⟨(hproper s hs).1, hfree s hs⟩
    exact TypeNode.namedFromNearest heq hproper (TokenType.clear_of_dotFree hdots)
  · have hsound := (sound_after_any (standardRequests ++ history)).table
    obtain ⟨heq, hproper⟩ := hsound.of_holds hn
    have hclear := hsound.clear_of_holds (extends_standard history) hn
    exact TypeNode.namedFromNearest heq hproper hclear
  · have hproper := proper_ofSegments hsegments
    have hclear := TokenType.clear_of_dotFree hproper
    rw [ofSegments_after_of_dotFree hhistory hsegments]
    rw [← TypeNode.segments_ofType (TokenType.ofSegments segments)] at hproper hclear
    refine ⟨TypeNode.segments_ofType _, TypeNode.namedFromNearest ?_ hproper hclear⟩
    rw [TypeNode.type, TypeNode.segments_ofType]

/-- A type below a standard one, asked for with an empty segment, and a type with a dot in its
segment. -/
theorem shortName_from_nearest_extra :
    (∀ r ∈ [Request.intern (bytes "Keyword.Constant")], r.Gives DotFree) ∧
    (∀ s ∈ [bytes "Keyword", [], bytes "Constant", bytes "Extra"], DotFree s) ∧
    ((after [.intern (bytes "Keyword.Constant")]).table.ofSegments
      [bytes "Keyword", [], bytes "Constant", bytes "Extra"]).2.shortName? =
        some (bytes "kc-Extra") ∧
    ((after standardRequests).table.ofSegments [bytes "Text.Extra"]).2.NamedFromNearest := by
  have hhistory : ∀ r ∈ [Request.intern (bytes "Keyword.Constant")], r.Gives DotFree := by
    simp [Request.Gives]
  have hsegments : ∀ s ∈ [bytes "Keyword", [], bytes "Constant", bytes "Extra"], DotFree s := by
    unfold DotFree
    decide +kernel
  have hnearest : TokenType.NearestStandard [bytes "Keyword", bytes "Constant", bytes "Extra"]
      [bytes "Keyword", bytes "Constant"] [bytes "Extra"] (bytes "kc") :=
    ⟨rfl, by decide +kernel, by decide +kernel⟩
  refine ⟨hhistory, hsegments, ?_, ?_⟩
  · obtain ⟨hgiven, hnamed⟩ := (shortName_from_nearest _).2.2 hhistory _ hsegments
    have hcounted : ([bytes "Keyword", [], bytes "Constant", bytes "Extra"].filter
        fun s => !s.isEmpty) = [bytes "Keyword", bytes "Constant", bytes "Extra"] := by
      decide +kernel
    rw [(hnamed.name _ _ _ (by rw [hgiven, hcounted]; exact hnearest)).1]
    decide +kernel
  · apply (shortName_from_nearest [.ofSegments [bytes "Text.Extra"]]).2.1
    rw [table_after_ofSegments]
    exact ((sound_after_any standardRequests).table.ofSegments fun _ _ => trivial).2.1

end Session

end StackLexer
