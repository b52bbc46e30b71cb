import StackLexer.Proofs.TypeNodes

/-!
# Interning

The table of token types is shared by all who ask for types, and every request may change it. What a
request yields therefore rests on what all earlier ones have left behind, in whatever order they
came.

* `Session`, `Request` and `Session.after` — a history of requests: the table that has grown and the
  handles given out, which later requests may start from;
* `TypeTable.Sound` — the invariant of the table, for segments of a kind `P`. `Sound.descend` is its
  step, one segment down, `Sound.ofSegments` carries it through a request and `sound_after` through
  a history;
* `Legible` — segments that no others of the kind have the path of. `Sound.ofSegments_eq`: what the
  table yields for them is the node of their type;
* `Session.handles_after` — without dots in segments, the answers are those of the types themselves,
  worked out without a table;
* `Session.after_consistent` — without dots in segments, the table is as it should be.
-/

namespace StackLexer

/-! ## Histories -/

/-- A request for a type. Handles are numbered as they were given out, from the root on. -/
inductive Request where
  /-- for the type of a dotted path -/
  | intern (dotted : Bytes)
  /-- for the type of a name as grammar authors write it -/
  | parse (name : Bytes)
  /-- for the type of segments -/
  | ofSegments (segments : List Bytes)
  /-- for a type further down from a handle -/
  | child (handle : Nat) (name : Bytes)
  /-- for the type above a handle -/
  | parent (handle : Nat)
  deriving DecidableEq, Repr

/-- Whether the segments that a request gives one by one are of the kind `P`. -/
def Request.Gives (P : Bytes → Prop) : Request → Prop
  | .ofSegments segments => ∀ s ∈ segments, P s
  | _ => True

/-- The table as requests have left it, and the handles given out. -/
structure Session where
  /-- the table -/
  table : TypeTable
  /-- the handles given out, oldest first -/
  handles : List TypeNode

namespace Session

/-- Before the first request, only the root is there. -/
def start : Session := ⟨.empty, [.root]⟩

/-- The handle of a number. -/
def handle (s : Session) (i : Nat) : TypeNode := (s.handles[i]?).getD .root

/-- Give out what the table yields. -/
def give (s : Session) (answer : TypeTable × TypeNode) : Session :=
  ⟨answer.1, s.handles ++ [answer.2]⟩

/-- Answer a request. -/
def answer (s : Session) : Request → Session
  | .intern dotted => s.give (s.table.intern dotted)
  | .parse name => s.give (s.table.parse name)
  | .ofSegments segments => s.give (s.table.ofSegments segments)
  | .child handle name => s.give (s.table.child (s.handle handle) name)
  | .parent handle => ⟨s.table, s.handles ++ (s.handle handle).parent?.toList⟩

/-- What a history of requests leads to. -/
def after (history : List Request) : Session := history.foldl answer start

end Session

/-! ## Legible segments -/

variable {P : Bytes → Prop}

theorem proper_singleton {s : Bytes} : Proper P [s] ↔ s ≠ [] ∧ P s := by
  simp [Proper]

/-- The segments that count are not empty. -/
theorem proper_ofSegments {segments : List Bytes} (hP : ∀ s ∈ segments, P s) :
    Proper P (TokenType.ofSegments segments).segments := by
  intro s hs
  obtain ⟨hmem, hne⟩ := List.mem_filter.1 hs
  exact ⟨by simpa using hne, hP s hmem⟩

/-- When none is empty, all count. -/
theorem TokenType.ofSegments_of_proper {segments : List Bytes} (h : Proper P segments) :
    ofSegments segments = ⟨segments⟩ := by
  rw [ofSegments, List.filter_eq_self.2]
  intro s hs
  simpa using (h s hs).1

theorem TokenType.ofSegments_concat_nil (segments : List Bytes) :
    ofSegments (segments ++ [[]]) = ofSegments segments := by
  simp [ofSegments]

theorem TokenType.ofSegments_concat {s : Bytes} (hs : s ≠ []) (segments : List Bytes) :
    ofSegments (segments ++ [s]) = ⟨(ofSegments segments).segments ++ [s]⟩ := by
  simp [ofSegments, hs]

/-- No other segments of the kind `P` have the path of these. -/
def Legible (P : Bytes → Prop) (segments : List Bytes) : Prop :=
  ∀ others, Proper P others →
    (⟨others⟩ : TokenType).path = (⟨segments⟩ : TokenType).path → others = segments

/-- Dots separate segments without dots. -/
theorem legible_of_dotFree {segments : List Bytes} (h : Proper DotFree segments) :
    Legible DotFree segments := fun _ hothers hpath => (TokenType.path_inj hothers h).1 hpath

/-- What is legible is so up to any segment. -/
theorem Legible.of_concat {segments : List Bytes} {s : Bytes} (h : Legible P (segments ++ [s]))
    (hproper : Proper P (segments ++ [s])) : Legible P segments := by
  intro others hothers hpath
  obtain ⟨hsegments, hs⟩ := proper_append.1 hproper
  have hpath' : (⟨others ++ [s]⟩ : TokenType).path = (⟨segments ++ [s]⟩ : TokenType).path := by
    simp only [TokenType.path_concat, ← TokenType.path_eq_nil_iff hothers,
      ← TokenType.path_eq_nil_iff hsegments, hpath]
  exact List.append_cancel_right (h _ (proper_append.2 ⟨hothers, hs⟩) hpath')

namespace TypeTable

variable {table : TypeTable} {n : TypeNode}

/-! ## The table -/

/-- Whether a table has a node; the root is always there. -/
def Holds (table : TypeTable) (n : TypeNode) : Prop := n = .root ∨ table.find? n.path = some n

/-- Every node is entered under its path and is the node of its segments, which are of the kind `P`,
and the node above it is in the table, too. -/
structure Sound (P : Bytes → Prop) (table : TypeTable) : Prop where
  /-- it is entered under its path -/
  path_eq : ∀ path n, table.find? path = some n → n.path = path
  /-- it has segments of the kind -/
  proper : ∀ path n, table.find? path = some n → n.segments ≠ [] ∧ Proper P n.segments
  /-- it is the node of these segments -/
  eq_ofType : ∀ path n, table.find? path = some n → n = .ofType n.type
  /-- the node above it is there -/
  parent : ∀ path n, table.find? path = some n →
    ∃ above, n.parent? = some above ∧ table.Holds above

/-- A table that has all that another one has. -/
def Extends (table table' : TypeTable) : Prop :=
  ∀ path n, table.find? path = some n → table'.find? path = some n

theorem Holds.mono {table' : TypeTable} (h : table.Holds n) (hext : table.Extends table') :
    table'.Holds n := h.imp_right (hext _ n)

theorem sound_empty : Sound P empty := by
  have hnone (path : Bytes) : empty.find? path = none := Std.HashMap.getElem?_empty
  constructor <;>
  · intro path n h
    rw [hnone] at h
    cases h

/-- What is entered is held. -/
theorem Sound.holds_of_find? (h : table.Sound P) {path : Bytes} (hn : table.find? path = some n) :
    table.Holds n := by
  rw [← h.path_eq path n hn] at hn
  exact .inr hn

/-- What a table holds is the node of its segments, and these are of the kind. -/
theorem Sound.of_holds (h : table.Sound P) (hn : table.Holds n) :
    n = .ofType n.type ∧ Proper P n.segments := by
  rcases hn with rfl | hn
  · exact ⟨rfl, fun s hs => absurd hs List.not_mem_nil⟩
  · exact ⟨h.eq_ofType _ n hn, (h.proper _ n hn).2⟩

/-- What a table holds has the path of its segments. -/
theorem Sound.path_of_holds (h : table.Sound P) (hn : table.Holds n) : n.path = n.type.path := by
  obtain ⟨heq, hproper⟩ := h.of_holds hn
  have hpath : (TypeNode.ofType n.type).path = n.type.path := TypeNode.path_ofType hproper
  rwa [← heq] at hpath

/-! ## One segment down -/

theorem descend_nil (table : TypeTable) (n : TypeNode) : table.descend n [] = (table, n) := rfl

/-- A hit yields what is there, a miss enters a new node. -/
theorem descend_cases (table : TypeTable) (n : TypeNode) {segment : Bytes} (hne : segment ≠ []) :
    (∃ known, table.find? (n.extend segment).path = some known ∧
      table.descend n segment = (table, known)) ∨
    (table.find? (n.extend segment).path = none ∧ ∃ table',
      (∀ path, table'.find? path =
        if (n.extend segment).path = path then some (n.extend segment) else table.find? path) ∧
      table.descend n segment = (table', n.extend segment)) := by
  have hempty : ¬segment.isEmpty = true := by simpa using hne
  cases hfind : table.find? (n.extend segment).path with
  | some known =>
    refine .inl ⟨known, rfl, ?_⟩
    simp only [descend, hfind]
    rw [if_neg hempty]
  | none =>
    refine .inr ⟨rfl, ⟨table.nodes.insert (n.extend segment).path (n.extend segment)⟩, ?_, ?_⟩
    · intro path
      simp [find?, Std.HashMap.getElem?_insert]
    · simp only [descend, hfind]
      rw [if_neg hempty]

/-- Whether hit or miss, the node yielded has the path asked for. -/
theorem Sound.path_descend (h : table.Sound P) {segment : Bytes} (hne : segment ≠ []) :
    (table.descend n segment).2.path = (n.extend segment).path := by
  rcases descend_cases table n hne with ⟨known, hknown, heq⟩ | ⟨-, table', -, heq⟩
  · rw [heq]
    exact h.path_eq _ known hknown
  · rw [heq]

/-- **The step of the invariant.** Going one segment down from a node of the table leads to a node
of the table, and nothing that was there is lost. -/
theorem Sound.descend (h : table.Sound P) (hn : table.Holds n) {segment : Bytes}
    (hP : P segment) :
    (table.descend n segment).1.Sound P ∧
      (table.descend n segment).1.Holds (table.descend n segment).2 ∧
      table.Extends (table.descend n segment).1 := by
  by_cases hne : segment = []
  · rw [hne, descend_nil]
    exact ⟨h, hn, fun _ _ h => h⟩
  rcases descend_cases table n hne with ⟨known, hknown, heq⟩ | ⟨hmiss, table', htable', heq⟩
  · rw [heq]
    exact ⟨h, h.holds_of_find? hknown, fun _ _ h => h⟩
  · have hext : table.Extends table' := by
      intro path m hm
      rw [htable', if_neg, hm]
      rintro rfl
      rw [hmiss] at hm
      cases hm
    have hnew : n.extend segment = .ofType ⟨n.segments ++ [segment]⟩ := by
      rw [TypeNode.ofType_concat]
      exact congrArg (·.extend segment) (h.of_holds hn).1
    -- all that is new is the node entered, and the node above it was there
    have hentry : ∀ path m, table'.find? path = some m → table.find? path = some m ∨
        (m = n.extend segment ∧ path = m.path) := by
      intro path m hm
      rw [htable'] at hm
      split at hm
      · next hpath =>
        cases hm
        exact .inr ⟨rfl, hpath.symm⟩
      · exact .inl hm
    rw [heq]
    refine ⟨⟨?_, ?_, ?_, ?_⟩, .inr ?_, hext⟩
    · intro path m hm
      rcases hentry path m hm with hm | ⟨rfl, hpath⟩
      · exact h.path_eq path m hm
      · exact hpath.symm
    · intro path m hm
      rcases hentry path m hm with hm | ⟨rfl, -⟩
      · exact h.proper path m hm
      · refine ⟨by simp, proper_append.2 ⟨?_, ?_⟩⟩
        · exact (h.of_holds hn).2
        · rintro s hs
          obtain rfl := List.mem_singleton.1 hs
          exact ⟨hne, hP⟩
    · intro path m hm
      rcases hentry path m hm with hm | ⟨rfl, -⟩
      · exact h.eq_ofType path m hm
      · exact hnew
    · intro path m hm
      rcases hentry path m hm with hm | ⟨rfl, -⟩
      · obtain ⟨above, habove, hholds⟩ := h.parent path m hm
        exact ⟨above, habove, hholds.mono hext⟩
      · exact ⟨n, rfl, hn.mono hext⟩
    · show table'.find? (n.extend segment).path = some (n.extend segment)
      rw [htable', if_pos rfl]

/-! ## Requests -/

theorem ofSegments_concat (table : TypeTable) (segments : List Bytes) (s : Bytes) :
    table.ofSegments (segments ++ [s]) =
      (table.ofSegments segments).1.descend (table.ofSegments segments).2 s := by
  simp [ofSegments]

/-- The invariant through a request. -/
theorem Sound.ofSegments (h : table.Sound P) {segments : List Bytes} (hP : ∀ s ∈ segments, P s) :
    (table.ofSegments segments).1.Sound P ∧
      (table.ofSegments segments).1.Holds (table.ofSegments segments).2 ∧
      table.Extends (table.ofSegments segments).1 := by
  induction segments using List.reverseRecOn with
  | nil => exact ⟨h, .inl rfl, fun _ _ h => h⟩
  | append_singleton segments s ih =>
    rw [List.forall_mem_append] at hP
    obtain ⟨hsound, hholds, hext⟩ := ih hP.1
    obtain ⟨hsound', hholds', hext'⟩ := hsound.descend hholds (hP.2 s List.mem_cons_self)
    rw [ofSegments_concat]
    exact ⟨hsound', hholds', fun path m hm => hext' path m (hext path m hm)⟩

/-- The node yielded for segments that nothing else of the kind has the path of is the node of their
type. -/
theorem Sound.ofSegments_eq (h : table.Sound P) {segments : List Bytes} (hP : ∀ s ∈ segments, P s)
    (hlegible : Legible P (TokenType.ofSegments segments).segments) :
    (table.ofSegments segments).2 = .ofType (TokenType.ofSegments segments) := by
  induction segments using List.reverseRecOn with
  | nil => rfl
  | append_singleton segments s ih =>
    rw [List.forall_mem_append] at hP
    have hPs : P s := hP.2 s List.mem_cons_self
    rw [ofSegments_concat]
    by_cases hs : s = []
    · rw [hs, TokenType.ofSegments_concat_nil] at hlegible ⊢
      exact ih hP.1 hlegible
    · rw [TokenType.ofSegments_concat hs] at hlegible ⊢
      obtain ⟨hsound, -, -⟩ := h.ofSegments hP.1
      have hproper : Proper P ((TokenType.ofSegments segments).segments ++ [s]) :=
        proper_append.2 ⟨proper_ofSegments hP.1, proper_singleton.2 ⟨hs, hPs⟩⟩
      have hnew : ((table.ofSegments segments).2).extend s =
          .ofType ⟨(TokenType.ofSegments segments).segments ++ [s]⟩ := by
        rw [ih hP.1 (hlegible.of_concat hproper), TypeNode.ofType_concat]
      rcases descend_cases _ (table.ofSegments segments).2 hs with
        ⟨known, hknown, heq⟩ | ⟨-, table', -, heq⟩
      · -- a hit has the same path, and so the same segments
        have hpath : known.type.path =
            (⟨(TokenType.ofSegments segments).segments ++ [s]⟩ : TokenType).path := by
          rw [← hsound.path_of_holds (hsound.holds_of_find? hknown),
            hsound.path_eq _ known hknown, hnew]
          exact TypeNode.path_ofType hproper
        have hsegments : known.segments = (TokenType.ofSegments segments).segments ++ [s] :=
          hlegible _ (hsound.proper _ known hknown).2 hpath
        rw [heq, hsound.eq_ofType _ known hknown, TypeNode.type, hsegments]
      · rw [heq, hnew]

/-- The same when all segments count. -/
theorem Sound.ofSegments_of_legible (h : table.Sound P) {segments : List Bytes}
    (hproper : Proper P segments) (hlegible : Legible P segments) :
    (table.ofSegments segments).2 = .ofType ⟨segments⟩ := by
  have hsegments := TokenType.ofSegments_of_proper hproper
  rw [← hsegments]
  refine h.ofSegments_eq (fun s hs => (hproper s hs).2) ?_
  rwa [hsegments]

/-- Without dots in the table, segments without dots lead to the node of their type. -/
theorem Sound.ofSegments_of_proper (h : table.Sound DotFree) {segments : List Bytes}
    (hproper : Proper DotFree segments) : (table.ofSegments segments).2 = .ofType ⟨segments⟩ :=
  h.ofSegments_of_legible hproper (legible_of_dotFree hproper)

end TypeTable

namespace Session

variable {s : Session}

/-! ## Histories of requests -/

/-- The table is sound and has all that was given out. -/
structure Sound (P : Bytes → Prop) (s : Session) : Prop where
  /-- the table is sound -/
  table : s.table.Sound P
  /-- it has what was given out -/
  holds : ∀ n ∈ s.handles, s.table.Holds n

theorem Sound.handle (h : s.Sound P) (i : Nat) : s.table.Holds (s.handle i) := by
  rw [Session.handle]
  cases hi : s.handles[i]? with
  | none => exact .inl rfl
  | some n => exact h.holds n (List.mem_of_getElem? hi)

/-- Giving out what the table yields keeps a session sound. -/
theorem Sound.give (h : s.Sound P) {segments : List Bytes} (hP : ∀ x ∈ segments, P x) :
    (s.give (s.table.ofSegments segments)).Sound P := by
  obtain ⟨hsound, hholds, hext⟩ := h.table.ofSegments hP
  refine ⟨hsound, fun n hn => ?_⟩
  rcases List.mem_append.1 hn with hn | hn
  · exact (h.holds n hn).mono hext
  · obtain rfl := List.mem_singleton.1 hn
    exact hholds

/-- Answering any request keeps a session sound, as long as the kind `P` has all segments without
dots and those the request gives. -/
theorem Sound.answer (h : s.Sound P) (hdotFree : ∀ x, DotFree x → P x) {r : Request}
    (hr : r.Gives P) : (s.answer r).Sound P := by
  have hkind : ∀ {segments : List Bytes}, Proper DotFree segments → ∀ x ∈ segments, P x :=
    fun hproper x hx => hdotFree x (hproper x hx).2
  cases r with
  | intern dotted => exact h.give (hkind (proper_splitDotted dotted))
  | parse name => exact h.give (hkind (proper_writtenSegments name))
  | ofSegments segments => exact h.give hr
  | child i name =>
    refine h.give fun x hx => ?_
    rcases List.mem_append.1 hx with hx | hx
    · exact ((h.table.of_holds (h.handle i)).2 x hx).2
    · exact hkind (proper_splitDotted name) x hx
  | parent i =>
    refine ⟨h.table, fun n hn => ?_⟩
    rcases List.mem_append.1 hn with hn | hn
    · exact h.holds n hn
    · rw [Option.mem_toList] at hn
      rcases h.handle i with hroot | hheld
      · rw [hroot] at hn
        cases hn
      · obtain ⟨above, habove, hholds⟩ := h.table.parent _ _ hheld
        obtain rfl : above = n := Option.some.inj (habove.symm.trans hn)
        exact hholds

/-- **The run of the invariant.** Sessions stay sound through all histories whose requests give
segments of the kind. -/
theorem sound_after (hdotFree : ∀ x, DotFree x → P x) {history : List Request}
    (h : ∀ r ∈ history, r.Gives P) : (after history).Sound P := by
  induction history using List.reverseRecOn with
  | nil =>
    refine ⟨TypeTable.sound_empty, fun n hn => .inl ?_⟩
    exact List.mem_singleton.1 hn
  | append_singleton history r ih =>
    rw [List.forall_mem_append] at h
    rw [after, List.foldl_append]
    exact (ih h.1).answer hdotFree (h.2 r List.mem_cons_self)

/-! ## Answers without a table -/

/-- What a request adds to the types given out, by their segments alone. -/
def asked (given : List TokenType) : Request → List TokenType
  | .intern dotted => [.intern dotted]
  | .parse name => [.parse name]
  | .ofSegments segments => [.ofSegments segments]
  | .child i name => [((given[i]?).getD .root).child name]
  | .parent i => ((given[i]?).getD .root).parent?.toList

/-- The types given out in a history, by their segments alone. -/
def typesAfter (history : List Request) : List TokenType :=
  history.foldl (fun given r => given ++ asked given r) [.root]

/-- An answer is that of the type itself. -/
theorem Sound.handles_answer (h : s.Sound DotFree) {given : List TokenType}
    (hgiven : s.handles = given.map .ofType) {r : Request} (hr : r.Gives DotFree) :
    (s.answer r).handles = (given ++ asked given r).map .ofType := by
  have hhandle : ∀ i, s.handle i = .ofType ((given[i]?).getD .root) := by
    intro i
    rw [Session.handle, hgiven, List.getElem?_map]
    cases given[i]? <;> rfl
  rw [List.map_append, ← hgiven]
  cases r with
  | intern dotted =>
    exact congrArg (s.handles ++ [·]) (h.table.ofSegments_of_proper (proper_splitDotted dotted))
  | parse name =>
    exact congrArg (s.handles ++ [·]) (h.table.ofSegments_of_proper (proper_writtenSegments name))
  | ofSegments segments =>
    exact congrArg (s.handles ++ [·])
      (h.table.ofSegments_eq hr (legible_of_dotFree (proper_ofSegments hr)))
  | child i name =>
    have hproper := (h.table.of_holds (h.handle i)).2
    have hanswer := h.table.ofSegments_of_proper
      (proper_append.2 ⟨hproper, proper_splitDotted name⟩)
    rw [hhandle, TypeNode.segments_ofType] at hanswer
    refine congrArg (s.handles ++ [·]) ?_
    rw [TypeTable.child, hhandle, TypeNode.segments_ofType, hanswer, TokenType.child]
  | parent i =>
    rw [Session.answer, hhandle, TypeNode.parent?_ofType, asked]
    cases ((given[i]?).getD .root).parent? <;> rfl

/-- **The table does not show.** Without dots in segments, what is given out are the nodes of the
types that follow from the requests alone. -/
theorem handles_after {history : List Request} (h : ∀ r ∈ history, r.Gives DotFree) :
    (after history).handles = (typesAfter history).map .ofType := by
  induction history using List.reverseRecOn with
  | nil => rfl
  | append_singleton history r ih =>
    rw [List.forall_mem_append] at h
    have hsound : (after history).Sound DotFree := sound_after (fun _ hx => hx) h.1
    rw [after, typesAfter, List.foldl_append, List.foldl_append]
    exact hsound.handles_answer (ih h.1) (h.2 r List.mem_cons_self)

/-! ## Consistency -/

/-- What the table and its nodes are expected to be. Nodes are compared by their paths (`same`) and
by going up (`isSubtypeOf`); both are about segments. -/
structure Consistent (s : Session) : Prop where
  /-- a node is entered under its path, which is its segments joined with dots, and its depth is
  their number; they are not empty and have no dots; the node above it is the node of the table with
  all segments but the last -/
  nodes : ∀ path n, s.table.find? path = some n →
    n.path = path ∧ n.path = [46].intercalate n.segments ∧ n.depth = n.segments.length ∧
    (n.segments ≠ [] ∧ ∀ x ∈ n.segments, x ≠ [] ∧ 46 ∉ x) ∧
    ∃ above, n.parent? = some above ∧ above.segments = n.segments.dropLast ∧ s.table.Holds above
  /-- what was given out is there -/
  holds : ∀ n ∈ s.handles, s.table.Holds n
  /-- a type further down is the type of the longer path -/
  child_intern : ∀ a b,
    ((s.table.intern a).1.child (s.table.intern a).2 b).2 =
      (((s.table.intern a).1.child (s.table.intern a).2 b).1.intern (a ++ 46 :: b)).2
  /-- the path of a node leads to it -/
  intern_path : ∀ n, s.table.Holds n → (s.table.intern n.path).2 = n
  /-- nodes are the same when their segments are -/
  same_iff : ∀ a b, s.table.Holds a → s.table.Holds b →
    (a.same b = true ↔ a.segments = b.segments)
  /-- a subtype has the segments of the other type, and perhaps more behind them -/
  isSubtypeOf_iff : ∀ a b, s.table.Holds a → s.table.Holds b →
    (a.isSubtypeOf b = true ↔ b.segments <+: a.segments)
  /-- every type is a subtype of itself -/
  refl : ∀ a, s.table.Holds a → a.isSubtypeOf a = true
  /-- a subtype of a subtype is a subtype -/
  trans : ∀ a b c, s.table.Holds a → s.table.Holds b → s.table.Holds c →
    a.isSubtypeOf b = true → b.isSubtypeOf c = true → a.isSubtypeOf c = true
  /-- types that are subtypes of each other are the same -/
  antisymm : ∀ a b, s.table.Holds a → s.table.Holds b →
    a.isSubtypeOf b = true → b.isSubtypeOf a = true → a.same b = true
  /-- every type is a subtype of the root -/
  root : ∀ a, s.table.Holds a → a.isSubtypeOf .root = true

theorem Sound.same_iff (h : s.Sound DotFree) {a b : TypeNode} (ha : s.table.Holds a)
    (hb : s.table.Holds b) : a.same b = true ↔ a.segments = b.segments := by
  rw [TypeNode.same, beq_iff_eq, h.table.path_of_holds ha, h.table.path_of_holds hb]
  exact TokenType.path_inj (h.table.of_holds ha).2 (h.table.of_holds hb).2

theorem Sound.isSubtypeOf_iff (h : s.Sound DotFree) {a b : TypeNode} (ha : s.table.Holds a)
    (hb : s.table.Holds b) : a.isSubtypeOf b = true ↔ b.segments <+: a.segments := by
  obtain ⟨haeq, haproper⟩ := h.table.of_holds ha
  obtain ⟨hbeq, hbproper⟩ := h.table.of_holds hb
  have hnodes : (TypeNode.ofType a.type).isSubtypeOf (.ofType b.type) =
      a.type.isSubtypeOf b.type := TypeNode.isSubtypeOf_ofType haproper hbproper
  rw [← haeq, ← hbeq] at hnodes
  rw [hnodes]
  exact TokenType.isSubtypeOf_iff haproper hbproper

/-- **Types are what they are called.** After any history of requests in which no segment that is
given one by one has a dot in it, the table is consistent: its nodes hold what belongs to their
segments, a type is found by its path, and comparing nodes compares segments, which makes subtypes a
partial order with the root on top. -/
theorem after_consistent {history : List Request} (h : ∀ r ∈ history, r.Gives DotFree) :
    (after history).Consistent := by
  have hsound : (after history).Sound DotFree := sound_after (fun _ hx => hx) h
  have htable := hsound.table
  refine ⟨?_, hsound.holds, ?_, ?_, fun _ _ ha hb => hsound.same_iff ha hb,
    fun _ _ ha hb => hsound.isSubtypeOf_iff ha hb, ?_, ?_, ?_, ?_⟩
  · intro path n hn
    have hheld : (after history).table.Holds n := htable.holds_of_find? hn
    obtain ⟨above, habove, hholds⟩ := htable.parent path n hn
    refine ⟨htable.path_eq path n hn, htable.path_of_holds hheld, ?_, htable.proper path n hn,
      above, habove, ?_, hholds⟩
    · rw [htable.eq_ofType path n hn, TypeNode.depth_ofType, TypeNode.segments_ofType]
      rfl
    · exact TypeNode.segments_of_parent? (htable.eq_ofType path n hn) habove
  · intro a b
    have hfirst : ((after history).table.intern a).2.segments = splitDotted a := by
      rw [TypeTable.intern, htable.ofSegments_of_proper (proper_splitDotted a),
        TypeNode.segments_ofType]
    have hboth := proper_splitDotted (a ++ 46 :: b)
    -- the table grows twice before the longer path is asked for
    obtain ⟨htable₁, -, -⟩ := htable.ofSegments fun x hx => (proper_splitDotted a x hx).2
    obtain ⟨htable₂, -, -⟩ := htable₁.ofSegments fun x hx => (hboth x hx).2
    rw [TypeTable.child, hfirst, ← splitDotted_append]
    exact (htable₁.ofSegments_of_proper hboth).trans (htable₂.ofSegments_of_proper hboth).symm
  · intro n hn
    obtain ⟨heq, hproper⟩ := htable.of_holds hn
    rw [TypeTable.intern, htable.path_of_holds hn, TypeNode.type,
      TokenType.splitDotted_path hproper, htable.ofSegments_of_proper hproper]
    exact heq.symm
  · exact fun a ha => (hsound.isSubtypeOf_iff ha ha).2 List.prefix_rfl
  · intro a b c ha hb hc hab hbc
    rw [hsound.isSubtypeOf_iff ha hb] at hab
    rw [hsound.isSubtypeOf_iff hb hc] at hbc
    rw [hsound.isSubtypeOf_iff ha hc]
    exact hbc.trans hab
  · intro a b ha hb hab hba
    rw [hsound.isSubtypeOf_iff ha hb] at hab
    rw [hsound.isSubtypeOf_iff hb ha] at hba
    rw [hsound.same_iff ha hb]
    exact hba.eq_of_length_le hab.length_le
  · intro a ha
    rw [hsound.isSubtypeOf_iff ha (.inl rfl)]
    exact List.nil_prefix

/-- Requests of every sort, with an empty segment, an abbreviated name and names whose ends are
dots. -/
def mixedRequests : List Request :=
  [.intern (bytes ".Name.Builtin"), .child 1 (bytes "Pseudo."), .parse (bytes "String.Double"),
    .ofSegments [bytes "Name", [], bytes "Function"], .parent 4, .child 5 (bytes "Function.Magic")]

/-- The nodes that are given out for them. -/
theorem after_consistent_mixedRequests :
    (∀ r ∈ mixedRequests, r.Gives DotFree) ∧ (after mixedRequests).Consistent ∧
    ∃ name nameBuiltin literal literalString nameFunction : TypeNode,
      name = .under .root [bytes "Name"] (bytes "Name") 1 ∧
      nameBuiltin = .under name [bytes "Name", bytes "Builtin"] (bytes "Name.Builtin") 2 ∧
      literal = .under .root [bytes "Literal"] (bytes "Literal") 1 ∧
      literalString = .under literal [bytes "Literal", bytes "String"]
        (bytes "Literal.String") 2 ∧
      nameFunction = .under name [bytes "Name", bytes "Function"] (bytes "Name.Function") 2 ∧
      (after mixedRequests).handles = [.root, nameBuiltin,
        .under nameBuiltin [bytes "Name", bytes "Builtin", bytes "Pseudo"]
          (bytes "Name.Builtin.Pseudo") 3,
        .under literalString [bytes "Literal", bytes "String", bytes "Double"]
          (bytes "Literal.String.Double") 3,
        nameFunction, name,
        .under nameFunction [bytes "Name", bytes "Function", bytes "Magic"]
          (bytes "Name.Function.Magic") 3] := by
  have hsegments : ∀ x ∈ [bytes "Name", [], bytes "Function"], DotFree x := by
    unfold DotFree
    decide +kernel
  have h : ∀ r ∈ mixedRequests, r.Gives DotFree := by
    simpa [mixedRequests, Request.Gives] using hsegments
  refine ⟨h, after_consistent h, _, _, _, _, _, rfl, rfl, rfl, rfl, rfl, ?_⟩
  rw [handles_after h]
  decide +kernel

end Session

end StackLexer
