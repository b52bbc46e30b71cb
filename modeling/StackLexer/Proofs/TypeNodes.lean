import Mathlib.Data.List.Induction
import StackLexer.TokenType.Table
import StackLexer.Proofs.Bytes

/-!
# Paths and nodes

A type is found by its path and compared by its path, while what is meant are its segments. The two
say the same as long as no segment has a dot in it: then the path can be cut into the segments again
(`splitDotted_path`), and so paths are equal exactly when segments are (`path_inj`).

* `Proper` — segments that are not empty and of a kind, most often `DotFree`;
* `TypeNode.ofType` — the node of a type all of whose ancestors are entered under their own
  segments, with `TypeNode.segments_ofType`, `TypeNode.path_ofType` and the like for what it holds;
* `TypeNode.climb_ofType` — going up from node to node leads to the node of the ancestor, so that
  nodes are compared as their types are (`TypeNode.isSubtypeOf_ofType`), which is about segments
  alone (`TokenType.isSubtypeOf_iff`).
-/

namespace StackLexer

/-! ## Segments -/

/-- Segments that can be written between dots. -/
def DotFree (segment : Bytes) : Prop := 46 ∉ segment

/-- Segments that are not empty and of the kind `P`. -/
def Proper (P : Bytes → Prop) (segments : List Bytes) : Prop := ∀ s ∈ segments, s ≠ [] ∧ P s

theorem proper_append {P : Bytes → Prop} {a b : List Bytes} :
    Proper P (a ++ b) ↔ Proper P a ∧ Proper P b := List.forall_mem_append

/-- Cutting at dots gives segments that can be written between them. -/
theorem proper_splitDotted (dotted : Bytes) : Proper DotFree (splitDotted dotted) := by
  intro s hs
  rw [splitDotted, List.mem_filter] at hs
  refine ⟨?_, Bytes.not_mem_of_mem_pieces hs.1⟩
  rintro rfl
  cases hs.2

/-- A dot that was put in is cut at. -/
theorem splitDotted_append (a b : Bytes) :
    splitDotted (a ++ 46 :: b) = splitDotted a ++ splitDotted b := by
  rw [splitDotted, Bytes.pieces_append_sep, List.filter_append, splitDotted, splitDotted]

/-- Nothing but `Literal` is added to what is written. -/
theorem mem_writtenSegments {name s : Bytes} (h : s ∈ TokenType.writtenSegments name) :
    s = bytes "Literal" ∨ s ∈ splitDotted name := by
  rw [TokenType.writtenSegments] at h
  cases hsplit : splitDotted name with
  | nil => simp [hsplit] at h
  | cons first rest =>
    simp only [hsplit] at h
    split at h
    · next below first' rest' hbelow =>
      have hmem : ∀ x ∈ first' :: rest', x ∈ first :: rest := by
        rw [← hbelow]
        split
        · exact fun x hx => List.mem_cons_of_mem _ hx
        · exact fun x hx => hx
      split at h
      · rcases List.mem_cons.1 h with rfl | h
        · exact .inl rfl
        · exact .inr (hmem s h)
      · exact .inr (hmem s h)
    · cases h

theorem proper_writtenSegments (name : Bytes) : Proper DotFree (TokenType.writtenSegments name) := by
  intro s hs
  rcases mem_writtenSegments hs with rfl | hs
  · exact ⟨by decide +kernel, by unfold DotFree; decide +kernel⟩
  · exact proper_splitDotted name s hs

namespace TokenType

/-! ## Paths -/

/-- A path grows by a dot and a segment, except at the root. -/
theorem path_concat (segments : List Bytes) (s : Bytes) :
    (⟨segments ++ [s]⟩ : TokenType).path =
      if segments = [] then s else (⟨segments⟩ : TokenType).path ++ 46 :: s := by
  induction segments with
  | nil => simp [path, List.intercalate]
  | cons first more ih =>
    rw [if_neg (List.cons_ne_nil first more)]
    cases more with
    | nil => simp [path, List.intercalate]
    | cons next rest =>
      rw [if_neg (List.cons_ne_nil next rest)] at ih
      simp only [path, List.cons_append, List.intercalate_cons_cons] at ih ⊢
      rw [ih]
      simp

@[simp] theorem path_singleton (s : Bytes) : (⟨[s]⟩ : TokenType).path = s := path_concat [] s

/-- Only the root has an empty path. -/
theorem path_eq_nil_iff {P : Bytes → Prop} {segments : List Bytes} (h : Proper P segments) :
    (⟨segments⟩ : TokenType).path = [] ↔ segments = [] := by
  induction segments using List.reverseRecOn with
  | nil => simp [path, List.intercalate]
  | append_singleton segments s _ =>
    have hs : s ≠ [] := (h s (by simp)).1
    rw [path_concat]
    split <;> simp [hs]

/-- A path is cut into the segments it was joined from. -/
theorem splitDotted_path {segments : List Bytes} (h : Proper DotFree segments) :
    splitDotted (⟨segments⟩ : TokenType).path = segments := by
  by_cases hne : segments = []
  · rw [hne]
    rfl
  · rw [splitDotted, path, Bytes.pieces_intercalate hne fun s hs => (h s hs).2,
      List.filter_eq_self]
    intro s hs
    simpa using (h s hs).1

/-- Types with the same path have the same segments. -/
theorem path_inj {a b : List Bytes} (ha : Proper DotFree a) (hb : Proper DotFree b) :
    (⟨a⟩ : TokenType).path = (⟨b⟩ : TokenType).path ↔ a = b := by
  constructor
  · intro h
    rw [← splitDotted_path ha, h, splitDotted_path hb]
  · rintro rfl
    rfl

/-- **Subtypes are extensions.** Comparing paths with the ancestor as deep as the other type decides
whether the segments of the other type come first. -/
theorem isSubtypeOf_iff {a b : TokenType} (ha : Proper DotFree a.segments)
    (hb : Proper DotFree b.segments) : a.isSubtypeOf b = true ↔ b.segments <+: a.segments := by
  have hup : Proper DotFree (a.segments.take b.segments.length) := fun s hs =>
    ha s (List.mem_of_mem_take hs)
  rw [isSubtypeOf, Bool.and_eq_true, decide_eq_true_eq, same, beq_iff_eq, ancestor, depth, depth,
    path_inj hup hb, List.prefix_iff_eq_take]
  constructor
  · exact fun h => h.2.symm
  · intro h
    refine ⟨?_, h.symm⟩
    rw [h, List.length_take]
    exact Nat.min_le_right _ _

end TokenType

namespace TypeNode

/-! ## The node of a type -/

/-- The node of a type when the nodes above it are those of its ancestors. -/
def ofType (t : TokenType) : TypeNode := t.segments.foldl extend root

theorem ofType_concat (segments : List Bytes) (s : Bytes) :
    ofType ⟨segments ++ [s]⟩ = (ofType ⟨segments⟩).extend s := by
  simp [ofType]

@[simp] theorem segments_extend (n : TypeNode) (s : Bytes) :
    (n.extend s).segments = n.segments ++ [s] := rfl

theorem segments_ofType (t : TokenType) : (ofType t).segments = t.segments := by
  obtain ⟨segments⟩ := t
  induction segments using List.reverseRecOn with
  | nil => rfl
  | append_singleton segments s ih =>
    rw [ofType_concat, segments_extend, ih]

theorem depth_ofType (t : TokenType) : (ofType t).depth = t.depth := by
  obtain ⟨segments⟩ := t
  induction segments using List.reverseRecOn with
  | nil => rfl
  | append_singleton segments s ih =>
    rw [ofType_concat, extend, TypeNode.depth, ih]
    simp [TokenType.depth]

theorem path_ofType {P : Bytes → Prop} {t : TokenType} (h : Proper P t.segments) :
    (ofType t).path = t.path := by
  obtain ⟨segments⟩ := t
  induction segments using List.reverseRecOn with
  | nil => rfl
  | append_singleton segments s ih =>
    obtain ⟨hsegments, -⟩ := proper_append.1 h
    rw [ofType_concat, extend, TypeNode.path, ih hsegments, TokenType.path_concat]
    simp only [List.isEmpty_iff, TokenType.path_eq_nil_iff hsegments]

/-- Above the node of a type is the node one segment up. -/
theorem parent?_ofType (t : TokenType) : (ofType t).parent? = t.parent?.map ofType := by
  obtain ⟨segments⟩ := t
  induction segments using List.reverseRecOn with
  | nil => rfl
  | append_singleton segments s _ =>
    rw [ofType_concat]
    simp [extend, TypeNode.parent?, TokenType.parent?, TokenType.isRoot]

/-- So it has all segments but the last. -/
theorem segments_of_parent? {n above : TypeNode} (hn : n = ofType n.type)
    (habove : n.parent? = some above) : above.segments = n.segments.dropLast := by
  rw [hn, parent?_ofType, TokenType.parent?] at habove
  split at habove
  · cases habove
  · obtain rfl := Option.some.inj habove
    rw [segments_ofType]
    rfl

/-- Going up leads to the node of the ancestor. -/
theorem climb_ofType (t : TokenType) (depth : Nat) :
    (ofType t).climb depth = ofType (t.ancestor depth) := by
  obtain ⟨segments⟩ := t
  induction segments using List.reverseRecOn with
  | nil => simp [TokenType.ancestor, ofType, climb]
  | append_singleton segments s ih =>
    have hdepth : (ofType ⟨segments⟩).depth = segments.length := depth_ofType _
    rw [TokenType.ancestor] at ih ⊢
    by_cases h : depth < segments.length + 1
    · rw [ofType_concat, extend, climb, hdepth, if_pos h, ih,
        List.take_append_of_le_length (by omega)]
    · rw [List.take_of_length_le (by simp; omega), ofType_concat, extend, climb, hdepth, if_neg h]

/-- Going up from node to node decides what comparing with the ancestor does. -/
theorem isSubtypeOf_ofType {P : Bytes → Prop} {a b : TokenType} (ha : Proper P a.segments)
    (hb : Proper P b.segments) : (ofType a).isSubtypeOf (ofType b) = a.isSubtypeOf b := by
  have hup : Proper P (a.ancestor b.depth).segments := fun s hs => ha s (List.mem_of_mem_take hs)
  rw [isSubtypeOf, TokenType.isSubtypeOf, depth_ofType, depth_ofType, climb_ofType, same,
    TokenType.same, path_ofType hup, path_ofType hb]
  by_cases h : a.depth < b.depth
  · rw [if_pos h, decide_eq_false (by omega), Bool.false_and]
  · rw [if_neg h, decide_eq_true (by omega), Bool.true_and]

end TypeNode

end StackLexer
