import StackLexer.Proofs.Histories

/-!
# Names of types

A name as grammar authors write it is rewritten twice before it is looked up: one `Token` in front
is dropped, and `Literal` is put before `String` and `Number`. A type is printed with `Token` in
front of its path. So what is printed is rewritten when it is read, and it has to come out as it
was, also for types that have `Token`, `String` or `Number` among their segments.

* `TokenType.dropToken` and `TokenType.underLiteral` — the two rewritings, with
  `TokenType.writtenSegments_eq`. The second one changes nothing the second time;
* `TokenType.writtenSegments_text` — reading what is printed drops just what printing has added;
* `TokenType.head?_splitDotted_path` — the first segment of a type can be read off its path, if it
  has no dot in it;
* `Session.parse_round_trip` — names of types are read back, whatever has been asked of the table
  before and in between, segments with dots in them included.
-/

namespace StackLexer

namespace TokenType

variable {name : Bytes} {segments : List Bytes}

/-! ## Rewriting -/

/-- Drop one `Token` in front. -/
def dropToken : List Bytes → List Bytes
  | first :: rest => if first = bytes "Token" then rest else first :: rest
  | [] => []

/-- Put `Literal` before `String` and `Number`. -/
def underLiteral : List Bytes → List Bytes
  | first :: rest =>
    if first = bytes "String" ∨ first = bytes "Number" then bytes "Literal" :: first :: rest
    else first :: rest
  | [] => []

theorem writtenSegments_eq (name : Bytes) :
    writtenSegments name = underLiteral (dropToken (splitDotted name)) := rfl

/-- Only the first `Token` is dropped. -/
theorem dropToken_token (segments : List Bytes) :
    dropToken (bytes "Token" :: segments) = segments := by
  rw [dropToken, if_pos rfl]

theorem dropToken_of_head? (h : segments.head? ≠ some (bytes "Token")) :
    dropToken segments = segments := by
  cases segments with
  | nil => rfl
  | cons first rest =>
    refine if_neg fun hfirst => h ?_
    rw [hfirst, List.head?_cons]

/-- Neither `String` nor `Number` is left in front. -/
theorem head?_underLiteral (segments : List Bytes) :
    (underLiteral segments).head? ≠ some (bytes "String") ∧
      (underLiteral segments).head? ≠ some (bytes "Number") := by
  have hliteral : bytes "Literal" ≠ bytes "String" ∧ bytes "Literal" ≠ bytes "Number" := by
    decide +kernel
  cases segments with
  | nil => simp [underLiteral]
  | cons first rest =>
    rw [underLiteral]
    split
    · simpa using hliteral
    · next hfirst => simpa [not_or] using hfirst

/-- What has neither in front is kept. -/
theorem underLiteral_of_head? (hstring : segments.head? ≠ some (bytes "String"))
    (hnumber : segments.head? ≠ some (bytes "Number")) : underLiteral segments = segments := by
  cases segments with
  | nil => rfl
  | cons first rest =>
    rw [List.head?_cons, Ne, Option.some_inj] at hstring hnumber
    exact if_neg (not_or.2 ⟨hstring, hnumber⟩)

theorem underLiteral_underLiteral (segments : List Bytes) :
    underLiteral (underLiteral segments) = underLiteral segments := by
  obtain ⟨hstring, hnumber⟩ := head?_underLiteral segments
  exact underLiteral_of_head? hstring hnumber

/-! ## Printing and reading -/

/-- `Token` before a name is a segment more. -/
theorem splitDotted_token (name : Bytes) :
    splitDotted (bytes "Token." ++ name) = bytes "Token" :: splitDotted name := by
  have hdot : bytes "Token." ++ name = bytes "Token" ++ 46 :: name := by
    rw [show bytes "Token." = bytes "Token" ++ [46] by decide +kernel, List.append_assoc,
      List.singleton_append]
  have hsingle : splitDotted (bytes "Token") = [bytes "Token"] := by decide +kernel
  rw [hdot, splitDotted_append, hsingle, List.singleton_append]

/-- So just this one is dropped again. -/
theorem writtenSegments_token (name : Bytes) :
    writtenSegments (bytes "Token." ++ name) = underLiteral (splitDotted name) := by
  rw [writtenSegments_eq, splitDotted_token, dropToken_token]

/-- **Reading what is printed.** Printing puts `Token` in front, and reading drops it. -/
theorem writtenSegments_text (h : Proper DotFree segments) :
    writtenSegments (⟨segments⟩ : TokenType).text = underLiteral segments := by
  rw [text]
  split
  · next hpath =>
    rw [List.isEmpty_iff, path_eq_nil_iff h] at hpath
    subst hpath
    decide +kernel
  · rw [writtenSegments_token, splitDotted_path h]

/-- Segments that were written are read as they are. -/
theorem writtenSegments_text_parse (name : Bytes) :
    writtenSegments (parse name).text = writtenSegments name := by
  rw [parse, writtenSegments_text (proper_writtenSegments name), writtenSegments_eq,
    underLiteral_underLiteral]

/-- A name without `Token` in front may be written with it. -/
theorem writtenSegments_token_of_head? (h : (splitDotted name).head? ≠ some (bytes "Token")) :
    writtenSegments (bytes "Token." ++ name) = writtenSegments name := by
  rw [writtenSegments_token, writtenSegments_eq, dropToken_of_head? h]

/-- The first segment can be read off the path, if it can be written between dots. -/
theorem head?_splitDotted_path {s : Bytes} (hne : s ≠ []) (hfree : DotFree s)
    (rest : List Bytes) : (splitDotted (⟨s :: rest⟩ : TokenType).path).head? = some s := by
  have hsingle : splitDotted s = [s] := by
    have hproper : Proper DotFree [s] := proper_singleton.2 ⟨hne, hfree⟩
    simpa using splitDotted_path hproper
  cases rest with
  | nil => simp [hsingle]
  | cons next more =>
    have hpath : (⟨s :: next :: more⟩ : TokenType).path =
        s ++ 46 :: (⟨next :: more⟩ : TokenType).path := by
      simp [path, List.intercalate_cons_cons]
    rw [hpath, splitDotted_append, hsingle]
    rfl

end TokenType

/-! ## Nodes -/

/-- What is written are segments of any kind. -/
theorem proper_writtenSegments_any (name : Bytes) :
    Proper (fun _ => True) (TokenType.writtenSegments name) := fun s hs =>
  ⟨(proper_writtenSegments name s hs).1, trivial⟩

namespace TypeTable

variable {table : TypeTable} {name : Bytes}

/-- The node of a name has the path of its type, whatever segments the table knows it by. -/
theorem Sound.path_parse (h : table.Sound fun _ => True) (name : Bytes) :
    (table.parse name).2.path = (TokenType.parse name).path :=
  h.path_ofSegments (proper_writtenSegments_any name)

/-- So it is printed as its type is. -/
theorem Sound.text_parse (h : table.Sound fun _ => True) (name : Bytes) :
    (table.parse name).2.text = (TokenType.parse name).text := by
  rw [TypeNode.text, TokenType.text, h.path_parse]

/-- And if its first segment has no dots, then it is one that was written. -/
theorem Sound.head?_parse (h : table.Sound fun _ => True) {s : Bytes} (hfree : DotFree s)
    (hs : (table.parse name).2.segments.head? = some s) :
    (TokenType.writtenSegments name).head? = some s := by
  obtain ⟨hsound, hholds, -⟩ :=
    h.ofSegments fun x hx => (proper_writtenSegments_any name x hx).2
  have hnode := (hsound.of_holds hholds).2
  have hpath := (hsound.path_of_holds hholds).symm.trans (h.path_parse name)
  obtain ⟨rest, hrest⟩ := List.head?_eq_some_iff.1 hs
  rw [TypeTable.parse] at hrest
  rw [TypeNode.type, hrest] at hpath
  have hne : s ≠ [] := (hnode s (hrest ▸ List.mem_cons_self)).1
  rw [← TokenType.head?_splitDotted_path hne hfree rest, hpath, TokenType.parse,
    TokenType.splitDotted_path (proper_writtenSegments name)]

end TypeTable

namespace Session

/-- The node given for a name after a history of requests. -/
def named (history : List Request) (name : Bytes) : TypeNode :=
  ((after history).table.parse name).2

/-- What a name is given stays the same from then on, and other names of the same segments are given
the same. -/
theorem named_later (history later : List Request) {name other : Bytes}
    (h : TokenType.writtenSegments other = TokenType.writtenSegments name) :
    named (history ++ .parse name :: later) other = named history name := by
  have hproper := proper_writtenSegments_any name
  rw [named, named, TypeTable.parse, TypeTable.parse, h, List.append_cons]
  by_cases hne : TokenType.writtenSegments name = []
  · rw [hne]
    rfl
  · refine ofSegments_after_of_find? hproper ?_ later
    have hself := (sound_after_any history).table.find?_ofSegments_self hproper hne
    rw [after, List.foldl_append]
    exact hself

/-- **Names of types round-trip.** Take any name, and the type it stands for: as such, or as the
node that the table gives for it after any history of requests. What is printed for the type is read
as the type again, by the table also after any further requests; the first segment of the type is
neither `String` nor `Number`; and if the first segment of the name that is not empty is not
`Token`, then the name with `Token.` before it stands for the same type. -/
theorem parse_round_trip (history later : List Request) (name : Bytes) :
    (TokenType.parse (TokenType.parse name).text = TokenType.parse name ∧
      named (history ++ .parse name :: later) (named history name).text = named history name) ∧
    (∀ s, s = bytes "String" ∨ s = bytes "Number" →
      (TokenType.parse name).segments.head? ≠ some s ∧
        (named history name).segments.head? ≠ some s) ∧
    ((splitDotted name).head? ≠ some (bytes "Token") →
      TokenType.parse (bytes "Token." ++ name) = TokenType.parse name ∧
        named (history ++ .parse name :: later) (bytes "Token." ++ name) = named history name) := by
  have htable := (sound_after_any history).table
  have htext := TokenType.writtenSegments_text_parse name
  refine ⟨⟨congrArg TokenType.mk htext, ?_⟩, fun s hs => ?_, fun hfirst => ?_⟩
  · apply named_later
    rw [named, htable.text_parse, htext]
  · have hwritten : (TokenType.writtenSegments name).head? ≠ some s := by
      obtain ⟨hstring, hnumber⟩ :=
        TokenType.head?_underLiteral (TokenType.dropToken (splitDotted name))
      rw [TokenType.writtenSegments_eq]
      rcases hs with rfl | rfl
      · exact hstring
      · exact hnumber
    have hfree : DotFree s := by
      unfold DotFree
      rcases hs with rfl | rfl <;> decide +kernel
    exact ⟨hwritten, fun hnode => hwritten (htable.head?_parse hfree hnode)⟩
  · have htoken := TokenType.writtenSegments_token_of_head? hfirst
    exact ⟨congrArg TokenType.mk htoken, named_later history later htoken⟩

/-- A name with dots at its ends, for a type with all three words in its path. The path was entered
as a single segment before. -/
theorem parse_round_trip_dotted :
    (splitDotted (bytes ".Number.Token..String.")).head? ≠ some (bytes "Token") ∧
    (named [.ofSegments [bytes "Literal.Number.Token.String"]]
      (bytes ".Number.Token..String.")).segments = [bytes "Literal.Number.Token.String"] ∧
    named [.ofSegments [bytes "Literal.Number.Token.String"],
        .parse (bytes ".Number.Token..String."), .parse (bytes "Number")]
        (bytes "Token." ++ bytes ".Number.Token..String.") =
      named [.ofSegments [bytes "Literal.Number.Token.String"]]
        (bytes ".Number.Token..String.") := by
  have hfirst : (splitDotted (bytes ".Number.Token..String.")).head? ≠ some (bytes "Token") := by
    decide +kernel
  obtain ⟨-, -, htoken⟩ := parse_round_trip
    [.ofSegments [bytes "Literal.Number.Token.String"]] [.parse (bytes "Number")]
    (bytes ".Number.Token..String.")
  refine ⟨hfirst, ?_, (htoken hfirst).2⟩
  have hstart := (sound_after_any []).table
  have hsingle : Proper (fun _ => True) ([] ++ [bytes "Literal.Number.Token.String"]) :=
    proper_singleton.2 ⟨by decide +kernel, trivial⟩
  have hmiss (path : Bytes) : (after []).table.find? path = none := by
    simp [after, start, TypeTable.find?, TypeTable.empty]
  have hentered := hstart.ofSegments_of_miss hsingle (hmiss _)
  have hsame := hstart.ofSegments_ofSegments hsingle
    (proper_writtenSegments_any (bytes ".Number.Token..String.")) (by decide +kernel)
  exact congrArg TypeNode.segments (hsame.trans hentered)

end Session

end StackLexer
