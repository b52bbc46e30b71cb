import StackLexer.Regex

/-!
# Lexemes of a pattern

A pattern is first cut into lexemes, each a literal byte, a set, an assertion, a parenthesis, a
bar or a quantifier. What no rule covers (an unclosed set, a backward range, an escape without a
meaning, a count that is not one) is not a pattern.

* `\` before ASCII punctuation is that byte, except before `<`, `>`, the single quote and the
  backquote; `\n \t \r \f` are control bytes; `\d \w \s` and their capitals are sets; `\b` and
  `\B` are assertions;
* a set closes at the first `]` that is not its first member; `-` is literal at either end; named
  classes such as `[:alpha:]` are not read;
* `{n}`, `{n,}`, `{n,m}`, `*`, `+` and `?` are quantifiers, lazy with a `?` behind them.
-/

namespace StackLexer.Regex

/-- How a group opens. -/
inductive GroupKind where
  /-- `(`: its span is captured -/
  | capturing
  /-- `(?:` -/
  | plain
  /-- `(?=` and `(?!` -/
  | lookahead (positive : Bool)
  deriving DecidableEq, Repr

/-- A lexeme of a pattern. -/
inductive Lexeme where
  /-- a literal byte -/
  | byte (b : UInt8)
  /-- a set: a bracketed one, a class escape or the dot -/
  | set (ranges : List (UInt8 × UInt8)) (negated : Bool)
  /-- `^`, `$`, `\b` or `\B` -/
  | assertion (a : Regex)
  /-- an opening parenthesis with what follows it -/
  | opening (kind : GroupKind)
  /-- a closing parenthesis -/
  | closing
  /-- a bar between alternatives -/
  | bar
  /-- a quantifier: at least `least` times, then up to `extra` times more -/
  | quantifier (least : Nat) (extra : Option Nat) (greedy : Bool)
  deriving DecidableEq, Repr

/-! ## Sets and escapes -/

/-- `0` to `9`. -/
def digitRanges : List (UInt8 × UInt8) := [(48, 57)]
/-- All bytes but the digits. -/
def nonDigitRanges : List (UInt8 × UInt8) := [(0, 47), (58, 255)]
/-- Letters, digits and the underscore. -/
def wordRanges : List (UInt8 × UInt8) := [(48, 57), (65, 90), (95, 95), (97, 122)]
/-- All bytes but those of words. -/
def nonWordRanges : List (UInt8 × UInt8) :=
  [(0, 47), (58, 64), (91, 94), (96, 96), (123, 255)]
/-- Space and the control bytes from tab to carriage return. -/
def spaceRanges : List (UInt8 × UInt8) := [(9, 13), (32, 32)]
/-- All bytes but the spaces. -/
def nonSpaceRanges : List (UInt8 × UInt8) := [(0, 8), (14, 31), (33, 255)]

/-- Newline, carriage return and form feed, which end lines. -/
def isSeparator (b : UInt8) : Bool := b == 10 || b == 13 || b == 12

/-- The bytes that separate lines, which the dot leaves out. -/
def separatorRanges : List (UInt8 × UInt8) := [(10, 10), (12, 13)]

/-- ASCII punctuation. -/
def isPunctuation (b : UInt8) : Bool :=
  (33 ≤ b && b ≤ 47) || (58 ≤ b && b ≤ 64) || (91 ≤ b && b ≤ 96) || (123 ≤ b && b ≤ 126)

/-- The byte that an escaped byte stands for. Escaped angle brackets and the two single quotes
have no meaning. -/
def escapedByte? (b : UInt8) : Option UInt8 :=
  if b = 110 then some 10
  else if b = 116 then some 9
  else if b = 114 then some 13
  else if b = 102 then some 12
  else if isPunctuation b && !(b == 60 || b == 62 || b == 39 || b == 96) then some b
  else none

/-- The set that an escaped letter stands for. -/
def escapedSet? (b : UInt8) : Option (List (UInt8 × UInt8)) :=
  if b = 100 then some digitRanges
  else if b = 68 then some nonDigitRanges
  else if b = 119 then some wordRanges
  else if b = 87 then some nonWordRanges
  else if b = 115 then some spaceRanges
  else if b = 83 then some nonSpaceRanges
  else none

/-- What an escaped byte contributes to a bracketed set. -/
def escapedRanges? (b : UInt8) : Option (List (UInt8 × UInt8)) :=
  match escapedSet? b with
  | some ranges => some ranges
  | none => (escapedByte? b).map fun c => [(c, c)]

/-- A bracket and the byte after it open a named class, a collating element or an equivalence class
inside a set. -/
def opensClass (b c : UInt8) : Bool := b == 91 && (c == 58 || c == 46 || c == 61)

/-- The members of a bracketed set up to its `]`, and what follows. -/
def setMembers : Bytes → Option (List (UInt8 × UInt8) × Bytes)
  | [] => none
  | [b] => if b = 93 then some ([], []) else none
  | b :: c :: rest =>
    if b = 93 then some ([], c :: rest)
    else if opensClass b c then none
    else if b = 92 then
      match escapedRanges? c, setMembers rest with
      | some ranges, some (more, after) => some (ranges ++ more, after)
      | _, _ => none
    else if c = 45 then
      match rest with
      | [] => none
      | hi :: after =>
        if hi = 93 then some ([(b, b), (45, 45)], after)
        else if hi = 92 ∨ hi = 91 ∨ hi < b then none
        else
          match setMembers after with
          | some (more, after) => some ((b, hi) :: more, after)
          | none => none
    else
      match setMembers (c :: rest) with
      | some (more, after) => some ((b, b) :: more, after)
      | none => none

/-- A bracketed set after its `[`, and what follows it. -/
def bracketed (written : Bytes) : Option (Lexeme × Bytes) :=
  let (negated, members) :=
    match written with
    | 94 :: rest => (true, rest)
    | _ => (false, written)
  match members with
  | 93 :: rest =>
    (setMembers rest).map fun (ranges, after) => (.set ((93, 93) :: ranges) negated, after)
  | _ => (setMembers members).map fun (ranges, after) => (.set ranges negated, after)

/-- An escape after its backslash. -/
def escape (b : UInt8) : Option Lexeme :=
  if b = 98 then some (.assertion (.wordEdge true))
  else if b = 66 then some (.assertion (.wordEdge false))
  else
    match escapedSet? b with
    | some ranges => some (.set ranges false)
    | none => (escapedByte? b).map .byte

/-! ## Quantifiers -/

/-- A quantifier is lazy when a `?` follows it. -/
def withGreed (least : Nat) (extra : Option Nat) : Bytes → Lexeme × Bytes
  | 63 :: rest => (.quantifier least extra false, rest)
  | rest => (.quantifier least extra true, rest)

/-- A count in braces after its `{`, and what follows it. -/
def braced (written : Bytes) : Option (Lexeme × Bytes) :=
  let least : Bytes := written.takeWhile isDigit
  match written.dropWhile isDigit with
  | 125 :: rest => if least.isEmpty then none else some (withGreed least.toNat (some 0) rest)
  | 44 :: rest =>
    let most : Bytes := rest.takeWhile isDigit
    match rest.dropWhile isDigit with
    | 125 :: rest =>
      if least.isEmpty then none
      else if most.isEmpty then some (withGreed least.toNat none rest)
      else if most.toNat < least.toNat then none
      else some (withGreed least.toNat (some (most.toNat - least.toNat)) rest)
    | _ => none
  | _ => none

/-! ## Cutting a pattern -/

/-- An opening parenthesis with what says its kind, after the parenthesis itself. -/
def opening (written : Bytes) : Option (Lexeme × Bytes) :=
  match written with
  | 63 :: 58 :: rest => some (.opening .plain, rest)
  | 63 :: 61 :: rest => some (.opening (.lookahead true), rest)
  | 63 :: 33 :: rest => some (.opening (.lookahead false), rest)
  | 63 :: _ => none
  | rest => some (.opening .capturing, rest)

/-- The lexeme that starts with `b`, and what follows it. -/
def lexeme (b : UInt8) (rest : Bytes) : Option (Lexeme × Bytes) :=
  if b = 92 then
    match rest with
    | [] => none
    | c :: rest => (escape c).map fun l => (l, rest)
  else if b = 91 then bracketed rest
  else if b = 40 then opening rest
  else if b = 41 then some (.closing, rest)
  else if b = 124 then some (.bar, rest)
  else if b = 42 then some (withGreed 0 none rest)
  else if b = 43 then some (withGreed 1 none rest)
  else if b = 63 then some (withGreed 0 (some 1) rest)
  else if b = 123 then braced rest
  else if b = 94 then some (.assertion .lineStart, rest)
  else if b = 36 then some (.assertion .lineEnd, rest)
  else if b = 46 then some (.set separatorRanges true, rest)
  else some (.byte b, rest)

/-- The lexemes of a pattern. Each takes at least one byte, so as many rounds as the pattern has
bytes are enough. -/
def lexemesIn : Nat → Bytes → Option (List Lexeme)
  | _, [] => some []
  | 0, _ :: _ => none
  | rounds + 1, b :: rest =>
    match lexeme b rest with
    | none => none
    | some (first, rest) => (lexemesIn rounds rest).map (first :: ·)

/-- The lexemes of a pattern, if every byte belongs to one. -/
def lexemes (pattern : Bytes) : Option (List Lexeme) := lexemesIn pattern.length pattern

end StackLexer.Regex
