import StackLexer.Bytes

/-!
# Word lists

A pattern that matches any word of a list, the longest first: alternation takes the first
alternative that matches, so `else if` has to stand before `else`. Words of one length are in byte
order and repeated ones are dropped, so the pattern depends only on which words are listed.
-/

namespace StackLexer

/-- The bytes that mean something in a pattern. -/
def specialBytes : Bytes := bytes "\\^$.|?*+()[]\x7b\x7d"

/-- The pattern that matches exactly this text. -/
def escapePattern (literal : Bytes) : Bytes :=
  literal.flatMap fun b => if specialBytes.contains b then [92, b] else [b]

/-- Longer words first, words of one length in byte order. -/
def wordBefore (a b : Bytes) : Bool :=
  if a.length = b.length then decide (a ≤ b) else decide (b.length < a.length)

/-- The words in the order in which they are tried, each once. -/
def sortedWords (words : List Bytes) : List Bytes := (words.mergeSort wordBefore).eraseReps

/-- The pattern of a word list between two given patterns, as a group that captures nothing. -/
def wordsPattern (words : List Bytes) (front back : Bytes) : Bytes :=
  front ++ bytes "(?:" ++ (bytes "|").intercalate ((sortedWords words).map escapePattern)
    ++ bytes ")" ++ back

end StackLexer
