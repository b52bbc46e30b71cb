import StackLexer.Expression

/-!
# Confidence heuristics

How likely is a text written in the language of a grammar? A heuristic answers with an estimate,
which is then clamped to lie between zero and one. The usual heuristic is a list of checks, each an
expression with a score: the estimate is the best score among the expressions that occur in the
text. A check whose score cannot improve on the best one so far is not searched.
-/

namespace StackLexer

/-- What a heuristic may answer. -/
inductive Estimate where
  /-- a number -/
  | number (q : Rat)
  /-- beyond all numbers, upwards or downwards -/
  | infinite (positive : Bool)
  /-- not a number at all -/
  | undefined
  deriving DecidableEq, Repr

/-- An estimate as a confidence between zero and one. -/
def Estimate.clamp : Estimate → Rat
  | .number q => if q < 0 then 0 else if 1 < q then 1 else q
  | .infinite positive => if positive then 1 else 0
  | .undefined => 0

/-- An expression that speaks for a language, and how strongly. -/
structure Check where
  /-- what to look for -/
  regex : Expression
  /-- the score if it is found -/
  score : Rat

/-- The better of the best score so far and that of one more check. -/
def Check.improve (text : Bytes) (best : Rat) (c : Check) : Rat :=
  if c.score ≤ best then best
  else if c.regex.occursIn text then c.score
  else best

/-- A way to estimate. -/
inductive Heuristic where
  /-- the same answer for every text -/
  | constant (answer : Estimate)
  /-- the best score among the checks that succeed, zero when none does -/
  | checks (list : List Check)

/-- The answer for a text. -/
def Heuristic.estimate (text : Bytes) : Heuristic → Estimate
  | .constant answer => answer
  | .checks list => .number (list.foldl (Check.improve text) 0)

end StackLexer
