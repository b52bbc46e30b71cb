import StackLexer.ByteMap
import StackLexer.Expression

/-!
# Shared expressions

A pattern that was read once is not read again: rules with the same pattern share one expression.
Which rules share is visible from outside, so an expression comes with a slot, a number that no
other expression made for the same grammar has.
-/

namespace StackLexer

/-- An expression that rules may share. -/
structure SharedExpression where
  /-- the number of the expression; two with one number are the same -/
  slot : Nat
  /-- the expression -/
  regex : Expression

/-- The expressions made so far. -/
structure ExpressionCache where
  /-- the expressions, by their patterns -/
  byPattern : ByteMap SharedExpression
  /-- how many were made, which is the slot of the next one -/
  made : Nat

namespace ExpressionCache

/-- Before the first pattern. -/
def empty : ExpressionCache := ⟨.empty, 0⟩

/-- The expression of a pattern, which is made unless there is one. A pattern that cannot be read is
not remembered. -/
def fetch (library : Library) (ignoreCase : Bool) (cache : ExpressionCache) (pattern : Bytes) :
    Except Bytes (SharedExpression × ExpressionCache) :=
  match cache.byPattern.find? pattern with
  | some shared => .ok (shared, cache)
  | none => do
    let regex ← library.read ignoreCase pattern
    let shared : SharedExpression := ⟨cache.made, regex⟩
    return (shared, ⟨cache.byPattern.insert pattern shared, cache.made + 1⟩)

end ExpressionCache

end StackLexer
