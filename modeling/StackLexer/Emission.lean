import StackLexer.TokenType

/-!
# Emissions

What a rule makes of the text it has matched: one token, nothing, one action for each capturing
group, or the tokens another grammar finds in it. The type of the grammars handed to is a
parameter, because compiled grammars hold rules and rules hold compiled grammars.
-/

namespace StackLexer

/-- Lex a stretch of text with a grammar. -/
structure Delegate (γ : Type) where
  /-- the grammar to use, `none` for the one that owns the rule -/
  target : Option γ
  /-- the state to start in above the root state; empty for the root state alone -/
  state : Bytes
  /-- the type given to the tokens the other grammar did not classify, if any is -/
  wrap : Option TokenType

namespace Delegate

variable {γ : Type}

/-- The type of the stretch when it cannot be lexed. -/
def unlexedType (d : Delegate γ) : TokenType := d.wrap.getD TokenType.other

end Delegate

/-- What becomes of one capturing group. -/
inductive GroupAction (γ : Type) where
  /-- nothing -/
  | skip
  /-- a token -/
  | emit (type : TokenType)
  /-- the tokens of a grammar -/
  | delegate (d : Delegate γ)

/-- What becomes of a match. -/
inductive Emission (γ : Type) where
  /-- one token, or none without a type -/
  | emit (type : Option TokenType)
  /-- one action for each capturing group -/
  | groups (actions : List (GroupAction γ))
  /-- the tokens of a grammar -/
  | delegate (d : Delegate γ)

/-- The delegate of a group, if it has one. -/
def GroupAction.delegate? {γ : Type} : GroupAction γ → Option (Delegate γ)
  | .skip => none
  | .emit _ => none
  | .delegate d => some d

/-- The delegates of an emission, in order. -/
def Emission.delegates {γ : Type} : Emission γ → List (Delegate γ)
  | .emit _ => []
  | .groups actions => actions.filterMap GroupAction.delegate?
  | .delegate d => [d]

end StackLexer
