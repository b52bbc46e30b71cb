import StackLexer.Bytes

/-!
# Transitions

What a rule does to the stack of states after it has matched. `Transition.target?` is the one
state name a transition has to resolve; a combined state is found under the name that
`combinedName` gives to its members.
-/

namespace StackLexer

/-- The name of the state that has the rules of all `states`, in order. -/
def combinedName (states : List Bytes) : Bytes :=
  bytes "combined(" ++ (bytes ",").intercalate states ++ bytes ")"

/-- A move on the stack of states. -/
inductive Transition where
  /-- put a state on top -/
  | push (state : Bytes)
  /-- remove that many entries, but never the last one; a count below one removes nothing -/
  | pop (count : Int)
  /-- put the current state on top once more -/
  | pushSame
  /-- remove one entry, unless it is the last, then put a state on top -/
  | goto (state : Bytes)
  /-- put on top a state made of the listed states' rules -/
  | pushCombined (states : List Bytes)
  deriving DecidableEq, Repr

namespace Transition

/-- The state name that has to be found before the move can be made. -/
def target? : Transition → Option Bytes
  | .push state => some state
  | .goto state => some state
  | .pushCombined states => some (combinedName states)
  | .pop _ => none
  | .pushSame => none

/-- The move in words. -/
def describe : Transition → Bytes
  | .push state => bytes "push " ++ state
  | .pop count => bytes "pop " ++ Bytes.ofInt count
  | .pushSame => bytes "push same"
  | .goto state => bytes "goto " ++ state
  | .pushCombined states => bytes "push " ++ combinedName states

end Transition

end StackLexer
