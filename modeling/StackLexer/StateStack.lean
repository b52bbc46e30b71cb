import StackLexer.Transition

/-!
# The stack of states

Lexing is in the state on top of a stack. The stack is never empty, and the type says so: there
is a top entry, and what is below it. Entries are positions of states in a grammar; a name is
turned into one by the function `resolve`, and a move to a name that does not resolve is no move.
-/

namespace StackLexer

/-- A non-empty stack of state positions. -/
structure StateStack where
  /-- the current state -/
  top : Nat
  /-- the entries below, nearest first -/
  below : List Nat
  deriving DecidableEq, Repr

namespace StateStack

/-- The entries from the bottom to the top. -/
def toList (s : StateStack) : List Nat := (s.top :: s.below).reverse

/-- The stack of a list of entries given from the bottom to the top. -/
def ofList? (entries : List Nat) : Option StateStack :=
  match entries.reverse with
  | [] => none
  | top :: below => some ⟨top, below⟩

/-- Put an entry on top. -/
def push (s : StateStack) (i : Nat) : StateStack := ⟨i, s.top :: s.below⟩

/-- Remove up to `n` entries, never the last one. -/
def pop : Nat → StateStack → StateStack
  | 0, s => s
  | _ + 1, ⟨top, []⟩ => ⟨top, []⟩
  | n + 1, ⟨_, next :: below⟩ => pop n ⟨next, below⟩

/-- Pushing adds at the top. -/
@[simp] theorem toList_push (s : StateStack) (i : Nat) : (s.push i).toList = s.toList ++ [i] := by
  rw [toList, push, List.reverse_cons, toList]

/-- Popping removes at the top, down to one entry at most. -/
theorem toList_pop (n : Nat) (s : StateStack) :
    (s.pop n).toList = s.toList.take (max 1 (s.toList.length - n)) := by
  induction n generalizing s with
  | zero =>
    obtain ⟨top, below⟩ := s
    rw [pop, toList, List.take_of_length_le]
    omega
  | succ n ih =>
    obtain ⟨top, below⟩ := s
    cases below with
    | nil =>
      have hlen : (StateStack.mk top []).toList.length = 1 := rfl
      rw [pop, List.take_of_length_le]
      omega
    | cons next below =>
      have hlen : (StateStack.mk top (next :: below)).toList =
          (StateStack.mk next below).toList ++ [top] := by
        rw [toList, List.reverse_cons, toList]
      have hne : (StateStack.mk next below).toList.length = below.length + 1 := by
        rw [toList, List.length_reverse, List.length_cons]
      rw [pop, ih, hlen, List.length_append, List.length_singleton, List.take_append_of_le_length]
      · congr 1
        omega
      · omega

/-- Make a move; `none` when it leads to a name that does not resolve. -/
def move? (resolve : Bytes → Option Nat) (s : StateStack) : Transition → Option StateStack
  | .push state => (resolve state).map s.push
  | .pop count => some (s.pop count.toNat)
  | .pushSame => some (s.push s.top)
  | .goto state => (resolve state).map (s.pop 1).push
  | .pushCombined states => (resolve (combinedName states)).map s.push

/-- Make a move, or stay when it leads to a name that does not resolve. -/
def move (resolve : Bytes → Option Nat) (s : StateStack) (t : Transition) : StateStack :=
  (s.move? resolve t).getD s

/-- Make several moves, one after the other. -/
def moveAll (resolve : Bytes → Option Nat) (s : StateStack) (ts : List Transition) : StateStack :=
  ts.foldl (move resolve) s

end StateStack

end StackLexer
