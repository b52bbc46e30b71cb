import StackLexer.TokenType.Standard

/-!
# Nodes of the table of token types

What is worked out once, when a type is entered into the table (`StackLexer.TypeTable`), and kept
with it from then on: its segments, its dotted path, its depth and the node above it. Questions
about a type are answered from its node: ancestors are found by going up from node to node, and
nodes are the same type when their paths are the same.

* `TypeNode.extend` — one segment down, the way every node but the root is made;
* `TypeNode.climb` and `TypeNode.isSubtypeOf` — going up to the depth of another node and
  comparing;
* `TypeNode.nearestName?` and `TypeNode.shortName` — going up to the nearest standard type;
* `TypeNode.type` — the type a node stands for.
-/

namespace StackLexer

/-- A type as the table keeps it. The root is the one node with nothing above it. -/
inductive TypeNode where
  /-- the root -/
  | root
  /-- a node below another one, with what has been worked out for it -/
  | under (parent : TypeNode) (segments : List Bytes) (path : Bytes) (depth : Nat)
  deriving DecidableEq, Repr

namespace TypeNode

/-- The names from the root downwards. -/
def segments : TypeNode → List Bytes
  | root => []
  | under _ segments _ _ => segments

/-- The dotted path; empty for the root. -/
def path : TypeNode → Bytes
  | root => []
  | under _ _ path _ => path

/-- How far below the root the node is. -/
def depth : TypeNode → Nat
  | root => 0
  | under _ _ _ depth => depth

/-- The node above; the root has none. -/
def parent? : TypeNode → Option TypeNode
  | root => none
  | under parent _ _ _ => some parent

/-- Whether there is no node above. -/
def isRoot (n : TypeNode) : Bool := n.parent?.isNone

/-- The type a node stands for. -/
def type (n : TypeNode) : TokenType := ⟨n.segments⟩

instance : Coe TypeNode TokenType := ⟨type⟩

/-- The printed name: the path below `Token`. -/
def text (n : TypeNode) : Bytes :=
  if n.path.isEmpty then bytes "Token" else bytes "Token." ++ n.path

/-- Go up to the nearest node that is a standard type; `below` is what the segments left behind
contribute. A node that is none is asked for its last segment and for the node above it, and the
root has neither. -/
def nearestName? (below : Bytes) : TypeNode → Option Bytes
  | root => (TokenType.standardNameAt? []).map (· ++ below)
  | under parent segments path _ =>
    match TokenType.standardNameAt? path with
    | some short => some (short ++ below)
    | none =>
      match segments.getLast? with
      | some segment => parent.nearestName? (45 :: segment ++ below)
      | none => none

/-- The short name that is found by going up. -/
def shortName? (n : TypeNode) : Option Bytes := n.nearestName? []

/-- The short name of a node; there is one for every node of a table. -/
def shortName (n : TypeNode) : Bytes := n.shortName?.getD []

/-- A new node one segment down. -/
def extend (n : TypeNode) (segment : Bytes) : TypeNode :=
  under n (n.segments ++ [segment])
    (if n.path.isEmpty then segment else n.path ++ 46 :: segment) (n.depth + 1)

/-- Nodes are the same type when their paths are the same. -/
def same (a b : TypeNode) : Bool := a.path == b.path

/-- Go up while the node is deeper than `depth`. -/
def climb (depth : Nat) : TypeNode → TypeNode
  | root => root
  | under parent segments path d =>
    if depth < d then parent.climb depth else under parent segments path d

/-- Whether the type is `other` or below it: go up to the depth of `other` and compare. -/
def isSubtypeOf (n other : TypeNode) : Bool :=
  if n.depth < other.depth then false else (n.climb other.depth).same other

end TypeNode

end StackLexer
