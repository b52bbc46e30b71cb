import Std.Data.HashMap
import StackLexer.TokenType.Node

/-!
# The table of token types

A table holds the types handed out so far and answers a request with the node it already has for
a path. A node is found by its *path*: as long as no segment contains a dot the path determines
the segments and the table gives exactly what `TokenType` builds directly. A segment with a dot in
it may meet a type that was entered under other segments, and then yields that one.
-/

namespace StackLexer

/-- The types entered so far. The root is always there and not listed. -/
structure TypeTable where
  /-- the nodes entered, by path -/
  nodes : Std.HashMap Bytes TypeNode

namespace TypeTable

/-- The table in which nothing has been entered. -/
def empty : TypeTable := ⟨∅⟩

/-- The node entered under a path. -/
def find? (table : TypeTable) (path : Bytes) : Option TypeNode :=
  table.nodes[path]?

/-- One segment down from `n`: the node entered under that path, or a new one. An empty segment
leads nowhere. -/
def descend (table : TypeTable) (n : TypeNode) (segment : Bytes) : TypeTable × TypeNode :=
  if segment.isEmpty then (table, n)
  else
    let below := n.extend segment
    match table.find? below.path with
    | some known => (table, known)
    | none => (⟨table.nodes.insert below.path below⟩, below)

/-- The node of a segment list, entered with its ancestors as needed. -/
def ofSegments (table : TypeTable) (segments : List Bytes) : TypeTable × TypeNode :=
  segments.foldl (fun (reached : TypeTable × TypeNode) s => reached.1.descend reached.2 s)
    (table, .root)

/-- The node of a dotted path. -/
def intern (table : TypeTable) (dotted : Bytes) : TypeTable × TypeNode :=
  table.ofSegments (splitDotted dotted)

/-- The node further down from `n` by a dotted path. -/
def child (table : TypeTable) (n : TypeNode) (name : Bytes) : TypeTable × TypeNode :=
  table.ofSegments (n.segments ++ splitDotted name)

/-- The node of a name as grammar authors write it. -/
def parse (table : TypeTable) (name : Bytes) : TypeTable × TypeNode :=
  table.ofSegments (TokenType.writtenSegments name)

/-- The table that holds the standard types. -/
def standard : TypeTable :=
  TokenType.standard.foldl (fun table entry => (table.ofSegments entry.1.segments).1) empty

end TypeTable

end StackLexer
