import StackLexer.Expression.Cache
import StackLexer.Grammar
import StackLexer.Note

/-!
# Compiling a grammar

Compilation expands every state in byte order of the names: an inclusion is replaced by the
expansion of the state it names, and every rule met on the way is checked. The first fault met
ends it, so an accepted grammar is sound in every state, whether it can be reached or not. The
library that reads the patterns is a parameter.

* `Grammar.expandState` — the expansion. `chain` holds the states being expanded, outermost first;
  meeting one of them again is a cycle. The states in a chain are declared and pairwise distinct,
  so a chain has room for as many states as there are, and `room` counts down from that number.
  A state is expanded once: `Finished` keeps the rules of the states already done, however often
  they are included. A pattern is read once: the expressions made are handed on from rule to rule
  (`Walk`).
* `Grammar.checkRule` — what is asked of a rule: a pattern that can be read, targets that are
  declared, no declared state under the name of a combined one, delegates that start in a state of
  their grammar.
* `Grammar.compile` — the expansions as compiled states, followed by the combined states in order
  of first use, each the concatenation of its members.
-/

namespace StackLexer

/-- The same move with a combined state under its name. -/
def Transition.named : Transition → Transition
  | .push state => .push state
  | .pop count => .pop count
  | .pushSame => .pushSame
  | .goto state => .goto state
  | .pushCombined states => .push (combinedName states)

/-- The members of the combined state a move pushes. -/
def Transition.members? : Transition → Option (List Bytes)
  | .push _ => none
  | .pop _ => none
  | .pushSame => none
  | .goto _ => none
  | .pushCombined states => some states

/-- A rule met during expansion, with where it was declared and the expression of its pattern. -/
structure PlacedRule where
  /-- the state that declares the rule -/
  state : Bytes
  /-- its place among the entries of that state -/
  index : Nat
  /-- the rule -/
  rule : Rule
  /-- the expression of its pattern -/
  shared : SharedExpression

namespace PlacedRule

/-- The rule in compiled form. -/
def compiled (r : PlacedRule) : CompiledRule CompiledGrammar where
  slot := r.shared.slot
  regex := r.shared.regex
  pattern := r.rule.pattern
  emission := r.rule.emission
  transitions := r.rule.transitions.map Transition.named
  originState := r.state
  originIndex := r.index

end PlacedRule

namespace Grammar

/-! ## Checks -/

/-- A state named by a rule has to be declared. -/
def checkTarget (g : Grammar) (location : Location) (target : Bytes) : Except LexerError Unit :=
  if g.hasState target then .ok () else .error (.unknownState target location)

/-- Targets and members have to be declared, and the name of a combined state must be free. -/
def checkTransition (g : Grammar) (location : Location) : Transition → Except LexerError Unit
  | .push state => g.checkTarget location state
  | .goto state => g.checkTarget location state
  | .pushCombined states => do
    states.forM (g.checkTarget location)
    if g.hasState (combinedName states) then
      .error (.stateNameClash (combinedName states) location)
    else .ok ()
  | .pop _ => .ok ()
  | .pushSame => .ok ()

/-- The start state of a delegate has to exist in its grammar. -/
def checkDelegate (g : Grammar) (location : Location) (d : Delegate CompiledGrammar) :
    Except LexerError Unit :=
  if d.state.isEmpty then .ok ()
  else
    match d.target with
    | none => g.checkTarget location d.state
    | some target =>
      if target.hasState d.state then .ok ()
      else .error (.unknownState d.state { location with grammar := target.name })

/-- Check a rule, and get the expression of its pattern. -/
def checkRule (library : Library) (g : Grammar) (location : Location) (r : Rule)
    (cache : ExpressionCache) : Except LexerError (SharedExpression × ExpressionCache) :=
  match cache.fetch library g.ignoreCase r.pattern with
  | .error reason => .error (.invalidPattern r.pattern reason location)
  | .ok fetched => do
    r.transitions.forM (g.checkTransition location)
    r.emission.delegates.forM (g.checkDelegate location)
    return fetched

/-! ## Expansion -/

/-- The states whose expansion is finished, each with its rules. -/
abbrev Finished := ByteMap (List PlacedRule)

/-- How far a walk over the states of a grammar has come. -/
structure Walk where
  /-- the states that are finished -/
  finished : Finished
  /-- the expressions made on the way -/
  cache : ExpressionCache

namespace Walk

/-- Before the first state. -/
def start : Walk := ⟨.empty, .empty⟩

/-- A state is finished. -/
def finish (w : Walk) (state : Bytes) (rules : List PlacedRule) : Walk :=
  { w with finished := w.finished.insert state rules }

end Walk

/-- Expand the entries of `state` from index `i` on, given how to expand an included state. -/
def expandEntries (library : Library) (g : Grammar)
    (expand : Bytes → Location → Walk → Except LexerError (List PlacedRule × Walk))
    (state : Bytes) : Nat → List Entry → Walk → Except LexerError (List PlacedRule × Walk)
  | _, [], walk => .ok ([], walk)
  | i, .inclusion target :: rest, walk => do
    let (included, walk) ← expand target ⟨g.name, state, i⟩ walk
    let (more, walk) ← expandEntries library g expand state (i + 1) rest walk
    return (included ++ more, walk)
  | i, .rule r :: rest, walk => do
    let (shared, cache) ← g.checkRule library ⟨g.name, state, i⟩ r walk.cache
    let (more, walk) ←
      expandEntries library g expand state (i + 1) rest { walk with cache := cache }
    return (⟨state, i, r, shared⟩ :: more, walk)

/-- The part of a chain from `state` on, closed by `state` itself. -/
def cycleIn (chain : List Bytes) (state : Bytes) : List Bytes :=
  chain.dropWhile (· != state) ++ [state]

/-- Expand a state to which `location` refers, inside the expansion of the states in `chain`. -/
def expandState (library : Library) (g : Grammar) : Nat → List Bytes → Bytes → Location → Walk →
    Except LexerError (List PlacedRule × Walk)
  | room, chain, state, location, walk =>
    match walk.finished.find? state with
    | some rules => .ok (rules, walk)
    | none =>
      if state ∈ chain then .error (.includeCycle (cycleIn chain state) location)
      else
        match g.states.find? state, room with
        | none, _ => .error (.unknownState state location)
        | some _, 0 => .error (.includeCycle (cycleIn chain state) location)
        | some entries, room + 1 => do
          let (rules, walk) ← g.expandEntries library
            (expandState library g room (chain ++ [state])) state 0 entries walk
          return (rules, walk.finish state rules)

/-- Expand states one after the other. -/
def expandStates (library : Library) (g : Grammar) : List Bytes → Walk → Except LexerError Walk
  | [], walk => .ok walk
  | state :: rest, walk => do
    let (_, walk) ←
      g.expandState library g.states.size [] state (Location.ofState g.name state) walk
    expandStates library g rest walk

/-- The walk over all states. -/
def expansions (library : Library) (g : Grammar) : Except LexerError Walk :=
  g.expandStates library g.states.keys .start

/-! ## The compiled grammar -/

/-- The member lists of the combined states that rules push, each once, in order of first use. -/
def combinationsOf (placed : List PlacedRule) : List (List Bytes) :=
  (placed.flatMap fun r => r.rule.transitions.filterMap Transition.members?).eraseDups

/-- The compiled states of the expansions: those of the grammar, then the combined ones. -/
def compiledStates (expanded : Finished) : List (CompiledState CompiledGrammar) :=
  (expanded.entries.map fun (state, rules) => ⟨state, rules.map PlacedRule.compiled⟩)
    ++ (combinationsOf expanded.values.flatten).map fun members =>
      ⟨combinedName members, members.flatMap fun m =>
        ((expanded.find? m).getD []).map PlacedRule.compiled⟩

/-- Compile a grammar. -/
def compile (library : Library) (g : Grammar) : Except LexerError CompiledGrammar :=
  if g.hasState rootState then do
    let walk ← g.expansions library
    return .ofStates g.name g.aliases (compiledStates walk.finished) g.heuristic
  else .error (.unknownState rootState (Location.ofGrammar g.name))

/-- What there is to say about a compilation. -/
def compileNotes (library : Library) (g : Grammar) : List Note :=
  match g.compile library with
  | .ok c =>
    [⟨.debug, bytes "compiled grammar '" ++ g.name ++ bytes "': " ++ Bytes.ofNat c.states.length
      ++ bytes " states, " ++ Bytes.ofNat c.ruleCount ++ bytes " rules, "
      ++ Bytes.ofNat c.patterns.length ++ bytes " distinct patterns"⟩]
  | .error e => [⟨.debug, bytes "grammar '" ++ g.name ++ bytes "' rejected: " ++ e.message⟩]

end Grammar

end StackLexer
