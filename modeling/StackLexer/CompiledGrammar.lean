import StackLexer.Emission
import StackLexer.Error
import StackLexer.Heuristic
import StackLexer.Transition

/-!
# Compiled grammars

The form of a grammar that is lexed with: states in a fixed order, each a list of rules without
includes, each rule with the expression of its pattern. `Grammar.compile` produces such values, and
they may as well be put together by hand; the latter may refer to states that do not exist.

* `CompiledGrammar.stateIndex?` finds the first state of a name;
* `CompiledGrammar.dangling` lists the references to states that are not defined, here and in
  every grammar that is delegated to. A stream refuses a grammar for which it is not empty.

Grammars are assembled by `CompiledGrammar.ofStates`, which finds the dangling references once and
keeps them: a grammar may be delegated to from many places and by many paths, and each of them
looks at the list again. `CompiledGrammar.Assembled` says that this is how a grammar and all it
delegates to came about.
-/

namespace StackLexer

/-- A rule ready to be matched. -/
structure CompiledRule (γ : Type) where
  /-- which of the grammar's expressions this is; rules with one slot share it -/
  slot : Nat
  /-- the expression -/
  regex : Expression
  /-- the pattern as written -/
  pattern : Bytes
  /-- what becomes of the match -/
  emission : Emission γ
  /-- what happens to the stack afterwards -/
  transitions : List Transition
  /-- the state in which the rule was declared; empty when it was declared nowhere -/
  originState : Bytes
  /-- its place in that state; negative when it was declared nowhere -/
  originIndex : Int

/-- A state without includes. -/
structure CompiledState (γ : Type) where
  /-- its name -/
  name : Bytes
  /-- its rules, the first match winning -/
  rules : List (CompiledRule γ)

/-- A grammar to lex with. -/
structure CompiledGrammar where
  /-- its name -/
  name : Bytes
  /-- other names it goes by -/
  aliases : List Bytes
  /-- its states; the first of several with one name is the one that is found -/
  states : List (CompiledState CompiledGrammar)
  /-- how it recognises its language, if it does -/
  heuristic : Option Heuristic
  /-- the references to states that are not defined, as `ofStates` found them -/
  dangling : List (Bytes × Location)

/-- The name of the state in which lexing starts. -/
def rootState : Bytes := bytes "root"

namespace CompiledGrammar

/-- The position of the first state of a name. -/
def stateIndex? (g : CompiledGrammar) (state : Bytes) : Option Nat :=
  g.states.findIdx? fun s => s.name == state

/-- Whether a state is defined. -/
def hasState (g : CompiledGrammar) (state : Bytes) : Bool := (g.stateIndex? state).isSome

/-- How many rules the states have together. -/
def ruleCount (g : CompiledGrammar) : Nat := (g.states.flatMap (·.rules)).length

/-- The patterns in use, each once, in order of first use. -/
def patterns (g : CompiledGrammar) : List Bytes :=
  (g.states.flatMap fun s => s.rules.map (·.pattern)).eraseDups

/-- How likely a text is written in the language of the grammar, from zero to one. -/
def confidence (g : CompiledGrammar) (text : Bytes) : Rat :=
  match g.heuristic with
  | none => 0
  | some h => (h.estimate text).clamp

/-! ## Dangling references -/

/-- The targets among `transitions` that are not defined, each with the location of the rule. The
empty name is never reported. -/
def danglingTargets (isDefined : Bytes → Bool) (location : Location)
    (transitions : List Transition) : List (Bytes × Location) :=
  (transitions.filterMap Transition.target?).filterMap fun target =>
    if target.isEmpty || isDefined target then none else some (target, location)

/-- The start state of a delegate, if it is not defined; the empty name means the root state. -/
def danglingStart (isDefined : Bytes → Bool) (location : Location) (state : Bytes) :
    List (Bytes × Location) :=
  if state.isEmpty || isDefined state then [] else [(state, location)]

/-- The dangling references of a delegate: those of its grammar, then its own start state. -/
def danglingInDelegate (isDefined : Bytes → Bool) (location : Location)
    (d : Delegate CompiledGrammar) : List (Bytes × Location) :=
  match d.target with
  | none => danglingStart isDefined location d.state
  | some target => target.dangling ++ danglingStart target.hasState location d.state

/-- The dangling references of a rule: those of its transitions, then those of its delegates. -/
def danglingInRule (isDefined : Bytes → Bool) (location : Location)
    (r : CompiledRule CompiledGrammar) : List (Bytes × Location) :=
  danglingTargets isDefined location r.transitions
    ++ r.emission.delegates.flatMap (danglingInDelegate isDefined location)

/-- The dangling references of a state, rule by rule. -/
def danglingInState (isDefined : Bytes → Bool) (grammar : Bytes)
    (s : CompiledState CompiledGrammar) : List (Bytes × Location) :=
  s.rules.zipIdx.flatMap fun (r, i) => danglingInRule isDefined ⟨grammar, s.name, i⟩ r

/-- The dangling references of the states of a grammar, state by state; at the end the root state
if there is none. -/
def danglingIn (grammar : Bytes) (states : List (CompiledState CompiledGrammar)) :
    List (Bytes × Location) :=
  let isDefined (state : Bytes) : Bool := states.any fun s => s.name == state
  states.flatMap (danglingInState isDefined grammar)
    ++ if isDefined rootState then [] else [(rootState, Location.ofGrammar grammar)]

/-! ## Assembling -/

/-- The grammar of a list of states. -/
def ofStates (name : Bytes) (aliases : List Bytes) (states : List (CompiledState CompiledGrammar))
    (heuristic : Option Heuristic) : CompiledGrammar :=
  ⟨name, aliases, states, heuristic, danglingIn name states⟩

/-- Grammars assembled by `ofStates` from rules that delegate to grammars assembled in the same
way, all the way down. -/
inductive Assembled : CompiledGrammar → Prop
  /-- the targets of all delegates are assembled, and so is the grammar of the states -/
  | ofStates (name : Bytes) (aliases : List Bytes)
      (states : List (CompiledState CompiledGrammar)) (heuristic : Option Heuristic)
      (targets : ∀ s ∈ states, ∀ r ∈ s.rules, ∀ d ∈ r.emission.delegates, ∀ target,
        d.target = some target → Assembled target) :
      Assembled (CompiledGrammar.ofStates name aliases states heuristic)

end CompiledGrammar

end StackLexer
