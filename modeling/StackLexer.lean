import StackLexer.Bytes
import StackLexer.ByteMap
import StackLexer.Utf8
import StackLexer.TokenType
import StackLexer.TokenType.Standard
import StackLexer.TokenType.Node
import StackLexer.TokenType.Table
import StackLexer.Token
import StackLexer.Error
import StackLexer.Note
import StackLexer.Transition
import StackLexer.Transition.Directive
import StackLexer.StateStack
import StackLexer.Regex
import StackLexer.Regex.Lexeme
import StackLexer.Regex.Parser
import StackLexer.Regex.Matcher
import StackLexer.Regex.Words
import StackLexer.Emission
import StackLexer.Heuristic
import StackLexer.CompiledGrammar
import StackLexer.Grammar
import StackLexer.Grammar.Compile
import StackLexer.Cursor
import StackLexer.Stream
import StackLexer.Stream.Step
import StackLexer.Stream.Pull
import StackLexer.Json
import StackLexer.Json.Parser
import StackLexer.Document
import StackLexer.Grammar.Document
import StackLexer.Options
import StackLexer.Lexer
import StackLexer.Lexer.Document
import StackLexer.Registry
import StackLexer.Proofs.Outcome
import StackLexer.Proofs.ByteMap
import StackLexer.Proofs.Bytes
import StackLexer.Regex.Bounds
import StackLexer.Regex.Engine
import StackLexer.Proofs.Expansion
import StackLexer.Proofs.StateLookup
import StackLexer.Proofs.Compilation
import StackLexer.Proofs.Flattening
import StackLexer.Proofs.Combination
import StackLexer.Proofs.Acceptance
import StackLexer.Proofs.Run
import StackLexer.Proofs.Totality
import StackLexer.Proofs.Tiling
import StackLexer.Proofs.StateSafety
import StackLexer.Proofs.Progress
import StackLexer.Proofs.WellFormed
import StackLexer.Proofs.Refusals
import StackLexer.Proofs.StallRecovery
import StackLexer.Proofs.CaptureOrder
import StackLexer.Proofs.TextualOrder
import StackLexer.Proofs.DefinedNames
import StackLexer.Proofs.Delegation
import StackLexer.Proofs.AppendedRules
import StackLexer.Proofs.Excerpts
import StackLexer.Proofs.Utf8
import StackLexer.Proofs.ValidText
import StackLexer.Proofs.Repair
import StackLexer.Proofs.TabStops
import StackLexer.Proofs.Normalization
import StackLexer.Proofs.TypeNodes
import StackLexer.Proofs.Interning
import StackLexer.Proofs.Histories
import StackLexer.Proofs.Registration
import StackLexer.Proofs.WrittenDirectives
import StackLexer.Proofs.DirectiveMeaning
import StackLexer.Proofs.DirectiveLanguage
import StackLexer.Proofs.PopCounts
import StackLexer.Proofs.LiteralPatterns
import StackLexer.Proofs.WordLists
import StackLexer.Proofs.JsonOrder
import StackLexer.Proofs.DocumentFields
import StackLexer.Proofs.RuleDocuments
import StackLexer.Proofs.GrammarDocuments
import StackLexer.Proofs.Edits
import StackLexer.Proofs.Pulls
import StackLexer.Proofs.TypeNames
import StackLexer.Proofs.OptionDocuments
import StackLexer.Proofs.Confidence
import StackLexer.Proofs.ShortNames
