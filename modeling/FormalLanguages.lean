import FormalLanguages.Text.Blank
import FormalLanguages.Text.Split
import FormalLanguages.Lexeme
import FormalLanguages.Symbol
import FormalLanguages.Derivation
import FormalLanguages.InPlace
import FormalLanguages.RuleBook
import FormalLanguages.Grammar.Basic
import FormalLanguages.Grammar.RuleText
import FormalLanguages.Shrinking
import FormalLanguages.Grammar.SymbolSets
import FormalLanguages.Grammar.FreshName
import FormalLanguages.Grammar.Canonical
import FormalLanguages.Grammar.Chomsky
import FormalLanguages.Grammar.Draft.Basic
import FormalLanguages.Grammar.Draft.Forms
import FormalLanguages.Generation.Settings
import FormalLanguages.Generation.Rows
import FormalLanguages.Generation.Cost
import FormalLanguages.Generation.Harvest
import FormalLanguages.Generation.Search
import FormalLanguages.Generation.Generator
import FormalLanguages.Automaton.Run
import FormalLanguages.Automaton.Finite
import FormalLanguages.Automaton.Pushdown.Rule
import FormalLanguages.Automaton.Pushdown.Machine
import FormalLanguages.Json.Token
import FormalLanguages.Json.Value
import FormalLanguages.Located
import FormalLanguages.Grammar.Document
import FormalLanguages.Grammar.Draft.Document
import FormalLanguages.Automaton.Document
import FormalLanguages.CommandLine.Arguments
import FormalLanguages.CommandLine.Command
import FormalLanguages.CommandLine.Workspace
import FormalLanguages.Main
import FormalLanguages.Proofs.Answers
import FormalLanguages.Proofs.Loops
import FormalLanguages.Proofs.NameSupply
import FormalLanguages.Proofs.Interpretation
import FormalLanguages.Proofs.Pumping
import FormalLanguages.Proofs.Rewriting
import FormalLanguages.Proofs.RuleBooks
import FormalLanguages.Proofs.SymbolSets
import FormalLanguages.Proofs.ClosedGrammar
import FormalLanguages.Proofs.Texts
import FormalLanguages.Proofs.Alphabets
import FormalLanguages.Proofs.Lexemes
import FormalLanguages.Proofs.LexemeFaults
import FormalLanguages.Proofs.RuleTexts
import FormalLanguages.Proofs.Canonical.Sweep
import FormalLanguages.Proofs.Canonical.LambdaRules
import FormalLanguages.Proofs.Canonical.ChainRules
import FormalLanguages.Proofs.Canonical.Stages
import FormalLanguages.Proofs.Canonical.InPlace
import FormalLanguages.Proofs.Batches
import FormalLanguages.Proofs.Drafts
import FormalLanguages.Proofs.Chomsky.Tables
import FormalLanguages.Proofs.Chomsky.Splitting
import FormalLanguages.Proofs.Chomsky.Derivations
import FormalLanguages.Proofs.Chomsky.FreshHeads
import FormalLanguages.Proofs.History
import FormalLanguages.Proofs.Redefinition
import FormalLanguages.Proofs.FreshNames
import FormalLanguages.Proofs.WellFormed
import FormalLanguages.Proofs.Canonical.Variants
import FormalLanguages.Proofs.Canonical.Inheritance
import FormalLanguages.Proofs.Documents
import FormalLanguages.Proofs.Loading
import FormalLanguages.Proofs.RuleGrammar
import FormalLanguages.Proofs.Canonical.Languages
import FormalLanguages.Proofs.Canonical.Form
import FormalLanguages.Proofs.Canonical.Idempotence
import FormalLanguages.Proofs.Chomsky.Languages
import FormalLanguages.Proofs.Chomsky.Form
import FormalLanguages.Proofs.Generation.Orders
import FormalLanguages.Proofs.Generation.Runs
import FormalLanguages.Proofs.Generation.Soundness
import FormalLanguages.Proofs.Generation.Windows
import FormalLanguages.Proofs.Generation.Minimum
import FormalLanguages.Proofs.Generation.Completeness
import FormalLanguages.Proofs.Generation.ChomskyTables
import FormalLanguages.Proofs.Generation.FiniteLanguages
import FormalLanguages.Proofs.Generation.Termination
import FormalLanguages.Proofs.Automaton.Validation
import FormalLanguages.Proofs.Automaton.Moves
import FormalLanguages.Proofs.Automaton.Selection
import FormalLanguages.Proofs.Automaton.Traces
import FormalLanguages.Proofs.Automaton.Determinism
import FormalLanguages.Proofs.Automaton.FiniteRuns
import FormalLanguages.Proofs.Automaton.StackActions
