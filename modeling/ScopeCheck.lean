import ScopeCheck.Tree.Walk
import ScopeCheck.Tree.Assembly
import ScopeCheck.Document.File
import ScopeCheck.Analysis.Model
import ScopeCheck.Report.Text
import ScopeCheck.Report.Json
import ScopeCheck.Settings.Discovery
import ScopeCheck.Main
import ScopeCheck.Proofs.Tree.Forest
import ScopeCheck.Proofs.Tree.Reachability
import ScopeCheck.Proofs.Document.Links
import ScopeCheck.Proofs.Analysis.Opening
import ScopeCheck.Proofs.Analysis.Passes
import ScopeCheck.Proofs.Analysis.State
import ScopeCheck.Proofs.Analysis.ResolutionBalance
import ScopeCheck.Proofs.Analysis.BlockScopes
import ScopeCheck.Proofs.Analysis.TypingBalance
import ScopeCheck.Proofs.Analysis.TypingStep
import ScopeCheck.Proofs.Analysis.Outcome
import ScopeCheck.Proofs.Analysis.ExpressionTypes
import ScopeCheck.Proofs.Tree.Positions
import ScopeCheck.Proofs.Analysis.TypingReports
import ScopeCheck.Proofs.Analysis.ScopePath
import ScopeCheck.Proofs.Analysis.Growth
import ScopeCheck.Proofs.Analysis.FunctionShape
import ScopeCheck.Proofs.Tree.Enclosing
import ScopeCheck.Proofs.Analysis.Nesting
import ScopeCheck.Proofs.Analysis.Lexical
import ScopeCheck.Proofs.Document.Checks
import ScopeCheck.Proofs.Tree.Walk
import ScopeCheck.Proofs.Analysis.Returns
import ScopeCheck.Proofs.Analysis.ResolutionReports
import ScopeCheck.Proofs.Analysis.CleanVerdict
import ScopeCheck.Proofs.Analysis.FunctionBody
import ScopeCheck.Proofs.Analysis.Reentry
import ScopeCheck.Proofs.Scope.Children
import ScopeCheck.Proofs.Analysis.ResolutionStep
import ScopeCheck.Proofs.Analysis.BlockNesting
import ScopeCheck.Proofs.Analysis.ScopeCreation
import ScopeCheck.Proofs.Analysis.ScopeTree
import ScopeCheck.Proofs.Analysis.NameFacts
import ScopeCheck.Proofs.Analysis.Severity
import ScopeCheck.Proofs.Symbol.Slots
import ScopeCheck.Proofs.Analysis.NameAccounting
import ScopeCheck.Proofs.Analysis.Slots
import ScopeCheck.Proofs.Tree.Renaming
import ScopeCheck.Proofs.Scope.Renaming
import ScopeCheck.Proofs.Analysis.Complaints
import ScopeCheck.Proofs.Analysis.ComplaintRenaming
import ScopeCheck.Proofs.Analysis.Counterpart
import ScopeCheck.Proofs.Analysis.CounterpartModel
import ScopeCheck.Proofs.Analysis.OpaqueNames
import ScopeCheck.Proofs.Analysis.AlphaConversion
import ScopeCheck.Proofs.Analysis.BuiltinNeutrality
import ScopeCheck.Proofs.Tree.Interior
import ScopeCheck.Proofs.Tree.Appending
import ScopeCheck.Proofs.Analysis.Interior
import ScopeCheck.Proofs.Analysis.LaterNodes
import ScopeCheck.Proofs.Analysis.Appending
import ScopeCheck.Proofs.Analysis.PassEffects
import ScopeCheck.Proofs.Tree.Recast
import ScopeCheck.Proofs.Analysis.RecastNames
import ScopeCheck.Proofs.Analysis.RecastTypes
import ScopeCheck.Proofs.Analysis.UnreadData
import ScopeCheck.Proofs.Analysis.NodeOrder
import ScopeCheck.Proofs.Tree.Exchange
import ScopeCheck.Proofs.Analysis.Environment
import ScopeCheck.Proofs.Analysis.Confinement
import ScopeCheck.Proofs.Analysis.Exchange
import ScopeCheck.Proofs.Json.Lexemes
import ScopeCheck.Proofs.Json.RoundTrip
import ScopeCheck.Proofs.Json.Members
import ScopeCheck.Proofs.Json.Numerals
import ScopeCheck.Proofs.Report.Contents
import ScopeCheck.Proofs.Text.Lines
import ScopeCheck.Proofs.Report.Agreement
import ScopeCheck.Proofs.Command.Grammar
import ScopeCheck.Proofs.Command.Reading
import ScopeCheck.Proofs.Command.AllOrNothing
import ScopeCheck.Proofs.Tree.Assembly
import ScopeCheck.Proofs.Document.Format
import ScopeCheck.Proofs.Document.Assembled
import ScopeCheck.Proofs.Tree.Calls
import ScopeCheck.Proofs.Analysis.CallArguments
import ScopeCheck.Proofs.Scope.Depth
import ScopeCheck.Proofs.Report.Listing
import ScopeCheck.Proofs.Symbol.Latest
import ScopeCheck.Proofs.Analysis.ActivePath
import ScopeCheck.Proofs.Analysis.Operations
import ScopeCheck.Proofs.Scope.Forest
import ScopeCheck.Proofs.Symbol.Declarations
import ScopeCheck.Proofs.Text.Bytes
import ScopeCheck.Proofs.Text.Table
import ScopeCheck.Proofs.Report.Alignment
import ScopeCheck.Proofs.Toml.Keys
import ScopeCheck.Proofs.Settings.UnknownKeys
import ScopeCheck.Proofs.Settings.Discovery
import ScopeCheck.Proofs.Json.Scanning
import ScopeCheck.Proofs.Json.Grammar
import ScopeCheck.Proofs.Json.Order
import ScopeCheck.Proofs.Document.MemberOrder
