import Zensight.Command
import Zensight.Command.Arguments
import Zensight.Diagnostic
import Zensight.Environment
import Zensight.Files
import Zensight.Grammar
import Zensight.Grammar.Expressions
import Zensight.Grammar.Reader
import Zensight.Grammar.Rules
import Zensight.Grammar.Statements
import Zensight.Grammar.Types
import Zensight.Lint
import Zensight.Main
import Zensight.Number.Binary64
import Zensight.Path
import Zensight.Proofs.Agreement.Findings
import Zensight.Proofs.Agreement.Inquiries
import Zensight.Proofs.Agreement.Members
import Zensight.Proofs.Agreement.Overloads
import Zensight.Proofs.Agreement.Queries
import Zensight.Proofs.Agreement.Rules
import Zensight.Proofs.AllOrNothing
import Zensight.Proofs.Alterations
import Zensight.Proofs.Ancestry
import Zensight.Proofs.Binding
import Zensight.Proofs.Candidates
import Zensight.Proofs.Casting
import Zensight.Proofs.Categories
import Zensight.Proofs.Checking
import Zensight.Proofs.ClassBodies
import Zensight.Proofs.ClassMembers
import Zensight.Proofs.Completing
import Zensight.Proofs.Conflicts
import Zensight.Proofs.Declarations
import Zensight.Proofs.Defaults
import Zensight.Proofs.Discovery
import Zensight.Proofs.Equality
import Zensight.Proofs.Equivalence
import Zensight.Proofs.Faithful
import Zensight.Proofs.FileTrees
import Zensight.Proofs.Following
import Zensight.Proofs.Guard
import Zensight.Proofs.Handlers
import Zensight.Proofs.Histories
import Zensight.Proofs.HistoryIndependence
import Zensight.Proofs.Indexes
import Zensight.Proofs.Innermost
import Zensight.Proofs.Interchange
import Zensight.Proofs.Legibility
import Zensight.Proofs.Levels
import Zensight.Proofs.Lineage
import Zensight.Proofs.Listing
import Zensight.Proofs.Loading
import Zensight.Proofs.Membership
import Zensight.Proofs.Merging
import Zensight.Proofs.Naming
import Zensight.Proofs.Nesting
import Zensight.Proofs.Numbering
import Zensight.Proofs.Numerals
import Zensight.Proofs.Parsing
import Zensight.Proofs.Parsing.Expressions
import Zensight.Proofs.Parsing.Lists
import Zensight.Proofs.Parsing.Statements
import Zensight.Proofs.Parsing.Types
import Zensight.Proofs.Paths
import Zensight.Proofs.Pending
import Zensight.Proofs.Phrases
import Zensight.Proofs.Placeholders
import Zensight.Proofs.Placement
import Zensight.Proofs.Placement.Rules
import Zensight.Proofs.Placement.Runs
import Zensight.Proofs.Placement.Scripts
import Zensight.Proofs.Placement.Steps
import Zensight.Proofs.PlainNames
import Zensight.Proofs.Prediction
import Zensight.Proofs.Privacy
import Zensight.Proofs.Reading
import Zensight.Proofs.Receivers
import Zensight.Proofs.Reports
import Zensight.Proofs.Resolution
import Zensight.Proofs.RoundTrip
import Zensight.Proofs.RoundTrip.Expressions
import Zensight.Proofs.RoundTrip.Lists
import Zensight.Proofs.RoundTrip.Readers
import Zensight.Proofs.RoundTrip.Trees
import Zensight.Proofs.RoundTrip.Types
import Zensight.Proofs.Sameness
import Zensight.Proofs.Scanning
import Zensight.Proofs.Scanning.Blanks
import Zensight.Proofs.Scanning.Cuts
import Zensight.Proofs.Scanning.Lexemes
import Zensight.Proofs.ScopeIndex
import Zensight.Proofs.Scoping
import Zensight.Proofs.Selection
import Zensight.Proofs.Shapes
import Zensight.Proofs.Spacing
import Zensight.Proofs.Spans
import Zensight.Proofs.Spans.Phrases
import Zensight.Proofs.Spans.Rows
import Zensight.Proofs.Spans.Runs
import Zensight.Proofs.Spans.Standing
import Zensight.Proofs.StringLiterals
import Zensight.Proofs.Substitutability
import Zensight.Proofs.Subtyping
import Zensight.Proofs.Symbols
import Zensight.Proofs.Synchrony
import Zensight.Proofs.Tables
import Zensight.Proofs.Tiling
import Zensight.Proofs.Unresolved
import Zensight.Proofs.UnusedParameters
import Zensight.Proofs.Warnings
import Zensight.Proofs.Workers
import Zensight.Proofs.Writing
import Zensight.Proofs.WrittenTypes
import Zensight.Proofs.WrittenTypes.Spelling
import Zensight.Proofs.WrittenTypes.Trees
import Zensight.Query.Completion
import Zensight.Query.Declarations
import Zensight.Query.Hover
import Zensight.Script
import Zensight.Script.Bindings
import Zensight.Script.Package
import Zensight.Script.Scope
import Zensight.Text
import Zensight.Text.Base64
import Zensight.Text.Blank
import Zensight.Text.Lowercase
import Zensight.Text.Printable
import Zensight.Text.Quoted
import Zensight.Token
import Zensight.Token.Kind
import Zensight.Token.Literal
import Zensight.Token.Scan
import Zensight.Tree.Node
import Zensight.Tree.Outline
import Zensight.Tree.Print
import Zensight.Types.ClassTable
import Zensight.Types.Hierarchy
import Zensight.Types.Members
import Zensight.Types.Operator
import Zensight.Types.Rank
import Zensight.Types.Symbol
import Zensight.Types.Ty
import Zensight.Typing.Inquiry
import Zensight.Typing.Names
import Zensight.Typing.Overloads
import Zensight.Typing.Rules
import Zensight.Typing.Session
import Zensight.Typing.View
import Zensight.Workspace.Change
import Zensight.Workspace.Config
import Zensight.Workspace.Config.Decode
import Zensight.Workspace.Discovery
import Zensight.Workspace.Loading
import Zensight.Yaml
import Zensight.Yaml.Comment
import Zensight.Yaml.Cursor
import Zensight.Yaml.Lexeme
import Zensight.Yaml.Number
import Zensight.Yaml.Property
import Zensight.Yaml.Scalar
import Zensight.Yaml.Timestamp
import Zensight.Yaml.Value
