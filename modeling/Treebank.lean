import Treebank.Conllu.Basic
import Treebank.Conllu.Reader
import Treebank.Conllu.Writer
import Treebank.Decimal.Binary64
import Treebank.Decimal.Numeral
import Treebank.Decimal.Shortest
import Treebank.Diagnostics
import Treebank.Diagnostics.Session
import Treebank.Edge
import Treebank.Edit.Apply
import Treebank.Edit.Basic
import Treebank.Edit.Printer
import Treebank.Edit.Reader
import Treebank.Edit.Record
import Treebank.Edit.Reference
import Treebank.Frame.Basic
import Treebank.Frame.Csv
import Treebank.Frame.Matches
import Treebank.Frame.Tokens
import Treebank.Graph.Basic
import Treebank.Graph.Compact
import Treebank.Graph.CompactReader
import Treebank.Graph.Operation
import Treebank.Graph.Reach
import Treebank.Graph.Report
import Treebank.Graph.Store
import Treebank.Json.Basic
import Treebank.Json.Decode
import Treebank.Json.Reader
import Treebank.Json.Writer
import Treebank.Logging
import Treebank.Match.Candidate
import Treebank.Match.Search
import Treebank.Order
import Treebank.Order.Scatter
import Treebank.Pairs
import Treebank.Pattern.Basic
import Treebank.Pattern.Batch
import Treebank.Pattern.Error
import Treebank.Pattern.Lexer
import Treebank.Pattern.Reader
import Treebank.Proofs.Checked.Candidate
import Treebank.Proofs.Checked.Change
import Treebank.Proofs.Checked.Edit
import Treebank.Proofs.Checked.Search
import Treebank.Proofs.Checked.Surgery
import Treebank.Proofs.Conllu.Canonical
import Treebank.Proofs.Conllu.Columns
import Treebank.Proofs.Conllu.Graph
import Treebank.Proofs.Conllu.Id
import Treebank.Proofs.Conllu.Roster
import Treebank.Proofs.Conllu.RoundTrip
import Treebank.Proofs.Conllu.Written
import Treebank.Proofs.Diagnostics
import Treebank.Proofs.Edge
import Treebank.Proofs.Edit.Apply
import Treebank.Proofs.Edit.Reference
import Treebank.Proofs.Except
import Treebank.Proofs.Graph.Arena
import Treebank.Proofs.Graph.Built
import Treebank.Proofs.Graph.Content
import Treebank.Proofs.Graph.Sound
import Treebank.Proofs.Graph.Store
import Treebank.Proofs.Match.Assignment
import Treebank.Proofs.Match.Bracket
import Treebank.Proofs.Match.Candidate
import Treebank.Proofs.Match.Conjunct
import Treebank.Proofs.Match.Demand
import Treebank.Proofs.Match.Enumeration
import Treebank.Proofs.Match.Reorder
import Treebank.Proofs.Match.Search
import Treebank.Proofs.Order
import Treebank.Proofs.Pairs
import Treebank.Proofs.Pattern.Bracket
import Treebank.Proofs.Pattern.Lexer
import Treebank.Proofs.Pattern.Named
import Treebank.Proofs.Pattern.Run
import Treebank.Proofs.Pattern.Stack
import Treebank.Proofs.Pattern.Step
import Treebank.Proofs.Text.Digit
import Treebank.Proofs.Text.Pieces
import Treebank.Regex.Escape
import Treebank.Regex.Reader
import Treebank.Regex.Search
import Treebank.Regex.Syntax
import Treebank.Relation
import Treebank.Settings
import Treebank.Surgery.Basic
import Treebank.Surgery.Script
import Treebank.Text.Blank
import Treebank.Text.Case
import Treebank.Text.Digit
import Treebank.Text.Identifier
import Treebank.Text.Letter
import Treebank.Text.Pieces
import Treebank.Text.Printable
import Treebank.Text.Quoted
import Treebank.Text.Range
import Treebank.Token.Basic
import Treebank.Token.Fields
import Treebank.Toml.Reader
import Treebank.Toml.Scalar
import Treebank.Toml.Table
import Treebank.Proofs.Graph.Likeness
import Treebank.Proofs.Match.Likeness
import Treebank.Proofs.Graph.Writing
import Treebank.Proofs.Match.Storage
import Treebank.Proofs.Match.Fingerprint
import Treebank.Proofs.Conllu.Writable
import Treebank.Proofs.Conllu.Rows
import Treebank.Proofs.Conllu.Restored
import Treebank.Proofs.Pattern.Outcome
import Treebank.Proofs.Pattern.Registry
import Treebank.Proofs.Pattern.Description
import Treebank.Proofs.Pattern.Operator
import Treebank.Proofs.Pattern.Flat
import Treebank.Proofs.Pattern.RoundTrip
import Treebank.Proofs.Pattern.WellFormed
import Treebank.Proofs.Pattern.Faults
import Treebank.Proofs.Match.Captures
import Treebank.Proofs.Edit.Failure
import Treebank.Proofs.Match.Seeded
import Treebank.Proofs.Graph.Reach
import Treebank.Proofs.Graph.Shape
import Treebank.Proofs.Edit.Shape
import Treebank.Proofs.Graph.Drawn
import Treebank.Proofs.Graph.Compact
import Treebank.Proofs.Graph.Linear
import Treebank.Proofs.Decimal.Numeral
import Treebank.Proofs.Frame.Tokens
import Treebank.Proofs.Decimal.Rounding
import Treebank.Proofs.Decimal.Shortest
import Treebank.Proofs.Decimal.Spelled
import Treebank.Proofs.Decimal.Canonical
import Treebank.Proofs.Text.Words
import Treebank.Proofs.Edit.Argument
import Treebank.Proofs.Edit.Line
import Treebank.Proofs.Edit.Read
import Treebank.Proofs.Edit.Quotes
import Treebank.Proofs.Edit.Reprinted
import Treebank.Proofs.Json.Scalar
import Treebank.Proofs.Json.Text
import Treebank.Proofs.Json.Decode
import Treebank.Proofs.Edit.Record
import Treebank.Proofs.Surgery.Script
import Treebank.Proofs.Match.Walk
import Treebank.Proofs.Match.Unbounded
import Treebank.Proofs.Match.Bounded
import Treebank.Proofs.Match.Labelled
import Treebank.Proofs.Pattern.Rendering
import Treebank.Proofs.Match.Converse
import Treebank.Proofs.Conllu.Spelling
import Treebank.Proofs.Conllu.Accepted
import Treebank.Proofs.Checked.Sentence
import Treebank.Proofs.Conllu.Blocks
import Treebank.Proofs.Conllu.Lines
import Treebank.Proofs.Conllu.Distinct
import Treebank.Proofs.Conllu.Presented
import Treebank.Proofs.Conllu.SurfaceRows
import Treebank.Proofs.Conllu.Spans
import Treebank.Proofs.Graph.Arrival
import Treebank.Proofs.Graph.Removal
import Treebank.Proofs.Edit.Delete
import Treebank.Proofs.Surgery.Chain
import Treebank.Proofs.Surgery.Distinct
import Treebank.Proofs.Graph.Anchored
import Treebank.Proofs.Checked.Compact
import Treebank.Proofs.Graph.Twig
import Treebank.Proofs.Graph.Expansion
import Treebank.Proofs.Graph.Report
import Treebank.Proofs.Edit.Steps
import Treebank.Proofs.Edit.Rooted
import Treebank.Proofs.Edit.Effect
import Treebank.Proofs.Relation
import Treebank.Proofs.Match.Hierarchy
import Treebank.Proofs.Frame.Matches
import Treebank.Proofs.Pattern.Shorthand
import Treebank.Proofs.Pattern.Batch
import Treebank.Proofs.Conllu.Flaws
import Treebank.Proofs.Conllu.FirstFault
