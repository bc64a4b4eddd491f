import DomQuery.CommandLine.Arguments
import DomQuery.CommandLine.Run
import DomQuery.Document.Basic
import DomQuery.Json.Basic
import DomQuery.Json.Numeral
import DomQuery.Json.Parser
import DomQuery.Json.Printer
import DomQuery.Main
import DomQuery.Report.Caret
import DomQuery.Report.Dump
import DomQuery.Report.Palette
import DomQuery.Report.Path
import DomQuery.Selector.Basic
import DomQuery.Selector.Json
import DomQuery.Selector.Matching
import DomQuery.Selector.Memo
import DomQuery.Selector.Parser
import DomQuery.Selector.Printer
import DomQuery.Selector.Query
import DomQuery.Selector.SyntaxError
import DomQuery.Text.Blank
import DomQuery.Text.Case
import DomQuery.Text.Space
import DomQuery.Text.Utf8
import DomQuery.Tree.Attributes
import DomQuery.Tree.Basic
import DomQuery.Tree.Element
import DomQuery.Tree.Walk
import DomQuery.Proofs.Acyclic
import DomQuery.Proofs.Yields
import DomQuery.Proofs.Matching
import DomQuery.Proofs.Traversal
import DomQuery.Proofs.Query
import DomQuery.Proofs.Grammar
import DomQuery.Proofs.Parsing
import DomQuery.Proofs.Spelling
import DomQuery.Proofs.Failure
import DomQuery.Proofs.Pieces
import DomQuery.Proofs.Attach
import DomQuery.Proofs.Forest
import DomQuery.Proofs.Subtree
import DomQuery.Proofs.Growth
import DomQuery.Proofs.Navigation
import DomQuery.Proofs.Path
import DomQuery.Proofs.Layout
import DomQuery.Proofs.Loading
import DomQuery.Proofs.Answers
import DomQuery.Proofs.Blocks
import DomQuery.Proofs.Weakening
import DomQuery.Proofs.Respacing
import DomQuery.Proofs.Caret
import DomQuery.Proofs.Variants
import DomQuery.Proofs.Depth
import DomQuery.Proofs.Dump
import DomQuery.Proofs.Format
import DomQuery.Proofs.Bare
import DomQuery.Proofs.Colors
import DomQuery.Proofs.Readback
import DomQuery.Proofs.ByteOrder
import DomQuery.Proofs.AttributeOrder
import DomQuery.Proofs.Inquiry
import DomQuery.Proofs.Journal
import DomQuery.Proofs.Building
import DomQuery.Proofs.Tokens
