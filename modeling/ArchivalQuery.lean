import ArchivalQuery.Catalog
import ArchivalQuery.CommandLine.Arguments
import ArchivalQuery.CommandLine.Report
import ArchivalQuery.CommandLine.Run
import ArchivalQuery.CommandLine.Stages
import ArchivalQuery.Decimal.Binary64
import ArchivalQuery.Decimal.Layout
import ArchivalQuery.Decimal.Numeral
import ArchivalQuery.Decimal.Shortest
import ArchivalQuery.Decimal.Unsigned
import ArchivalQuery.Depth
import ArchivalQuery.Envelope
import ArchivalQuery.Field
import ArchivalQuery.Filter.Document
import ArchivalQuery.Filter.Expression
import ArchivalQuery.Gate
import ArchivalQuery.Json.Basic
import ArchivalQuery.Json.Draft
import ArchivalQuery.Json.Number
import ArchivalQuery.Json.Quoted
import ArchivalQuery.Json.Reader
import ArchivalQuery.Json.Record
import ArchivalQuery.Json.Writer
import ArchivalQuery.Main
import ArchivalQuery.Node.Basic
import ArchivalQuery.Node.Build
import ArchivalQuery.Node.Form
import ArchivalQuery.Node.Read
import ArchivalQuery.Plan.Basic
import ArchivalQuery.Plan.Compile
import ArchivalQuery.Plan.Form
import ArchivalQuery.Proofs.Checked
import ArchivalQuery.Proofs.CommandLine.Stages
import ArchivalQuery.Proofs.Decimal.Unsigned
import ArchivalQuery.Proofs.Field.Names
import ArchivalQuery.Proofs.Field.Sharing
import ArchivalQuery.Proofs.Filter.Grammar
import ArchivalQuery.Proofs.Filter.Meaning
import ArchivalQuery.Proofs.Graph
import ArchivalQuery.Proofs.Json.Depth
import ArchivalQuery.Proofs.Json.Drafts
import ArchivalQuery.Proofs.Json.Integers
import ArchivalQuery.Proofs.Json.Members
import ArchivalQuery.Proofs.Json.Nesting
import ArchivalQuery.Proofs.Json.ReadBack
import ArchivalQuery.Proofs.Json.Records
import ArchivalQuery.Proofs.Json.Scanning
import ArchivalQuery.Proofs.Json.Strings
import ArchivalQuery.Proofs.Json.WrittenBack
import ArchivalQuery.Proofs.Node.Building
import ArchivalQuery.Proofs.Node.Documents
import ArchivalQuery.Proofs.Node.Explicit
import ArchivalQuery.Proofs.Node.Flaws
import ArchivalQuery.Proofs.Node.Form
import ArchivalQuery.Proofs.Node.Grammar
import ArchivalQuery.Proofs.Node.Meaning
import ArchivalQuery.Proofs.Node.Operands
import ArchivalQuery.Proofs.Node.Order
import ArchivalQuery.Proofs.Node.Reading
import ArchivalQuery.Proofs.Node.Strings
import ArchivalQuery.Proofs.Node.Writing
import ArchivalQuery.Proofs.Plan.Commands
import ArchivalQuery.Proofs.Plan.Compile
import ArchivalQuery.Proofs.Plan.Consistency
import ArchivalQuery.Proofs.Plan.Documents
import ArchivalQuery.Proofs.Plan.Entries
import ArchivalQuery.Proofs.Plan.FirstStep
import ArchivalQuery.Proofs.Plan.Form
import ArchivalQuery.Proofs.Plan.Nesting
import ArchivalQuery.Proofs.Plan.Refusal
import ArchivalQuery.Proofs.Plan.Scope
import ArchivalQuery.Proofs.Request.Diagnostics
import ArchivalQuery.Proofs.Request.Entry
import ArchivalQuery.Proofs.Request.Explicit
import ArchivalQuery.Proofs.Request.Form
import ArchivalQuery.Proofs.Request.Grammar
import ArchivalQuery.Proofs.Request.Limits
import ArchivalQuery.Proofs.Request.Nesting
import ArchivalQuery.Proofs.Request.Order
import ArchivalQuery.Proofs.Request.Reading
import ArchivalQuery.Proofs.Request.Refusals
import ArchivalQuery.Proofs.Request.Values
import ArchivalQuery.Proofs.Service
import ArchivalQuery.Proofs.Settings.Ancestry
import ArchivalQuery.Proofs.Settings.File
import ArchivalQuery.Proofs.Settings.Loading
import ArchivalQuery.Proofs.Settings.Order
import ArchivalQuery.Proofs.Settings.Validity
import ArchivalQuery.Proofs.Settings.Variables
import ArchivalQuery.QueryError
import ArchivalQuery.Request.Basic
import ArchivalQuery.Request.Entry
import ArchivalQuery.Request.Form
import ArchivalQuery.Request.Read
import ArchivalQuery.Service
import ArchivalQuery.Settings.Ancestry
import ArchivalQuery.Settings.Basic
import ArchivalQuery.Settings.File
import ArchivalQuery.Settings.Form
import ArchivalQuery.Settings.Limits
import ArchivalQuery.Text.Blank
import ArchivalQuery.Toml.Quoted
import ArchivalQuery.Toml.Reader
import ArchivalQuery.Toml.Scalar
import ArchivalQuery.Toml.Value
