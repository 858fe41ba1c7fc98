import CommandConsole.Text.Blank
import CommandConsole.Text.Span
import CommandConsole.Text.Cursor
import CommandConsole.Text.Stream
import CommandConsole.Literal.Basic
import CommandConsole.Literal.Render
import CommandConsole.Literal.Failure
import CommandConsole.Literal.Group
import CommandConsole.Literal.Scalar
import CommandConsole.Literal.Reader
import CommandConsole.Token.Basic
import CommandConsole.Token.Reader
import CommandConsole.Text.Excerpt
import CommandConsole.Failure
import CommandConsole.Number.Integer
import CommandConsole.Number.Binary64
import CommandConsole.Number.Shortest
import CommandConsole.Number.Notation
import CommandConsole.Number.FloatText
import CommandConsole.Value.Basic
import CommandConsole.Value.Json
import CommandConsole.ArgType.Basic
import CommandConsole.ArgType.Convert
import CommandConsole.Context.Locale
import CommandConsole.Context.Information
import CommandConsole.Command.Argument
import CommandConsole.Command.Registration
import CommandConsole.Command.Registry
import CommandConsole.Config.Basic
import CommandConsole.Binding.Basic
import CommandConsole.Binding.Run
import CommandConsole.Binding.Binder
import CommandConsole.Line.Resolve
import CommandConsole.Line.Parse
import CommandConsole.Text.Part
import CommandConsole.Completion.Place
import CommandConsole.Completion.Candidates
import CommandConsole.Completion.Suggest
import CommandConsole.Line.Dispatch
import CommandConsole.Console.Demo
import CommandConsole.Yaml.Position
import CommandConsole.Yaml.Scalar
import CommandConsole.Yaml.Property
import CommandConsole.Yaml.Token
import CommandConsole.Yaml.Node
import CommandConsole.Config.Load
import CommandConsole.Console.Output
import CommandConsole.Console.Session
import CommandConsole.Console.Arguments
import CommandConsole.Console.Repl
import CommandConsole.Console.Program
import CommandConsole.Main
import CommandConsole.Proofs.Literal.Reading
import CommandConsole.Proofs.Literal.RoundTrip
import CommandConsole.Proofs.Binding.Effect
import CommandConsole.Proofs.Binding.Ledger
import CommandConsole.Proofs.Binding.PartialLine
import CommandConsole.Proofs.Line.Naming
import CommandConsole.Proofs.Line.Consumption
import CommandConsole.Proofs.Line.PartialLine
import CommandConsole.Proofs.Literal.Layout
import CommandConsole.Proofs.Token.Layout
import CommandConsole.Proofs.Binding.Places
import CommandConsole.Proofs.Line.Segments
import CommandConsole.Proofs.ArgType.Conversion
import CommandConsole.Proofs.Binding.Named
import CommandConsole.Proofs.Command.Forest
import CommandConsole.Proofs.Line.Reprint
import CommandConsole.Proofs.Line.Values
import CommandConsole.Proofs.Literal.Beginning
import CommandConsole.Proofs.Literal.Viable
import CommandConsole.Proofs.Literal.Unclosing
import CommandConsole.Proofs.Token.Ending
import CommandConsole.Proofs.Token.Extension
import CommandConsole.Proofs.Binding.Appended
import CommandConsole.Proofs.Binding.Resumption
import CommandConsole.Proofs.Line.Resumption
import CommandConsole.Proofs.Binding.LastToken
import CommandConsole.Proofs.Completion.Place
import CommandConsole.Proofs.Token.Added
import CommandConsole.Proofs.Completion.Admission
import CommandConsole.Proofs.Completion.Viable
import CommandConsole.Proofs.Line.Completeness
import CommandConsole.Proofs.Binding.Truncation
import CommandConsole.Proofs.Line.Truncation
import CommandConsole.Proofs.Literal.LastScalar
import CommandConsole.Proofs.Completion.Typed
import CommandConsole.Proofs.Token.Alike
import CommandConsole.Proofs.Binding.Alike
import CommandConsole.Proofs.Line.Chain
import CommandConsole.Proofs.Line.Elements
import CommandConsole.Proofs.Line.Remainder
import CommandConsole.Proofs.Command.Acceptance
import CommandConsole.Proofs.Command.Tables
import CommandConsole.Proofs.Command.History
import CommandConsole.Proofs.Binding.Ungated
import CommandConsole.Proofs.Command.Ungated
import CommandConsole.Proofs.Line.Gates
import CommandConsole.Proofs.Completion.Gates
import CommandConsole.Proofs.Literal.Derivation
import CommandConsole.Proofs.Literal.Cut
import CommandConsole.Proofs.Literal.WellFormed
import CommandConsole.Proofs.Literal.Spelled
import CommandConsole.Proofs.Literal.OpenContext
import CommandConsole.Proofs.Completion.Inside
import CommandConsole.Proofs.Line.Behind
import CommandConsole.Proofs.Completion.Chain
import CommandConsole.Proofs.Token.Rendered
import CommandConsole.Proofs.Line.Finality
import CommandConsole.Proofs.Line.Declared
import CommandConsole.Proofs.Text.Boundary
import CommandConsole.Proofs.Literal.Located
import CommandConsole.Proofs.Token.Located
import CommandConsole.Proofs.ArgType.Mismatch
import CommandConsole.Proofs.Binding.Located
import CommandConsole.Proofs.Line.Located
import CommandConsole.Proofs.Token.Separator
import CommandConsole.Proofs.Binding.Skipping
import CommandConsole.Proofs.Line.Skipping
import CommandConsole.Proofs.Binding.Interleaving
import CommandConsole.Proofs.Line.Interleaving
import CommandConsole.Proofs.Binding.Extent
import CommandConsole.Proofs.Line.Extent
import CommandConsole.Proofs.Line.Called
import CommandConsole.Proofs.Binding.AsList
import CommandConsole.Proofs.Line.AsList
import CommandConsole.Proofs.Binding.Parting
import CommandConsole.Proofs.Token.Assigned
import CommandConsole.Proofs.Line.Assigned
import CommandConsole.Proofs.Binding.Commuting
import CommandConsole.Proofs.Line.Commuting
import CommandConsole.Proofs.Binding.Enclosed
import CommandConsole.Proofs.Line.Enclosed
import CommandConsole.Proofs.ArgType.Pinpoint
import CommandConsole.Proofs.Completion.Assigned
import CommandConsole.Proofs.Completion.Quoted
import CommandConsole.Proofs.Command.Localized
import CommandConsole.Proofs.Line.Words
import CommandConsole.Proofs.Token.Alone
import CommandConsole.Proofs.Completion.Fresh
import CommandConsole.Proofs.Binding.Localized
import CommandConsole.Proofs.Line.Localized
import CommandConsole.Proofs.Literal.NestingLimit
import CommandConsole.Proofs.Literal.Balanced
import CommandConsole.Proofs.Number.Decimal
import CommandConsole.Proofs.ArgType.WrittenBack
import CommandConsole.Proofs.Line.Calls
import CommandConsole.Proofs.Text.Replay
