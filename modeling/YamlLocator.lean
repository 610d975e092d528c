import YamlLocator.Text.Pieces
import YamlLocator.Position.SpanJson
import YamlLocator.Position.Line
import YamlLocator.Position.OffsetTable
import YamlLocator.Yaml.Cursor.Separation
import YamlLocator.Yaml.Directive
import YamlLocator.Yaml.Scalar.Folding
import YamlLocator.Yaml.Scalar.Quoted
import YamlLocator.Yaml.Layout
import YamlLocator.Yaml.Scalar.Block
import YamlLocator.Yaml.Scalar.Plain
import YamlLocator.Yaml.Token.Basic
import YamlLocator.Yaml.Token.Progress
import YamlLocator.Yaml.Event.Basic
import YamlLocator.Yaml.Event.Grammar
import YamlLocator.Yaml.Event.Stream
import YamlLocator.Yaml.Document
import YamlLocator.Files.Access
import YamlLocator.Files.Tree
import YamlLocator.KeyMatch
import YamlLocator.Location
import YamlLocator.Lookup
import YamlLocator.CommandLine
import YamlLocator.Main
import YamlLocator.Proofs.KeyChain
import YamlLocator.Proofs.Nesting
import YamlLocator.Proofs.Outline
import YamlLocator.Proofs.WellFormed
import YamlLocator.Proofs.BlockStyle.Basic
import YamlLocator.Proofs.BlockStyle.Events
import YamlLocator.Proofs.BlockStyle.Reading
import YamlLocator.Proofs.Fallback
import YamlLocator.Proofs.SpanBounds
import YamlLocator.Proofs.Preamble
import YamlLocator.Proofs.LineBreaks
import YamlLocator.Proofs.KeyStarts
import YamlLocator.Proofs.FirstDocument
import YamlLocator.Proofs.LookupEdits
import YamlLocator.Proofs.CoreGrammar
import YamlLocator.Proofs.Outcomes
import YamlLocator.Proofs.LineOffsets
import YamlLocator.Proofs.WrittenPaths
import YamlLocator.Proofs.Decimal
import YamlLocator.Proofs.Json.Grammar
import YamlLocator.Proofs.Json.Reading
import YamlLocator.Proofs.Json.Writing
import YamlLocator.Proofs.SpanDocuments
import YamlLocator.Proofs.WrittenLocations
