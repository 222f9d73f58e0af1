import TexTree.Codec.Comments
import TexTree.Codec.Decode
import TexTree.Codec.Document
import TexTree.Codec.Encode
import TexTree.Codec.Error
import TexTree.Codec.Member
import TexTree.Codec.Schema
import TexTree.Codec.Text
import TexTree.Column.Braced
import TexTree.Column.Layout
import TexTree.Cursor
import TexTree.Document
import TexTree.Json.Basic
import TexTree.Json.Literal
import TexTree.Json.Name
import TexTree.Json.Printer
import TexTree.Json.Reader
import TexTree.Json.Token
import TexTree.Kind
import TexTree.Location
import TexTree.Navigation
import TexTree.Node
import TexTree.PlainText
import TexTree.Predicate
import TexTree.Search.Lookup
import TexTree.Search.Pattern
import TexTree.Search.Walk
import TexTree.Search.Window
import TexTree.Settings
import TexTree.Source
import TexTree.Text.Blank
import TexTree.Text.Bytes
import TexTree.Text.Hex
import TexTree.Text.LowerCase
import TexTree.Text.Numeral
import TexTree.Text.Printable
import TexTree.Text.Quoted
import TexTree.Text.Utf8
import TexTree.Proofs.Json.NumberLiteral
import TexTree.Proofs.Json.StringLiteral
import TexTree.Proofs.Json.Lexeme
import TexTree.Proofs.Json.Reader
import TexTree.Proofs.Json.Spelling
import TexTree.Proofs.Codec.Fields
import TexTree.Proofs.Codec.Reading
import TexTree.Proofs.Codec.RoundTrip
import TexTree.Proofs.Codec.DocumentRoundTrip
import TexTree.Proofs.Search.Addresses
import TexTree.Proofs.Search.Chains
import TexTree.Proofs.Search.Windows
import TexTree.Proofs.Search.Coordinates
import TexTree.Proofs.Search.Nesting
import TexTree.Proofs.Search.Navigation
import TexTree.Proofs.Codec.Acceptance
import TexTree.Proofs.Settings.Commas
import TexTree.Proofs.Column.Braced
import TexTree.Proofs.Column.Preamble
import TexTree.Proofs.Codec.Reencoding
import TexTree.Proofs.Codec.FieldWise
import TexTree.Proofs.Codec.Rearrangement
import TexTree.Proofs.Search.Descent
import TexTree.Proofs.Search.Routes
import TexTree.Proofs.Search.MissingLocations
import TexTree.Proofs.Codec.UnknownKind
import TexTree.Proofs.Source.Spacing
import TexTree.Proofs.Source.LineBreaks
import TexTree.Proofs.Settings.QuotedParts
import TexTree.Proofs.Settings.OpenQuotes
import TexTree.Proofs.Settings.PlainParts
import TexTree.Proofs.Column.Expansion
import TexTree.Proofs.Search.Seams
import TexTree.Proofs.Text.Utf8Count
import TexTree.Proofs.Column.Borders
import TexTree.Proofs.Column.Size
import TexTree.Proofs.Text.Trim
import TexTree.Proofs.Text.Bytes
import TexTree.Proofs.Text.LowerCase
import TexTree.Proofs.Source.Encoding
import TexTree.Proofs.Column.Remains
import TexTree.Proofs.Tree.Shells
import TexTree.Proofs.Column.Recut
import TexTree.Proofs.Source.Braces
import TexTree.Proofs.Source.Edges
import TexTree.Proofs.Text.Words
import TexTree.Proofs.Settings.Respacing
import TexTree.Proofs.Tree.PlainText
import TexTree.Proofs.Column.Positions
