import VersionedBucket.BucketName
import VersionedBucket.Decimal.Shortest
import VersionedBucket.Fault
import VersionedBucket.Json.Fault
import VersionedBucket.Json.Number
import VersionedBucket.Json.Reader
import VersionedBucket.Json.Record
import VersionedBucket.Json.Skip
import VersionedBucket.Json.Value
import VersionedBucket.Json.Writer
import VersionedBucket.Markup.Character
import VersionedBucket.Markup.Declaration
import VersionedBucket.Markup.Document
import VersionedBucket.Markup.Encoding
import VersionedBucket.Markup.Indexed
import VersionedBucket.Markup.Lexer
import VersionedBucket.Markup.Name
import VersionedBucket.Markup.Node
import VersionedBucket.Markup.Printer
import VersionedBucket.Markup.Reference
import VersionedBucket.Markup.Scanner.Basic
import VersionedBucket.Markup.Scanner.Content
import VersionedBucket.Markup.Scanner.Subset
import VersionedBucket.Markup.Scanner.Tag
import VersionedBucket.Markup.Token
import VersionedBucket.Page
import VersionedBucket.Page.Codec
import VersionedBucket.Page.Json
import VersionedBucket.Page.Tree
import VersionedBucket.Percent
import VersionedBucket.Query
import VersionedBucket.Request
import VersionedBucket.Settings
import VersionedBucket.Store.Basic
import VersionedBucket.Store.Listing
import VersionedBucket.Text.Blank
import VersionedBucket.Text.Numeral
import VersionedBucket.Text.Printable
import VersionedBucket.Text.Quoted
import VersionedBucket.Text.Search
import VersionedBucket.Text.Utf8
import VersionedBucket.Time.Calendar
import VersionedBucket.Time.Instant
import VersionedBucket.Time.Iso
import VersionedBucket.Time.Rfc3339
import VersionedBucket.Time.Scan
import VersionedBucket.Version
import VersionedBucket.Walk
import VersionedBucket.Proofs.Store.History
import VersionedBucket.Proofs.Store.Items
import VersionedBucket.Proofs.Store.PageContent
import VersionedBucket.Proofs.Store.Cursor
import VersionedBucket.Proofs.Store.Handles
import VersionedBucket.Proofs.Walk.Completeness
import VersionedBucket.Proofs.Walk.Conduct
import VersionedBucket.Proofs.Walk.Descent
import VersionedBucket.Proofs.Walk.Interleaving
import VersionedBucket.Proofs.Page.RoundTrip
import VersionedBucket.Proofs.Page.Settled
import VersionedBucket.Proofs.Store.Resumption
import VersionedBucket.Proofs.Walk.Wire
import VersionedBucket.Proofs.Walk.Continuation
import VersionedBucket.Proofs.Page.Grammar
import VersionedBucket.Proofs.Markup.Legal
import VersionedBucket.Proofs.Page.Rewriting
import VersionedBucket.Proofs.Markup.Annotated
import VersionedBucket.Proofs.Page.Edits
import VersionedBucket.Proofs.Query.Canonical
import VersionedBucket.Proofs.Request.Parameters
import VersionedBucket.Proofs.BucketName.Language
import VersionedBucket.Proofs.Time.Iso
import VersionedBucket.Proofs.Percent.Prefix
import VersionedBucket.Proofs.Text.Padding
import VersionedBucket.Proofs.Settings
import VersionedBucket.Proofs.Markup.Indexed
import VersionedBucket.Proofs.Markup.Merging
