import SafeMarkdown.Checked
import SafeMarkdown.Code.Diff
import SafeMarkdown.Code.Highlight
import SafeMarkdown.Code.Json
import SafeMarkdown.Code.Script
import SafeMarkdown.Code.TokenType
import SafeMarkdown.Command.Request
import SafeMarkdown.Command.Run
import SafeMarkdown.Command.Session
import SafeMarkdown.Component.Markup
import SafeMarkdown.Component.Tag
import SafeMarkdown.Digest.Sha256
import SafeMarkdown.Failure
import SafeMarkdown.FrontMatter
import SafeMarkdown.FrontMatter.Block
import SafeMarkdown.Gfm.Autolink
import SafeMarkdown.Gfm.Enrich
import SafeMarkdown.Heading.Anchor
import SafeMarkdown.Html.Entity
import SafeMarkdown.Html.Writer
import SafeMarkdown.Html.Fragment
import SafeMarkdown.Html.Tag
import SafeMarkdown.Html.Token
import SafeMarkdown.Json.Parser
import SafeMarkdown.Json.Printer
import SafeMarkdown.Log
import SafeMarkdown.Main
import SafeMarkdown.Markdown.Block
import SafeMarkdown.Markdown.Block.Container
import SafeMarkdown.Markdown.Block.Interrupt
import SafeMarkdown.Markdown.Block.Leaf
import SafeMarkdown.Markdown.Block.Read
import SafeMarkdown.Markdown.Block.Table
import SafeMarkdown.Markdown.Block.Tokens
import SafeMarkdown.Markdown.Destination
import SafeMarkdown.Markdown.Dialect
import SafeMarkdown.Markdown.Document
import SafeMarkdown.Markdown.Escape
import SafeMarkdown.Markdown.Footnote
import SafeMarkdown.Markdown.Inline.Cursor
import SafeMarkdown.Markdown.Inline.Emphasis
import SafeMarkdown.Markdown.Inline.Read
import SafeMarkdown.Markdown.Line
import SafeMarkdown.Markdown.Markup
import SafeMarkdown.Markdown.Token
import SafeMarkdown.Markdown.Tree
import SafeMarkdown.Number.Decimal
import SafeMarkdown.Number.Double
import SafeMarkdown.Payload
import SafeMarkdown.Pipeline.Config
import SafeMarkdown.Pipeline.Registry
import SafeMarkdown.Pipeline.Run
import SafeMarkdown.Pipeline.Stage
import SafeMarkdown.Proofs.Fields
import SafeMarkdown.Proofs.FrontMatter.Lenient
import SafeMarkdown.Proofs.Gfm.Enrich
import SafeMarkdown.Proofs.Heading.Descent
import SafeMarkdown.Proofs.Heading.Ids
import SafeMarkdown.Proofs.Heading.Linked
import SafeMarkdown.Proofs.Heading.Regular
import SafeMarkdown.Proofs.Html.Progress
import SafeMarkdown.Proofs.Html.Reading
import SafeMarkdown.Proofs.Html.Scanner
import SafeMarkdown.Proofs.Markdown.Blocks
import SafeMarkdown.Proofs.Markdown.Tokens
import SafeMarkdown.Proofs.Markdown.Trees
import SafeMarkdown.Proofs.Outline
import SafeMarkdown.Proofs.Pipeline.Anchors
import SafeMarkdown.Proofs.Pipeline.Stages
import SafeMarkdown.Proofs.Returns
import SafeMarkdown.Proofs.Sanitizer.AllowList
import SafeMarkdown.Proofs.Sanitizer.Descent
import SafeMarkdown.Proofs.Sanitizer.Ids
import SafeMarkdown.Proofs.Sanitizer.Layout
import SafeMarkdown.Proofs.Sanitizer.Order
import SafeMarkdown.Proofs.Sanitizer.Splice
import SafeMarkdown.Proofs.Sanitizer.Resolved
import SafeMarkdown.Proofs.Text.LetterCase
import SafeMarkdown.Proofs.Tree.Walk
import SafeMarkdown.Sanitizer.Admission
import SafeMarkdown.Sanitizer.Filter
import SafeMarkdown.Sanitizer.Run
import SafeMarkdown.Sanitizer.Removal
import SafeMarkdown.Schema
import SafeMarkdown.Settings
import SafeMarkdown.Site.Load
import SafeMarkdown.Site.Lookup
import SafeMarkdown.Slug
import SafeMarkdown.Storage.Disk
import SafeMarkdown.Storage.Path
import SafeMarkdown.Text.Alphanumeric
import SafeMarkdown.Text.Bytes
import SafeMarkdown.Text.Blank
import SafeMarkdown.Text.LetterCase
import SafeMarkdown.Text.Quoted
import SafeMarkdown.Text.Punctuation
import SafeMarkdown.Time.Calendar
import SafeMarkdown.Time.Iso
import SafeMarkdown.Tree.Codec
import SafeMarkdown.Tree.Node
import SafeMarkdown.Url.Parts
import SafeMarkdown.Url.Percent
import SafeMarkdown.Url.Punycode
import SafeMarkdown.Value
import SafeMarkdown.Yaml.Cursor
import SafeMarkdown.Yaml.Data
import SafeMarkdown.Yaml.Load
import SafeMarkdown.Yaml.Node
import SafeMarkdown.Yaml.Scalar
import SafeMarkdown.Yaml.Tag
import SafeMarkdown.Yaml.Token
import SafeMarkdown.Yaml.Writer
import SafeMarkdown.Proofs.Html.Decodable
import SafeMarkdown.Proofs.Tree.Conserve
import SafeMarkdown.Proofs.Gfm.Conserve
import SafeMarkdown.Proofs.Pipeline.Conserve
import SafeMarkdown.Proofs.Number.Rounding
import SafeMarkdown.Proofs.Json.Scalars
import SafeMarkdown.Proofs.Json.Sorted
import SafeMarkdown.Proofs.Json.ReadBack
import SafeMarkdown.Proofs.Tree.Stored
import SafeMarkdown.Proofs.Payload
import SafeMarkdown.Proofs.Markdown.LineTokens
import SafeMarkdown.Proofs.Footnote.Fold
import SafeMarkdown.Proofs.Markdown.Nested
import SafeMarkdown.Proofs.Markdown.Parted
import SafeMarkdown.Proofs.Footnote.Convert
import SafeMarkdown.Proofs.Footnote.Documents
import SafeMarkdown.Proofs.Footnote.Stages
import SafeMarkdown.Proofs.Footnote.Filter
import SafeMarkdown.Proofs.Footnote.Ids
import SafeMarkdown.Proofs.Pipeline.Footnotes
import SafeMarkdown.Proofs.Json.Alike
import SafeMarkdown.Proofs.Json.Delimited
import SafeMarkdown.Proofs.Appends
import SafeMarkdown.Proofs.FrontMatter.Normal
import SafeMarkdown.Proofs.Site.Accounts
import SafeMarkdown.Proofs.Site.Resolve
import SafeMarkdown.Proofs.Sanitizer.Idempotent
import SafeMarkdown.Proofs.Component.Conserving
import SafeMarkdown.Proofs.Component.Recognised
import SafeMarkdown.Proofs.Command.Build
import SafeMarkdown.Proofs.Markdown.Descent
import SafeMarkdown.Proofs.Sanitizer.Bearers
import SafeMarkdown.Proofs.Sanitizer.Fates
import SafeMarkdown.Proofs.Sanitizer.Losses
import SafeMarkdown.Proofs.Sanitizer.Audit
import SafeMarkdown.Proofs.Sanitizer.Candidates
import SafeMarkdown.Proofs.Gfm.Idempotent
import SafeMarkdown.Proofs.Pipeline.Links
import SafeMarkdown.Proofs.Sanitizer.Returns
import SafeMarkdown.Proofs.Sanitizer.Enclosing
import SafeMarkdown.Proofs.Gfm.RawDepth
import SafeMarkdown.Proofs.Schema.Decisions
import SafeMarkdown.Proofs.Json.Spelled
import SafeMarkdown.Proofs.Settings.Sources
import SafeMarkdown.Proofs.Component.Attributes
import SafeMarkdown.Proofs.Component.Written
import SafeMarkdown.Proofs.Pipeline.Components
import SafeMarkdown.Proofs.Time.IsoTexts
import SafeMarkdown.Proofs.FrontMatter.Fences
import SafeMarkdown.Proofs.FrontMatter.Digestible
import SafeMarkdown.Proofs.Site.Order
import SafeMarkdown.Proofs.Code.Spans
import SafeMarkdown.Proofs.Sanitizer.Widened
import SafeMarkdown.Proofs.Site.SlugFiles
import SafeMarkdown.Proofs.Sanitizer.Respelled
import SafeMarkdown.Proofs.Markdown.Reparsing
