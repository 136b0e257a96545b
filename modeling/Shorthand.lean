import Shorthand.Text.Ranges
import Shorthand.Text.Alphanumeric
import Shorthand.Text.Printable
import Shorthand.Text.Digit
import Shorthand.Text.LowerCase
import Shorthand.Text.Blank
import Shorthand.Text.Quoted
import Shorthand.Text.Integer
import Shorthand.Table
import Shorthand.Json.Basic
import Shorthand.Json.Reader
import Shorthand.Json.Printer
import Shorthand.Text.Tiling
import Shorthand.Value
import Shorthand.TabStop
import Shorthand.Failure
import Shorthand.Markup.Token
import Shorthand.Markup.Node
import Shorthand.Markup.AttributeSet
import Shorthand.Markup.Tree
import Shorthand.Markup.Snippet
import Shorthand.Markup.Copies
import Shorthand.Markup.ImplicitTag
import Shorthand.Markup.Numbering
import Shorthand.Segment
import Shorthand.Markup.Html
import Shorthand.Extraction
import Shorthand.Stylesheet.Keyword
import Shorthand.Stylesheet.Snippet
import Shorthand.Stylesheet.Value
import Shorthand.Stylesheet.Declaration
import Shorthand.Markup.DefaultSnippets
import Shorthand.Stylesheet.DefaultSnippets
import Shorthand.Config.Basic
import Shorthand.Config.Option
import Shorthand.Expansion
import Shorthand.Config.SnippetFile
import Shorthand.Editor.Completion
import Shorthand.Editor.Provider
import Shorthand.Editor.Session
import Shorthand.CommandLine.Argument
import Shorthand.CommandLine.Expand
import Shorthand.CommandLine.Serve
import Shorthand.Main
import Shorthand.Proofs.Success
import Shorthand.Proofs.Numeral
import Shorthand.Proofs.Fields
import Shorthand.Proofs.Unrolling
import Shorthand.Proofs.Escaping
import Shorthand.Proofs.Sharing
import Shorthand.Proofs.NumberedOnce
import Shorthand.Proofs.Spelling
import Shorthand.Proofs.Tags
import Shorthand.Proofs.Recovery
import Shorthand.Proofs.Likeness
import Shorthand.Proofs.Renaming
import Shorthand.Proofs.Pairing
import Shorthand.Proofs.Copying
import Shorthand.Proofs.Marks
import Shorthand.Proofs.Mirroring
import Shorthand.Proofs.Literals
import Shorthand.Proofs.Parentheses
import Shorthand.Proofs.Regular
import Shorthand.Proofs.Instances
import Shorthand.Proofs.Shifting
import Shorthand.Proofs.Unrolled
import Shorthand.Proofs.Reflecting
import Shorthand.Proofs.Repetition
import Shorthand.Proofs.Groups
import Shorthand.Proofs.WrittenOut
import Shorthand.Proofs.Hanging
import Shorthand.Proofs.Source
import Shorthand.Proofs.Reading
import Shorthand.Proofs.Places
import Shorthand.Proofs.Operators
import Shorthand.Proofs.Faults
import Shorthand.Proofs.Stumbling
import Shorthand.Proofs.Acceptance
import Shorthand.Proofs.TextsRead
import Shorthand.Proofs.Demands
import Shorthand.Proofs.Refusing
import Shorthand.Proofs.ErrorPlaces
import Shorthand.Proofs.Content
import Shorthand.Proofs.ReadingOrder
import Shorthand.Proofs.Formatting
import Shorthand.Proofs.Insertion
import Shorthand.Proofs.Placeholders
import Shorthand.Proofs.Losses
import Shorthand.Proofs.Filling
import Shorthand.Proofs.MarkupCompletions
import Shorthand.Proofs.SnippetTexts
import Shorthand.Proofs.StylesheetCompletions
import Shorthand.Proofs.Nodewise
import Shorthand.Proofs.Expanding
import Shorthand.Proofs.Forest
import Shorthand.Proofs.Trails
import Shorthand.Proofs.UnrollRules
import Shorthand.Proofs.LaidOut
import Shorthand.Proofs.Limit
import Shorthand.Proofs.Naming
import Shorthand.Proofs.Distinct
import Shorthand.Proofs.Grafting
import Shorthand.Proofs.Merging
import Shorthand.Proofs.Chains
import Shorthand.Proofs.Offsets
import Shorthand.Proofs.Grouping
import Shorthand.Proofs.Composition
import Shorthand.Proofs.Spans
import Shorthand.Proofs.ReplacedRange
import Shorthand.Proofs.Questions
import Shorthand.Proofs.Payloads
import Shorthand.Proofs.TextAround
import Shorthand.Proofs.Layout
import Shorthand.Proofs.Chunks
import Shorthand.Proofs.ValueTokens
import Shorthand.Proofs.Gluing
import Shorthand.Proofs.OneLine
import Shorthand.Proofs.Selecting
import Shorthand.Proofs.WrittenAttributes
import Shorthand.Proofs.Reprinting
import Shorthand.Proofs.Slices
import Shorthand.Proofs.Counting
import Shorthand.Proofs.OptionValues
import Shorthand.Proofs.Overriding
import Shorthand.Proofs.Units
