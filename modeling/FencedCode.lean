import FencedCode.Aliases
import FencedCode.Backend
import FencedCode.Bisect
import FencedCode.Block
import FencedCode.Catalog
import FencedCode.Color
import FencedCode.Columns
import FencedCode.CommandLine
import FencedCode.Config
import FencedCode.Decoration
import FencedCode.Document
import FencedCode.Edit
import FencedCode.Error
import FencedCode.Face
import FencedCode.Fault
import FencedCode.Fence
import FencedCode.Files
import FencedCode.Grammar
import FencedCode.Grammar.C
import FencedCode.Grammar.JavaScript
import FencedCode.Grammar.Markdown
import FencedCode.Grammar.Python
import FencedCode.Grammar.Rust
import FencedCode.Grammar.Source
import FencedCode.Grammar.Toml
import FencedCode.Highlighter
import FencedCode.Host
import FencedCode.Interval
import FencedCode.Key
import FencedCode.Loader
import FencedCode.LogFilter
import FencedCode.Main
import FencedCode.Pager
import FencedCode.Pager.View
import FencedCode.Pattern
import FencedCode.Pattern.Automaton
import FencedCode.Pattern.ByteRange
import FencedCode.Pattern.CharSet
import FencedCode.Pattern.Footprint
import FencedCode.Pattern.Parse
import FencedCode.Pattern.Search
import FencedCode.Pattern.Token
import FencedCode.Placement
import FencedCode.Proofs.Announcements
import FencedCode.Proofs.Answers
import FencedCode.Proofs.Arguments
import FencedCode.Proofs.Attentive
import FencedCode.Proofs.Backends
import FencedCode.Proofs.BackgroundLoads
import FencedCode.Proofs.Batch
import FencedCode.Proofs.Blocks
import FencedCode.Proofs.Boundaries
import FencedCode.Proofs.Bundled
import FencedCode.Proofs.ByteAccess
import FencedCode.Proofs.Candidates
import FencedCode.Proofs.Carryover
import FencedCode.Proofs.CharSets
import FencedCode.Proofs.Clipping
import FencedCode.Proofs.ColorNotation
import FencedCode.Proofs.Columns
import FencedCode.Proofs.Coverage
import FencedCode.Proofs.Decorations
import FencedCode.Proofs.Entries
import FencedCode.Proofs.Escapes
import FencedCode.Proofs.Failures
import FencedCode.Proofs.Faithful
import FencedCode.Proofs.FenceIndex
import FencedCode.Proofs.FenceLines
import FencedCode.Proofs.FenceMemory
import FencedCode.Proofs.Fitting
import FencedCode.Proofs.Frame
import FencedCode.Proofs.FromScratch
import FencedCode.Proofs.InBounds
import FencedCode.Proofs.Incremental
import FencedCode.Proofs.Interval
import FencedCode.Proofs.Laying
import FencedCode.Proofs.Leftmost
import FencedCode.Proofs.Leftovers
import FencedCode.Proofs.LineIndex
import FencedCode.Proofs.LineReading
import FencedCode.Proofs.LineSearch
import FencedCode.Proofs.Lines
import FencedCode.Proofs.Loads
import FencedCode.Proofs.Locating
import FencedCode.Proofs.Matches
import FencedCode.Proofs.Offscreen
import FencedCode.Proofs.OnScreen
import FencedCode.Proofs.Openers
import FencedCode.Proofs.OpeningPattern
import FencedCode.Proofs.Overlaps
import FencedCode.Proofs.Paging
import FencedCode.Proofs.Pairing
import FencedCode.Proofs.Printing
import FencedCode.Proofs.Provenance
import FencedCode.Proofs.Quoting
import FencedCode.Proofs.Ranges
import FencedCode.Proofs.Reconcile
import FencedCode.Proofs.Refreshing
import FencedCode.Proofs.Regions
import FencedCode.Proofs.Rendering
import FencedCode.Proofs.Replacing
import FencedCode.Proofs.Resumption
import FencedCode.Proofs.Resync
import FencedCode.Proofs.RuleOrder
import FencedCode.Proofs.Runs
import FencedCode.Proofs.Saving
import FencedCode.Proofs.Screens
import FencedCode.Proofs.Session
import FencedCode.Proofs.Settled
import FencedCode.Proofs.Sorting
import FencedCode.Proofs.Spans
import FencedCode.Proofs.Splice
import FencedCode.Proofs.Spreading
import FencedCode.Proofs.Stretches
import FencedCode.Proofs.StyleKeys
import FencedCode.Proofs.Survivors
import FencedCode.Proofs.Text
import FencedCode.Proofs.Tracking
import FencedCode.Proofs.Turns
import FencedCode.Proofs.Uncovered
import FencedCode.Proofs.Unrepaired
import FencedCode.Proofs.Untouched
import FencedCode.Proofs.Writing
import FencedCode.Run
import FencedCode.Screen
import FencedCode.Style
import FencedCode.Terminal
import FencedCode.Text
import FencedCode.Text.Blank
import FencedCode.Text.Class
import FencedCode.Text.Hex
import FencedCode.Text.Table
import FencedCode.Text.Width
import FencedCode.Text.WidthTable
import FencedCode.Text.WordTable
import FencedCode.Theme
import FencedCode.Tokenizer
import FencedCode.Tokenizer.Recorded
import FencedCode.Tokenizer.Scripted
import FencedCode.Toml.Document
import FencedCode.Toml.Quoted
import FencedCode.Toml.Scalar
import FencedCode.Toml.Table
import FencedCode.Toml.Writer
import FencedCode.Viewport
