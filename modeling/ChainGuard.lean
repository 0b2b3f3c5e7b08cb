import ChainGuard.Backup
import ChainGuard.Binary64
import ChainGuard.Chain
import ChainGuard.CommandLine
import ChainGuard.CommandLine.Arguments
import ChainGuard.Compiler
import ChainGuard.Compiler.Command
import ChainGuard.Compiler.Output
import ChainGuard.Compiler.Overlay
import ChainGuard.Console
import ChainGuard.Console.Highlight
import ChainGuard.Console.Layout
import ChainGuard.Console.Table
import ChainGuard.Diagnostic
import ChainGuard.Dict
import ChainGuard.Diff
import ChainGuard.Diff.Matching
import ChainGuard.Disk
import ChainGuard.Edit
import ChainGuard.Failure
import ChainGuard.Grammar
import ChainGuard.Guard
import ChainGuard.Host
import ChainGuard.JsonValue
import ChainGuard.JsonValue.Reader
import ChainGuard.JsonValue.Writer
import ChainGuard.Main
import ChainGuard.Pass
import ChainGuard.Path
import ChainGuard.Position
import ChainGuard.Project
import ChainGuard.Project.Fix
import ChainGuard.Session
import ChainGuard.Settings
import ChainGuard.Source
import ChainGuard.Text
import ChainGuard.Text.Blank
import ChainGuard.Text.Cells
import ChainGuard.Text.Digit
import ChainGuard.Text.Glyph
import ChainGuard.Text.Integer
import ChainGuard.Text.Lines
import ChainGuard.Text.Pattern
import ChainGuard.Text.Printable
import ChainGuard.Text.Quoted
import ChainGuard.Text.WordChar
import ChainGuard.Text.Words
import ChainGuard.TomlValue
import ChainGuard.TomlValue.Reader
import ChainGuard.Tree
import ChainGuard.Utf8
import ChainGuard.Proofs.Dict
import ChainGuard.Proofs.Edit
import ChainGuard.Proofs.Guard
import ChainGuard.Proofs.Pass
import ChainGuard.Proofs.Session
import ChainGuard.Proofs.Source
import ChainGuard.Proofs.Tree
import ChainGuard.Proofs.WriteSafety
import ChainGuard.Proofs.AccessChain
import ChainGuard.Proofs.AccessChain.Lookup
import ChainGuard.Proofs.AccessChain.Guard
import ChainGuard.Proofs.AccessChain.Propagation
import ChainGuard.Proofs.Disk
import ChainGuard.Proofs.Host
import ChainGuard.Proofs.Compiler
import ChainGuard.Proofs.Project
import ChainGuard.Proofs.Backup
import ChainGuard.Proofs.Utf8
import ChainGuard.Proofs.JsonValue
import ChainGuard.Proofs.JsonValue.Shortening
import ChainGuard.Proofs.Name
import ChainGuard.Proofs.Backup.Session
import ChainGuard.Proofs.Backup.Listing
import ChainGuard.Proofs.Project.Fix
import ChainGuard.Proofs.Project.Recovery
import ChainGuard.Proofs.Project.Undo
import ChainGuard.Proofs.Backup.Order
import ChainGuard.Proofs.Backup.Stack
import ChainGuard.Proofs.Session.Round
import ChainGuard.Proofs.Session.Split
import ChainGuard.Proofs.Pass.Account
import ChainGuard.Proofs.Session.Account
import ChainGuard.Proofs.Session.Order
import ChainGuard.Proofs.Source.Characters
import ChainGuard.Proofs.Guard.Marked
import ChainGuard.Proofs.Guard.Start
import ChainGuard.Proofs.Edit.Batch
import ChainGuard.Proofs.Tree.Ranges
import ChainGuard.Proofs.Source.Edited
import ChainGuard.Proofs.Text.Integer
import ChainGuard.Proofs.Text.Lines
import ChainGuard.Proofs.Position
import ChainGuard.Proofs.Compiler.Line
import ChainGuard.Proofs.Compiler.Output
import ChainGuard.Proofs.Host.Failure
import ChainGuard.Proofs.Compiler.Failure
import ChainGuard.Proofs.Project.Failure
import ChainGuard.Proofs.Project.Ordinary
import ChainGuard.Proofs.Guard.Token
import ChainGuard.Proofs.Guard.Chain
import ChainGuard.Proofs.Compiler.Overlay
import ChainGuard.Proofs.Edit.Simultaneous
import ChainGuard.Proofs.Source.Deepest
import ChainGuard.Proofs.Position.Lines
import ChainGuard.Proofs.Compiler.Launch
import ChainGuard.Proofs.Utf8.Cut
import ChainGuard.Proofs.Source.Offsets
import ChainGuard.Proofs.Settings
import ChainGuard.Proofs.Backup.Faithful
import ChainGuard.Proofs.Diff.Matching
import ChainGuard.Proofs.Diff
import ChainGuard.Proofs.Diff.Patch
import ChainGuard.Proofs.Diff.Applied
