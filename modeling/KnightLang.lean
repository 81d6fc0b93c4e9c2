import KnightLang.Builtin
import KnightLang.Cells
import KnightLang.CommandLine.Basic
import KnightLang.Error
import KnightLang.Host.Basic
import KnightLang.Host.Command
import KnightLang.Host.Console
import KnightLang.Host.FileSystem
import KnightLang.Host.Limited
import KnightLang.Host.Scripted
import KnightLang.Machine.Basic
import KnightLang.Machine.Coercion
import KnightLang.Machine.Eval
import KnightLang.Machine.Fuel
import KnightLang.Main
import KnightLang.Number.Arith
import KnightLang.Number.Binary64
import KnightLang.Number.Power
import KnightLang.Number.Range
import KnightLang.Proofs.Host.Console
import KnightLang.Proofs.Machine.Calls
import KnightLang.Proofs.Machine.Confinement
import KnightLang.Proofs.Machine.FirstOrder
import KnightLang.Proofs.Machine.Forcing
import KnightLang.Proofs.Machine.Frame
import KnightLang.Proofs.Machine.Halting
import KnightLang.Proofs.Machine.Hosts
import KnightLang.Proofs.Machine.Kept
import KnightLang.Proofs.Machine.Limits
import KnightLang.Proofs.Machine.Loops
import KnightLang.Proofs.Machine.Output
import KnightLang.Proofs.Machine.Parallel
import KnightLang.Proofs.Machine.Perform
import KnightLang.Proofs.Machine.Plan
import KnightLang.Proofs.Machine.Provenance
import KnightLang.Proofs.Machine.Sources
import KnightLang.Proofs.Machine.Steps
import KnightLang.Proofs.Number.Division
import KnightLang.Proofs.Number.Power
import KnightLang.Proofs.Number.Rounding
import KnightLang.Proofs.Number.TruncatedPower
import KnightLang.Proofs.Session.Cells
import KnightLang.Proofs.Session.Errors
import KnightLang.Proofs.Session.Growth
import KnightLang.Proofs.Session.Independence
import KnightLang.Proofs.Session.Kept
import KnightLang.Proofs.Session.Parallel
import KnightLang.Proofs.Session.Registering
import KnightLang.Proofs.Session.Rendered
import KnightLang.Proofs.Session.Sequence
import KnightLang.Proofs.Session.Unassigned
import KnightLang.Proofs.Session.WellFormed
import KnightLang.Proofs.Source.Concatenation
import KnightLang.Proofs.Source.Coordinates
import KnightLang.Proofs.Source.Counting
import KnightLang.Proofs.Source.Descent
import KnightLang.Proofs.Source.Extension
import KnightLang.Proofs.Source.Failure
import KnightLang.Proofs.Source.Filler
import KnightLang.Proofs.Source.Prefix
import KnightLang.Proofs.Source.Progress
import KnightLang.Proofs.Source.Rendering
import KnightLang.Proofs.Source.Skipping
import KnightLang.Proofs.Source.Spelling
import KnightLang.Proofs.Source.Stream
import KnightLang.Proofs.Term.Order
import KnightLang.Proofs.Text.Numeral
import KnightLang.Proofs.Text.Order
import KnightLang.Proofs.Text.Part
import KnightLang.Proofs.Text.Repetition
import KnightLang.Session
import KnightLang.Shell.Arithmetic
import KnightLang.Shell.Builtin
import KnightLang.Shell.Condition
import KnightLang.Shell.Escape
import KnightLang.Shell.Expansion
import KnightLang.Shell.Field
import KnightLang.Shell.Format
import KnightLang.Shell.Grammar
import KnightLang.Shell.Options
import KnightLang.Shell.Pattern
import KnightLang.Shell.Program
import KnightLang.Shell.Run
import KnightLang.Shell.Script
import KnightLang.Shell.State
import KnightLang.Shell.Stream
import KnightLang.Shell.Token
import KnightLang.Source.Error
import KnightLang.Source.Filler
import KnightLang.Source.Position
import KnightLang.Source.Reading
import KnightLang.Source.Token
import KnightLang.Store
import KnightLang.Term.Basic
import KnightLang.Term.Compare
import KnightLang.Term.Literal
import KnightLang.Term.Show
import KnightLang.Text.Blank
import KnightLang.Text.Numeral
import KnightLang.Text.Order
import KnightLang.Text.Part
import KnightLang.Text.Raw
import KnightLang.Text.RawNumeral
import KnightLang.Text.Utf8
