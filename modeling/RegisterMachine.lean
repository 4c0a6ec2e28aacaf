import RegisterMachine.Text.Blank
import RegisterMachine.Text.Split
import RegisterMachine.Text.Numeral
import RegisterMachine.Text.Utf8
import RegisterMachine.Diagnostic
import RegisterMachine.Word
import RegisterMachine.Opcode
import RegisterMachine.Instruction
import RegisterMachine.Program
import RegisterMachine.Assembly.Line
import RegisterMachine.Assembly.Error
import RegisterMachine.Assembly.Label
import RegisterMachine.Assembly.Operand
import RegisterMachine.Assembly.Assemble
import RegisterMachine.Transcript
import RegisterMachine.Machine.Fault
import RegisterMachine.Machine.Basic
import RegisterMachine.Machine.Execute
import RegisterMachine.Machine.InPlace
import RegisterMachine.Machine.Run
import RegisterMachine.Machine.Dump
import RegisterMachine.Breakpoint.Table
import RegisterMachine.Breakpoint.Patched
import RegisterMachine.Session.Command
import RegisterMachine.Session.Script
import RegisterMachine.Session.Cursor
import RegisterMachine.Session.Basic
import RegisterMachine.Session.Run
import RegisterMachine.Cli.Path
import RegisterMachine.Cli.Status
import RegisterMachine.Cli.Arguments
import RegisterMachine.Cli.Process
import RegisterMachine.Cli.Directory
import RegisterMachine.Main
import RegisterMachine.Proofs.Machine.Effect
import RegisterMachine.Proofs.Machine.Steps
import RegisterMachine.Proofs.Machine.Lifetime
import RegisterMachine.Proofs.Machine.PostMortem
import RegisterMachine.Proofs.Breakpoint.View
import RegisterMachine.Proofs.Breakpoint.Consistent
import RegisterMachine.Proofs.Session.Log
import RegisterMachine.Proofs.Session.Simulation
import RegisterMachine.Proofs.Session.Transparency
import RegisterMachine.Proofs.Session.Table
import RegisterMachine.Proofs.Session.NextBreakpoint
import RegisterMachine.Proofs.Assembly.WellFormed
import RegisterMachine.Proofs.Assembly.Safety
import RegisterMachine.Proofs.Text.Split
import RegisterMachine.Proofs.Text.Numeral
import RegisterMachine.Proofs.Assembly.Grammar
import RegisterMachine.Proofs.Text.Utf8
import RegisterMachine.Proofs.Assembly.Layout
import RegisterMachine.Proofs.Assembly.Outcome
import RegisterMachine.Proofs.Assembly.Memory
import RegisterMachine.Proofs.Assembly.Names
import RegisterMachine.Proofs.Assembly.Listing
import RegisterMachine.Proofs.Assembly.Spacing
import RegisterMachine.Proofs.Machine.Output
import RegisterMachine.Proofs.Program.RoundTrip
import RegisterMachine.Proofs.Machine.Dump
import RegisterMachine.Proofs.Cli.Toolchain
import RegisterMachine.Proofs.Session.Trimmed
import RegisterMachine.Proofs.Session.Dialogue
import RegisterMachine.Proofs.Session.Piped
import RegisterMachine.Proofs.Session.Edits
import RegisterMachine.Proofs.Session.Stepping
import RegisterMachine.Proofs.Session.Past
import RegisterMachine.Proofs.Session.Resumption
import RegisterMachine.Proofs.Session.Disassembly
import RegisterMachine.Proofs.Session.Looking
import RegisterMachine.Proofs.Session.Command
import RegisterMachine.Proofs.Machine.Footprint
import RegisterMachine.Proofs.Session.Cursor
import RegisterMachine.Proofs.Session.InRange
