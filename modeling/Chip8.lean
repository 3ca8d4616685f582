import Chip8.CallStack
import Chip8.Clock
import Chip8.Command
import Chip8.Document
import Chip8.Document.Block
import Chip8.Document.Character
import Chip8.Document.Cursor
import Chip8.Document.Directive
import Chip8.Document.Draft
import Chip8.Document.Gap
import Chip8.Document.Layout
import Chip8.Document.Node
import Chip8.Document.Plain
import Chip8.Document.Quoted
import Chip8.Document.Scalar
import Chip8.Document.Tag
import Chip8.Document.Token
import Chip8.Failure
import Chip8.Font
import Chip8.FramePrinter
import Chip8.Generator
import Chip8.Generator.Keystream
import Chip8.Instruction
import Chip8.Instruction.Decode
import Chip8.Instruction.Mnemonic
import Chip8.Keypad
import Chip8.Listing
import Chip8.Machine
import Chip8.Machine.Execute
import Chip8.Machine.Operation
import Chip8.Main
import Chip8.Memory
import Chip8.Numeral
import Chip8.Proofs.Clock.Drift
import Chip8.Proofs.Clock.Polling
import Chip8.Proofs.Clock.Stalls
import Chip8.Proofs.Command.Grammar
import Chip8.Proofs.FramePrinter.Losses
import Chip8.Proofs.Instruction.Encoding
import Chip8.Proofs.Instruction.Operands
import Chip8.Proofs.Instruction.Reading
import Chip8.Proofs.Listing.Lines
import Chip8.Proofs.Listing.Recognition
import Chip8.Proofs.Listing.Recovery
import Chip8.Proofs.Machine.Countdown
import Chip8.Proofs.Machine.Decimal
import Chip8.Proofs.Machine.Drawing
import Chip8.Proofs.Machine.Fault
import Chip8.Proofs.Machine.Flags
import Chip8.Proofs.Machine.Frame
import Chip8.Proofs.Machine.Halting
import Chip8.Proofs.Machine.History
import Chip8.Proofs.Machine.Idle
import Chip8.Proofs.Machine.Indexing
import Chip8.Proofs.Machine.Invariant
import Chip8.Proofs.Machine.Loading
import Chip8.Proofs.Machine.Mask
import Chip8.Proofs.Machine.Nesting
import Chip8.Proofs.Machine.Noninterference
import Chip8.Proofs.Machine.Placements
import Chip8.Proofs.Machine.RandomBytes
import Chip8.Proofs.Machine.Redraw
import Chip8.Proofs.Machine.Saving
import Chip8.Proofs.Machine.Signals
import Chip8.Proofs.Machine.Splitting
import Chip8.Proofs.Machine.Step
import Chip8.Proofs.Machine.Stores
import Chip8.Proofs.Machine.Switches
import Chip8.Proofs.Machine.Timing
import Chip8.Proofs.Machine.Tracing
import Chip8.Proofs.Machine.Veil
import Chip8.Proofs.Machine.Waiting
import Chip8.Proofs.Numeral.Decimal
import Chip8.Proofs.Numeral.Digits
import Chip8.Proofs.Safety.Access
import Chip8.Proofs.Safety.Machine
import Chip8.Proofs.Safety.Sprite
import Chip8.Proofs.Screen.Cancellation
import Chip8.Proofs.Screen.Compositor
import Chip8.Proofs.Screen.Separation
import Chip8.Proofs.Screen.Views
import Chip8.Proofs.Session.Schedule
import Chip8.Proofs.Settings.Layers
import Chip8.Proofs.Text.Lines
import Chip8.Registers
import Chip8.Report
import Chip8.Screen
import Chip8.Screen.Blit
import Chip8.Session
import Chip8.Settings
import Chip8.Settings.Reading
