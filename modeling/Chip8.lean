import Chip8.Clock
import Chip8.Dump
import Chip8.Hex.Lemmas
import Chip8.Instruction.Assembly
import Chip8.Machine.Action
import Chip8.Rom.Folder
import Chip8.Proofs.StepRules
import Chip8.Proofs.WordForms
import Chip8.Proofs.HistoryInvariant
import Chip8.Proofs.FaultCommit
import Chip8.Proofs.KeyEdges
import Chip8.Proofs.KeyWait
import Chip8.Proofs.ParkedWait
import Chip8.Proofs.CounterBounds
import Chip8.Proofs.Footprint
import Chip8.Proofs.Subroutine
import Chip8.Proofs.HostScreen
import Chip8.Proofs.StepFaults
import Chip8.Proofs.InstructionGrammar
import Chip8.Proofs.Restart
import Chip8.Proofs.Checked.Decode
import Chip8.Proofs.Checked.Defined
import Chip8.Proofs.SpriteSum
import Chip8.Proofs.ExecutedSteps
import Chip8.Proofs.Noninterference
import Chip8.Proofs.TimerLaw
import Chip8.Proofs.StoreFill
import Chip8.Proofs.Tracing
import Chip8.Proofs.PressReports
import Chip8.Proofs.PixelParity
import Chip8.Proofs.LatestStore
import Chip8.Proofs.Dump.Identity
import Chip8.Proofs.Dump.MemorySection
import Chip8.Proofs.SpriteBlit
import Chip8.Proofs.ExactArithmetic
import Chip8.Proofs.ControlFlow
import Chip8.Proofs.Assembler
import Chip8.Proofs.ImageLoading
import Chip8.Proofs.WordFetch
