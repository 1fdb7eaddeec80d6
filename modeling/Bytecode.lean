import Bytecode.Main
import Bytecode.Session
import Bytecode.File.Tree
import Bytecode.Grammar
import Bytecode.Layout
import Bytecode.Cursor
import Bytecode.IndexedScan
import Bytecode.Proofs.Disassembly
import Bytecode.Proofs.Acceptance
import Bytecode.Proofs.IndexArithmetic
import Bytecode.Proofs.RoundTrip
import Bytecode.Proofs.JumpMarkers
import Bytecode.Proofs.JumpTargets
import Bytecode.Proofs.PositionalValue
import Bytecode.Proofs.OperandValue
import Bytecode.Proofs.Concatenation
import Bytecode.Proofs.ByteOffset
import Bytecode.Proofs.Buffer
import Bytecode.Proofs.Prefix
import Bytecode.Proofs.OperandPayload
import Bytecode.Proofs.SessionInvariant
import Bytecode.Proofs.EntryAddress
import Bytecode.Proofs.ProgramEquality
import Bytecode.Proofs.CursorSimulation
import Bytecode.Proofs.GuardedRun
import Bytecode.Proofs.IdleSteps
import Bytecode.Proofs.CounterHistory
import Bytecode.Proofs.RemainingEntries
import Bytecode.Decimal
import Bytecode.Proofs.DecimalText
import Bytecode.Proofs.ErrorText
import Bytecode.Proofs.CommandOutcome
import Bytecode.Proofs.CommandReports
import Bytecode.Proofs.CheckReport
