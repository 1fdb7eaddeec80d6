import Bytecode.Hex
import Bytecode.Opcode

/-!
What can be wrong with a byte, with a program and with a jump, and how it is worded.

Numbers are written in decimal without padding and a byte as `0x` and two hexadecimal digits.
-/

namespace Bytecode

inductive CatalogueError where
  | invalidOpcode (byte : UInt8)
deriving DecidableEq, Repr

namespace CatalogueError

def message : CatalogueError → String
  | invalidOpcode byte => "invalid opcode: 0x" ++ Hex.ofByte byte

end CatalogueError

/-- Why bytes are no program, or why a program has no entry to jump to. Offsets count bytes,
targets and sizes count entries. -/
inductive ProgramError where
  | invalidOpcode (byte : UInt8) (offset : Nat)
  | truncatedOperand (offset expected available : Nat)
  | invalidJumpTarget (target size : Nat)
deriving DecidableEq, Repr

namespace ProgramError

def message : ProgramError → String
  | invalidOpcode byte offset =>
    "invalid opcode 0x" ++ Hex.ofByte byte ++ " at offset " ++ toString offset
  | truncatedOperand offset expected available =>
    "truncated operand for PUSH at offset " ++ toString offset ++ ": expected " ++
      toString expected ++ " bytes, found " ++ toString available
  | invalidJumpTarget target size =>
    "invalid jump target " ++ toString target ++ " (program has " ++ toString size ++ " entries)"

end ProgramError

def Opcode.ofByte (b : UInt8) : Except CatalogueError Opcode :=
  match ofByte? b with
  | some o => .ok o
  | none => .error (.invalidOpcode b)

end Bytecode
