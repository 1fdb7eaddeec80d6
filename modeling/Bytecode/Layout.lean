import Bytecode.Opcode

/-!
What stands where in a byte stream, found by stride alone: a push byte is skipped together with
the bytes of its operand, any other byte by itself. No entry is read.
-/

namespace Bytecode.Layout

/-- The indices of the jump markers of a stream whose first entry has the given index. A push and
its operand are two entries. -/
def markers (index : Nat) : List UInt8 → List Nat
  | [] => []
  | b :: rest =>
    if b = Opcode.push.byte then markers (index + 2) (rest.drop Operand.width)
    else if b = Opcode.jumpDst.byte then index :: markers (index + 1) rest
    else markers (index + 1) rest
termination_by bs => bs.length
decreasing_by all_goals simp only [List.length_drop, List.length_cons]; omega

/-- The offsets of the operand bytes of a stream whose first byte has the given offset. An operand
that the stream cuts off counts as far as it goes, and nothing counts behind a byte that is no
opcode. -/
def operandOffsets (offset : Nat) : List UInt8 → List Nat
  | [] => []
  | b :: rest =>
    if b = Opcode.push.byte then
      List.range' (offset + 1) (min Operand.width rest.length) ++
        operandOffsets (offset + 1 + Operand.width) (rest.drop Operand.width)
    else if (Opcode.ofByte? b).isSome then operandOffsets (offset + 1) rest
    else []
termination_by bs => bs.length
decreasing_by all_goals simp only [List.length_drop, List.length_cons]; omega

end Bytecode.Layout
