import Bytecode.Entry

/-!
Which byte streams are programs and which lists of entries are programs, said by their form.

A program is a row of instructions: one opcode byte, which for a push is followed by the bytes of
an operand, whatever they are. As entries, a push and an operand stand side by side or not at all.
-/

namespace Bytecode

/-- Byte streams that are a row of instructions. -/
inductive IsProgram : List UInt8 → Prop where
  | nil : IsProgram []
  | op (o : Opcode) (rest : List UInt8) (ho : o ≠ .push) (hr : IsProgram rest) :
      IsProgram (o.byte :: rest)
  | push (d : Operand) (rest : List UInt8) (hr : IsProgram rest) :
      IsProgram (Opcode.push.byte :: (d.bytes ++ rest))

/-- Lists of entries in which an operand follows each push, and a push precedes each operand. -/
structure Paired (es : List Entry) : Prop where
  operand_of_push : ∀ i, es[i]? = some (.op .push) → ∃ d, es[i + 1]? = some (.data d)
  push_of_operand : ∀ i d, es[i]? = some (.data d) → ∃ j, i = j + 1 ∧ es[j]? = some (.op .push)

end Bytecode
