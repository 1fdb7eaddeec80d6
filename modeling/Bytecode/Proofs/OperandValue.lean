import Mathlib.Tactic.Common
import Bytecode.Proofs.Disassembly
import Bytecode.Proofs.PositionalValue

/-!
Numbers that pass through a program.

A row of instructions may be given by opcodes and numbers, of which only a push keeps its number.
Written in bytes it is a program, and the numbers of the pushes are read off its operands again.
Main statement: `operandValues_of_numbered`.
-/

namespace Bytecode

/-- The bytes of an opcode that is given with a number: only a push writes the number. -/
def Opcode.codeWith (o : Opcode) (v : UInt64) : List UInt8 :=
  o.byte :: if o = push then (Operand.ofUInt64 v).bytes else []

def Entry.value? : Entry → Option UInt64
  | op _ => none
  | data d => some d.toUInt64

def Program.operandValues (p : Program) : List UInt64 :=
  p.entries.toList.filterMap Entry.value?

namespace Instruction

def ofValue (o : Opcode) (v : UInt64) : Instruction :=
  if h : o = .push then push (.ofUInt64 v) else plain o h

lemma code_ofValue (o : Opcode) (v : UInt64) : (ofValue o v).code = o.codeWith v := by
  unfold ofValue Opcode.codeWith
  split
  · next h => rw [code, h]
  · rfl

lemma filterMap_value?_ofValue (o : Opcode) (v : UInt64) :
    (ofValue o v).entries.filterMap Entry.value? = if o = .push then [v] else [] := by
  unfold ofValue
  split
  · change [(Operand.ofUInt64 v).toUInt64] = [v]
    rw [Operand.toUInt64_ofUInt64]
  · rfl

variable (is : List (Opcode × UInt64))

lemma codes_map_ofValue :
    codes (is.map fun i => ofValue i.1 i.2) = is.flatMap fun i => i.1.codeWith i.2 := by
  rw [codes, List.flatMap_map]
  simp only [code_ofValue]

lemma filterMap_value?_listing :
    (listing (is.map fun i => ofValue i.1 i.2)).filterMap Entry.value? =
      (is.filter (·.1 = .push)).map (·.2) := by
  induction is with
  | nil => rfl
  | cons i is ih =>
    rw [List.map_cons, listing_cons, List.filterMap_append, filterMap_value?_ofValue, ih]
    by_cases hi : i.1 = .push <;> simp [hi]

end Instruction

namespace Program

open Instruction

/-- **Operands keep their numbers.** Eight bytes and a 64-bit number stand for each other, each byte
counts by its place, and the order of numbers is the lexicographic order of their bytes. So the
numbers of the pushes in a row of instructions are the numbers of the operands that are read. -/
theorem operandValues_of_numbered :
    (∀ v : UInt64, (Operand.ofUInt64 v).toUInt64 = v) ∧
    (∀ d : Operand, .ofUInt64 d.toUInt64 = d) ∧
    (∀ d : Operand, d.toUInt64.toNat = ∑ i : Fin 8, (d.byte i).toNat * 256 ^ (7 - i.val)) ∧
    (∀ v w : UInt64,
      v < w ↔ List.Lex (· < ·) (Operand.ofUInt64 v).bytes (Operand.ofUInt64 w).bytes) ∧
    ∀ is : List (Opcode × UInt64), ∃ p,
      disassemble (is.flatMap fun i => i.1.codeWith i.2) = .ok p ∧
        p.operandValues = (is.filter (·.1 = .push)).map (·.2) := by
  refine ⟨Operand.toUInt64_ofUInt64, Operand.ofUInt64_toUInt64, Operand.toNat_toUInt64_eq_sum,
    Operand.lt_iff_lex_bytes, fun is => ?_⟩
  refine ⟨ofInstructions (is.map fun i => ofValue i.1 i.2), ?_, ?_⟩
  · rw [← codes_map_ofValue, disassemble_codes]
  · rw [operandValues, entries_ofInstructions, filterMap_value?_listing]

end Program

end Bytecode
