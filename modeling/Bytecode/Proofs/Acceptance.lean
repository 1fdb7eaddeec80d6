import Mathlib.Tactic.Common
import Bytecode.Proofs.Disassembly

/-!
Which streams are accepted, and what exactly is wrong with the others.

The first fault of a stream stands behind a program: what comes before it is accepted, and it is
a byte that encodes no opcode or a push with too few bytes behind it. Main statement:
`disassemble_outcome`.
-/

namespace Bytecode

open Instruction

structure UnregisteredAt (bytes : List UInt8) (byte : UInt8) (offset : Nat) : Prop where
  lt_length : offset < bytes.length
  isProgram : IsProgram (bytes.take offset)
  getElem : bytes[offset]? = some byte
  unregistered : ∀ o : Opcode, o.byte ≠ byte

structure TruncatedAt (bytes : List UInt8) (offset expected available : Nat) : Prop where
  lt_length : offset < bytes.length
  isProgram : IsProgram (bytes.take offset)
  getElem : bytes[offset]? = some 0x21
  expected_eq : expected = 8
  available_eq : available = bytes.length - offset - 1
  available_lt : available < 8

/-- What the grammar says of a stream: that it is a program, or what its first fault is. -/
def Verdict (bytes : List UInt8) : Except ProgramError Unit → Prop
  | .ok () => IsProgram bytes
  | .error (.invalidOpcode byte offset) => UnregisteredAt bytes byte offset
  | .error (.truncatedOperand offset expected available) =>
    TruncatedAt bytes offset expected available
  | .error (.invalidJumpTarget _ _) => False

variable {bytes : List UInt8}

lemma exists_codes_append_cons_iff {b : UInt8} {offset : Nat} {P : List UInt8 → Prop} :
    (∃ is rest, codes is ++ b :: rest = bytes ∧ (codes is).length = offset ∧ P rest) ↔
      IsProgram (bytes.take offset) ∧ bytes[offset]? = some b ∧ P (bytes.drop (offset + 1)) := by
  refine ⟨?_, fun ⟨hp, hb, hr⟩ => ?_⟩
  · rintro ⟨is, rest, rfl, rfl, hr⟩
    refine ⟨?_, ?_, ?_⟩
    · rw [List.take_left]
      exact isProgram_codes is
    · simp
    · simpa using hr
  · obtain ⟨is, his⟩ := isProgram_iff.1 hp
    obtain ⟨hl, rfl⟩ := List.getElem?_eq_some_iff.1 hb
    refine ⟨is, bytes.drop (offset + 1), ?_, ?_, hr⟩
    · rw [his, ← List.drop_eq_getElem_cons hl, List.take_append_drop]
    · rw [his, List.length_take, Nat.min_eq_left (Nat.le_of_lt hl)]

namespace Program

theorem exists_disassemble_eq_ok_iff : (∃ p, disassemble bytes = .ok p) ↔ IsProgram bytes := by
  simp only [disassemble_eq_ok_iff, isProgram_iff]
  exact ⟨fun ⟨_, is, h, _⟩ => ⟨is, h⟩, fun ⟨is, h⟩ => ⟨_, is, h, rfl⟩⟩

theorem disassemble_eq_invalidOpcode_iff_at {b : UInt8} {offset : Nat} :
    disassemble bytes = .error (.invalidOpcode b offset) ↔ UnregisteredAt bytes b offset := by
  rw [disassemble_eq_invalidOpcode_iff,
    exists_codes_append_cons_iff (P := fun _ => ∀ o : Opcode, o.byte ≠ b)]
  refine ⟨fun ⟨hp, hb, hu⟩ => ⟨?_, hp, hb, hu⟩, fun h => ⟨h.isProgram, h.getElem, h.unregistered⟩⟩
  exact (List.getElem?_eq_some_iff.1 hb).1

theorem disassemble_eq_truncatedOperand_iff_at {offset expected available : Nat} :
    disassemble bytes = .error (.truncatedOperand offset expected available) ↔
      TruncatedAt bytes offset expected available := by
  rw [disassemble_eq_truncatedOperand_iff,
    exists_codes_append_cons_iff
      (P := fun rest => expected = 8 ∧ available = rest.length ∧ rest.length < 8),
    List.length_drop]
  refine ⟨fun ⟨hp, hb, he, ha, hw⟩ => ⟨?_, hp, hb, he, ?_, ?_⟩, fun h => ?_⟩
  · exact (List.getElem?_eq_some_iff.1 hb).1
  · omega
  · omega
  · have ha := h.available_eq
    have hw := h.available_lt
    exact ⟨h.isProgram, h.getElem, h.expected_eq, by omega, by omega⟩

lemma verdict_iff {v : Except ProgramError Unit} :
    Verdict bytes v ↔ (disassemble bytes).map (fun _ => ()) = v := by
  cases v with
  | ok u =>
    rw [Verdict, ← exists_disassemble_eq_ok_iff]
    cases disassemble bytes <;> simp [Except.map]
  | error cause =>
    cases cause with
    | invalidOpcode b o =>
      rw [Verdict, ← disassemble_eq_invalidOpcode_iff_at]
      cases disassemble bytes <;> simp [Except.map]
    | truncatedOperand o e a =>
      rw [Verdict, ← disassemble_eq_truncatedOperand_iff_at]
      cases disassemble bytes <;> simp [Except.map]
    | invalidJumpTarget t n =>
      have h := disassemble_ne_invalidJumpTarget bytes t n
      cases hd : disassemble bytes <;> simp_all [Verdict, Except.map]

/-- **The grammar decides the outcome.** A stream is accepted if it is a program, and otherwise
refused for its first fault. Just one of the three is the case, with one value for each field. -/
theorem disassemble_outcome (bytes : List UInt8) :
    ((∃ p, disassemble bytes = .ok p) ↔ IsProgram bytes) ∧
    (∀ b o, disassemble bytes = .error (.invalidOpcode b o) ↔ UnregisteredAt bytes b o) ∧
    (∀ o e a, disassemble bytes = .error (.truncatedOperand o e a) ↔ TruncatedAt bytes o e a) ∧
    (∀ t n, disassemble bytes ≠ .error (.invalidJumpTarget t n)) ∧
    ∃! v, Verdict bytes v := by
  refine ⟨exists_disassemble_eq_ok_iff, fun _ _ => disassemble_eq_invalidOpcode_iff_at,
    fun _ _ _ => disassemble_eq_truncatedOperand_iff_at, disassemble_ne_invalidJumpTarget bytes,
    (disassemble bytes).map (fun _ => ()), verdict_iff.2 rfl, fun v hv => ?_⟩
  exact (verdict_iff.1 hv).symm

/-- Bytes of an operand are no faults, and of two faults the first counts. -/
example : disassemble [0x21, 0xff, 0, 0x21, 0, 0, 0, 0, 0, 0xee, 0x21] =
    .error (.invalidOpcode 0xee 9) := by
  decide +kernel

end Program

end Bytecode
