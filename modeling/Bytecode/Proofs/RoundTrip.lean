import Mathlib.Tactic.Common
import Bytecode.Proofs.Disassembly

/-!
Reading and writing undo each other.

Writing a disassembled program gives its stream back. The other way round, the bytes of an operand
may be the bytes of eight opcodes, so a list of entries is read back only if it is paired.
-/

namespace Bytecode.Program

open Instruction

/-- **A stream is written back as it was read**, and every row of instructions is read. -/
theorem toBytes_disassemble (bytes : List UInt8) :
    (∀ p, disassemble bytes = .ok p → p.toBytes = bytes) ∧
      (IsProgram bytes → ∃ p, disassemble bytes = .ok p ∧ p.toBytes = bytes) := by
  refine ⟨fun p h => ?_, fun h => ?_⟩
  · obtain ⟨is, rfl, rfl⟩ := disassemble_eq_ok_iff.1 h
    exact toBytes_ofInstructions is
  · obtain ⟨is, rfl⟩ := isProgram_iff.1 h
    exact ⟨_, disassemble_codes is, toBytes_ofInstructions is⟩

theorem toBytes_disassemble_push_push :
    let bytes : List UInt8 := [0x21, 0x21, 0x29, 0xff, 0, 0, 0, 0, 0x21,
      0x21, 1, 2, 3, 4, 5, 6, 7, 8, 0x29]
    let p := ofInstructions [.push (.ofUInt64 0x2129ff0000000021),
      .push (.ofUInt64 0x0102030405060708), .plain .jumpDst]
    disassemble bytes = .ok p ∧ p.toBytes = bytes ∧ IsProgram bytes ∧
      ∃ q, disassemble bytes = .ok q ∧ q.toBytes = bytes := by
  intro bytes p
  have hp : disassemble bytes = .ok p := by cbv
  have hb : IsProgram bytes := isProgram_codes [.push (.ofUInt64 0x2129ff0000000021),
    .push (.ofUInt64 0x0102030405060708), .plain .jumpDst]
  exact ⟨hp, (toBytes_disassemble bytes).1 p hp, hb, (toBytes_disassemble bytes).2 hb⟩

lemma toList_appendAll_listing (is : List Instruction) :
    (Entry.appendAll #[] (listing is)).toList = codes is := by
  rw [Entry.toList_appendAll, flatMap_encode_listing, List.nil_append]

lemma disassemble_appendAll {es : List Entry} (h : Paired es) :
    disassemble (Entry.appendAll #[] es).toList = .ok (ofEntries es.toArray) := by
  obtain ⟨is, rfl⟩ := paired_iff.1 h
  rw [toList_appendAll_listing, disassemble_codes]
  rfl

/-- **Entries are read back from their bytes exactly if they are paired**, and then by a program
that stands on the first of them. -/
theorem disassemble_appendAll_iff_paired (es : List Entry) :
    ((∃ p, disassemble (Entry.appendAll #[] es).toList = .ok p ∧ p.entries.toList = es) ↔
        Paired es) ∧
      (Paired es → ∃ p, disassemble (Entry.appendAll #[] es).toList = .ok p ∧
        p.entries.toList = es ∧ p.pc = 0) := by
  refine ⟨⟨?_, fun h => ⟨_, disassemble_appendAll h, rfl⟩⟩,
    fun h => ⟨_, disassemble_appendAll h, rfl, rfl⟩⟩
  -- whatever was written, what is read is the listing of a row of instructions
  rintro ⟨p, hp, rfl⟩
  obtain ⟨is, -, rfl⟩ := disassemble_eq_ok_iff.1 hp
  rw [entries_ofInstructions]
  exact paired_listing is

theorem disassemble_appendAll_push_markers :
    let es : List Entry := [.op .push, .data (.ofUInt64 0x2929292929292929), .op .jumpDst]
    Paired es ∧ ∃ p, disassemble (Entry.appendAll #[] es).toList = .ok p ∧
      p.entries.toList = es ∧ p.pc = 0 := by
  intro es
  have he : Paired es :=
    paired_listing [.push (.ofUInt64 0x2929292929292929), .plain .jumpDst]
  exact ⟨he, (disassemble_appendAll_iff_paired es).2 he⟩

/-- Without its push the same operand is read as eight markers. -/
example : (disassemble (Entry.appendAll #[] [.data (.ofUInt64 0x2929292929292929)]).toList).map
    (·.entries) = .ok (.replicate 8 (.op .jumpDst)) := by
  decide +kernel

end Bytecode.Program
