import Mathlib.Tactic.Common
import Bytecode.Proofs.JumpMarkers

/-!
A stream behind a program.

Behind an accepted stream reading starts anew: the entries of both streams stand one after the
other, and what is counted in the second is counted on from where the first ends, a byte offset
from its length and an entry index from its number of entries. Main statement:
`disassemble_append`.
-/

namespace Bytecode

open Instruction

/-- A fault of a stream, as it is told when `n` bytes stand in front of that stream. -/
def ProgramError.behind (n : Nat) : ProgramError → ProgramError
  | .invalidOpcode byte offset => .invalidOpcode byte (offset + n)
  | .truncatedOperand offset expected available =>
    .truncatedOperand (offset + n) expected available
  | .invalidJumpTarget target size => .invalidJumpTarget target size

namespace Program

def append (p q : Program) : Program := ofEntries (p.entries ++ q.entries)

lemma append_ofInstructions (is js : List Instruction) :
    (ofInstructions is).append (ofInstructions js) = ofInstructions (is ++ js) := by
  have he : (listing is).toArray ++ (listing js).toArray = (listing (is ++ js)).toArray := by
    rw [List.append_toArray, listing_append]
  exact congrArg ofEntries he

lemma jumpDestinations_append (p q : Program) :
    (p.append q).jumpDestinations =
      p.jumpDestinations ++ q.jumpDestinations.map (· + p.size) := by
  have he : (p.append q).entries.toList = p.entries.toList ++ q.entries.toList :=
    Array.toList_append
  have hs : 0 + p.entries.toList.length = p.size := by
    rw [Nat.zero_add, Array.length_toList, size]
  rw [jumpDestinations_eq, he, markerIndices_append, hs, markerIndices_eq_map p.size]
  rfl

end Program

namespace Scan

lemma Ends.behind (is : List Instruction) {js : List Instruction} {tail : List UInt8}
    {r : Except ProgramError Program} (h : Ends js tail r) :
    Ends (is ++ js) tail ((r.map (Program.ofInstructions is).append).mapError
      (ProgramError.behind (codes is).length)) := by
  have hl : (codes js).length + (codes is).length = (codes (is ++ js)).length := by
    rw [codes_append, List.length_append, Nat.add_comm]
  cases h with
  | finished =>
    have hp := Program.append_ofInstructions is js
    simp only [Except.map, Except.mapError, hp]
    exact .finished
  | unregistered b rest hb =>
    simp only [Except.map, Except.mapError, ProgramError.behind, hl]
    exact .unregistered b rest hb
  | truncated rest hr =>
    simp only [Except.map, Except.mapError, ProgramError.behind, hl]
    exact .truncated rest hr

end Scan

namespace Program

theorem disassemble_codes_append (is : List Instruction) (bytes : List UInt8) :
    disassemble (codes is ++ bytes) =
      ((disassemble bytes).map (ofInstructions is).append).mapError
        (ProgramError.behind (codes is).length) := by
  obtain ⟨js, tail, hb, he⟩ := disassemble_eq_iff.1 (Eq.refl (disassemble bytes))
  exact (disassemble_append_eq_iff is).2 ⟨js, tail, hb, he.behind is⟩

variable {a b : List UInt8} {p : Program}

/-- **Disassembly carries concatenation over**, from streams behind a program to entries: what is
read of the second stream, program or fault, is what it gives alone, moved on. -/
theorem disassemble_append (ha : disassemble a = .ok p) :
    (∀ q, disassemble b = .ok q → ∃ r, disassemble (a ++ b) = .ok r ∧
      r.entries = p.entries ++ q.entries ∧ r.pc = 0 ∧
      r.jumpDestinations = p.jumpDestinations ++ q.jumpDestinations.map (· + p.size)) ∧
    (∀ byte offset, disassemble b = .error (.invalidOpcode byte offset) →
      disassemble (a ++ b) = .error (.invalidOpcode byte (offset + a.length))) ∧
    ∀ offset expected available,
      disassemble b = .error (.truncatedOperand offset expected available) →
      disassemble (a ++ b) = .error (.truncatedOperand (offset + a.length) expected available) := by
  obtain ⟨is, rfl, rfl⟩ := disassemble_eq_ok_iff.1 ha
  refine ⟨fun q hq => ?_, fun byte offset hb => ?_, fun offset expected available hb => ?_⟩
  · refine ⟨(ofInstructions is).append q, ?_, rfl, rfl, jumpDestinations_append _ q⟩
    rw [disassemble_codes_append, hq]
    rfl
  · rw [disassemble_codes_append, hb]
    rfl
  · rw [disassemble_codes_append, hb]
    rfl

theorem disassemble_append_push_marker :
    let a : List UInt8 := [0x21, 0x29, 0x21, 0xff, 0, 0, 0, 0, 0, 0x29]
    let p := ofInstructions [.push (.ofUInt64 0x2921ff0000000000), .plain .jumpDst]
    let q := ofInstructions [.plain .pop, .plain .jumpDst]
    disassemble a = .ok p ∧ disassemble [0x20, 0x29] = .ok q ∧
      (∃ r, disassemble (a ++ [0x20, 0x29]) = .ok r ∧ r.entries = p.entries ++ q.entries ∧
        r.pc = 0 ∧ r.jumpDestinations = [2] ++ [1].map (· + 3)) ∧
      disassemble (a ++ [0x20, 0xee]) = .error (.invalidOpcode 0xee (1 + 10)) ∧
      disassemble (a ++ [0x20, 0x21, 0x29]) = .error (.truncatedOperand (1 + 10) 8 1) := by
  intro a p q
  have ha : disassemble a = .ok p := by cbv
  have hq : disassemble [0x20, 0x29] = .ok q := by cbv
  exact ⟨ha, hq, (disassemble_append ha).1 q hq, (disassemble_append ha).2.1 0xee 1 (by cbv),
    (disassemble_append ha).2.2 1 8 1 (by cbv)⟩

end Program

end Bytecode
