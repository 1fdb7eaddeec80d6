import Mathlib.Tactic.Common
import Bytecode.Program.Traversal
import Bytecode.Proofs.JumpMarkers

/-!
Jump markers listed, asked for, and looked up.

The listing goes over all entries with a running index, and the question whether an index is a
legal target looks at one entry. Both find the same markers, and the listing has them in order and
once each. Main statement: `jumpDestinations_of_moves`.
-/

namespace Bytecode.Program

variable {p : Program} {t : Nat}

lemma mem_jumpDestinations_iff_isJumpTarget :
    t ∈ p.jumpDestinations ↔ p.isJumpTarget t = true := by
  rw [mem_jumpDestinations_iff_get?, isJumpTarget_iff]

lemma nodup_jumpDestinations (p : Program) : p.jumpDestinations.Nodup :=
  p.pairwise_lt_jumpDestinations.imp Nat.ne_of_lt

lemma jumpDestinations_moves (p : Program) (ms : List Move) :
    (p.moves ms).1.jumpDestinations = p.jumpDestinations := by
  rw [jumpDestinations, entries_moves, jumpDestinations]

lemma exists_jump_of_mem_jumpDestinations (h : t ∈ p.jumpDestinations) :
    ∃ q, p.jump t = .ok q ∧ q.pc = t ∧ q.current? = some (.op .jumpDst) :=
  ⟨_, jump_eq_ok_iff.2 ⟨lt_size_of_mem_jumpDestinations h, rfl⟩, rfl,
    mem_jumpDestinations_iff_get?.1 h⟩

/-- **The listing, the question and the look-up agree on what is a legal jump target**, for every
index and wherever moves led. The listing is strictly ascending and moves leave it as it is; each
of its members is an index of the program, and a jump there is done and stands on a marker. -/
theorem jumpDestinations_of_moves (p : Program) (ms : List Move) :
    let q := (p.moves ms).1
    (∀ t, (t ∈ q.jumpDestinations ↔ q.isJumpTarget t = true) ∧
      (q.isJumpTarget t = true ↔ q.get? t = some (.op .jumpDst))) ∧
    q.jumpDestinations.Pairwise (· < ·) ∧
    q.jumpDestinations.Nodup ∧
    q.jumpDestinations = p.jumpDestinations ∧
    ∀ t ∈ q.jumpDestinations, t < q.size ∧
      ∃ r, q.jump t = .ok r ∧ r.pc = t ∧ r.current? = some (.op .jumpDst) := by
  intro q
  refine ⟨fun t => ⟨mem_jumpDestinations_iff_isJumpTarget, isJumpTarget_iff⟩,
    q.pairwise_lt_jumpDestinations, q.nodup_jumpDestinations, jumpDestinations_moves p ms,
    fun t ht => ⟨lt_size_of_mem_jumpDestinations ht, exists_jump_of_mem_jumpDestinations ht⟩⟩

theorem jumpDestinations_of_moves_operand :
    let bytes : List UInt8 := [0x29, 0x21, 0x29, 0, 0, 0, 0, 0, 0, 0, 0x30, 0x29, 0x3a]
    let p := ofInstructions [.plain .jumpDst, .push (.ofUInt64 0x2900000000000000), .plain .jumpi,
      .plain .jumpDst, .plain .exit]
    let q := (p.moves [.next, .next, .jump 18446744073709551615]).1
    disassemble bytes = .ok p ∧ q.current? = some (.data (.ofUInt64 0x2900000000000000)) ∧
      q.jumpDestinations = [0, 4] ∧ q.isJumpTarget 4 = true ∧ q.isJumpTarget 2 = false ∧
      4 < q.size ∧ ∃ r, q.jump 4 = .ok r ∧ r.pc = 4 ∧ r.current? = some (.op .jumpDst) := by
  intro bytes p q
  have hp : disassemble bytes = .ok p := by cbv
  obtain ⟨hiff, -, -, hlist, hjump⟩ :=
    jumpDestinations_of_moves p [.next, .next, .jump 18446744073709551615]
  have hq : q.jumpDestinations = [0, 4] := hlist.trans (by decide +kernel)
  have h4 : 4 ∈ q.jumpDestinations := by simp [hq]
  have h2 : 2 ∉ q.jumpDestinations := by simp [hq]
  obtain ⟨hlt, hr⟩ := hjump 4 h4
  exact ⟨hp, by decide +kernel, hq, (hiff 4).1.1 h4,
    Bool.eq_false_iff.2 (mt (hiff 2).1.2 h2), hlt, hr⟩

end Bytecode.Program
