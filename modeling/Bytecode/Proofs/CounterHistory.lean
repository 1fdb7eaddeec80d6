import Mathlib.Data.List.DropRight
import Mathlib.Tactic.Common
import Bytecode.Proofs.SessionInvariant

/-!
The program counter, read off the moves that led to it.

A jump that is done makes up for all that came before it, a refused one leaves no trace, and `next`
goes on by one entry, but not past the last. So the counter stands where the last jump that was
done led to, and as many entries behind as there were `next` moves since. Main statement:
`moves_closed_form`.
-/

namespace Bytecode

namespace Move

/-- Where a move leads if it is a jump that is done in a program of `n` entries. -/
def target? (n : Nat) : Move → Option Nat
  | next => none
  | jump t => if t < n then some t else none

/-- The target of the last jump that is done, and the first entry if there is none. -/
def lastTarget (n : Nat) (ms : List Move) : Nat :=
  (ms.filterMap (target? n)).getLast?.getD 0

/-- The number of `next` moves behind the last jump that is done, and of all if there is none. -/
def nextsSince (n : Nat) (ms : List Move) : Nat :=
  (ms.rtakeWhile fun m => (m.target? n).isNone).count .next

variable {n t : Nat}

lemma lastTarget_concat (n : Nat) (ms : List Move) (m : Move) :
    lastTarget n (ms ++ [m]) = (m.target? n).getD (lastTarget n ms) := by
  unfold lastTarget
  rw [List.filterMap_append]
  cases hm : m.target? n <;> simp [hm]

lemma nextsSince_concat_next (n : Nat) (ms : List Move) :
    nextsSince n (ms ++ [next]) = nextsSince n ms + 1 := by
  unfold nextsSince
  rw [List.rtakeWhile_concat_pos _ _ _ rfl, List.count_append, List.count_singleton_self]

lemma nextsSince_concat_jump_of_lt (ms : List Move) (ht : t < n) :
    nextsSince n (ms ++ [jump t]) = 0 := by
  unfold nextsSince
  rw [List.rtakeWhile_concat_neg _ _ _ (by simp [target?, ht])]
  rfl

lemma nextsSince_concat_jump_of_le (ms : List Move) (ht : n ≤ t) :
    nextsSince n (ms ++ [jump t]) = nextsSince n ms := by
  unfold nextsSince
  rw [List.rtakeWhile_concat_pos _ _ _ (by simp [target?, Nat.not_lt.2 ht]), List.count_append]
  simp

end Move

namespace Program

open Move (lastTarget nextsSince)

variable {p : Program}

lemma pc_move_next (h : p.pc < p.size ∨ p.pc = 0 ∧ p.size = 0) :
    (p.move .next).1.pc = min (p.pc + 1) (p.size - 1) := by
  rcases Nat.lt_or_ge (p.pc + 1) p.size with hlt | hle
  · rw [move_next_of_lt hlt]
    change p.pc + 1 = _
    omega
  · rw [move_next_of_le hle]
    change p.pc = _
    omega

lemma pc_moves (h0 : p.pc = 0) (ms : List Move) :
    (p.moves ms).1.pc = min (lastTarget p.size ms + nextsSince p.size ms) (p.size - 1) := by
  induction ms using List.reverseRecOn with
  | nil => simpa [moves, lastTarget, nextsSince] using h0
  | append_singleton ms m ih =>
    have hsize := size_moves p ms
    have hlast : (p.moves (ms ++ [m])).1 = ((p.moves ms).1.move m).1 := by
      rw [moves_append]
      rfl
    rw [hlast, Move.lastTarget_concat]
    cases m with
    | next =>
      rw [pc_move_next (by omega), ih, hsize, Move.nextsSince_concat_next]
      simp only [Move.target?, Option.getD_none]
      omega
    | jump t =>
      rcases Nat.lt_or_ge t p.size with hlt | hle
      · have ht : t < (p.moves ms).1.size := hsize ▸ hlt
        rw [move_jump_of_lt ht, Move.nextsSince_concat_jump_of_lt ms hlt]
        simp only [Move.target?, if_pos hlt, Option.getD_some]
        omega
      · have ht : (p.moves ms).1.size ≤ t := hsize ▸ hle
        rw [move_jump_of_le ht, ih, Move.nextsSince_concat_jump_of_le ms hle]
        simp only [Move.target?, if_neg (Nat.not_lt.2 hle), Option.getD_none]

lemma reply_next (h : p.pc < p.size ∨ p.pc = 0 ∧ p.size = 0) :
    (p.pc = p.size - 1 → p.move .next = (p, .reached none)) ∧
    (p.pc ≠ p.size - 1 → ∃ e, p.get? (p.move .next).1.pc = some e ∧
      (p.move .next).2 = .reached (some e)) := by
  rcases Nat.lt_or_ge (p.pc + 1) p.size with hlt | hle
  · have hget : p.get? (p.pc + 1) = some _ := Array.getElem?_eq_getElem hlt
    rw [move_next_of_lt hlt]
    exact ⟨fun hpc => by omega, fun _ => ⟨_, hget, congrArg Move.Reply.reached hget⟩⟩
  · rw [move_next_of_le hle]
    exact ⟨fun _ => rfl, fun hpc => by omega⟩

/-! ### Single moves of a row -/

section At

variable {ms : List Move} {m : Move} {i : Nat}

lemma moves_take_succ (p : Program) (h : ms[i]? = some m) :
    (p.moves (ms.take (i + 1))).1 = ((p.moves (ms.take i)).1.move m).1 := by
  rw [List.take_add_one, h, Option.toList_some, moves_append]
  rfl

lemma getElem?_moves (p : Program) (h : ms[i]? = some m) :
    (p.moves ms).2[i]? =
      some (((p.moves (ms.take i)).1.move m).2, ((p.moves (ms.take i)).1.move m).1.pc) := by
  induction ms generalizing p i with
  | nil => simp at h
  | cons m' ms ih =>
    cases i with
    | zero =>
      obtain rfl : m' = m := by simpa using h
      rfl
    | succ i => exact ih (p.move m').1 h

end At

/-- **The counter is a closed form of the moves made so far**: as many entries behind the target of
the last jump that was done as there were `next` moves since, but no further than the last entry.
Each `next` gives the entry that it moves to, and none exactly on the last one, and a jump is done
exactly if its target is an index. -/
theorem moves_closed_form {bytes : List UInt8} {p : Program} (h : disassemble bytes = .ok p)
    (ms : List Move) :
    (0 < p.size →
      (p.moves ms).1.pc = min (lastTarget p.size ms + nextsSince p.size ms) (p.size - 1)) ∧
    (p.size = 0 → (p.moves ms).1.pc = 0) ∧
    (∀ i, ms[i]? = some .next →
      let pc := (p.moves (ms.take i)).1.pc
      let pc' := (p.moves (ms.take (i + 1))).1.pc
      (pc = p.size - 1 → (p.moves ms).2[i]? = some (.reached none, pc)) ∧
      (pc ≠ p.size - 1 →
        ∃ e, p.get? pc' = some e ∧ (p.moves ms).2[i]? = some (.reached (some e), pc'))) ∧
    ∀ i t, ms[i]? = some (.jump t) →
      let pc := (p.moves (ms.take i)).1.pc
      (t < p.size → (p.moves ms).2[i]? = some (.done, t)) ∧
      (p.size ≤ t → (p.moves ms).2[i]? = some (.refused (.invalidJumpTarget t p.size), pc)) := by
  have hpc := pc_moves (pc_eq_zero_of_disassemble h) ms
  refine ⟨fun _ => hpc, fun hn => by omega, fun i hi => ?_, fun i t hi => ?_⟩
  · have hsize := size_moves p (ms.take i)
    have hvalid := ((ReadFrom.of_disassemble h).moves (ms.take i)).pc_valid
    obtain ⟨hlast, hstep⟩ := reply_next hvalid
    rw [hsize] at hlast hstep
    rw [getElem?_moves p hi, moves_take_succ p hi]
    refine ⟨fun hq => by rw [hlast hq], fun hq => ?_⟩
    obtain ⟨e, he, hr⟩ := hstep hq
    rw [get?_moves] at he
    exact ⟨e, he, by rw [hr]⟩
  · have hsize := size_moves p (ms.take i)
    rw [getElem?_moves p hi]
    refine ⟨fun ht => ?_, fun ht => ?_⟩
    · rw [move_jump_of_lt (hsize ▸ ht)]
    · rw [move_jump_of_le (hsize ▸ ht), hsize]

theorem moves_closed_form_refused :
    let bytes : List UInt8 := [0x29, 0x21, 0, 0, 0, 0, 0, 0, 0, 7, 0x30, 0x3a]
    let p := ofInstructions [.plain .jumpDst, .push (.ofUInt64 7), .plain .jumpi, .plain .exit]
    let ms : List Move := [.next, .jump 3, .next, .jump 18446744073709551615, .next]
    disassemble bytes = .ok p ∧ lastTarget p.size ms = 3 ∧ nextsSince p.size ms = 2 ∧
      (p.moves ms).1.pc = 4 ∧ (p.moves ms).2[4]? = some (.reached none, 4) ∧
      (p.moves ms).2[3]? = some (.refused (.invalidJumpTarget 18446744073709551615 5), 4) := by
  intro bytes p ms
  have hp : disassemble bytes = .ok p := by cbv
  have hpc : (p.moves (ms.take 4)).1.pc = p.size - 1 := by decide +kernel
  obtain ⟨hcounter, -, hnext, hjump⟩ := moves_closed_form hp ms
  refine ⟨hp, by decide +kernel, by decide +kernel, hcounter (by decide), ?_, ?_⟩
  · exact (hnext 4 rfl).1 hpc
  · exact (hjump 3 18446744073709551615 rfl).2 (by decide)

end Program

end Bytecode
