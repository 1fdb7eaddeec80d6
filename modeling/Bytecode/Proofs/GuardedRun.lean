import Mathlib.Data.List.Induction
import Mathlib.Tactic.Common
import Bytecode.Proofs.SessionInvariant

/-!
Runs that look before they jump.

Such a run goes to the next entry or makes a checked jump, which lands on a marker or nowhere. So
it comes to an operand in one way only, by going on from the push of that operand: no jump lands
inside an instruction. Main statement: `guarded_run`.
-/

namespace Bytecode

open Instruction

inductive Step.Guarded : Step → Prop where
  | next : Guarded (.move .next)
  | checkedJump (target : Nat) : Guarded (.checkedJump target)

namespace Program

variable {bytes : List UInt8} {p : Program}

lemma ReadFrom.push_before_data (h : ReadFrom bytes p) {d : Operand}
    (hd : p.current? = some (.data d)) :
    1 ≤ p.pc ∧ p.get? (p.pc - 1) = some (.op .push) := by
  rw [current?, get?_eq] at hd
  obtain ⟨j, hj, hpush⟩ := h.paired.push_of_operand p.pc d hd
  refine ⟨by omega, ?_⟩
  rw [hj, Nat.add_sub_cancel, get?_eq]
  exact hpush

end Program

namespace Session

variable {s : Session}

/-- What a guarded step can do: nothing, go on by one entry, or land on a marker. -/
lemma step_guarded {t : Step} (ht : t.Guarded) (s : Session) :
    (s.step t).1 = s ∨
    (t = .move .next ∧ (s.step t).1.program.pc = s.program.pc + 1) ∨
    (s.step t).1.program.current? = some (.op .jumpDst) := by
  cases ht with
  | next =>
    rcases Nat.lt_or_ge (s.program.pc + 1) s.program.size with hlt | hle
    · right; left
      rw [step, Program.move_next_of_lt hlt]
      exact ⟨rfl, rfl⟩
    · left
      rw [step, Program.move_next_of_le hle]
  | checkedJump t =>
    cases hj : s.program.isJumpTarget t with
    | false =>
      left
      rw [step_checkedJump_of_not_isJumpTarget hj]
    | true =>
      right; right
      rw [step_checkedJump_of_isJumpTarget hj]
      exact Program.isJumpTarget_iff.1 hj

/-- Of the steps that moved the counter the last was `next`, and it moved it by one entry: the
steps behind it changed nothing. -/
def EndsOnNext (s : Session) (ts : List Step) : Prop :=
  ∃ before behind, ts = before ++ .move .next :: behind ∧
    (s.after before).program.pc + 1 = (s.after ts).program.pc ∧
    ∀ k, s.after (before ++ .move .next :: behind.take k) = s.after ts

lemma EndsOnNext.concat {ts : List Step} (h : s.EndsOnNext ts) {t : Step}
    (ht : s.after (ts ++ [t]) = s.after ts) : s.EndsOnNext (ts ++ [t]) := by
  obtain ⟨before, behind, rfl, hpc, hrest⟩ := h
  refine ⟨before, behind ++ [t], by simp, by rw [ht, hpc], fun k => ?_⟩
  rcases Nat.lt_or_ge behind.length k with hk | hk
  · have hall : (behind ++ [t]).take k = behind ++ [t] :=
      List.take_of_length_le (by rw [List.length_append]; exact hk)
    rw [hall, List.append_assoc, List.cons_append]
  · rw [List.take_append_of_le_length hk, hrest, ht]

theorem endsOnNext_of_data {ts : List Step} (h0 : ∀ d, s.program.current? ≠ some (.data d))
    (hts : ∀ t ∈ ts, t.Guarded) {d : Operand}
    (hd : (s.after ts).program.current? = some (.data d)) : s.EndsOnNext ts := by
  induction ts using List.reverseRecOn with
  | nil => exact absurd hd (h0 d)
  | append_singleton ts t ih =>
    have hlast : s.after (ts ++ [t]) = ((s.after ts).step t).1 := after_append s ts [t]
    have hg : t.Guarded := hts t (by simp)
    rcases step_guarded hg (s.after ts) with hstay | ⟨rfl, hnext⟩ | hmarker
    · rw [hstay] at hlast
      rw [hlast] at hd
      exact (ih (fun u hu => hts u (by simp [hu])) hd).concat hlast
    · rw [← hlast] at hnext
      exact ⟨ts, [], rfl, hnext.symm, fun k => by rw [List.take_nil]⟩
    · rw [hlast, hmarker] at hd
      cases hd

/-- **A run that looks before it jumps never lands inside an instruction.** In each of its states
a jump to a marker succeeds and stands on the marker, a checked jump elsewhere changes nothing,
and an operand has its push in front of it and was reached from there by `next`. -/
theorem guarded_run {bytes : List UInt8} {p : Program} (hp : Program.disassemble bytes = .ok p)
    {ts : List Step} (hts : ∀ t ∈ ts, t.Guarded) :
    let s := (start p).after ts
    (∀ t, s.program.isJumpTarget t = true → ∃ q, s.program.jump t = .ok q ∧ q.pc = t ∧
      q.current? = some (.op .jumpDst) ∧
      s.step (.checkedJump t) = ({ s with program := q }, .moved .done)) ∧
    (∀ t, s.program.isJumpTarget t = false → s.step (.checkedJump t) = (s, .illegal)) ∧
    (∀ d, s.program.current? = some (.data d) → 1 ≤ s.program.pc ∧
      s.program.get? (s.program.pc - 1) = some (.op .push) ∧ (start p).EndsOnNext ts) ∧
    ∀ d, p.current? ≠ some (.data d) := by
  have hfresh : Program.ReadFrom bytes p := .of_disassemble hp
  have h0 : ∀ d, p.current? ≠ some (.data d) := by
    intro d hd
    have hpc := (hfresh.push_before_data hd).1
    have hzero := Program.pc_eq_zero_of_disassemble hp
    omega
  have hread := (Origins.Of.after (o := ⟨bytes, bytes⟩) (s := start p) ⟨hfresh, hfresh⟩ ts).1
  refine ⟨fun t ht => ?_, fun t => step_checkedJump_of_not_isJumpTarget, fun d hd => ?_, h0⟩
  · have hj := Program.jump_eq_ok_iff.2 ⟨Program.lt_size_of_isJumpTarget ht, rfl⟩
    exact ⟨_, hj, rfl, Program.isJumpTarget_iff.1 ht, step_checkedJump_of_isJumpTarget ht⟩
  · obtain ⟨hpc, hpush⟩ := hread.push_before_data hd
    exact ⟨hpc, hpush, endsOnNext_of_data h0 hts hd⟩

theorem guarded_run_loop :
    let bytes : List UInt8 := [0x29, 0x21, 0x29, 0, 0, 0, 0, 0, 0, 0, 0x30, 0x3a]
    let p := Program.ofInstructions [.plain .jumpDst, .push (.ofUInt64 0x2900000000000000),
      .plain .jumpi, .plain .exit]
    let ts : List Step := [.move .next, .checkedJump 0, .move .next, .move .next, .checkedJump 2]
    let s := (start p).after ts
    Program.disassemble bytes = .ok p ∧ (∀ t ∈ ts, t.Guarded) ∧
      s.program.current? = some (.data (.ofUInt64 0x2900000000000000)) ∧
      s.step (.checkedJump 2) = (s, .illegal) ∧ (∃ q, s.program.jump 0 = .ok q ∧ q.pc = 0) ∧
      s.program.get? (s.program.pc - 1) = some (.op .push) ∧ (start p).EndsOnNext ts := by
  intro bytes p ts s
  have hp : Program.disassemble bytes = .ok p := by cbv
  have hts : ∀ t ∈ ts, t.Guarded := by
    intro t ht
    simp only [ts, List.mem_cons, List.not_mem_nil, or_false] at ht
    rcases ht with rfl | rfl | rfl | rfl | rfl <;> constructor
  have hd : s.program.current? = some (.data (.ofUInt64 0x2900000000000000)) := by
    decide +kernel
  obtain ⟨hjump, hillegal, hdata, -⟩ := guarded_run hp hts
  obtain ⟨q, hq, hpc, -⟩ := hjump 0 (by decide +kernel)
  obtain ⟨-, hpush, hends⟩ := hdata _ hd
  exact ⟨hp, hts, hd, hillegal 2 (by decide +kernel), ⟨q, hq, hpc⟩, hpush, hends⟩

end Session

end Bytecode
