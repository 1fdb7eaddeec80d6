import Mathlib.Tactic.Common
import Bytecode.Proofs.SessionInvariant

/-!
When two programs are the same.

The entries of a program that was read write its stream, and the stream decides the entries and
the cost. Moves change nothing but the counter, so the stream and the counter are all that two
programs can differ in. Main statement: `beq_moves_iff`.
-/

namespace Bytecode

namespace Program

variable {a b : List UInt8} {p q : Program}

lemma beq_eq_and (p q : Program) :
    (p == q) = (p.entries == q.entries && p.cost == q.cost && p.pc == q.pc) := by
  cases p
  cases q
  rw [Bool.eq_iff_iff]
  simp [and_assoc]

lemma ReadFrom.unique (hp : ReadFrom a p) (hq : ReadFrom a q) :
    p.entries = q.entries ∧ p.cost = q.cost := by
  obtain ⟨r, hr, hpe, hpc⟩ := hp.exists_disassemble
  obtain ⟨r', hr', hqe, hqc⟩ := hq.exists_disassemble
  obtain rfl : r = r' := Except.ok.inj (hr.symm.trans hr')
  exact ⟨hpe.trans hqe.symm, hpc.trans hqc.symm⟩

lemma ReadFrom.eq_of_entries_eq (hp : ReadFrom a p) (hq : ReadFrom b q)
    (h : p.entries = q.entries) : a = b := by
  rw [← hp.flatMap_encode, h, hq.flatMap_encode]

lemma ReadFrom.beq_iff (hp : ReadFrom a p) (hq : ReadFrom b q) :
    (p == q) = true ↔ a = b ∧ p.pc = q.pc := by
  simp only [beq_eq_and, Bool.and_eq_true, beq_iff_eq]
  refine ⟨fun ⟨⟨he, _⟩, hpc⟩ => ⟨hp.eq_of_entries_eq hq he, hpc⟩, ?_⟩
  rintro ⟨rfl, hpc⟩
  exact ⟨hp.unique hq, hpc⟩

/-- **Programs are the same exactly if they were read from the same bytes and stand on the same
entry**, whatever moves led there. -/
theorem beq_moves_iff (hp : disassemble a = .ok p) (hq : disassemble b = .ok q)
    (ms ns : List Move) :
    ((p.moves ms).1 == (q.moves ns).1) = true ↔
      a = b ∧ (p.moves ms).1.pc = (q.moves ns).1.pc := by
  have hpm : ReadFrom a (p.moves ms).1 := (ReadFrom.of_disassemble hp).moves ms
  have hqn : ReadFrom b (q.moves ns).1 := (ReadFrom.of_disassemble hq).moves ns
  exact hpm.beq_iff hqn

theorem beq_moves_iff_markers :
    let a : List UInt8 := [0x21, 0x29, 0x29, 0x29, 0x29, 0x29, 0x29, 0x29, 0x29, 0x3a]
    let b : List UInt8 := [0x20, 0x29, 0x29, 0x29, 0x29, 0x29, 0x29, 0x29, 0x29, 0x3a]
    let p := ofInstructions [.push (.ofUInt64 0x2929292929292929), .plain .exit]
    let q := ofInstructions (.plain .pop :: .replicate 8 (.plain .jumpDst) ++ [.plain .exit])
    disassemble a = .ok p ∧ disassemble b = .ok q ∧
      ((p.moves [.next, .jump 9, .next]).1 == (p.moves [.jump 2]).1) = true ∧
      ((p.moves [.next]).1 == (p.moves [.jump 2]).1) = false ∧
      (p.moves [.jump 2]).1.pc = (q.moves [.jump 2]).1.pc ∧
      ((p.moves [.jump 2]).1 == (q.moves [.jump 2]).1) = false := by
  intro a b p q
  have hp : disassemble a = .ok p := by cbv
  have hq : disassemble b = .ok q := by cbv
  refine ⟨hp, hq, (beq_moves_iff hp hp _ _).2 ⟨rfl, by decide +kernel⟩, ?_, by decide +kernel, ?_⟩
  · rw [Bool.eq_false_iff, ne_eq, beq_moves_iff hp hp]
    decide +kernel
  · rw [Bool.eq_false_iff, ne_eq, beq_moves_iff hp hq]
    decide +kernel

end Program

namespace Session

open Program (ReadFrom)

theorem answer_equalsSaved {bytes : List UInt8} {p : Program}
    (h : Program.disassemble bytes = .ok p) (ts : List Step) :
    let s := (start p).after ts
    let o := (Origins.mk bytes bytes).after ts
    s.answer .equalsSaved = .truth (decide (o.program = o.saved ∧ s.program.pc = s.saved.pc)) := by
  intro s o
  have hfresh := ReadFrom.of_disassemble h
  obtain ⟨hprogram, hsaved⟩ : o.Of s := Origins.Of.after ⟨hfresh, hfresh⟩ ts
  have hsame : (s.program == s.saved) =
      decide (o.program = o.saved ∧ s.program.pc = s.saved.pc) := by
    rw [Bool.eq_iff_iff, hprogram.beq_iff hsaved, decide_eq_true_iff]
  rw [answer, hsame]

end Session

end Bytecode
