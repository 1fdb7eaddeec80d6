import Mathlib.Tactic.Common
import Bytecode.Program.Basic
import Bytecode.Proofs.Instruction

/-!
The course of a scan in terms of instructions.

A scan reads a row of instructions whatever stands behind it, and what stands behind the longest
such row decides the outcome: the end of the stream, a byte that encodes no opcode, or a push
whose operand is cut off. Main statements: `reaches_iff`, which says where a scan gets to, and
`disassemble_append_eq_iff`, from which each outcome is read off the stream.
-/

namespace Bytecode

open Instruction

namespace Program

def ofInstructions (is : List Instruction) : Program := ofEntries (listing is).toArray

@[simp] lemma entries_ofInstructions (is : List Instruction) :
    (ofInstructions is).entries.toList = listing is := rfl
@[simp] lemma pc_ofInstructions (is : List Instruction) : (ofInstructions is).pc = 0 := rfl
@[simp] lemma size_ofInstructions (is : List Instruction) :
    (ofInstructions is).size = (listing is).length := rfl

lemma get?_eq (p : Program) (i : Nat) : p.get? i = p.entries.toList[i]? :=
  Array.getElem?_toList.symm

lemma get?_ofInstructions (is : List Instruction) (i : Nat) :
    (ofInstructions is).get? i = (listing is)[i]? :=
  get?_eq _ i

@[simp] lemma toBytes_ofInstructions (is : List Instruction) :
    (ofInstructions is).toBytes = codes is := by
  rw [toBytes_eq, entries_ofInstructions, flatMap_encode_listing]

end Program

namespace Scan

/-- The scan that has read a row of instructions and has `rest` before it. -/
def after (is : List Instruction) (rest : List UInt8) : Scan :=
  ⟨(codes is).length, (listing is).toArray, rest⟩

lemma step_after_code (is : List Instruction) (i : Instruction) (rest : List UInt8) :
    (after is (i.code ++ rest)).step = .ok (after (is ++ [i]) rest) := by
  cases i with
  | plain o ho => simp [step, after, code, Instruction.entries, ho, store, Entry.width]
  | push d =>
    have hs : Operand.split? (d.bytes ++ rest) = some (d, rest) := Operand.split?_eq_some_iff.2 rfl
    simp [step, after, code, Instruction.entries, store, readOperand, hs, Entry.width,
      d.length_bytes]
    omega

lemma Reaches.after_codes {bytes rest : List UInt8} {n : Nat} {is js : List Instruction}
    (h : Reaches bytes n (after is (codes js ++ rest))) :
    Reaches bytes (n + js.length) (after (is ++ js) rest) := by
  induction js generalizing is n with
  | nil => simpa using h
  | cons j js ih =>
    have hne : j.code ++ (codes js ++ rest) ≠ [] := by cases j <;> simp [code]
    rw [codes_cons, List.append_assoc] at h
    have hj := ih (.step h hne (step_after_code is j _))
    rwa [List.append_assoc, List.singleton_append, Nat.add_assoc, Nat.add_comm 1] at hj

/-- A scan that has read a row of instructions comes to an end on what stands behind them. -/
inductive Ends (is : List Instruction) : List UInt8 → Except ProgramError Program → Prop where
  | finished : Ends is [] (.ok (.ofInstructions is))
  | unregistered (b : UInt8) (rest : List UInt8) (hb : ∀ o : Opcode, o.byte ≠ b) :
      Ends is (b :: rest) (.error (.invalidOpcode b (codes is).length))
  | truncated (rest : List UInt8) (hr : rest.length < Operand.width) :
      Ends is (Opcode.push.byte :: rest)
        (.error (.truncatedOperand (codes is).length Operand.width rest.length))

theorem exists_ends (is : List Instruction) :
    ∀ bytes : List UInt8, ∃ js tail r, codes js ++ tail = bytes ∧ Ends (is ++ js) tail r
  | [] => ⟨[], [], _, rfl, .finished⟩
  | b :: rest => by
    cases hb : Opcode.ofByte? b with
    | none => exact ⟨[], _, _, rfl, .unregistered b rest (Opcode.ofByte?_eq_none_iff.1 hb)⟩
    | some o =>
      obtain rfl := Opcode.ofByte?_eq_some_iff.1 hb
      by_cases ho : o = .push
      · subst ho
        cases hs : Operand.split? rest with
        | none => exact ⟨[], _, _, rfl, .truncated rest (Operand.split?_eq_none_iff.1 hs)⟩
        | some p =>
          -- the operand is passed over whole, so the recursion is on the length
          obtain ⟨d, behind⟩ := p
          have hd : rest = d.bytes ++ behind := Operand.split?_eq_some_iff.1 hs
          obtain ⟨js, tail, r, rfl, hr⟩ := exists_ends (is ++ [.push d]) behind
          exact ⟨.push d :: js, tail, r, by simp [code, hd], by simpa using hr⟩
      · obtain ⟨js, tail, r, rfl, hr⟩ := exists_ends (is ++ [.plain o ho]) rest
        exact ⟨.plain o ho :: js, tail, r, rfl, by simpa using hr⟩
termination_by bytes => bytes.length
decreasing_by
  · rw [hd, List.length_cons, List.length_append]; omega
  · simp

section

variable {bytes rest : List UInt8} {is : List Instruction} {n : Nat} {s t : Scan}

lemma Ends.of_ok {p : Program} (h : Ends is rest (.ok p)) :
    rest = [] ∧ Program.ofInstructions is = p := by
  cases h
  exact ⟨rfl, rfl⟩

lemma Ends.step_eq_error {cause : ProgramError} (h : Ends is rest (.error cause)) :
    (after is rest).step = .error cause := by
  cases h with
  | unregistered b rest hb => simp [step, after, Opcode.ofByte?_eq_none_iff.2 hb]
  | truncated rest hr =>
    simp [step, after, store, readOperand, Operand.split?_eq_none_iff.2 hr]

lemma Ends.run_eq {r : Except ProgramError Program} (h : Ends is rest r) :
    ((after is rest).run.map fun s => Program.ofEntries s.entries) = r := by
  cases r with
  | ok p =>
    obtain ⟨rfl, rfl⟩ := h.of_ok
    rw [run_of_rest_eq_nil rfl]
    rfl
  | error cause =>
    rw [run_of_step_error h.step_eq_error]
    rfl

lemma exists_of_step_after (hr : rest ≠ []) (h : (after is rest).step = .ok t) :
    ∃ i tail, i.code ++ tail = rest ∧ after (is ++ [i]) tail = t := by
  obtain ⟨js, tail, r, rfl, hends⟩ := exists_ends is rest
  cases js with
  | nil =>
    rw [List.append_nil] at hends
    cases r with
    | ok p => exact absurd hends.of_ok.1 hr
    | error cause =>
      rw [codes_nil, List.nil_append, hends.step_eq_error] at h
      cases h
  | cons j js =>
    rw [codes_cons, List.append_assoc, step_after_code] at h
    exact ⟨j, codes js ++ tail, by simp, Except.ok.inj h⟩

/-- **A scan comes from instruction to instruction**: it is where a row of as many instructions
has been read as it made steps. -/
theorem reaches_iff :
    Reaches bytes n s ↔
      ∃ is rest, codes is ++ rest = bytes ∧ is.length = n ∧ after is rest = s := by
  refine ⟨fun h => ?_, ?_⟩
  · induction h with
    | start => exact ⟨[], bytes, rfl, rfl, rfl⟩
    | step _ hr ht ih =>
      obtain ⟨is, rest, rfl, rfl, rfl⟩ := ih
      obtain ⟨i, tail, rfl, rfl⟩ := exists_of_step_after hr ht
      exact ⟨is ++ [i], tail, by simp, by simp, rfl⟩
  · rintro ⟨is, rest, rfl, rfl, rfl⟩
    have hstart : Reaches (codes is ++ rest) 0 (after [] (codes is ++ rest)) := .start
    simpa using hstart.after_codes

end

end Scan

namespace Program

open Scan (Ends)

variable {bytes : List UInt8} {r : Except ProgramError Program}

lemma disassemble_of_ends {is : List Instruction} {tail : List UInt8} (h : Ends is tail r) :
    disassemble (codes is ++ tail) = r := by
  have hs : Scan.Reaches (codes is ++ tail) is.length (.after is tail) :=
    Scan.reaches_iff.2 ⟨is, tail, rfl, rfl, rfl⟩
  rw [disassemble, hs.run_start, h.run_eq]

/-- **What comes of a stream behind a row of instructions.** -/
theorem disassemble_append_eq_iff (is : List Instruction) :
    disassemble (codes is ++ bytes) = r ↔
      ∃ js tail, codes js ++ tail = bytes ∧ Ends (is ++ js) tail r := by
  refine ⟨fun h => ?_, ?_⟩
  · obtain ⟨js, tail, r', rfl, hr⟩ := Scan.exists_ends is bytes
    have he := disassemble_of_ends hr
    rw [codes_append, List.append_assoc, h] at he
    exact ⟨js, tail, rfl, he ▸ hr⟩
  · rintro ⟨js, tail, rfl, hr⟩
    rw [← List.append_assoc, ← codes_append]
    exact disassemble_of_ends hr

theorem disassemble_eq_iff :
    disassemble bytes = r ↔ ∃ js tail, codes js ++ tail = bytes ∧ Ends js tail r :=
  disassemble_append_eq_iff []

lemma disassemble_codes (is : List Instruction) :
    disassemble (codes is) = .ok (ofInstructions is) := by
  simpa using disassemble_of_ends (.finished : Ends is [] _)

theorem disassemble_append_eq_ok_iff (is : List Instruction) {p : Program} :
    disassemble (codes is ++ bytes) = .ok p ↔
      ∃ js, codes js = bytes ∧ ofInstructions (is ++ js) = p := by
  rw [disassemble_append_eq_iff]
  refine ⟨?_, ?_⟩
  · rintro ⟨js, tail, rfl, hr⟩
    cases hr
    exact ⟨js, (List.append_nil _).symm, rfl⟩
  · rintro ⟨js, rfl, rfl⟩
    exact ⟨js, [], List.append_nil _, .finished⟩

theorem disassemble_eq_ok_iff {p : Program} :
    disassemble bytes = .ok p ↔ ∃ is, codes is = bytes ∧ ofInstructions is = p :=
  disassemble_append_eq_ok_iff []

lemma pc_eq_zero_of_disassemble {p : Program} (h : disassemble bytes = .ok p) : p.pc = 0 := by
  obtain ⟨is, -, rfl⟩ := disassemble_eq_ok_iff.1 h
  rfl

/-- Where the front of a program is a program, it ends between two instructions. -/
lemma exists_cut {p q : Program} {offset : Nat} (hp : disassemble bytes = .ok p)
    (hq : disassemble (bytes.take offset) = .ok q) :
    ∃ is js, codes is = bytes.take offset ∧ codes js = bytes.drop offset ∧
      q = ofInstructions is ∧ p = ofInstructions (is ++ js) := by
  obtain ⟨is, his, rfl⟩ := disassemble_eq_ok_iff.1 hq
  rw [← List.take_append_drop offset bytes, ← his] at hp
  obtain ⟨js, hjs, rfl⟩ := (disassemble_append_eq_ok_iff is).1 hp
  exact ⟨is, js, his, hjs, rfl, rfl⟩

theorem disassemble_eq_invalidOpcode_iff {b : UInt8} {offset : Nat} :
    disassemble bytes = .error (.invalidOpcode b offset) ↔
      ∃ is rest, codes is ++ b :: rest = bytes ∧ (codes is).length = offset ∧
        ∀ o : Opcode, o.byte ≠ b := by
  rw [disassemble_eq_iff]
  refine ⟨?_, ?_⟩
  · rintro ⟨is, tail, rfl, hr⟩
    cases hr with
    | unregistered _ rest hb => exact ⟨is, rest, rfl, rfl, hb⟩
  · rintro ⟨is, rest, rfl, rfl, hb⟩
    exact ⟨is, _, rfl, .unregistered b rest hb⟩

theorem disassemble_eq_truncatedOperand_iff {offset expected available : Nat} :
    disassemble bytes = .error (.truncatedOperand offset expected available) ↔
      ∃ is rest, codes is ++ Opcode.push.byte :: rest = bytes ∧ (codes is).length = offset ∧
        expected = Operand.width ∧ available = rest.length ∧ rest.length < Operand.width := by
  rw [disassemble_eq_iff]
  refine ⟨?_, ?_⟩
  · rintro ⟨is, tail, rfl, hr⟩
    cases hr with
    | truncated rest hl => exact ⟨is, rest, rfl, rfl, rfl, rfl, hl⟩
  · rintro ⟨is, rest, rfl, rfl, rfl, rfl, hl⟩
    exact ⟨is, _, rfl, .truncated rest hl⟩

theorem disassemble_ne_invalidJumpTarget (bytes : List UInt8) (target size : Nat) :
    disassemble bytes ≠ .error (.invalidJumpTarget target size) := by
  intro h
  obtain ⟨is, tail, -, hr⟩ := disassemble_eq_iff.1 h
  cases hr

end Program

end Bytecode
