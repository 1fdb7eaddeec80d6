import Mathlib.Algebra.Group.Nat.Defs
import Mathlib.Tactic.Common
import Bytecode.IndexedScan
import Bytecode.Proofs.Disassembly

/-!
Reading a stream by index, with no fault of the arithmetic.

Between two instructions a scan has written down just the bytes in front of its offset, in pairs
where there is a push. So the offset never passes the end, and of a stream that is short enough to
be held in memory each sum fits into a word, the bytes left behind a push byte can be counted, and
the index of each byte that is asked for is one of the stream. The scan by index therefore has an
outcome, and it is that of the scan. Main statement: `run_indexed_eq`.
-/

namespace Bytecode

open Instruction

lemma Operand.ofBytes?_take (bs : List UInt8) :
    ofBytes? (bs.take width) = (split? bs).map (·.1) := by
  unfold ofBytes? split?
  split <;> rfl

namespace Instruction

lemma countP_isSome_listing (is : List Instruction) :
    (listing is).countP (·.opcode?.isSome) = is.length := by
  induction is with
  | nil => rfl
  | cons i is ih =>
    have hi : i.entries.countP (·.opcode?.isSome) = 1 := by
      cases i <;> simp [entries, Entry.opcode?]
    rw [listing_cons, List.countP_append, hi, ih, List.length_cons, Nat.add_comm]

lemma length_le_length_codes (is : List Instruction) : is.length ≤ (codes is).length := by
  rw [length_codes]
  exact Nat.le_add_right _ _

end Instruction

namespace Scan

def indexed (s : Scan) : IndexedScan := ⟨s.offset, s.entries⟩

@[simp] lemma offset_indexed (s : Scan) : s.indexed.offset = s.offset := rfl
@[simp] lemma entries_indexed (s : Scan) : s.indexed.entries = s.entries := rfl
@[simp] lemma indexed_store (s : Scan) (e : Entry) (rest : List UInt8) :
    (s.store e rest).indexed = ⟨s.offset + e.width, s.entries.push e⟩ := rfl

/-- What holds of a scan that stands between two instructions, `n` of which it has read. -/
structure Between (bytes : List UInt8) (n : Nat) (s : Scan) : Prop where
  offset_le : s.offset ≤ bytes.length
  rest_eq : s.rest = bytes.drop s.offset
  written : (Entry.appendAll #[] s.entries.toList).toList = bytes.take s.offset
  paired : Paired s.entries.toList
  count_opcodes : s.entries.toList.countP (·.opcode?.isSome) = n
  le_offset : n ≤ s.offset

variable {bytes : List UInt8} {n offset : Nat} {s t : Scan}

lemma Reaches.between (h : Reaches bytes n s) : Between bytes n s := by
  obtain ⟨is, rest, rfl, rfl, rfl⟩ := reaches_iff.1 h
  exact {
    offset_le := by simp [after]
    rest_eq := by simp [after]
    written := by simp [after, flatMap_encode_listing]
    paired := paired_listing is
    count_opcodes := countP_isSome_listing is
    le_offset := length_le_length_codes is }

lemma Between.rest_eq_nil_iff (h : Between bytes n s) :
    s.rest = [] ↔ s.offset = bytes.length := by
  have hle := h.offset_le
  rw [h.rest_eq, List.drop_eq_nil_iff]
  omega

lemma Between.offset_lt (h : Between bytes n s) (hr : s.rest ≠ []) : s.offset < bytes.length :=
  Nat.lt_of_le_of_ne h.offset_le (mt h.rest_eq_nil_iff.2 hr)

/-! ### One round -/

lemma length_add_lt_size (hlen : bytes.length < 2 ^ 63) : bytes.length + 9 < UInt64.size := by
  -- one round adds no more to an offset than the byte of a push and its operand
  rw [UInt64.size]
  omega

lemma readOperand_indexed (hlt : offset < bytes.length) (hlen : bytes.length < 2 ^ 63) :
    IndexedScan.readOperand bytes offset = some
      (match Operand.split? (bytes.drop (offset + 1)) with
        | some (d, _) => .ok d
        | none => .error (.truncatedOperand offset Operand.width
            (bytes.drop (offset + 1)).length)) := by
  have hsize := length_add_lt_size hlen
  have hfirst : Word.add? offset 1 = some (offset + 1) := Word.add?_of_lt (by omega)
  have hbehind : Word.add? (offset + 1) Operand.width = some (offset + 1 + Operand.width) :=
    Word.add?_of_lt (by rw [Operand.width]; omega)
  have havailable : Word.sub? bytes.length (offset + 1) = some (bytes.length - (offset + 1)) :=
    Word.sub?_of_le hlt
  have hoperand : Operand.ofBytes? (bytes.extract (offset + 1) (offset + 1 + Operand.width)) =
      (Operand.split? (bytes.drop (offset + 1))).map (·.1) := by
    rw [List.extract, Nat.add_sub_cancel_left, Operand.ofBytes?_take]
  simp only [IndexedScan.readOperand, hfirst, hbehind, havailable, hoperand, bind, pure,
    Option.bind_some, List.length_drop]
  cases Operand.split? (bytes.drop (offset + 1)) <;> rfl

lemma advance_indexed (hlt : s.offset < bytes.length) (hlen : bytes.length < 2 ^ 63) (o : Opcode)
    (entries : Array Entry) :
    s.indexed.advance o entries = some ⟨s.offset + (1 + o.operandWidth), entries⟩ := by
  have hsize := length_add_lt_size hlen
  have hw : o.operandWidth ≤ 8 := by cases o <;> decide
  have hstride : Word.add? 1 o.operandWidth = some (1 + o.operandWidth) :=
    Word.add?_of_lt (by omega)
  have hoffset : Word.add? s.offset (1 + o.operandWidth) = some (s.offset + (1 + o.operandWidth)) :=
    Word.add?_of_lt (by omega)
  simp only [IndexedScan.advance, indexed, hstride, hoffset, bind, pure, Option.bind_some]

lemma Between.step_indexed (h : Between bytes n s) (hlt : s.offset < bytes.length)
    (hlen : bytes.length < 2 ^ 63) :
    s.indexed.step bytes = some (s.step.map indexed) := by
  obtain ⟨b, hb⟩ : ∃ b, bytes[s.offset]? = some b := ⟨_, List.getElem?_eq_getElem hlt⟩
  have hrest : s.rest = b :: bytes.drop (s.offset + 1) := by
    obtain ⟨_, rfl⟩ := List.getElem?_eq_some_iff.1 hb
    rw [h.rest_eq, List.drop_eq_getElem_cons hlt]
  have hoperand := readOperand_indexed hlt hlen
  have hadvance := advance_indexed hlt hlen
  rw [IndexedScan.step, offset_indexed, entries_indexed, hb, Scan.step, hrest]
  cases ho : Opcode.ofByte? b with
  | none => simp [ho, Except.map]
  | some o =>
    by_cases hpush : o = .push
    · subst hpush
      rcases hs : Operand.split? (bytes.drop (s.offset + 1)) with _ | ⟨d, behind⟩
      · simp [ho, hoperand, hs, Scan.readOperand, Except.map]
      · simp [ho, hoperand, hs, hadvance, Scan.readOperand, Except.map, Entry.width,
          Opcode.operandWidth, Nat.add_assoc]
    · simp [ho, hpush, hadvance, Except.map, Entry.width, Opcode.operandWidth_of_ne_push hpush]

/-! ### The whole scan -/

lemma Reaches.run_indexed (h : Reaches bytes n s) (hlen : bytes.length < 2 ^ 63) :
    s.indexed.run bytes = some (s.run.map indexed) := by
  fun_induction run s generalizing n with
  | case1 s hr =>
    have hend := h.between.rest_eq_nil_iff.1 hr
    rw [IndexedScan.run_of_length_le (Nat.le_of_eq hend.symm)]
    rfl
  | case2 s hr cause hs =>
    have hlt := h.between.offset_lt hr
    have hstep := h.between.step_indexed hlt hlen
    rw [hs] at hstep
    rw [IndexedScan.run_of_step_error hlt hstep]
    rfl
  | case3 s hr t ht ih =>
    have hlt := h.between.offset_lt hr
    have hstep := h.between.step_indexed hlt hlen
    rw [ht] at hstep
    rw [IndexedScan.run_of_step_ok hlt hstep, ih (.step h hr ht)]

lemma exists_last (bytes : List UInt8) :
    ∃ n s, Reaches bytes n s ∧
      (∀ p, Program.disassemble bytes = .ok p → s.rest = [] ∧ s.entries = p.entries) ∧
      ∀ cause, Program.disassemble bytes = .error cause → s.step = .error cause := by
  obtain ⟨is, rest, r, rfl, hr⟩ := exists_ends [] bytes
  rw [List.nil_append] at hr
  rw [Program.disassemble_of_ends hr]
  refine ⟨is.length, after is rest, reaches_iff.2 ⟨is, rest, rfl, rfl, rfl⟩, ?_, ?_⟩
  · rintro p rfl
    obtain ⟨hrest, rfl⟩ := hr.of_ok
    exact ⟨hrest, rfl⟩
  · rintro cause rfl
    exact hr.step_eq_error

/-- **Reading by index keeps within the stream and within a word, and comes to an end.** Between two
instructions the entries write the bytes in front of the offset. From there each round has an
outcome, that of a step of the scan, and moves the offset on or meets a fault. So there are no more
rounds than bytes, and if all of the stream is read, one for each opcode. -/
theorem run_indexed_eq (bytes : List UInt8) (hlen : bytes.length < 2 ^ 63) :
    (∀ n s, Reaches bytes n s → Between bytes n s) ∧
    (∀ n s, Reaches bytes n s → s.offset < bytes.length →
      n < bytes.length ∧ s.indexed.step bytes = some (s.step.map indexed) ∧
        ∀ t, s.step = .ok t → s.offset < t.offset) ∧
    (start bytes).indexed.run bytes = some ((start bytes).run.map indexed) ∧
    ∃ n s, Reaches bytes n s ∧ n ≤ bytes.length ∧
      (∀ p, Program.disassemble bytes = .ok p →
        s.offset = bytes.length ∧ s.entries = p.entries ∧
          n = p.entries.toList.countP (·.opcode?.isSome)) ∧
      ∀ cause, Program.disassemble bytes = .error cause →
        n < bytes.length ∧ s.step = .error cause := by
  refine ⟨fun n s h => h.between, fun n s h hlt => ?_, Reaches.start.run_indexed hlen, ?_⟩
  · have hstep := h.between.step_indexed hlt hlen
    refine ⟨Nat.lt_of_le_of_lt h.between.le_offset hlt, hstep, fun t ht => ?_⟩
    rw [ht] at hstep
    exact IndexedScan.offset_lt_of_step hstep
  · obtain ⟨n, s, h, hok, herror⟩ := exists_last bytes
    refine ⟨n, s, h, Nat.le_trans h.between.le_offset h.between.offset_le, fun p hp => ?_,
      fun cause hcause => ?_⟩
    · obtain ⟨hrest, hentries⟩ := hok p hp
      refine ⟨h.between.rest_eq_nil_iff.1 hrest, hentries, ?_⟩
      rw [← hentries, h.between.count_opcodes]
    · have hstep := herror cause hcause
      have hrest : s.rest ≠ [] := fun hrest => by simp [step, hrest] at hstep
      exact ⟨Nat.lt_of_le_of_lt h.between.le_offset (h.between.offset_lt hrest), hstep⟩

theorem run_indexed_eq_truncated :
    let bytes : List UInt8 := [0x29, 0x21, 0x21, 0x29, 0xff, 0, 0, 0, 0, 0x21, 0x21, 0xff]
    let cause := ProgramError.truncatedOperand 10 8 1
    bytes.length < 2 ^ 63 ∧ (start bytes).indexed.run bytes = some (.error cause) ∧
      ∃ n s, Reaches bytes n s ∧ n < 12 ∧ Between bytes n s ∧ s.step = .error cause := by
  intro bytes cause
  have hlen : bytes.length < 2 ^ 63 := by decide
  have hd : Program.disassemble bytes = .error cause := by cbv
  have hscan : (start bytes).run.map indexed = .error cause := by cbv
  obtain ⟨hbetween, -, hrun, n, s, hs, -, -, herror⟩ := run_indexed_eq bytes hlen
  obtain ⟨hn, hstep⟩ := herror cause hd
  exact ⟨hlen, by rw [hrun, hscan], n, s, hs, hn, hbetween n s hs, hstep⟩

end Scan

end Bytecode
