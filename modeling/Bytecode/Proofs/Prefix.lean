import Mathlib.Tactic.Common
import Bytecode.Proofs.ByteOffset

/-!
What the front of a stream decides.

A fault is found without a look behind it: a byte that encodes no opcode stays a fault whatever
follows, and an operand that is cut off stays cut off until just the missing bytes are there. An
accepted stream that is cut is cut between two instructions, and then both parts are accepted, or
inside a push. Main statements: `disassemble_behind_fault` and `disassemble_take_drop`.
-/

namespace Bytecode

open Instruction

namespace Program

/-! ### Behind a fault -/

section

variable {a b s : List UInt8} {byte : UInt8} {offset available : Nat}

lemma disassemble_of_take_eq (ha : disassemble a = .error (.invalidOpcode byte offset))
    (hb : b.take (offset + 1) = a.take (offset + 1)) :
    disassemble b = .error (.invalidOpcode byte offset) := by
  obtain ⟨is, rest, rfl, rfl, hu⟩ := disassemble_eq_invalidOpcode_iff.1 ha
  rw [List.take_length_add_append] at hb
  refine disassemble_eq_invalidOpcode_iff.2 ⟨is, b.drop ((codes is).length + 1), ?_, rfl, hu⟩
  calc codes is ++ byte :: b.drop ((codes is).length + 1)
      = b.take ((codes is).length + 1) ++ b.drop ((codes is).length + 1) := by rw [hb]; simp
    _ = b := List.take_append_drop _ _

lemma disassemble_append_of_lt (ha : disassemble a = .error (.truncatedOperand offset 8 available))
    (hs : s.length < 8 - available) :
    disassemble (a ++ s) = .error (.truncatedOperand offset 8 (available + s.length)) := by
  obtain ⟨is, rest, rfl, rfl, -, rfl, -⟩ := disassemble_eq_truncatedOperand_iff.1 ha
  refine disassemble_eq_truncatedOperand_iff.2
    ⟨is, rest ++ s, by simp, rfl, rfl, List.length_append.symm, ?_⟩
  rw [List.length_append, Operand.width]
  omega

lemma disassemble_append_of_eq (ha : disassemble a = .error (.truncatedOperand offset 8 available))
    (hs : s.length = 8 - available) :
    ∃ p q d, disassemble (a.take offset) = .ok q ∧ disassemble (a ++ s) = .ok p ∧
      d.bytes = a.drop (offset + 1) ++ s ∧
      p.entries.toList = q.entries.toList ++ [.op .push, .data d] := by
  obtain ⟨is, rest, rfl, rfl, -, rfl, hr⟩ := disassemble_eq_truncatedOperand_iff.1 ha
  obtain ⟨d, hd⟩ : ∃ d : Operand, d.bytes = rest ++ s := by
    refine ⟨⟨rest ++ s, ?_⟩, rfl⟩
    rw [List.length_append, hs]
    exact Nat.add_sub_cancel' (Nat.le_of_lt hr)
  have hcodes : (codes is ++ Opcode.push.byte :: rest) ++ s = codes (is ++ [push d]) := by
    simp [code, hd]
  refine ⟨ofInstructions (is ++ [push d]), ofInstructions is, d, ?_, ?_, ?_, ?_⟩
  · rw [List.take_left]
    exact disassemble_codes is
  · rw [hcodes]
    exact disassemble_codes _
  · rw [List.drop_length_add_append, hd]
    rfl
  · exact listing_append is [push d]

/-- **What stands behind a fault does not mend it, but for the bytes that an operand lacks.** A
stream with the same front up to a byte that encodes no opcode is refused for that byte. A stream
that ends inside an operand is refused for it until it goes on by just as many bytes as are
missing, and these make it a program. -/
theorem disassemble_behind_fault (a : List UInt8) :
    (∀ byte offset, disassemble a = .error (.invalidOpcode byte offset) →
      ∀ b : List UInt8, b.take (offset + 1) = a.take (offset + 1) →
        disassemble b = .error (.invalidOpcode byte offset)) ∧
    ∀ offset available, disassemble a = .error (.truncatedOperand offset 8 available) →
      (∀ s : List UInt8, s.length < 8 - available →
        disassemble (a ++ s) = .error (.truncatedOperand offset 8 (available + s.length))) ∧
      ∀ s : List UInt8, s.length = 8 - available →
        ∃ p q d, disassemble (a.take offset) = .ok q ∧ disassemble (a ++ s) = .ok p ∧
          d.bytes = a.drop (offset + 1) ++ s ∧
          p.entries.toList = q.entries.toList ++ [.op .push, .data d] := by
  refine ⟨fun _ _ ha _ hb => disassemble_of_take_eq ha hb, fun _ _ ha => ⟨?_, ?_⟩⟩
  · exact fun _ hs => disassemble_append_of_lt ha hs
  · exact fun _ hs => disassemble_append_of_eq ha hs

theorem disassemble_behind_fault_push :
    let a : List UInt8 := [0x20, 0xee, 0x20]
    let b : List UInt8 := [0x20, 0xee, 0x21, 0x29, 0xff]
    let c : List UInt8 := [0x29, 0x21, 0x21, 0xff, 0x29]
    disassemble a = .error (.invalidOpcode 0xee 1) ∧ b.take (1 + 1) = a.take (1 + 1) ∧
      disassemble b = .error (.invalidOpcode 0xee 1) ∧
      disassemble c = .error (.truncatedOperand 1 8 3) ∧
      disassemble (c ++ [0xee, 0x21]) = .error (.truncatedOperand 1 8 (3 + 2)) ∧
      ∃ p q d, disassemble (c.take 1) = .ok q ∧ disassemble (c ++ [1, 2, 3, 4, 5]) = .ok p ∧
        d.bytes = c.drop (1 + 1) ++ [1, 2, 3, 4, 5] ∧
        p.entries.toList = q.entries.toList ++ [.op .push, .data d] := by
  intro a b c
  have ha : disassemble a = .error (.invalidOpcode 0xee 1) := by cbv
  have hb : b.take (1 + 1) = a.take (1 + 1) := rfl
  have hc : disassemble c = .error (.truncatedOperand 1 8 3) := by cbv
  obtain ⟨hshort, hlong⟩ := (disassemble_behind_fault c).2 1 3 hc
  exact ⟨ha, hb, (disassemble_behind_fault a).1 0xee 1 ha b hb, hc, hshort [0xee, 0x21] (by decide),
    hlong [1, 2, 3, 4, 5] rfl⟩

end

/-! ### Cuts -/

/-- A cut at offset `k` comes between two instructions, in front of the entry with index `i`. -/
structure CutBefore (p : Program) (k i : Nat) : Prop where
  le_size : i ≤ p.size
  offset_eq : p.offset i = k
  not_push : ∀ j, i = j + 1 → p.get? j ≠ some (.op .push)

/-- A cut at offset `k` comes behind the push byte with entry index `i` but in front of the end of
its operand. -/
structure CutInside (p : Program) (k i : Nat) : Prop where
  get? : p.get? i = some (.op .push)
  lt : p.offset i < k
  le : k ≤ p.offset i + 8

section

variable {is : List Instruction} {k i : Nat}

lemma exists_eq_append (hi : i ≤ (listing is).length)
    (hp : ∀ j, i = j + 1 → (listing is)[j]? ≠ some (.op .push)) :
    ∃ js ls, is = js ++ ls ∧ (listing js).length = i := by
  rcases Nat.lt_or_eq_of_le hi with hlt | rfl
  · have hget := List.getElem?_eq_getElem hlt
    cases he : (listing is)[i] with
    | op o =>
      rw [he] at hget
      obtain ⟨js, j, ls, rfl, hjs, -⟩ := exists_eq_append_cons hget
      exact ⟨js, j :: ls, rfl, hjs⟩
    | data d =>
      rw [he] at hget
      obtain ⟨j, hj, hpush⟩ := (paired_listing is).push_of_operand i d hget
      exact absurd hpush (hp j hj)
  · exact ⟨is, [], (List.append_nil is).symm, rfl⟩

lemma cutBefore_iff : (ofInstructions is).CutBefore k i ↔
    ∃ js ls, is = js ++ ls ∧ (codes js).length = k ∧ (listing js).length = i := by
  refine ⟨fun h => ?_, ?_⟩
  · have hpush : ∀ j, i = j + 1 → (listing is)[j]? ≠ some (.op .push) := by
      intro j hj
      rw [← get?_ofInstructions]
      exact h.not_push j hj
    obtain ⟨js, ls, rfl, rfl⟩ := exists_eq_append h.le_size hpush
    have hk := h.offset_eq
    rw [offset_ofInstructions] at hk
    exact ⟨js, ls, rfl, hk, rfl⟩
  · rintro ⟨js, ls, rfl, rfl, rfl⟩
    refine ⟨?_, offset_ofInstructions js ls, fun j hj hpush => ?_⟩
    · rw [size_ofInstructions, listing_append, List.length_append]
      exact Nat.le_add_right _ _
    · -- the push is the last entry of `js`, so its operand would stand behind them
      rw [get?_ofInstructions, listing_append, List.getElem?_append_left (by omega)] at hpush
      obtain ⟨d, hd⟩ := (paired_listing js).operand_of_push j hpush
      rw [← hj] at hd
      simp at hd

lemma cutInside_iff : (ofInstructions is).CutInside k i ↔
    ∃ js d ls, is = js ++ push d :: ls ∧ (listing js).length = i ∧ (codes js).length < k ∧
      k ≤ (codes js).length + 8 := by
  refine ⟨fun h => ?_, ?_⟩
  · have hget := h.get?
    rw [get?_ofInstructions] at hget
    obtain ⟨js, j, ls, rfl, rfl, hj⟩ := exists_eq_append_cons hget
    cases j with
    | plain o ho => exact absurd hj ho
    | push d =>
      have hlt := h.lt
      have hle := h.le
      rw [offset_ofInstructions] at hlt hle
      exact ⟨js, d, ls, rfl, rfl, hlt, hle⟩
  · rintro ⟨js, d, ls, rfl, rfl, hlt, hle⟩
    refine ⟨?_, ?_, ?_⟩
    · rw [get?_ofInstructions, getElem?_listing]
      rfl
    · rwa [offset_ofInstructions]
    · rwa [offset_ofInstructions]

/-- Each offset in a row of instructions lies between two of them or inside a push. -/
lemma exists_cut_codes (h : k ≤ (codes is).length) :
    (∃ js ls, is = js ++ ls ∧ (codes js).length = k) ∨
    ∃ js d ls, is = js ++ push d :: ls ∧ (codes js).length < k ∧ k ≤ (codes js).length + 8 := by
  induction is generalizing k with
  | nil => exact .inl ⟨[], [], rfl, (Nat.le_zero.1 h).symm⟩
  | cons j is ih =>
    rw [codes_cons, List.length_append] at h
    rcases Nat.lt_or_ge k j.code.length with hlt | hge
    · rcases Nat.eq_zero_or_pos k with rfl | hpos
      · exact .inl ⟨[], j :: is, rfl, rfl⟩
      · cases j with
        | plain o ho =>
          rw [code, List.length_singleton] at hlt
          omega
        | push d =>
          rw [code, List.length_cons, d.length_bytes] at hlt
          exact .inr ⟨[], d, is, rfl, hpos, by simpa using Nat.le_of_lt_succ hlt⟩
    · -- the instruction is passed over, and what is left of the offset is one in the rest
      obtain ⟨m, rfl⟩ := Nat.exists_eq_add_of_le hge
      rcases ih (Nat.le_of_add_le_add_left h) with ⟨js, ls, rfl, hm⟩ | ⟨js, d, ls, rfl, hlt, hle⟩
      · exact .inl ⟨j :: js, ls, rfl, by rw [codes_cons, List.length_append, hm]⟩
      · refine .inr ⟨j :: js, d, ls, rfl, ?_, ?_⟩ <;>
          (rw [codes_cons, List.length_append]; omega)

lemma disassemble_of_cutBefore (h : (ofInstructions is).CutBefore k i) :
    ∃ q r, disassemble ((codes is).take k) = .ok q ∧ disassemble ((codes is).drop k) = .ok r ∧
      q.entries.toList = (listing is).take i ∧ r.entries.toList = (listing is).drop i := by
  obtain ⟨js, ls, rfl, rfl, rfl⟩ := cutBefore_iff.1 h
  rw [codes_append, List.take_left, List.drop_left, listing_append, List.take_left, List.drop_left]
  exact ⟨_, _, disassemble_codes js, disassemble_codes ls, rfl, rfl⟩

lemma disassemble_of_cutInside (h : (ofInstructions is).CutInside k i) :
    disassemble ((codes is).take k) = .error (.truncatedOperand ((ofInstructions is).offset i) 8
      (k - (ofInstructions is).offset i - 1)) := by
  obtain ⟨js, d, ls, rfl, rfl, hlt, hle⟩ := cutInside_iff.1 h
  obtain ⟨m, rfl⟩ := Nat.exists_eq_add_of_lt hlt
  have hm : m ≤ d.bytes.length := by
    rw [d.length_bytes, Operand.width]
    omega
  have htake : (codes (js ++ push d :: ls)).take ((codes js).length + m + 1) =
      codes js ++ Opcode.push.byte :: d.bytes.take m := by
    rw [codes_append, codes_cons, code, List.cons_append, Nat.add_assoc,
      List.take_length_add_append, List.take_succ_cons, List.take_append_of_le_length hm]
  rw [offset_ofInstructions, htake]
  refine disassemble_eq_truncatedOperand_iff.2 ⟨js, d.bytes.take m, rfl, rfl, rfl, ?_, ?_⟩
  · rw [List.length_take, Nat.min_eq_left hm]
    omega
  · rw [List.length_take, Nat.min_eq_left hm, Operand.width]
    omega

end

/-- **Where an accepted stream may be cut.** Each cut is one of two. Between two instructions both
parts are accepted, with the entries in front of the cut and those behind it. Inside a push the
front is refused for that push, whose operand has as many bytes as are left of it. -/
theorem disassemble_take_drop {bytes : List UInt8} {p : Program} (h : disassemble bytes = .ok p)
    {k : Nat} (hk : k ≤ bytes.length) :
    ((∃ i, p.CutBefore k i) ∨ ∃ i, p.CutInside k i) ∧
    (∀ i j, p.CutBefore k i → ¬ p.CutInside k j) ∧
    (∀ i, p.CutBefore k i → ∃ q r, disassemble (bytes.take k) = .ok q ∧
      disassemble (bytes.drop k) = .ok r ∧
      q.entries.toList = p.entries.toList.take i ∧ r.entries.toList = p.entries.toList.drop i) ∧
    (∀ i, p.CutInside k i → disassemble (bytes.take k) =
      .error (.truncatedOperand (p.offset i) 8 (k - p.offset i - 1))) ∧
    ∀ byte offset, disassemble (bytes.take k) ≠ .error (.invalidOpcode byte offset) := by
  obtain ⟨is, rfl, rfl⟩ := disassemble_eq_ok_iff.1 h
  have hcut : (∃ i, (ofInstructions is).CutBefore k i) ∨
      ∃ i, (ofInstructions is).CutInside k i := by
    rcases exists_cut_codes hk with ⟨js, ls, rfl, hjs⟩ | ⟨js, d, ls, rfl, hlt, hle⟩
    · exact .inl ⟨_, cutBefore_iff.2 ⟨js, ls, rfl, hjs, rfl⟩⟩
    · exact .inr ⟨_, cutInside_iff.2 ⟨js, d, ls, rfl, rfl, hlt, hle⟩⟩
  refine ⟨hcut, fun i j hb hi => ?_, fun i hb => disassemble_of_cutBefore hb,
    fun i hi => disassemble_of_cutInside hi, fun byte offset hbad => ?_⟩
  · obtain ⟨q, r, hq, -⟩ := disassemble_of_cutBefore hb
    rw [disassemble_of_cutInside hi] at hq
    cases hq
  · rcases hcut with ⟨i, hb⟩ | ⟨i, hi⟩
    · obtain ⟨q, r, hq, -⟩ := disassemble_of_cutBefore hb
      rw [hbad] at hq
      cases hq
    · rw [disassemble_of_cutInside hi] at hbad
      cases hbad

theorem disassemble_take_drop_push :
    let bytes : List UInt8 := [0x29, 0x21, 0x21, 0x29, 0xff, 0, 0, 0, 0, 0x21, 0x3a]
    let p := ofInstructions [.plain .jumpDst, .push (.ofUInt64 0x2129ff0000000021), .plain .exit]
    disassemble bytes = .ok p ∧ p.CutBefore 1 1 ∧ p.CutInside 4 1 ∧
      (∃ q r, disassemble (bytes.take 1) = .ok q ∧ disassemble (bytes.drop 1) = .ok r ∧
        q.entries.toList = p.entries.toList.take 1 ∧ r.entries.toList = p.entries.toList.drop 1) ∧
      disassemble (bytes.take 4) = .error (.truncatedOperand 1 8 2) := by
  intro bytes p
  have hp : disassemble bytes = .ok p := by cbv
  have hbefore : p.CutBefore 1 1 := cutBefore_iff.2
    ⟨[.plain .jumpDst], [.push (.ofUInt64 0x2129ff0000000021), .plain .exit], rfl, rfl, rfl⟩
  have hinside : p.CutInside 4 1 := cutInside_iff.2
    ⟨[.plain .jumpDst], .ofUInt64 0x2129ff0000000021, [.plain .exit], rfl, rfl, by decide,
      by decide⟩
  have hone : 1 ≤ bytes.length := by decide
  have hfour : 4 ≤ bytes.length := by decide
  exact ⟨hp, hbefore, hinside, (disassemble_take_drop hp hone).2.2.1 1 hbefore,
    (disassemble_take_drop hp hfour).2.2.2.1 1 hinside⟩

end Program

end Bytecode
