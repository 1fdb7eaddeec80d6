import Mathlib.Tactic.Common
import Bytecode.Layout
import Bytecode.Proofs.Disassembly

/-!
Jump markers, found by stride on the bytes and found by opcode among the entries.

A stride over an instruction moves the index as many entries on as the instruction has, so both
ways come to the same list. Main statement: `jumpDestinations_eq_markers`.
-/

namespace Bytecode

open Instruction

/-! ### Markers among entries -/

/-- The indices of the jump markers of entries, the first of which has index `n`. -/
def markerIndices (n : Nat) (es : List Entry) : List Nat :=
  ((es.zipIdx n).filter (·.1.isJumpDst)).map (·.2)

lemma jumpDestinations_eq (p : Program) :
    p.jumpDestinations = markerIndices 0 p.entries.toList := rfl

lemma markerIndices_append (n : Nat) (es fs : List Entry) :
    markerIndices n (es ++ fs) = markerIndices n es ++ markerIndices (n + es.length) fs := by
  simp only [markerIndices, List.zipIdx_append, List.filter_append, List.map_append]

lemma markerIndices_eq_map (n : Nat) (es : List Entry) :
    markerIndices n es = (markerIndices 0 es).map (· + n) := by
  have hz : es.zipIdx n = es.zipIdx.map (Prod.map id (· + n)) :=
    (List.map_snd_add_zipIdx_eq_zipIdx (n := n) (k := 0)).symm
  rw [markerIndices, hz, List.filter_map, List.map_map, markerIndices, List.map_map]
  rfl

lemma mem_markerIndices {i : Nat} {es : List Entry} :
    i ∈ markerIndices 0 es ↔ es[i]? = some (.op .jumpDst) := by
  simp [markerIndices, List.mk_mem_zipIdx_iff_getElem?, Entry.isJumpDst_iff]

lemma pairwise_lt_markerIndices (n : Nat) (es : List Entry) :
    (markerIndices n es).Pairwise (· < ·) := by
  have hs : (markerIndices n es).Sublist ((es.zipIdx n).map (·.2)) :=
    List.filter_sublist.map _
  rw [List.zipIdx_map_snd] at hs
  exact List.Pairwise.sublist hs List.pairwise_lt_range'

/-! ### Markers found by stride -/

namespace Layout

lemma markers_code_append (n : Nat) (i : Instruction) (rest : List UInt8) :
    markers n (i.code ++ rest) =
      markerIndices n i.entries ++ markers (n + i.entries.length) rest := by
  cases i with
  | plain o ho =>
    rw [code, List.singleton_append, markers, if_neg (mt Opcode.byte_injective ho)]
    by_cases hj : o = .jumpDst
    · subst hj
      rw [if_pos rfl]
      rfl
    · rw [if_neg (mt Opcode.byte_injective hj)]
      simp [markerIndices, entries, Entry.isJumpDst, hj]
  | push d =>
    rw [code, List.cons_append, markers, if_pos rfl, List.drop_left' d.length_bytes]
    rfl

theorem markers_codes_append (n : Nat) (is : List Instruction) (rest : List UInt8) :
    markers n (codes is ++ rest) =
      markerIndices n (listing is) ++ markers (n + (listing is).length) rest := by
  induction is generalizing n with
  | nil => rfl
  | cons i is ih =>
    rw [codes_cons, listing_cons, List.append_assoc, markers_code_append, ih, markerIndices_append,
      List.length_append, List.append_assoc, Nat.add_assoc]

theorem markers_codes (n : Nat) (is : List Instruction) :
    markers n (codes is) = markerIndices n (listing is) := by
  have h := markers_codes_append n is []
  rwa [List.append_nil, markers, List.append_nil] at h

/-! ### Bytes of operands -/

lemma operandOffsets_code_append (n : Nat) (i : Instruction) (rest : List UInt8) :
    operandOffsets n (i.code ++ rest) =
      operandOffsets n i.code ++ operandOffsets (n + i.code.length) rest := by
  cases i with
  | plain o ho =>
    simp [code, operandOffsets, mt Opcode.byte_injective ho]
  | push d =>
    have hd : (d.bytes ++ rest).drop Operand.width = rest := List.drop_left' d.length_bytes
    have hn : d.bytes.drop Operand.width = [] :=
      List.drop_eq_nil_of_le (Nat.le_of_eq d.length_bytes)
    simp [code, operandOffsets, hd, hn, d.length_bytes, Nat.add_assoc, Nat.add_comm Operand.width]

theorem operandOffsets_codes_append (n : Nat) (is : List Instruction) (rest : List UInt8) :
    operandOffsets n (codes is ++ rest) =
      operandOffsets n (codes is) ++ operandOffsets (n + (codes is).length) rest := by
  induction is generalizing n with
  | nil => simp [operandOffsets]
  | cons i is ih =>
    rw [codes_cons, List.append_assoc, operandOffsets_code_append, ih, operandOffsets_code_append,
      List.length_append, List.append_assoc, Nat.add_assoc]

lemma mem_operandOffsets_bounds {n o : Nat} {bytes : List UInt8}
    (h : o ∈ operandOffsets n bytes) : n < o ∧ o < n + bytes.length := by
  induction n, bytes using operandOffsets.induct with
  | case1 n => simp [operandOffsets] at h
  | case2 n rest ih =>
    rw [operandOffsets, if_pos rfl, List.mem_append, List.mem_range'_1] at h
    rw [List.length_cons]
    rcases h with h | h
    · omega
    · have hb := ih h
      rw [List.length_drop] at hb
      omega
  | case3 n b rest hb ho ih =>
    rw [operandOffsets, if_neg hb, if_pos ho] at h
    have hr := ih h
    rw [List.length_cons]
    omega
  | case4 n b rest hb ho =>
    rw [operandOffsets, if_neg hb, if_neg ho] at h
    simp at h

lemma length_codes_not_mem_operandOffsets (is : List Instruction) (rest : List UInt8) :
    (codes is).length ∉ operandOffsets 0 (codes is ++ rest) := by
  intro h
  rw [operandOffsets_codes_append, List.mem_append] at h
  -- the operands of the row end at its length, and the next begins behind a push byte there
  rcases h with h | h
  · have hb := (mem_operandOffsets_bounds h).2
    omega
  · have hb := (mem_operandOffsets_bounds h).1
    omega

end Layout

namespace Program

variable {bytes : List UInt8} {p : Program}

lemma mem_jumpDestinations_iff_get? {i : Nat} :
    i ∈ p.jumpDestinations ↔ p.get? i = some (.op .jumpDst) := by
  rw [jumpDestinations_eq, mem_markerIndices, get?_eq]

lemma lt_size_of_mem_jumpDestinations {i : Nat} (h : i ∈ p.jumpDestinations) : i < p.size :=
  (Array.getElem?_eq_some_iff.1 (mem_jumpDestinations_iff_get?.1 h)).1

lemma pairwise_lt_jumpDestinations (p : Program) : p.jumpDestinations.Pairwise (· < ·) :=
  pairwise_lt_markerIndices 0 _

lemma mem_jumpDestinations_iff (h : disassemble bytes = .ok p) {i : Nat} :
    i ∈ p.jumpDestinations ↔
      ∃ o q, disassemble (bytes.take o) = .ok q ∧ q.size = i ∧ bytes[o]? = some 0x29 := by
  rw [jumpDestinations_eq, mem_markerIndices]
  refine ⟨fun hi => ?_, fun ⟨o, q, hq, hs, hb⟩ => ?_⟩
  · obtain ⟨ks, rfl, rfl⟩ := disassemble_eq_ok_iff.1 h
    obtain ⟨is, j, js, rfl, rfl, hj⟩ := exists_eq_append_cons hi
    refine ⟨(codes is).length, ofInstructions is, ?_, rfl, ?_⟩
    · rw [codes_append, List.take_left]
      exact disassemble_codes is
    · rw [getElem?_codes, hj]
      rfl
  · obtain ⟨is, js, his, hjs, rfl, rfl⟩ := exists_cut h hq
    have hc : (codes js)[0]? = some 0x29 := by rw [hjs, List.getElem?_drop, Nat.add_zero, hb]
    cases js with
    | nil => simp at hc
    | cons j js =>
      have hj : j.opcode.byte = Opcode.jumpDst.byte :=
        Option.some.inj ((getElem?_codes [] j js).symm.trans hc)
      rw [entries_ofInstructions, ← hs, size_ofInstructions, getElem?_listing,
        Opcode.byte_injective hj]

lemma disassemble_take_ne_ok {o : Nat} (ho : o ∈ Layout.operandOffsets 0 bytes) (q : Program) :
    disassemble (bytes.take o) ≠ .ok q := by
  intro hq
  obtain ⟨is, his, -⟩ := disassemble_eq_ok_iff.1 hq
  have hl := (Layout.mem_operandOffsets_bounds ho).2
  have hlen : (codes is).length = o := by
    rw [his, List.length_take]
    omega
  rw [← List.take_append_drop o bytes, ← his, ← hlen] at ho
  exact Layout.length_codes_not_mem_operandOffsets is _ ho

/-- **Jump destinations are the markers that a stride over the bytes comes to**, in the same order.
Each marker byte that an instruction begins with gives one, at its entry index, and no byte of an
operand is where an instruction begins. -/
theorem jumpDestinations_eq_markers (h : disassemble bytes = .ok p) :
    p.jumpDestinations = Layout.markers 0 bytes ∧
    p.jumpDestinations.Pairwise (· < ·) ∧
    (∀ i, i ∈ p.jumpDestinations ↔
      ∃ o q, disassemble (bytes.take o) = .ok q ∧ q.size = i ∧ bytes[o]? = some 0x29) ∧
    ∀ o ∈ Layout.operandOffsets 0 bytes, ∀ q, disassemble (bytes.take o) ≠ .ok q := by
  refine ⟨?_, pairwise_lt_markerIndices 0 _, fun i => mem_jumpDestinations_iff h,
    fun o ho => disassemble_take_ne_ok ho⟩
  obtain ⟨is, rfl, rfl⟩ := disassemble_eq_ok_iff.1 h
  rw [jumpDestinations_eq, entries_ofInstructions, Layout.markers_codes]

theorem jumpDestinations_eq_markers_two :
    let bytes : List UInt8 := [0x29, 0x21, 0x29, 0x29, 0x29, 0x29, 0x29, 0x29, 0x29, 0x29,
      0x30, 0x29, 0x3a]
    let p := ofInstructions [.plain .jumpDst, .push (.ofUInt64 0x2929292929292929),
      .plain .jumpi, .plain .jumpDst, .plain .exit]
    disassemble bytes = .ok p ∧ p.jumpDestinations = Layout.markers 0 bytes ∧
      p.jumpDestinations = [0, 4] ∧ 2 ∈ Layout.operandOffsets 0 bytes ∧
      ∀ q, disassemble (bytes.take 2) ≠ .ok q := by
  intro bytes p
  have hp : disassemble bytes = .ok p := by cbv
  have ho : 2 ∈ Layout.operandOffsets 0 bytes := by decide +kernel
  obtain ⟨hm, -, -, hn⟩ := jumpDestinations_eq_markers hp
  exact ⟨hp, hm, by decide, ho, hn 2 ho⟩

end Program

end Bytecode
