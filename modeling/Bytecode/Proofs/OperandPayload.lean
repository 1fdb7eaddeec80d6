import Mathlib.Tactic.Common
import Bytecode.Program.Traversal
import Bytecode.Proofs.JumpMarkers

/-!
The payloads of operands do not matter, neither to reading a stream nor to moving in a program.

Whatever can be observed of a program apart from payloads is the same once its payloads are left
blank, and moves commute with leaving them blank. Two streams that differ inside operands alone
are rows of instructions with the same opcodes and end alike, so they give the same program up to
payloads or the same fault. Main statement: `disassemble_eq_up_to_payload`.
-/

namespace Bytecode

open Instruction

/-! ### Programs with blank payloads -/

/-- An entry with the payload of an operand left blank. -/
def Entry.blank : Entry → Entry
  | op o => op o
  | data _ => data (.ofUInt64 0)

lemma Entry.blank_eq_blank_iff {e f : Entry} :
    e.blank = f.blank ↔ e = f ∨ ∃ c d, e = data c ∧ f = data d := by
  cases e <;> cases f <;> simp [blank]

lemma Entry.isJumpDst_blank (e : Entry) : e.blank.isJumpDst = e.isJumpDst := by
  cases e <;> rfl

lemma markerIndices_map_blank (n : Nat) (es : List Entry) :
    markerIndices n (es.map Entry.blank) = markerIndices n es := by
  have hb : ((fun r : Entry × Nat => r.1.isJumpDst) ∘ Prod.map Entry.blank id) =
      fun r => r.1.isJumpDst := funext fun r => r.1.isJumpDst_blank
  rw [markerIndices, List.zipIdx_map, List.filter_map, hb, List.map_map, markerIndices]
  rfl

def Move.Reply.blank : Move.Reply → Move.Reply
  | reached e => reached (e.map Entry.blank)
  | done => done
  | refused cause => refused cause

namespace Program

def blank (p : Program) : Program := { p with entries := p.entries.map Entry.blank }

@[simp] lemma size_blank (p : Program) : p.blank.size = p.size := Array.size_map

lemma get?_blank (p : Program) (i : Nat) : p.blank.get? i = (p.get? i).map Entry.blank :=
  Array.getElem?_map

lemma jumpDestinations_blank (p : Program) : p.blank.jumpDestinations = p.jumpDestinations := by
  have he : p.blank.entries.toList = p.entries.toList.map Entry.blank := Array.toList_map
  rw [jumpDestinations_eq, he, markerIndices_map_blank, jumpDestinations_eq]

lemma isJumpTarget_blank (p : Program) (t : Nat) : p.blank.isJumpTarget t = p.isJumpTarget t := by
  rw [isJumpTarget, get?_blank, Option.any_map, isJumpTarget]
  exact congrArg (fun f => (p.get? t).any f) (funext Entry.isJumpDst_blank)

lemma next?_blank (p : Program) :
    p.blank.next? = p.next?.map fun r => (r.1.blank, r.2.blank) := by
  by_cases h : p.pc + 1 < p.entries.size
  · have hb : p.blank.pc + 1 < p.blank.entries.size := by simpa [blank] using h
    rw [next?, next?, dif_pos h, dif_pos hb]
    simp [blank]
  · have hb : ¬ p.blank.pc + 1 < p.blank.entries.size := by simpa [blank] using h
    rw [next?, next?, dif_neg h, dif_neg hb]
    rfl

lemma jump_blank (p : Program) (t : Nat) : p.blank.jump t = (p.jump t).map blank := by
  rw [jump, jump, size_blank]
  split <;> rfl

lemma move_blank (p : Program) (m : Move) :
    p.blank.move m = ((p.move m).1.blank, (p.move m).2.blank) := by
  cases m with
  | next =>
    simp only [move, next?_blank]
    cases p.next? <;> rfl
  | jump t =>
    simp only [move, jump_blank]
    cases p.jump t <;> rfl

theorem moves_blank (p : Program) (ms : List Move) :
    p.blank.moves ms =
      ((p.moves ms).1.blank, (p.moves ms).2.map fun r => (r.1.blank, r.2)) := by
  induction ms generalizing p with
  | nil => rfl
  | cons m ms ih =>
    simp only [moves, move_blank, ih, List.map_cons]
    rfl

lemma get?_eq_or_data_of_blank_eq {p q : Program} (h : p.blank = q.blank) (i : Nat) :
    p.get? i = q.get? i ∨ ∃ c d, p.get? i = some (.data c) ∧ q.get? i = some (.data d) := by
  have hi : (p.get? i).map Entry.blank = (q.get? i).map Entry.blank := by
    rw [← get?_blank, h, get?_blank]
  cases hp : p.get? i with
  | none =>
    rw [hp, Option.map_none, eq_comm, Option.map_eq_none_iff] at hi
    exact .inl hi.symm
  | some e =>
    rw [hp, Option.map_some, eq_comm, Option.map_eq_some_iff] at hi
    obtain ⟨f, hq, hf⟩ := hi
    rw [hq]
    rcases Entry.blank_eq_blank_iff.1 hf with rfl | ⟨c, d, rfl, rfl⟩
    · exact .inl rfl
    · exact .inr ⟨d, c, rfl, rfl⟩

theorem observations_eq_of_blank_eq {p q : Program} (h : p.blank = q.blank) :
    p.size = q.size ∧
      (∀ i, p.get? i = q.get? i ∨
        ∃ c d, p.get? i = some (.data c) ∧ q.get? i = some (.data d)) ∧
      p.jumpDestinations = q.jumpDestinations ∧
      (∀ t, p.isJumpTarget t = q.isJumpTarget t) ∧
      ∀ ms, (p.moves ms).2.map (fun r => (r.1.blank, r.2)) =
        (q.moves ms).2.map (fun r => (r.1.blank, r.2)) := by
  refine ⟨?_, get?_eq_or_data_of_blank_eq h, ?_, fun t => ?_, fun ms => ?_⟩
  · rw [← size_blank p, h, size_blank]
  · rw [← jumpDestinations_blank p, h, jumpDestinations_blank]
  · rw [← isJumpTarget_blank p, h, isJumpTarget_blank]
  · have hm : (p.blank.moves ms).2 = (q.blank.moves ms).2 := by rw [h]
    rwa [moves_blank, moves_blank] at hm

end Program

/-! ### Rows of instructions with the same opcodes -/

namespace Instruction

/-- The blank entries of an instruction with a given opcode. -/
def blankEntries (o : Opcode) : List Entry :=
  if o = .push then [.op .push, .data (.ofUInt64 0)] else [.op o]

lemma map_blank_entries (i : Instruction) : i.entries.map Entry.blank = blankEntries i.opcode := by
  cases i with
  | plain o ho => rw [opcode, blankEntries, if_neg ho]; rfl
  | push d => rfl

lemma map_blank_listing (is : List Instruction) :
    (listing is).map Entry.blank = (is.map opcode).flatMap blankEntries := by
  induction is with
  | nil => rfl
  | cons i is ih =>
    rw [listing_cons, List.map_append, map_blank_entries, ih, List.map_cons, List.flatMap_cons]

end Instruction

lemma Program.blank_ofInstructions (is : List Instruction) :
    (ofInstructions is).blank = ofEntries ((is.map opcode).flatMap blankEntries).toArray := by
  have he : (listing is).toArray.map Entry.blank =
      ((is.map opcode).flatMap blankEntries).toArray := by
    rw [List.map_toArray, map_blank_listing]
  exact congrArg ofEntries he

/-! ### Streams that agree outside operands -/

namespace Layout

/-- Two streams, the first byte of which has offset `n`, are of one length and agree outside the
operands of the first stream. -/
structure Agree (n : Nat) (xs ys : List UInt8) : Prop where
  length_eq : xs.length = ys.length
  getElem?_eq : ∀ i < xs.length, n + i ∉ operandOffsets n xs → xs[i]? = ys[i]?

variable {n : Nat} {xs ys : List UInt8}

lemma Agree.exists_eq_cons {b : UInt8} (h : Agree n (b :: xs) ys) :
    ∃ zs, ys = b :: zs ∧ zs.length = xs.length := by
  have hn : n + 0 ∉ operandOffsets n (b :: xs) := by
    intro hm
    have hb := (mem_operandOffsets_bounds hm).1
    omega
  have hb := h.getElem?_eq 0 (by simp) hn
  have hl := h.length_eq
  cases ys with
  | nil => simp at hl
  | cons c zs =>
    obtain rfl : b = c := by simpa using hb
    exact ⟨zs, rfl, by simpa using hl.symm⟩

lemma Agree.of_code_append {i : Instruction} (cs : List UInt8) {zs : List UInt8}
    (h : Agree n (i.code ++ xs) (cs ++ zs)) (hc : cs.length = i.code.length) :
    Agree (n + i.code.length) xs zs where
  length_eq := by
    have hl := h.length_eq
    rw [List.length_append, List.length_append] at hl
    omega
  getElem?_eq k hk hm := by
    have hrow : n + (i.code.length + k) ∉ operandOffsets n (i.code ++ xs) := by
      rw [operandOffsets_code_append, List.mem_append]
      rintro (hcode | hrest)
      · have hb := (mem_operandOffsets_bounds hcode).2
        omega
      · rw [← Nat.add_assoc] at hrest
        exact hm hrest
    have hlt : i.code.length + k < (i.code ++ xs).length := by
      rw [List.length_append]
      omega
    have hget := h.getElem?_eq _ hlt hrow
    rw [List.getElem?_append_right (Nat.le_add_right _ _), Nat.add_sub_cancel_left,
      List.getElem?_append_right (by omega), hc, Nat.add_sub_cancel_left] at hget
    exact hget

lemma Agree.exists_code_append {i : Instruction} (h : Agree n (i.code ++ xs) ys) :
    ∃ (j : Instruction) (zs : List UInt8), ys = j.code ++ zs ∧ j.opcode = i.opcode ∧
      Agree (n + i.code.length) xs zs := by
  cases i with
  | plain o ho =>
    obtain ⟨zs, rfl, -⟩ := h.exists_eq_cons
    exact ⟨plain o ho, zs, rfl, rfl, h.of_code_append [o.byte] rfl⟩
  | push d =>
    obtain ⟨zs, rfl, hl⟩ := h.exists_eq_cons
    -- the other stream is as long, so it has a whole operand there
    cases hs : Operand.split? zs with
    | none =>
      have hz := Operand.split?_eq_none_iff.1 hs
      have hd := d.length_bytes
      rw [hl, List.append_eq, List.length_append] at hz
      omega
    | some r =>
      obtain ⟨c, ws⟩ := r
      obtain rfl := Operand.split?_eq_some_iff.1 hs
      have hc : (push c).code.length = (push d).code.length := by rw [length_code, length_code]; rfl
      exact ⟨push c, ws, rfl, rfl, h.of_code_append (push c).code hc⟩

theorem Agree.exists_codes_append {is : List Instruction} (h : Agree n (codes is ++ xs) ys) :
    ∃ js zs, ys = codes js ++ zs ∧ js.map opcode = is.map opcode ∧
      Agree (n + (codes is).length) xs zs := by
  induction is generalizing n ys with
  | nil => exact ⟨[], ys, rfl, rfl, h⟩
  | cons i is ih =>
    rw [codes_cons, List.append_assoc] at h
    obtain ⟨j, zs, rfl, hj, hz⟩ := h.exists_code_append
    obtain ⟨js, ws, rfl, hjs, hw⟩ := ih hz
    refine ⟨j :: js, ws, ?_, ?_, ?_⟩
    · rw [codes_cons, List.append_assoc]
    · rw [List.map_cons, List.map_cons, hj, hjs]
    · rwa [codes_cons, List.length_append, ← Nat.add_assoc]

lemma operandOffsets_unregistered {b : UInt8} (hb : ∀ o : Opcode, o.byte ≠ b) :
    operandOffsets n (b :: xs) = [] := by
  have hn : ¬ (Opcode.ofByte? b).isSome := by simp [Opcode.ofByte?_eq_none_iff.2 hb]
  rw [operandOffsets, if_neg (hb .push).symm, if_neg hn]

lemma Agree.eq_of_unregistered {b : UInt8} (hb : ∀ o : Opcode, o.byte ≠ b)
    (h : Agree n (b :: xs) ys) : ys = b :: xs := by
  refine List.ext_getElem? fun i => ?_
  rcases Nat.lt_or_ge i (b :: xs).length with hi | hi
  · refine (h.getElem?_eq i hi ?_).symm
    rw [operandOffsets_unregistered hb]
    exact List.not_mem_nil
  · rw [List.getElem?_eq_none hi, List.getElem?_eq_none (h.length_eq ▸ hi)]

end Layout

/-! ### Reading -/

namespace Scan

/-- Scans that have read the same opcodes end alike on streams that agree outside operands. -/
lemma Ends.exists_of_agree {is js : List Instruction} {n : Nat} {xs ys : List UInt8}
    {r : Except ProgramError Program} (h : Ends is xs r)
    (ho : js.map opcode = is.map opcode) (ha : Layout.Agree n xs ys) :
    ∃ r', Ends js ys r' ∧ r'.map Program.blank = r.map Program.blank := by
  have hn : js.length = is.length := by
    rw [← List.length_map opcode, ho, List.length_map]
  have hl : (codes js).length = (codes is).length := by
    rw [length_codes, length_codes, ho, hn]
  cases h with
  | finished =>
    have hy : ys = [] := List.eq_nil_of_length_eq_zero ha.length_eq.symm
    subst hy
    have hp : (Program.ofInstructions js).blank = (Program.ofInstructions is).blank := by
      rw [Program.blank_ofInstructions, Program.blank_ofInstructions, ho]
    exact ⟨_, .finished, congrArg Except.ok hp⟩
  | unregistered b rest hb =>
    obtain rfl := ha.eq_of_unregistered hb
    exact ⟨_, .unregistered b rest hb, by rw [hl]⟩
  | truncated rest hr =>
    obtain ⟨zs, rfl, hz⟩ := ha.exists_eq_cons
    exact ⟨_, .truncated zs (hz ▸ hr), by rw [hl, hz]⟩

end Scan

namespace Program

variable {x y : List UInt8}

theorem map_blank_disassemble (h : Layout.Agree 0 x y) :
    (disassemble y).map blank = (disassemble x).map blank := by
  obtain ⟨is, xs, rfl, he⟩ := disassemble_eq_iff.1 (Eq.refl (disassemble x))
  obtain ⟨js, ys, rfl, ho, ha⟩ := h.exists_codes_append
  obtain ⟨r, hr, hb⟩ := he.exists_of_agree ho ha
  rw [disassemble_of_ends hr, hb]

/-- **The payloads of operands are never looked at.** Streams of one length that differ inside
operands alone are refused for the same fault, or give programs that differ in payloads alone and
cannot be told apart by their markers or by any row of moves. -/
theorem disassemble_eq_up_to_payload (hl : x.length = y.length)
    (ha : ∀ i < x.length, i ∉ Layout.operandOffsets 0 x → x[i]? = y[i]?) :
    (∃ e, disassemble x = .error e ∧ disassemble y = .error e) ∨
    ∃ p q, disassemble x = .ok p ∧ disassemble y = .ok q ∧ p.size = q.size ∧
      (∀ i, p.get? i = q.get? i ∨
        ∃ c d, p.get? i = some (.data c) ∧ q.get? i = some (.data d)) ∧
      p.jumpDestinations = q.jumpDestinations ∧
      (∀ t, p.isJumpTarget t = q.isJumpTarget t) ∧
      ∀ ms, (p.moves ms).2.map (fun r => (r.1.blank, r.2)) =
        (q.moves ms).2.map (fun r => (r.1.blank, r.2)) := by
  have hagree : Layout.Agree 0 x y := ⟨hl, fun i hi hm => ha i hi (by rwa [Nat.zero_add] at hm)⟩
  have hb := map_blank_disassemble hagree
  cases hx : disassemble x with
  | error e =>
    cases hy : disassemble y with
    | error f =>
      rw [hx, hy] at hb
      obtain rfl : f = e := Except.error.inj hb
      exact .inl ⟨f, rfl, rfl⟩
    | ok q =>
      rw [hx, hy] at hb
      cases hb
  | ok p =>
    cases hy : disassemble y with
    | error f =>
      rw [hx, hy] at hb
      cases hb
    | ok q =>
      rw [hx, hy] at hb
      have hpq : p.blank = q.blank := (Except.ok.inj hb).symm
      exact .inr ⟨p, q, rfl, rfl, observations_eq_of_blank_eq hpq⟩

theorem disassemble_eq_up_to_payload_markers :
    let x : List UInt8 := [0x29, 0x21, 0, 0, 0, 0, 0, 0, 0, 0, 0x29]
    let y : List UInt8 := [0x29, 0x21, 0x21, 0x29, 0xff, 0x29, 0x21, 0, 0, 0x21, 0x29]
    let p := ofInstructions [.plain .jumpDst, .push (.ofUInt64 0), .plain .jumpDst]
    let q := ofInstructions [.plain .jumpDst, .push (.ofUInt64 0x2129ff2921000021),
      .plain .jumpDst]
    x.length = y.length ∧
      (∀ i < x.length, i ∉ Layout.operandOffsets 0 x → x[i]? = y[i]?) ∧
      disassemble x = .ok p ∧ disassemble y = .ok q ∧ p ≠ q ∧
      p.jumpDestinations = q.jumpDestinations ∧
      ∀ ms, (p.moves ms).2.map (fun r => (r.1.blank, r.2)) =
        (q.moves ms).2.map (fun r => (r.1.blank, r.2)) := by
  intro x y p q
  have hl : x.length = y.length := rfl
  have ha : ∀ i < x.length, i ∉ Layout.operandOffsets 0 x → x[i]? = y[i]? := by decide +kernel
  have hx : disassemble x = .ok p := by cbv
  have hy : disassemble y = .ok q := by cbv
  refine ⟨hl, ha, hx, hy, by decide, ?_⟩
  rcases disassemble_eq_up_to_payload hl ha with ⟨e, he, -⟩ | ⟨p', q', hp, hq, -, -, hj, -, hm⟩
  · cases hx.symm.trans he
  · obtain rfl : p = p' := Except.ok.inj (hx.symm.trans hp)
    obtain rfl : q = q' := Except.ok.inj (hy.symm.trans hq)
    exact ⟨hj, hm⟩

end Program

end Bytecode
