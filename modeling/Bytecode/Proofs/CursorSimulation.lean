import Mathlib.Tactic.Common
import Bytecode.Cursor
import Bytecode.Proofs.EntryAddress

/-!
A cursor on the bytes does what the program does.

To each entry of a program belongs a cursor, at the byte offset of the entry. Taking a step there
leads to the cursor of the entry behind it, and counting steps from the start leads to the cursor
of any entry, so a cursor and a program that stand on the same entry answer each move alike and
stand on the same entry again. Main statement: `moves_start_eq_views`.
-/

namespace Bytecode

namespace Program

def cursor (p : Program) (i : Nat) : Cursor where
  offset := p.offset i
  inOperand := (p.get? i).any (·.opcode?.isNone)

/-- Makes moves one after the other. Each is listed with what a cursor reports of it and the entry
that is current behind it. -/
def views (p : Program) : List Move → List (Cursor.Reply × Option Entry)
  | [] => []
  | m :: ms => ((p.move m).2.seen, (p.move m).1.current?) :: (p.move m).1.views ms

lemma views_eq_map_moves (p : Program) (ms : List Move) :
    p.views ms = (p.moves ms).2.map fun r => (r.1.seen, p.get? r.2) := by
  induction ms generalizing p with
  | nil => rfl
  | cons m ms ih =>
    have hget : (p.move m).1.get? = p.get? := by
      funext i
      rw [get?, entries_move, get?]
    rw [views, ih, current?, hget, moves, List.map_cons]

variable {bytes : List UInt8} {p : Program} {i : Nat}

lemma inOperand_cursor_iff :
    (p.cursor i).inOperand = true ↔ ∃ d, p.get? i = some (.data d) := by
  rcases he : p.get? i with _ | (o | d) <;> simp [cursor, he, Entry.opcode?]

lemma ReadFrom.inOperand_cursor_succ_iff (h : ReadFrom bytes p) :
    (p.cursor (i + 1)).inOperand = true ↔ p.get? i = some (.op .push) := by
  rw [inOperand_cursor_iff, get?_eq, get?_eq]
  refine ⟨?_, h.paired.operand_of_push i⟩
  rintro ⟨d, hd⟩
  obtain ⟨j, hj, hpush⟩ := h.paired.push_of_operand (i + 1) d hd
  rwa [Nat.succ.inj hj]

/-! ### Standing on an entry -/

lemma ReadFrom.current?_cursor (h : ReadFrom bytes p) (i : Nat) :
    (p.cursor i).current? bytes = p.get? i := by
  have hin := inOperand_cursor_iff (p := p) (i := i)
  rcases he : p.get? i with _ | (o | d)
  · have hi : p.size ≤ i := Array.getElem?_eq_none_iff.1 he
    have hbyte : bytes[p.offset i]? = none :=
      List.getElem?_eq_none (Nat.le_of_eq (h.offset_of_size_le hi).symm)
    rw [Cursor.current?, if_neg (by simp [hin, he]), cursor, hbyte]
    rfl
  · rw [Cursor.current?, if_neg (by simp [hin, he]), cursor, h.getElem?_offset he]
    simp [Entry.firstByte]
  · have hbytes : (bytes.drop (p.offset i)).take Operand.width = d.bytes := h.take_drop_offset he
    rw [Cursor.current?, if_pos (hin.2 ⟨d, he⟩), cursor, hbytes]
    simp [Operand.ofBytes?, d.length_bytes]

/-! ### Steps -/

lemma ReadFrom.successor_cursor (h : ReadFrom bytes p) (hi : i < p.size) :
    (p.cursor i).successor bytes = p.cursor (i + 1) := by
  have hin := inOperand_cursor_iff (p := p) (i := i)
  have hsucc := h.inOperand_cursor_succ_iff (i := i)
  rcases he : p.get? i with _ | (o | d)
  · exact absurd (Array.getElem?_eq_none_iff.1 he) (Nat.not_le_of_lt hi)
  · have hoff : p.offset (i + 1) = p.offset i + 1 := offset_succ he
    -- behind the byte of a push, and of no other opcode, stands an operand
    have hnext : (bytes[p.offset i]? == some Opcode.push.byte) = (p.cursor (i + 1)).inOperand := by
      rw [Bool.eq_iff_iff, beq_iff_eq, hsucc, h.getElem?_offset he, he, Option.some_inj,
        Option.some_inj, Entry.op.injEq]
      exact ⟨Opcode.byte_injective, congrArg Opcode.byte⟩
    rw [Cursor.successor, if_neg (by simp [hin, he])]
    change Cursor.mk (p.offset i + 1) (bytes[p.offset i]? == some Opcode.push.byte) = _
    rw [hnext, ← hoff]
    rfl
  · have hoff : p.offset (i + 1) = p.offset i + Operand.width := offset_succ he
    have hnext : (p.cursor (i + 1)).inOperand = false := by
      rw [Bool.eq_false_iff, ne_eq, hsucc, he]
      simp
    rw [Cursor.successor, if_pos (hin.2 ⟨d, he⟩)]
    change Cursor.mk (p.offset i + Operand.width) false = _
    rw [← hnext, ← hoff]
    rfl

lemma ReadFrom.ne_nil (h : ReadFrom bytes p) (hi : i < p.size) : bytes ≠ [] :=
  List.ne_nil_of_length_pos (Nat.zero_lt_of_lt (h.offset_lt_length hi))

lemma ReadFrom.eq_nil (h : ReadFrom bytes p) (hs : p.size = 0) : bytes = [] := by
  have hl := h.offset_of_size_le (Nat.le_of_eq hs)
  exact List.eq_nil_of_length_eq_zero hl.symm

lemma ReadFrom.next?_cursor_of_lt (h : ReadFrom bytes p) (hi : i + 1 < p.size) :
    (p.cursor i).next? bytes = some (p.cursor (i + 1)) := by
  have hlt := h.offset_lt_length hi
  have hne := h.ne_nil hi
  rw [Cursor.next?, h.successor_cursor (Nat.lt_of_succ_lt hi), if_neg]
  rintro (hnil | hend)
  · exact hne hnil
  · exact Nat.ne_of_lt hlt hend

lemma ReadFrom.next?_cursor_of_le (h : ReadFrom bytes p) (hi : i < p.size ∨ i = 0 ∧ p.size = 0)
    (hle : p.size ≤ i + 1) : (p.cursor i).next? bytes = none := by
  rw [Cursor.next?, if_pos]
  rcases hi with hi | ⟨-, hs⟩
  · right
    rw [h.successor_cursor hi]
    exact h.offset_of_size_le hle
  · left
    exact h.eq_nil hs

lemma ReadFrom.seek?_cursor_of_lt (h : ReadFrom bytes p) {n : Nat} (hi : i + n < p.size) :
    (p.cursor i).seek? bytes n = some (p.cursor (i + n)) := by
  induction n generalizing i with
  | zero => rw [Cursor.seek?, if_neg (h.ne_nil hi), Nat.add_zero]
  | succ n ih =>
    have hn : i + (n + 1) = i + 1 + n := Nat.add_right_comm i n 1
    rw [hn] at hi ⊢
    rw [Cursor.seek?, h.next?_cursor_of_lt (by omega), Option.bind_some, ih hi]

lemma ReadFrom.seek?_cursor_of_le (h : ReadFrom bytes p) (hi : i < p.size ∨ i = 0 ∧ p.size = 0)
    {n : Nat} (hle : p.size ≤ i + n) : (p.cursor i).seek? bytes n = none := by
  induction n generalizing i with
  | zero => rw [Cursor.seek?, if_pos (h.eq_nil (by omega))]
  | succ n ih =>
    have hn : i + (n + 1) = i + 1 + n := Nat.add_right_comm i n 1
    rw [hn] at hle
    rw [Cursor.seek?]
    rcases Nat.lt_or_ge (i + 1) p.size with hlt | hge
    · rw [h.next?_cursor_of_lt hlt, Option.bind_some, ih (.inl hlt) hle]
    · rw [h.next?_cursor_of_le hi hge, Option.bind_none]

/-! ### Moves -/

lemma ReadFrom.start_eq_cursor (h : ReadFrom bytes p) : Cursor.start = p.cursor 0 := by
  rcases he : p.get? 0 with _ | (o | d)
  · rw [cursor, he]
    rfl
  · rw [cursor, he]
    rfl
  · rw [get?_eq] at he
    obtain ⟨j, hj, -⟩ := h.paired.push_of_operand 0 d he
    cases hj

lemma ReadFrom.move_cursor (h : ReadFrom bytes p) (m : Move) :
    (p.cursor p.pc).move bytes m =
      ((p.move m).1.cursor (p.move m).1.pc, (p.move m).2.seen) := by
  cases m with
  | next =>
    rcases Nat.lt_or_ge (p.pc + 1) p.size with hlt | hle
    · rw [move_next_of_lt hlt, Cursor.move, h.next?_cursor_of_lt hlt, ← h.current?_cursor]
      rfl
    · rw [move_next_of_le hle, Cursor.move, h.next?_cursor_of_le h.pc_valid hle]
      rfl
  | jump t =>
    rw [Cursor.move, h.start_eq_cursor]
    rcases Nat.lt_or_ge t p.size with hlt | hle
    · rw [move_jump_of_lt hlt, h.seek?_cursor_of_lt (by omega), Nat.zero_add]
      rfl
    · rw [move_jump_of_le hle, h.seek?_cursor_of_le (by omega) (by omega)]
      rfl

lemma ReadFrom.moves_cursor (h : ReadFrom bytes p) (ms : List Move) :
    (p.cursor p.pc).moves bytes ms = p.views ms := by
  induction ms generalizing p with
  | nil => rfl
  | cons m ms ih =>
    rw [Cursor.moves, h.move_cursor, (h.move m).current?_cursor, ih (h.move m), views, current?]

end Program

/-- **A cursor on the bytes of a program does what the program does.** From the first entry on
both make the same replies to moves, and behind each of them the same entry is current, the one
under the counter. -/
theorem Cursor.moves_start_eq_views {bytes : List UInt8} {p : Program}
    (h : Program.disassemble bytes = .ok p) (ms : List Move) :
    Cursor.start.current? bytes = p.current? ∧
      Cursor.start.moves bytes ms = p.views ms ∧
      p.views ms = (p.moves ms).2.map fun r => (r.1.seen, p.get? r.2) := by
  have hread := Program.ReadFrom.of_disassemble h
  have hstart : Cursor.start = p.cursor p.pc := by
    rw [Program.pc_eq_zero_of_disassemble h]
    exact hread.start_eq_cursor
  rw [hstart]
  exact ⟨hread.current?_cursor p.pc, hread.moves_cursor ms, p.views_eq_map_moves ms⟩

theorem Cursor.moves_start_eq_views_operand :
    let bytes : List UInt8 := [0x29, 0x21, 0x21, 0x29, 0xff, 0, 0, 0, 0, 0x21, 0x3a]
    let d := Operand.ofUInt64 0x2129ff0000000021
    let p := Program.ofInstructions [.plain .jumpDst, .push d, .plain .exit]
    let ms : List Move := [.jump 2, .next, .next, .jump 4, .jump 0]
    Program.disassemble bytes = .ok p ∧ Cursor.start.moves bytes ms =
      [(.jumped true, some (.data d)), (.reached (some (.op .exit)), some (.op .exit)),
       (.reached none, some (.op .exit)), (.jumped false, some (.op .exit)),
       (.jumped true, some (.op .jumpDst))] := by
  intro bytes d p ms
  have hp : Program.disassemble bytes = .ok p := by cbv
  rw [(moves_start_eq_views hp ms).2.1]
  exact ⟨hp, by decide +kernel⟩

end Bytecode
