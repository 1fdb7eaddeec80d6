import Mathlib.Tactic.Common
import Bytecode.Proofs.ByteOffset
import Bytecode.Proofs.SessionInvariant

/-!
Addresses and sizes.

The byte offset of an entry is its index and seven more for each operand in front of it, as an
operand has eight bytes and one index. So the offsets rise up to the length of the stream, and the
number of entries is bounded by the number of bytes and, as operands come with their pushes, bounds
it in turn. A scan stores an opcode before it looks for the operand, and has no more entries than
there are bytes even then. Main statement: `addressed_of_disassemble`.
-/

namespace Bytecode

open Instruction

lemma Entry.sum_width (es : List Entry) :
    (es.map width).sum = es.length + 7 * es.countP (·.opcode?.isNone) := by
  induction es with
  | nil => rfl
  | cons e es ih =>
    rw [List.map_cons, List.sum_cons, ih, List.length_cons]
    cases e with
    | op o =>
      rw [List.countP_cons_of_neg (by simp [opcode?]), width]
      omega
    | data d =>
      rw [List.countP_cons_of_pos (by simp [opcode?]), width, Operand.width]
      omega

lemma Instruction.two_mul_length_codes_le (is : List Instruction) :
    2 * (codes is).length ≤ 9 * (listing is).length := by
  induction is with
  | nil => simp
  | cons i is ih =>
    -- a push has nine bytes in two entries, and any other instruction has one byte in one
    have hi : 2 * i.code.length ≤ 9 * i.entries.length := by
      cases i with
      | plain o ho => simp [entries, code]
      | push d => simp [entries, code, d.length_bytes, Operand.width]
    rw [listing_cons, codes_cons, List.length_append, List.length_append]
    omega

/-! ### Programs -/

namespace Program

variable {bytes : List UInt8} {p : Program} {i j : Nat} {e : Entry}

lemma ReadFrom.getElem?_offset (h : ReadFrom bytes p) (he : p.get? i = some e) :
    bytes[p.offset i]? = some e.firstByte := by
  rw [get?_eq] at he
  rw [← h.flatMap_encode]
  exact Entry.getElem?_offset he

lemma ReadFrom.take_drop_offset (h : ReadFrom bytes p) (he : p.get? i = some e) :
    (bytes.drop (p.offset i)).take e.width = e.encode := by
  rw [get?_eq] at he
  rw [← h.flatMap_encode]
  exact Entry.take_width_drop_offset he

lemma ReadFrom.offset_of_size_le (h : ReadFrom bytes p) (hi : p.size ≤ i) :
    p.offset i = bytes.length := by
  rw [← h.flatMap_encode]
  exact Entry.offset_of_length_le hi

lemma offset_lt_offset (hij : i < j) (hj : j ≤ p.size) : p.offset i < p.offset j :=
  Entry.offset_lt_offset hij (Nat.lt_of_lt_of_le hij hj)

lemma ReadFrom.offset_lt_length (h : ReadFrom bytes p) (hi : i < p.size) :
    p.offset i < bytes.length := by
  rw [← h.offset_of_size_le (Nat.le_refl _)]
  exact offset_lt_offset hi (Nat.le_refl _)

lemma offset_eq_add_countP (hi : i ≤ p.size) :
    p.offset i = i + 7 * (p.entries.toList.take i).countP (·.opcode?.isNone) := by
  rw [offset, Entry.offset, Entry.sum_width, List.length_take, Array.length_toList, ← size,
    Nat.min_eq_left hi]

lemma ReadFrom.size_bounds (h : ReadFrom bytes p) :
    p.size ≤ bytes.length ∧ 2 * bytes.length ≤ 9 * p.size := by
  obtain ⟨q, hq, he, -⟩ := h.exists_disassemble
  obtain ⟨is, rfl, rfl⟩ := disassemble_eq_ok_iff.1 hq
  rw [size, he]
  exact ⟨length_listing_le is, two_mul_length_codes_le is⟩

structure Addressed (bytes : List UInt8) (p : Program) : Prop where
  offset_eq : ∀ i ≤ p.size,
    p.offset i = i + 7 * (p.entries.toList.take i).countP (·.opcode?.isNone)
  offset_lt : ∀ i j, i < j → j ≤ p.size → p.offset i < p.offset j
  offset_size : p.offset p.size = bytes.length
  length_toBytes : p.toBytes.length = (p.entries.toList.map Entry.width).sum
  at_offset : ∀ i < p.size, ∃ e, p.get? i = some e ∧ bytes[p.offset i]? = some e.firstByte ∧
    (bytes.drop (p.offset i)).take e.width = e.encode
  size_le : p.size ≤ bytes.length
  length_le : 2 * bytes.length ≤ 9 * p.size

lemma ReadFrom.addressed (h : ReadFrom bytes p) : Addressed bytes p where
  offset_eq _ hi := offset_eq_add_countP hi
  offset_lt _ _ hij hj := offset_lt_offset hij hj
  offset_size := h.offset_of_size_le (Nat.le_refl _)
  length_toBytes := by rw [Program.toBytes_eq, Entry.length_flatMap_encode]
  at_offset i hi := by
    have he : p.get? i = some p.entries[i] := Array.getElem?_eq_getElem hi
    exact ⟨_, he, h.getElem?_offset he, h.take_drop_offset he⟩
  size_le := h.size_bounds.1
  length_le := h.size_bounds.2

end Program

/-! ### Scans -/

/-- The entries that a scan holds at some time, whatever comes of the stream: between two
instructions, and once an opcode is stored and its operand may still be missing. -/
inductive Scan.Holds (bytes : List UInt8) : Array Entry → Prop where
  | between {n : Nat} {s : Scan} (hs : Reaches bytes n s) : Holds bytes s.entries
  | stored {n : Nat} {s : Scan} {b : UInt8} {o : Opcode} {rest : List UInt8}
      (hs : Reaches bytes n s) (hb : s.rest = b :: rest) (ho : Opcode.ofByte? b = some o) :
      Holds bytes (s.store (.op o) rest).entries

lemma Scan.Holds.size_le {bytes : List UInt8} {entries : Array Entry}
    (h : Scan.Holds bytes entries) : entries.size ≤ bytes.length := by
  cases h with
  | between hs =>
    obtain ⟨is, rest, rfl, -, rfl⟩ := Scan.reaches_iff.1 hs
    calc (listing is).length ≤ (codes is).length := length_listing_le is
      _ ≤ (codes is ++ rest).length := by simp
  | @stored _ _ b o tail hs hb ho =>
    obtain ⟨is, rest, rfl, -, rfl⟩ := Scan.reaches_iff.1 hs
    obtain rfl : rest = b :: tail := hb
    -- the byte of the opcode makes up for its entry
    calc ((listing is).toArray.push (.op o)).size = (listing is).length + 1 := by simp
      _ ≤ (codes is).length + 1 := Nat.succ_le_succ (length_listing_le is)
      _ ≤ (codes is ++ b :: tail).length := by simp

/-- **Indices and offsets of a program keep in step**, and its size in entries and in bytes bound
each other. A stream that is refused takes no more entries than it has bytes either. -/
theorem Program.addressed_of_disassemble (bytes : List UInt8) :
    (∀ p, disassemble bytes = .ok p → Addressed bytes p) ∧
      ∀ entries, Scan.Holds bytes entries → entries.size ≤ bytes.length :=
  ⟨fun _ h => (ReadFrom.of_disassemble h).addressed, fun _ h => h.size_le⟩

theorem Program.addressed_of_disassemble_operand :
    let bytes : List UInt8 := [0x29, 0x21, 0x21, 0x29, 0xff, 0, 0, 0, 0, 0x21, 0x3a]
    let p := ofInstructions [.plain .jumpDst, .push (.ofUInt64 0x2129ff0000000021), .plain .exit]
    let entries : Array Entry := #[.op .pop, .op .push]
    disassemble bytes = .ok p ∧ p.offset 3 = 3 + 7 * 1 ∧ p.offset p.size = 11 ∧
      disassemble [0x20, 0x21] = .error (.truncatedOperand 1 8 0) ∧
      Scan.Holds [0x20, 0x21] entries ∧ entries.size ≤ 2 := by
  intro bytes p entries
  have hp : disassemble bytes = .ok p := by cbv
  have haddressed : Addressed bytes p := (addressed_of_disassemble bytes).1 p hp
  have hbad : disassemble [0x20, 0x21] = .error (.truncatedOperand 1 8 0) := by cbv
  -- the stream ends in a push, and the scan stores the push before it misses the operand
  have hscan : Scan.Reaches [0x20, 0x21] 1 (.after [.plain .pop] [0x21]) :=
    Scan.reaches_iff.2 ⟨[.plain .pop], [0x21], rfl, rfl, rfl⟩
  have hholds : Scan.Holds [0x20, 0x21] entries := .stored (o := .push) hscan rfl (by decide)
  exact ⟨hp, haddressed.offset_eq 3 (by decide), haddressed.offset_size, hbad, hholds,
    (addressed_of_disassemble [0x20, 0x21]).2 entries hholds⟩

end Bytecode
