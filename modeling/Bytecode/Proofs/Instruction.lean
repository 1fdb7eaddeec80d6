import Mathlib.Tactic.Common
import Bytecode.Grammar

/-!
Rows of instructions: what the grammar of byte streams and the pairing of entries have in common.

An instruction has two forms, its bytes and its entries. A byte stream is a program exactly when
it is the code of a row of instructions, and a list of entries is paired exactly when it is the
listing of one.
-/

namespace Bytecode

inductive Instruction where
  | plain (o : Opcode) (ho : o ≠ .push := by decide)
  | push (d : Operand)
deriving DecidableEq

namespace Instruction

def opcode : Instruction → Opcode
  | plain o _ => o
  | push _ => .push

def code : Instruction → List UInt8
  | plain o _ => [o.byte]
  | push d => Opcode.push.byte :: d.bytes

def entries : Instruction → List Entry
  | plain o _ => [.op o]
  | push d => [.op .push, .data d]

/-- The bytes of a row of instructions. -/
def codes (is : List Instruction) : List UInt8 := is.flatMap code

/-- The entries of a row of instructions. -/
def listing (is : List Instruction) : List Entry := is.flatMap entries

@[simp] lemma codes_nil : codes [] = [] := rfl
@[simp] lemma codes_cons (i : Instruction) (is : List Instruction) :
    codes (i :: is) = i.code ++ codes is := rfl
@[simp] lemma codes_append (is js : List Instruction) :
    codes (is ++ js) = codes is ++ codes js := List.flatMap_append

@[simp] lemma listing_nil : listing [] = [] := rfl
@[simp] lemma listing_cons (i : Instruction) (is : List Instruction) :
    listing (i :: is) = i.entries ++ listing is := rfl
@[simp] lemma listing_append (is js : List Instruction) :
    listing (is ++ js) = listing is ++ listing js := List.flatMap_append

lemma length_code (i : Instruction) : i.code.length = 1 + i.opcode.operandWidth := by
  cases i with
  | plain o ho =>
    rw [code, opcode, Opcode.operandWidth_of_ne_push ho, List.length_singleton]
  | push d =>
    rw [code, opcode, List.length_cons, d.length_bytes, Nat.add_comm]
    rfl

lemma length_codes (is : List Instruction) :
    (codes is).length = is.length + Operand.width * (is.map opcode).count .push := by
  induction is with
  | nil => rfl
  | cons i is ih =>
    rw [codes_cons, List.length_append, length_code, ih, List.length_cons, List.map_cons]
    by_cases hi : i.opcode = .push
    · rw [hi, List.count_cons_self, Nat.mul_add]
      simp only [Opcode.operandWidth]
      omega
    · rw [Opcode.operandWidth_of_ne_push hi, List.count_cons_of_ne hi]
      omega

lemma length_listing_le (is : List Instruction) :
    (listing is).length ≤ (codes is).length := by
  induction is with
  | nil => simp
  | cons i is ih =>
    have hi : i.entries.length ≤ i.code.length := by
      cases i with
      | plain o ho => simp [entries, code]
      | push d => simp [entries, code, d.length_bytes]
    rw [listing_cons, codes_cons, List.length_append, List.length_append]
    omega

lemma flatMap_encode_entries (i : Instruction) : i.entries.flatMap Entry.encode = i.code := by
  cases i <;> simp [entries, code, Entry.encode]

lemma flatMap_encode_listing (is : List Instruction) :
    (listing is).flatMap Entry.encode = codes is := by
  induction is with
  | nil => rfl
  | cons i is ih => rw [listing_cons, List.flatMap_append, flatMap_encode_entries, ih, codes_cons]

lemma getElem?_codes (is : List Instruction) (i : Instruction) (js : List Instruction) :
    (codes (is ++ i :: js))[(codes is).length]? = some i.opcode.byte := by
  cases i <;> simp [code, opcode]

lemma getElem?_listing (is : List Instruction) (i : Instruction) (js : List Instruction) :
    (listing (is ++ i :: js))[(listing is).length]? = some (.op i.opcode) := by
  cases i <;> simp [entries, opcode]

lemma exists_eq_append_cons {is : List Instruction} {k : Nat} {o : Opcode}
    (h : (listing is)[k]? = some (.op o)) :
    ∃ js i ls, is = js ++ i :: ls ∧ (listing js).length = k ∧ i.opcode = o := by
  induction is generalizing k with
  | nil => simp at h
  | cons i is ih =>
    cases i with
    | plain p hp =>
      cases k with
      | zero => exact ⟨[], plain p hp, is, rfl, rfl, by simpa [entries, opcode] using h⟩
      | succ k =>
        obtain ⟨js, j, ls, rfl, rfl, hj⟩ := ih h
        exact ⟨plain p hp :: js, j, ls, rfl, rfl, hj⟩
    | push d =>
      match k with
      | 0 => exact ⟨[], push d, is, rfl, rfl, by simpa [entries, opcode] using h⟩
      | 1 => simp [entries] at h
      | k + 2 =>
        obtain ⟨js, j, ls, rfl, rfl, hj⟩ := ih h
        exact ⟨push d :: js, j, ls, rfl, rfl, hj⟩

/-! ### Byte streams -/

lemma isProgram_codes (is : List Instruction) : IsProgram (codes is) := by
  induction is with
  | nil => exact .nil
  | cons i is ih =>
    cases i with
    | plain o ho => exact .op o (codes is) ho ih
    | push d => exact .push d (codes is) ih

theorem isProgram_iff {bytes : List UInt8} : IsProgram bytes ↔ ∃ is, codes is = bytes := by
  refine ⟨fun h => ?_, fun ⟨is, h⟩ => h ▸ isProgram_codes is⟩
  induction h with
  | nil => exact ⟨[], rfl⟩
  | op o rest ho _ ih =>
    obtain ⟨is, rfl⟩ := ih
    exact ⟨plain o ho :: is, rfl⟩
  | push d rest _ ih =>
    obtain ⟨is, rfl⟩ := ih
    exact ⟨push d :: is, rfl⟩

end Instruction

/-! ### Paired entries -/

namespace Paired

variable {es : List Entry} {o : Opcode} {d : Operand}

lemma nil : Paired [] := ⟨by simp, by simp⟩

lemma cons_op_iff (ho : o ≠ .push) : Paired (.op o :: es) ↔ Paired es := by
  refine ⟨fun h => ?_, fun h => ?_⟩
  · refine ⟨fun i hi => h.operand_of_push (i + 1) hi, fun i d hi => ?_⟩
    obtain ⟨j, hij, hj⟩ := h.push_of_operand (i + 1) d hi
    obtain rfl : i = j := by omega
    cases i with
    | zero => exact absurd (by simpa using hj) ho
    | succ k => exact ⟨k, rfl, hj⟩
  · refine ⟨fun i hi => ?_, fun i d hi => ?_⟩
    · cases i with
      | zero => exact absurd (by simpa using hi) ho
      | succ k => exact h.operand_of_push k hi
    · cases i with
      | zero => simp at hi
      | succ k =>
        obtain ⟨j, rfl, hj⟩ := h.push_of_operand k d hi
        exact ⟨j + 1, rfl, hj⟩

lemma cons_push_iff : Paired (.op .push :: .data d :: es) ↔ Paired es := by
  refine ⟨fun h => ?_, fun h => ?_⟩
  · refine ⟨fun i hi => h.operand_of_push (i + 2) hi, fun i e hi => ?_⟩
    obtain ⟨j, hij, hj⟩ := h.push_of_operand (i + 2) e hi
    obtain rfl : j = i + 1 := by omega
    -- the push before the first of `es` would be the operand `d`
    cases i with
    | zero => simp at hj
    | succ k => exact ⟨k, rfl, hj⟩
  · refine ⟨fun i hi => ?_, fun i e hi => ?_⟩
    · match i with
      | 0 => exact ⟨d, rfl⟩
      | 1 => simp at hi
      | k + 2 => exact h.operand_of_push k hi
    · match i with
      | 0 => simp at hi
      | 1 => exact ⟨0, rfl, rfl⟩
      | k + 2 =>
        obtain ⟨j, rfl, hj⟩ := h.push_of_operand k e hi
        exact ⟨j + 2, rfl, hj⟩

lemma not_cons_data : ¬ Paired (.data d :: es) := by
  intro h
  obtain ⟨j, hj, -⟩ := h.push_of_operand 0 d rfl
  omega

lemma eq_cons_data (h : Paired (.op .push :: es)) : ∃ d fs, es = .data d :: fs := by
  obtain ⟨d, hd⟩ := h.operand_of_push 0 rfl
  cases es with
  | nil => simp at hd
  | cons e fs => exact ⟨d, fs, by simpa using hd⟩

end Paired

namespace Instruction

lemma paired_listing (is : List Instruction) : Paired (listing is) := by
  induction is with
  | nil => exact .nil
  | cons i is ih =>
    cases i with
    | plain o ho => exact (Paired.cons_op_iff ho).2 ih
    | push d => exact Paired.cons_push_iff.2 ih

lemma exists_listing : ∀ {es : List Entry}, Paired es → ∃ is, listing is = es
  | [], _ => ⟨[], rfl⟩
  | .data _ :: _, h => absurd h Paired.not_cons_data
  | .op o :: es, h => by
    by_cases ho : o = .push
    · subst ho
      obtain ⟨d, fs, rfl⟩ := Paired.eq_cons_data h
      obtain ⟨is, rfl⟩ := exists_listing (Paired.cons_push_iff.1 h)
      exact ⟨push d :: is, rfl⟩
    · obtain ⟨is, rfl⟩ := exists_listing ((Paired.cons_op_iff ho).1 h)
      exact ⟨plain o ho :: is, rfl⟩
termination_by es => es.length

theorem paired_iff {es : List Entry} : Paired es ↔ ∃ is, listing is = es :=
  ⟨exists_listing, fun ⟨is, h⟩ => h ▸ paired_listing is⟩

end Instruction

end Bytecode
