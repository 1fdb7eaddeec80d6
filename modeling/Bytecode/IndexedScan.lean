import Bytecode.Scan

/-!
The scan of a stream by index, in the arithmetic of 64-bit words.

The stream stays whole here, and the offset alone says how far it is read. A sum that a word does
not hold, a difference below zero and an index past the end leave the scan without an outcome.
-/

namespace Bytecode

namespace Word

/-- The sum of two numbers, if a word holds it. -/
def add? (m n : Nat) : Option Nat := if m + n < UInt64.size then some (m + n) else none

def sub? (m n : Nat) : Option Nat := if n ≤ m then some (m - n) else none

variable {m n k : Nat}

theorem add?_of_lt (h : m + n < UInt64.size) : add? m n = some (m + n) := if_pos h

theorem sub?_of_le (h : n ≤ m) : sub? m n = some (m - n) := if_pos h

theorem eq_add_of_add? (h : add? m n = some k) : k = m + n := by
  unfold add? at h
  split at h
  · exact (Option.some.inj h).symm
  · cases h

end Word

structure IndexedScan where
  offset : Nat
  entries : Array Entry
deriving DecidableEq, Repr

namespace IndexedScan

/-- Reads the operand of the push at an offset. The bytes that are there for it are counted even if
they are enough. -/
def readOperand (bytes : List UInt8) (pushOffset : Nat) :
    Option (Except ProgramError Operand) := do
  let first ← Word.add? pushOffset 1
  let behind ← Word.add? first Operand.width
  let available ← Word.sub? bytes.length first
  match Operand.ofBytes? (bytes.extract first behind) with
  | some d => return .ok d
  | none => return .error (.truncatedOperand pushOffset Operand.width available)

def advance (s : IndexedScan) (o : Opcode) (entries : Array Entry) : Option IndexedScan := do
  let stride ← Word.add? 1 o.operandWidth
  let offset ← Word.add? s.offset stride
  return ⟨offset, entries⟩

def step (bytes : List UInt8) (s : IndexedScan) : Option (Except ProgramError IndexedScan) := do
  let b ← bytes[s.offset]?
  match Opcode.ofByte? b with
  | none => return .error (.invalidOpcode b s.offset)
  | some o =>
    let entries := s.entries.push (.op o)
    if o = .push then
      match ← readOperand bytes s.offset with
      | .error cause => return .error cause
      | .ok d => return .ok (← s.advance o (entries.push (.data d)))
    else return .ok (← s.advance o entries)

theorem offset_lt_of_advance {s t : IndexedScan} {o : Opcode} {entries : Array Entry}
    (h : s.advance o entries = some t) : s.offset < t.offset := by
  simp only [advance, bind, pure, Option.bind_eq_some_iff, Option.some.injEq] at h
  obtain ⟨stride, hstride, offset, hoffset, rfl⟩ := h
  have hs := Word.eq_add_of_add? hstride
  have ho := Word.eq_add_of_add? hoffset
  simp only
  omega

theorem offset_lt_of_step {bytes : List UInt8} {s t : IndexedScan}
    (h : s.step bytes = some (.ok t)) : s.offset < t.offset := by
  simp only [step, bind, pure, Option.bind_eq_some_iff] at h
  obtain ⟨b, -, h⟩ := h
  split at h
  · cases h
  · split at h
    · simp only [Option.bind_eq_some_iff] at h
      obtain ⟨r, -, h⟩ := h
      split at h
      · cases h
      · simp only [Option.bind_eq_some_iff, Option.some.injEq, Except.ok.injEq] at h
        obtain ⟨u, hu, rfl⟩ := h
        exact offset_lt_of_advance hu
    · simp only [Option.bind_eq_some_iff, Option.some.injEq, Except.ok.injEq] at h
      obtain ⟨u, hu, rfl⟩ := h
      exact offset_lt_of_advance hu

/-- Reads instructions as long as the offset is an index of the stream. -/
def run (bytes : List UInt8) (s : IndexedScan) : Option (Except ProgramError IndexedScan) :=
  if _ : s.offset < bytes.length then
    match _ : s.step bytes with
    | none => none
    | some (.error cause) => some (.error cause)
    | some (.ok t) => t.run bytes
  else some (.ok s)
termination_by bytes.length - s.offset
decreasing_by
  have := offset_lt_of_step ‹_›
  omega

variable {bytes : List UInt8} {s t : IndexedScan}

theorem run_of_length_le (h : bytes.length ≤ s.offset) : s.run bytes = some (.ok s) := by
  rw [run, dif_neg (Nat.not_lt_of_le h)]

theorem run_of_step_error (hlt : s.offset < bytes.length) {cause : ProgramError}
    (h : s.step bytes = some (.error cause)) : s.run bytes = some (.error cause) := by
  rw [run, dif_pos hlt]
  split <;> simp_all

theorem run_of_step_ok (hlt : s.offset < bytes.length) (h : s.step bytes = some (.ok t)) :
    s.run bytes = t.run bytes := by
  rw [run, dif_pos hlt]
  split <;> simp_all

end IndexedScan

end Bytecode
