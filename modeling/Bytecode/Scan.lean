import Bytecode.Entry
import Bytecode.Error

/-!
Reading a byte stream into entries, as a one-pass scan from left to right.

A step reads one instruction: an opcode byte, and behind a push its operand. The entry of the
opcode is stored before the operand is looked for. The first fault ends the scan, and nothing of
the program is kept then.
-/

namespace Bytecode

/-- A scan in progress: the bytes read so far are `offset` many, they hold `entries`, and `rest`
is still to be read. -/
structure Scan where
  offset : Nat
  entries : Array Entry
  rest : List UInt8
deriving DecidableEq, Repr

namespace Scan

def start (bytes : List UInt8) : Scan := ⟨0, #[], bytes⟩

def store (s : Scan) (e : Entry) (rest : List UInt8) : Scan :=
  ⟨s.offset + e.width, s.entries.push e, rest⟩

@[simp] theorem offset_store (s : Scan) (e : Entry) (rest : List UInt8) :
    (s.store e rest).offset = s.offset + e.width := rfl

@[simp] theorem entries_store (s : Scan) (e : Entry) (rest : List UInt8) :
    (s.store e rest).entries = s.entries.push e := rfl

@[simp] theorem rest_store (s : Scan) (e : Entry) (rest : List UInt8) :
    (s.store e rest).rest = rest := rfl

/-- Reads the operand of the push at `pushOffset`, which the scan has just stored. -/
def readOperand (s : Scan) (pushOffset : Nat) : Except ProgramError Scan :=
  match Operand.split? s.rest with
  | none => .error (.truncatedOperand pushOffset Operand.width s.rest.length)
  | some (d, rest) => .ok (s.store (.data d) rest)

/-- Reads one instruction. A scan at the end of its stream stays there. -/
def step (s : Scan) : Except ProgramError Scan :=
  match s.rest with
  | [] => .ok s
  | b :: rest =>
    match Opcode.ofByte? b with
    | none => .error (.invalidOpcode b s.offset)
    | some o =>
      if o = .push then (s.store (.op o) rest).readOperand s.offset
      else .ok (s.store (.op o) rest)

theorem length_rest_readOperand {s t : Scan} {o : Nat} (h : s.readOperand o = .ok t) :
    t.rest.length < s.rest.length := by
  unfold readOperand at h
  split at h
  · cases h
  · next d rest hs =>
    cases h
    rw [Operand.split?_eq_some_iff.1 hs]
    simp [d.length_bytes]

theorem length_rest_step {s t : Scan} (hr : s.rest ≠ []) (h : s.step = .ok t) :
    t.rest.length < s.rest.length := by
  unfold step at h
  split at h
  · contradiction
  · next b rest hb =>
    rw [hb]
    split at h
    · cases h
    · split at h
      · have := length_rest_readOperand h
        rw [rest_store] at this
        rw [List.length_cons]
        omega
      · cases h
        simp

def run (s : Scan) : Except ProgramError Scan :=
  if _ : s.rest = [] then .ok s
  else
    match _ : s.step with
    | .error e => .error e
    | .ok t => t.run
termination_by s.rest.length
decreasing_by exact length_rest_step ‹_› ‹_›

theorem run_of_rest_eq_nil {s : Scan} (h : s.rest = []) : s.run = .ok s := by
  rw [run, dif_pos h]

theorem run_of_step_error {s : Scan} {e : ProgramError} (h : s.step = .error e) :
    s.run = .error e := by
  have hr : s.rest ≠ [] := fun hr => by simp [step, hr] at h
  rw [run, dif_neg hr]
  split <;> simp_all

theorem run_of_step_ok {s t : Scan} (h : s.step = .ok t) : s.run = t.run := by
  by_cases hr : s.rest = []
  · simp only [step, hr, Except.ok.injEq] at h
    rw [h]
  · rw [run, dif_neg hr]
    split <;> simp_all

/-! ### The course of a scan -/

/-- The scans that reading a stream comes to between two instructions, with the number of
instructions that are read by then. -/
inductive Reaches (bytes : List UInt8) : Nat → Scan → Prop where
  | start : Reaches bytes 0 (start bytes)
  | step {n : Nat} {s t : Scan} (hs : Reaches bytes n s) (hr : s.rest ≠ []) (ht : s.step = .ok t) :
      Reaches bytes (n + 1) t

theorem Reaches.run_start {bytes : List UInt8} {n : Nat} {s : Scan} (h : Reaches bytes n s) :
    (Scan.start bytes).run = s.run := by
  induction h with
  | start => rfl
  | step _ _ ht ih => rw [ih, run_of_step_ok ht]

end Scan

end Bytecode
