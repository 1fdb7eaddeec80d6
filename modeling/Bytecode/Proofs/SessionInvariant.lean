import Mathlib.Algebra.Group.Nat.Defs
import Mathlib.Tactic.Common
import Bytecode.Session
import Bytecode.Proofs.RoundTrip

/-!
What holds in every state of a session.

Each of the two programs of a session was read from some stream, and since then nothing of it has
changed but its counter, which stays on an entry. Steps hand programs over from one place to the
other and replace them, and `Origins` keeps account of the streams they were read from. Main
statement: `readFrom_after`.
-/

namespace Bytecode

open Instruction

namespace Program

/-- What holds of a program that was read from `bytes`, wherever its counter was moved since. -/
structure ReadFrom (bytes : List UInt8) (p : Program) : Prop where
  pc_valid : p.pc < p.size ∨ p.pc = 0 ∧ p.size = 0
  current?_eq_none_iff : p.current? = none ↔ p.isEmpty = true
  exists_disassemble : ∃ q, disassemble bytes = .ok q ∧ p.entries = q.entries ∧ p.cost = q.cost
  toBytes_eq : p.toBytes = bytes
  pc_succ_lt : bytes.length < 2 ^ 63 → p.pc + 1 < 2 ^ 64

variable {bytes : List UInt8} {p : Program}

lemma ReadFrom.of_entries (hpc : p.pc < p.size ∨ p.pc = 0 ∧ p.size = 0)
    (hd : ∃ q, disassemble bytes = .ok q ∧ p.entries = q.entries ∧ p.cost = q.cost) :
    ReadFrom bytes p := by
  have hread := hd
  obtain ⟨q, hq, he, -⟩ := hd
  obtain ⟨is, rfl, rfl⟩ := disassemble_eq_ok_iff.1 hq
  have hbytes : p.toBytes = codes is := by
    rw [Program.toBytes_eq, he, entries_ofInstructions, flatMap_encode_listing]
  have hsize : p.size ≤ (codes is).length := by
    rw [size, he]
    exact length_listing_le is
  refine ⟨hpc, ?_, hread, hbytes, fun hlen => by omega⟩
  rw [Program.current?_eq_none_iff, isEmpty_iff]
  omega

lemma ReadFrom.of_disassemble (h : disassemble bytes = .ok p) : ReadFrom bytes p := by
  have hpc := pc_eq_zero_of_disassemble h
  exact .of_entries (by omega) ⟨p, h, rfl, rfl⟩

lemma ReadFrom.paired (h : ReadFrom bytes p) : Paired p.entries.toList := by
  obtain ⟨q, hq, he, -⟩ := h.exists_disassemble
  obtain ⟨is, -, rfl⟩ := disassemble_eq_ok_iff.1 hq
  rw [he, entries_ofInstructions]
  exact paired_listing is

lemma ReadFrom.flatMap_encode (h : ReadFrom bytes p) :
    p.entries.toList.flatMap Entry.encode = bytes := by
  rw [← Program.toBytes_eq, h.toBytes_eq]

/-! ### Moves -/

lemma ReadFrom.setPc (h : ReadFrom bytes p) {i : Nat} (hi : i < p.size) :
    ReadFrom bytes { p with pc := i } :=
  .of_entries (.inl hi) h.exists_disassemble

lemma ReadFrom.move (h : ReadFrom bytes p) (m : Move) : ReadFrom bytes (p.move m).1 := by
  rcases move_cases p m with hm | ⟨i, hi, hm⟩
  · rw [hm]
    exact h
  · rw [hm]
    exact h.setPc hi

lemma ReadFrom.moves (h : ReadFrom bytes p) (ms : List Move) :
    ReadFrom bytes (p.moves ms).1 := by
  induction ms generalizing p with
  | nil => exact h
  | cons m ms ih => exact ih (h.move m)

lemma walkFrom_eq_moves (seen : Array Entry) (p : Program) :
    ∃ n, (walkFrom seen p).2 = (p.moves (List.replicate n .next)).1 := by
  fun_induction walkFrom seen p with
  | case1 seen p hn => exact ⟨0, rfl⟩
  | case2 seen p e q hn ih =>
    obtain ⟨n, hw⟩ := ih
    refine ⟨n + 1, ?_⟩
    have hm : p.move .next = (q, .reached (some e)) := by simp only [Program.move, hn]
    rw [hw, List.replicate_succ, Program.moves, hm]

lemma ReadFrom.walk (h : ReadFrom bytes p) : ReadFrom bytes p.walk.2 := by
  obtain ⟨n, hw⟩ := walkFrom_eq_moves #[] p
  rw [Program.walk, hw]
  exact h.moves _

end Program

/-! ### Sessions -/

namespace Session

def after (s : Session) (ts : List Step) : Session := (s.run ts).1

@[simp] lemma after_nil (s : Session) : s.after [] = s := rfl
@[simp] lemma after_cons (s : Session) (t : Step) (ts : List Step) :
    s.after (t :: ts) = (s.step t).1.after ts := rfl

lemma after_append (s : Session) (ts us : List Step) :
    s.after (ts ++ us) = (s.after ts).after us := by
  induction ts generalizing s with
  | nil => rfl
  | cons t ts ih => rw [List.cons_append, after_cons, ih, after_cons]

structure Origins where
  program : List UInt8
  saved : List UInt8

namespace Origins

/-- What becomes of the streams in a step. -/
def step (o : Origins) : Step → Origins
  | .move _ | .checkedJump _ | .ask _ | .walk => o
  | .save => { o with saved := o.program }
  | .restore => { o with program := o.saved }
  | .load bytes =>
    match Program.disassemble bytes with
    | .ok _ => { o with program := bytes }
    | .error _ => o

def after (o : Origins) (ts : List Step) : Origins := ts.foldl step o

@[simp] lemma after_cons (o : Origins) (t : Step) (ts : List Step) :
    o.after (t :: ts) = (o.step t).after ts := rfl

/-- Both programs of a session were read from their streams. -/
def Of (o : Origins) (s : Session) : Prop :=
  s.program.ReadFrom o.program ∧ s.saved.ReadFrom o.saved

variable {o : Origins} {s : Session}

lemma Of.step (h : o.Of s) (t : Step) : (o.step t).Of (s.step t).1 := by
  obtain ⟨hp, hs⟩ := h
  cases t with
  | move m => exact ⟨hp.move m, hs⟩
  | checkedJump t =>
    cases hj : s.program.isJumpTarget t with
    | true =>
      rw [step_checkedJump_of_isJumpTarget hj]
      exact ⟨hp.setPc (Program.lt_size_of_isJumpTarget hj), hs⟩
    | false =>
      rw [step_checkedJump_of_not_isJumpTarget hj]
      exact ⟨hp, hs⟩
  | ask q => exact ⟨hp, hs⟩
  | walk => exact ⟨hp.walk, hs⟩
  | save => exact ⟨hp, hp⟩
  | restore => exact ⟨hs, hs⟩
  | load bytes =>
    cases hd : Program.disassemble bytes with
    | ok p =>
      rw [step_load_of_ok hd, Origins.step, hd]
      exact ⟨.of_disassemble hd, hs⟩
    | error cause =>
      rw [step_load_of_error hd, Origins.step, hd]
      exact ⟨hp, hs⟩

lemma Of.after (h : o.Of s) (ts : List Step) : (o.after ts).Of (s.after ts) := by
  induction ts generalizing o s with
  | nil => exact h
  | cons t ts ih => exact ih (h.step t)

end Origins

/-- **In every state of a session both programs stand on an entry, unless they are empty, and hold
what was read** from the stream that they were loaded from. -/
theorem readFrom_after {bytes : List UInt8} {p : Program} (h : Program.disassemble bytes = .ok p)
    (ts : List Step) :
    ((start p).after ts).program.ReadFrom ((Origins.mk bytes bytes).after ts).program ∧
      ((start p).after ts).saved.ReadFrom ((Origins.mk bytes bytes).after ts).saved := by
  have hp := Program.ReadFrom.of_disassemble h
  exact Origins.Of.after ⟨hp, hp⟩ ts

theorem readFrom_after_load :
    let bytes : List UInt8 := [0x29, 0x21, 0, 0, 0, 0, 0, 0, 0, 0, 0x30, 0x3a]
    let p := Program.ofInstructions [.plain .jumpDst, .push (.ofUInt64 0), .plain .jumpi,
      .plain .exit]
    let ts : List Step := [.move .next, .save, .load [0x20, 0x20, 0x3a], .checkedJump 0, .walk,
      .load [0x20, 0xee], .move (.jump 18446744073709551615)]
    Program.disassemble bytes = .ok p ∧ ((start p).after ts).program.pc = 2 ∧
      ((start p).after ts).saved.pc = 1 ∧
      ((start p).after ts).program.ReadFrom [0x20, 0x20, 0x3a] ∧
      ((start p).after ts).saved.ReadFrom bytes := by
  intro bytes p ts
  have hp : Program.disassemble bytes = .ok p := by cbv
  have ho : (Origins.mk bytes bytes).after ts = ⟨[0x20, 0x20, 0x3a], bytes⟩ := by cbv
  obtain ⟨hprogram, hsaved⟩ := readFrom_after hp ts
  rw [ho] at hprogram hsaved
  exact ⟨hp, by decide +kernel, by decide +kernel, hprogram, hsaved⟩

end Session

end Bytecode
