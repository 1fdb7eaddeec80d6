import Bytecode.Program.Traversal

/-!
Sessions: a list of steps carried out on a current program and one saved copy of it.

A step that only asks, and a step that fails, leaves both programs as they were.
-/

namespace Bytecode

inductive Query where
  | current
  | entry (index : Nat)
  | entries
  | size
  | isEmpty
  | cost
  | isJumpTarget (target : Nat)
  | jumpDestinations
  | bytes
  | equalsSaved
deriving DecidableEq, Repr

inductive Query.Answer where
  | entry (e : Option Entry)
  | entries (es : List Entry)
  | number (n : Nat)
  | truth (b : Bool)
  | indices (is : List Nat)
  | bytes (bs : List UInt8)
deriving DecidableEq, Repr

inductive Step where
  | move (m : Move)
  | checkedJump (target : Nat)
  | ask (q : Query)
  | walk
  | save
  | restore
  | load (bytes : List UInt8)
deriving DecidableEq, Repr

inductive Reply where
  | moved (r : Move.Reply)
  | illegal
  | answered (a : Query.Answer)
  | walked (count : Nat) (last : Option Entry)
  | done
  | rejected (cause : ProgramError)
deriving DecidableEq, Repr

structure Session where
  program : Program
  saved : Program
deriving DecidableEq, Repr

namespace Session

/-- A session on a fresh program; at first that is also the saved one. -/
def start (p : Program) : Session := ⟨p, p⟩

def answer (s : Session) : Query → Query.Answer
  | .current => .entry s.program.current?
  | .entry index => .entry (s.program.get? index)
  | .entries => .entries s.program.entries.toList
  | .size => .number s.program.size
  | .isEmpty => .truth s.program.isEmpty
  | .cost => .number s.program.cost.toNat
  | .isJumpTarget target => .truth (s.program.isJumpTarget target)
  | .jumpDestinations => .indices s.program.jumpDestinations
  | .bytes => .bytes s.program.toBytes
  | .equalsSaved => .truth (s.program == s.saved)

def step (s : Session) : Step → Session × Reply
  | .move m =>
    let (p, r) := s.program.move m
    ({ s with program := p }, .moved r)
  | .checkedJump target =>
    match s.program.checkedJump target with
    | some (p, r) => ({ s with program := p }, .moved r)
    | none => (s, .illegal)
  | .ask q => (s, .answered (s.answer q))
  | .walk =>
    let (seen, p) := s.program.walk
    ({ s with program := p }, .walked seen.size seen.back?)
  | .save => ({ s with saved := s.program }, .done)
  | .restore => ({ s with program := s.saved }, .done)
  | .load bytes =>
    match Program.disassemble bytes with
    | .ok p => ({ s with program := p }, .done)
    | .error cause => (s, .rejected cause)

theorem step_checkedJump_of_isJumpTarget {s : Session} {t : Nat}
    (h : s.program.isJumpTarget t = true) :
    s.step (.checkedJump t) =
      ({ s with program := { s.program with pc := t } }, .moved .done) := by
  rw [step, Program.checkedJump, if_pos h,
    Program.move_jump_of_lt (Program.lt_size_of_isJumpTarget h)]

theorem step_checkedJump_of_not_isJumpTarget {s : Session} {t : Nat}
    (h : s.program.isJumpTarget t = false) : s.step (.checkedJump t) = (s, .illegal) := by
  rw [step, Program.checkedJump, if_neg (by simp [h])]

theorem step_load_of_ok {s : Session} {bytes : List UInt8} {p : Program}
    (h : Program.disassemble bytes = .ok p) :
    s.step (.load bytes) = ({ s with program := p }, .done) := by
  rw [step, h]

theorem step_load_of_error {s : Session} {bytes : List UInt8} {cause : ProgramError}
    (h : Program.disassemble bytes = .error cause) :
    s.step (.load bytes) = (s, .rejected cause) := by
  rw [step, h]

/-- Carries out steps one after the other. Each is listed with its reply and the program counter
behind it. -/
def run (s : Session) : List Step → Session × List (Reply × Nat)
  | [] => (s, [])
  | t :: ts =>
    let (s, r) := s.step t
    let (z, rs) := s.run ts
    (z, (r, s.program.pc) :: rs)

end Session

end Bytecode
