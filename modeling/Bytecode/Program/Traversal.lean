import Bytecode.Program.Basic

/-!
Moving the program counter.

Only the counter moves: each operation here leaves the entries and the cost alone, and the
counter stays on an entry. A move that is refused changes nothing.
-/

namespace Bytecode

inductive Move where
  | next
  | jump (target : Nat)
deriving DecidableEq, Repr

inductive Move.Reply where
  | reached (e : Option Entry)
  | done
  | refused (cause : ProgramError)
deriving DecidableEq, Repr

namespace Program

/-- Moves to the entry behind the current one and gives it. On the last entry, and in an empty
program, there is none. -/
def next? (p : Program) : Option (Entry × Program) :=
  if h : p.pc + 1 < p.entries.size then some (p.entries[p.pc + 1], { p with pc := p.pc + 1 })
  else none

/-- Moves to any index of the program, marked or not. -/
def jump (p : Program) (target : Nat) : Except ProgramError Program :=
  if target < p.size then .ok { p with pc := target }
  else .error (.invalidJumpTarget target p.size)

def isJumpTarget (p : Program) (target : Nat) : Bool :=
  (p.get? target).any Entry.isJumpDst

theorem next?_eq_some_iff {p q : Program} {e : Entry} :
    p.next? = some (e, q) ↔ p.get? (p.pc + 1) = some e ∧ q = { p with pc := p.pc + 1 } := by
  unfold next? get?
  split
  · next h => simp [Array.getElem?_eq_getElem h, eq_comm]
  · next h => simp [Array.getElem?_eq_none (Nat.le_of_not_lt h)]

theorem next?_eq_none_iff {p : Program} : p.next? = none ↔ p.size ≤ p.pc + 1 := by
  unfold next? size
  split <;> simp <;> omega

theorem jump_eq_ok_iff {p q : Program} {t : Nat} :
    p.jump t = .ok q ↔ t < p.size ∧ q = { p with pc := t } := by
  unfold jump
  split <;> simp [*, eq_comm]

theorem jump_eq_error_iff {p : Program} {t : Nat} {e : ProgramError} :
    p.jump t = .error e ↔ p.size ≤ t ∧ e = .invalidJumpTarget t p.size := by
  unfold jump
  split
  · simp; omega
  · simp [eq_comm]; omega

theorem isJumpTarget_iff {p : Program} {t : Nat} :
    p.isJumpTarget t = true ↔ p.get? t = some (.op .jumpDst) := by
  simp [isJumpTarget, Option.any_eq_true, Entry.isJumpDst_iff]

theorem lt_size_of_isJumpTarget {p : Program} {t : Nat} (h : p.isJumpTarget t = true) :
    t < p.size :=
  (Array.getElem?_eq_some_iff.1 (isJumpTarget_iff.1 h)).1

/-! ### Moves -/

def move (p : Program) : Move → Program × Move.Reply
  | .next =>
    match p.next? with
    | some (e, q) => (q, .reached (some e))
    | none => (p, .reached none)
  | .jump target =>
    match p.jump target with
    | .ok q => (q, .done)
    | .error cause => (p, .refused cause)

theorem move_next_of_lt {p : Program} (h : p.pc + 1 < p.size) :
    p.move .next = ({ p with pc := p.pc + 1 }, .reached (p.get? (p.pc + 1))) := by
  have hg : p.get? (p.pc + 1) = some p.entries[p.pc + 1] := Array.getElem?_eq_getElem h
  rw [move, next?_eq_some_iff.2 ⟨hg, rfl⟩, hg]

theorem move_next_of_le {p : Program} (h : p.size ≤ p.pc + 1) :
    p.move .next = (p, .reached none) := by
  rw [move, next?_eq_none_iff.2 h]

theorem move_jump_of_lt {p : Program} {t : Nat} (h : t < p.size) :
    p.move (.jump t) = ({ p with pc := t }, .done) := by
  rw [move, jump_eq_ok_iff.2 ⟨h, rfl⟩]

theorem move_jump_of_le {p : Program} {t : Nat} (h : p.size ≤ t) :
    p.move (.jump t) = (p, .refused (.invalidJumpTarget t p.size)) := by
  rw [move, jump_eq_error_iff.2 ⟨h, rfl⟩]

/-- A move changes nothing, or it puts the counter on an index of the program. -/
theorem move_cases (p : Program) (m : Move) :
    (p.move m).1 = p ∨ ∃ i, i < p.size ∧ (p.move m).1 = { p with pc := i } := by
  cases m with
  | next =>
    rcases Nat.lt_or_ge (p.pc + 1) p.size with hlt | hle
    · exact .inr ⟨p.pc + 1, hlt, by rw [move_next_of_lt hlt]⟩
    · exact .inl (by rw [move_next_of_le hle])
  | jump t =>
    rcases Nat.lt_or_ge t p.size with hlt | hle
    · exact .inr ⟨t, hlt, by rw [move_jump_of_lt hlt]⟩
    · exact .inl (by rw [move_jump_of_le hle])

theorem entries_move (p : Program) (m : Move) : (p.move m).1.entries = p.entries := by
  rcases move_cases p m with h | ⟨i, -, h⟩ <;> rw [h]

/-- A jump that is made only if its target is a marker. -/
def checkedJump (p : Program) (target : Nat) : Option (Program × Move.Reply) :=
  if p.isJumpTarget target then some (p.move (.jump target)) else none

/-- Makes moves one after the other. Each is listed with its reply and the counter behind it. -/
def moves (p : Program) : List Move → Program × List (Move.Reply × Nat)
  | [] => (p, [])
  | m :: ms =>
    let (q, r) := p.move m
    let (z, rs) := q.moves ms
    (z, (r, q.pc) :: rs)

theorem moves_cons (p : Program) (m : Move) (ms : List Move) :
    p.moves (m :: ms) =
      (((p.move m).1.moves ms).1,
        ((p.move m).2, (p.move m).1.pc) :: ((p.move m).1.moves ms).2) := rfl

theorem moves_append (p : Program) (ms ns : List Move) :
    p.moves (ms ++ ns) =
      (((p.moves ms).1.moves ns).1, (p.moves ms).2 ++ ((p.moves ms).1.moves ns).2) := by
  induction ms generalizing p with
  | nil => rfl
  | cons m ms ih => rw [List.cons_append, moves_cons, moves_cons, ih, List.cons_append]

theorem entries_moves (p : Program) (ms : List Move) : (p.moves ms).1.entries = p.entries := by
  induction ms generalizing p with
  | nil => rfl
  | cons m ms ih => exact (ih (p.move m).1).trans (entries_move p m)

theorem size_moves (p : Program) (ms : List Move) : (p.moves ms).1.size = p.size := by
  rw [size, entries_moves, size]

theorem get?_moves (p : Program) (ms : List Move) (i : Nat) :
    (p.moves ms).1.get? i = p.get? i := by
  rw [get?, entries_moves, get?]

/-! ### Walking to the end -/

/-- Moves on until no entry is left, and puts the entries that are reached behind `seen`. -/
def walkFrom (seen : Array Entry) (p : Program) : Array Entry × Program :=
  match _ : p.next? with
  | none => (seen, p)
  | some (e, q) => walkFrom (seen.push e) q
termination_by p.size - p.pc
decreasing_by
  obtain ⟨he, rfl⟩ := next?_eq_some_iff.1 ‹_›
  have := (Array.getElem?_eq_some_iff.1 he).1
  simp only [size]
  omega

def walk (p : Program) : Array Entry × Program := walkFrom #[] p

end Program

end Bytecode
