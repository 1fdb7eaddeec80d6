import Mathlib.Tactic.Common
import Bytecode.Proofs.SessionInvariant

/-!
Steps that leave no trace.

A step that only asks, and a step that fails, leaves both programs of a session as they were. So
any of them may be left out of a session: the other steps report what they reported before, and
the session ends as it did before. Main statement: `log_of_thinned`.
-/

namespace Bytecode

def Step.asks : Step → Bool
  | ask _ => true
  | _ => false

def Reply.failed : Reply → Bool
  | moved (.reached none) => true
  | moved (.refused _) => true
  | illegal => true
  | rejected _ => true
  | _ => false

namespace Session

structure Record where
  step : Step
  reply : Reply
  pc : Nat
deriving DecidableEq, Repr

def Record.idle (r : Record) : Bool := r.step.asks || r.reply.failed

def log (s : Session) (ts : List Step) : List Record :=
  List.zipWith (fun t r => ⟨t, r.1, r.2⟩) ts (s.run ts).2

/-- What is left of records when some of the idle ones are taken out. -/
inductive Thinned : List Record → List Record → Prop where
  | nil : Thinned [] []
  | keep (r : Record) {rs ls : List Record} (h : Thinned rs ls) : Thinned (r :: rs) (r :: ls)
  | drop {r : Record} {rs ls : List Record} (hr : r.idle = true) (h : Thinned rs ls) :
      Thinned (r :: rs) ls

variable {s : Session}

lemma log_cons (s : Session) (t : Step) (ts : List Step) :
    s.log (t :: ts) =
      ⟨t, (s.step t).2, (s.step t).1.program.pc⟩ :: (s.step t).1.log ts := rfl

/-! ### One step -/

lemma step_eq_self_of_asks {t : Step} (h : t.asks = true) : (s.step t).1 = s := by
  cases t with
  | ask q => rfl
  | _ => cases h

lemma step_move_eq_self_of_failed {m : Move} (h : (s.step (.move m)).2.failed = true) :
    (s.step (.move m)).1 = s := by
  cases m with
  | next =>
    rcases Nat.lt_or_ge (s.program.pc + 1) s.program.size with hlt | hle
    · have hget : s.program.get? (s.program.pc + 1) = some _ := Array.getElem?_eq_getElem hlt
      rw [step, Program.move_next_of_lt hlt, hget] at h
      cases h
    · rw [step, Program.move_next_of_le hle]
  | jump t =>
    rcases Nat.lt_or_ge t s.program.size with hlt | hle
    · rw [step, Program.move_jump_of_lt hlt] at h
      cases h
    · rw [step, Program.move_jump_of_le hle]

lemma step_eq_self_of_failed {t : Step} (h : (s.step t).2.failed = true) : (s.step t).1 = s := by
  cases t with
  | move m => exact step_move_eq_self_of_failed h
  | checkedJump t =>
    cases hj : s.program.isJumpTarget t with
    | true =>
      rw [step_checkedJump_of_isJumpTarget hj] at h
      cases h
    | false => rw [step_checkedJump_of_not_isJumpTarget hj]
  | ask q => rfl
  | load bytes =>
    cases hd : Program.disassemble bytes with
    | ok p =>
      rw [step_load_of_ok hd] at h
      cases h
    | error cause => rw [step_load_of_error hd]
  | walk | save | restore => cases h

lemma step_eq_self_of_idle {t : Step} {pc : Nat}
    (h : (Record.mk t (s.step t).2 pc).idle = true) : (s.step t).1 = s := by
  rw [Record.idle, Bool.or_eq_true] at h
  rcases h with h | h
  · exact step_eq_self_of_asks h
  · exact step_eq_self_of_failed h

/-! ### Runs -/

/-- **Steps that ask only and steps that failed may be left out of a session.** Whichever of them
are taken out, each step that is left reports the same and leaves the counter at the same entry,
and both programs end as they did. -/
theorem log_of_thinned {ts : List Step} {ls : List Record} (h : Thinned (s.log ts) ls) :
    s.log (ls.map (·.step)) = ls ∧ s.after (ls.map (·.step)) = s.after ts := by
  induction ts generalizing s ls with
  | nil =>
    cases h
    exact ⟨rfl, rfl⟩
  | cons t ts ih =>
    rw [log_cons] at h
    cases h with
    | keep _ h =>
      obtain ⟨hlog, hafter⟩ := ih h
      rw [List.map_cons, log_cons, after_cons, hlog, hafter]
      exact ⟨rfl, rfl⟩
    | drop hr h =>
      -- the rest of the session begins where this step does
      have hs := step_eq_self_of_idle hr
      rw [hs] at h
      rw [after_cons, hs]
      exact ih h

theorem log_of_thinned_walk :
    let bytes : List UInt8 := [0x29, 0x21, 0, 0, 0, 0, 0, 0, 0, 0, 0x30, 0x3a]
    let p := Program.ofInstructions [.plain .jumpDst, .push (.ofUInt64 0), .plain .jumpi,
      .plain .exit]
    let ts : List Step := [.move .next, .move (.jump 5), .ask .cost, .save, .load [0x20, 0xee],
      .checkedJump 1, .walk, .move .next, .restore]
    let ls : List Record := [⟨.move .next, .moved (.reached (some (.op .push))), 1⟩,
      ⟨.save, .done, 1⟩, ⟨.walk, .walked 3 (some (.op .exit)), 4⟩,
      ⟨.move .next, .moved (.reached none), 4⟩, ⟨.restore, .done, 1⟩]
    Program.disassemble bytes = .ok p ∧ Thinned ((start p).log ts) ls ∧
      (start p).log (ls.map (·.step)) = ls ∧
      (start p).after (ls.map (·.step)) = (start p).after ts := by
  intro bytes p ts ls
  have hp : Program.disassemble bytes = .ok p := by cbv
  have hlog : (start p).log ts =
      [⟨.move .next, .moved (.reached (some (.op .push))), 1⟩,
       ⟨.move (.jump 5), .moved (.refused (.invalidJumpTarget 5 5)), 1⟩,
       ⟨.ask .cost, .answered (.number 0), 1⟩, ⟨.save, .done, 1⟩,
       ⟨.load [0x20, 0xee], .rejected (.invalidOpcode 0xee 1), 1⟩, ⟨.checkedJump 1, .illegal, 1⟩,
       ⟨.walk, .walked 3 (some (.op .exit)), 4⟩, ⟨.move .next, .moved (.reached none), 4⟩,
       ⟨.restore, .done, 1⟩] := by decide +kernel
  have hthin : Thinned ((start p).log ts) ls := by
    rw [hlog]
    exact .keep _ (.drop rfl (.drop rfl (.keep _ (.drop rfl (.drop rfl (.keep _ (.keep _
      (.keep _ .nil))))))))
  exact ⟨hp, hthin, log_of_thinned hthin⟩

end Session

end Bytecode
