import Mathlib.Tactic.Common
import Bytecode.Proofs.CommandOutcome
import Bytecode.Proofs.DecimalText

/-!
Errors are told apart by their messages.

How a message begins tells the kind of error, and behind that each field ends in front of a
character that no number holds, or has a width of its own. So no field runs into the next, and
from equal messages follow equal errors. Main statement: `message_eq_iff`.
-/

namespace Bytecode

/-! ### Fields -/

namespace ProgramError

variable {b c : UInt8} {k l m n i j : Nat}

lemma message_invalidOpcode_inj :
    (invalidOpcode b m).message = (invalidOpcode c n).message ↔ b = c ∧ m = n := by
  unfold message
  simp only [String.append_assoc, String.append_right_inj, Hex.ofByte_append_inj,
    Decimal.toString_inj]

lemma message_truncatedOperand_inj :
    (truncatedOperand k m i).message = (truncatedOperand l n j).message ↔
      k = l ∧ m = n ∧ i = j := by
  unfold message
  simp only [String.append_assoc, String.append_right_inj,
    Decimal.toString_append_inj ": expected " (by decide),
    Decimal.toString_append_inj " bytes, found " (by decide), Decimal.toString_inj]

lemma message_invalidJumpTarget_inj :
    (invalidJumpTarget m i).message = (invalidJumpTarget n j).message ↔ m = n ∧ i = j := by
  unfold message
  simp only [String.append_assoc, String.append_right_inj, String.append_left_inj,
    Decimal.toString_append_inj " (program has " (by decide), Decimal.toString_inj]

end ProgramError

lemma CatalogueError.message_invalidOpcode_inj {b c : UInt8} :
    (invalidOpcode b).message = (invalidOpcode c).message ↔ b = c := by
  unfold message
  rw [String.append_right_inj, Hex.ofByte_inj]

/-! ### Kinds -/

inductive AnyError where
  | catalogue (e : CatalogueError)
  | program (e : ProgramError)
deriving DecidableEq, Repr

namespace AnyError

def message : AnyError → String
  | catalogue e => e.message
  | program e => e.message

/-- How a message begins: as many characters as it takes to tell the kinds of errors apart. -/
def opening : AnyError → String
  | catalogue (.invalidOpcode _) => "invalid opcode:"
  | program (.invalidOpcode _ _) => "invalid opcode "
  | program (.truncatedOperand _ _ _) => "truncated opera"
  | program (.invalidJumpTarget _ _) => "invalid jump ta"

lemma length_opening (e : AnyError) : e.opening.length = 15 := by
  rcases e with ⟨⟨_⟩⟩ | (_ | _ | _)
  all_goals
    simp only [opening]
    decide

lemma toList_prefix_append {u w : String} (h : u.toList <+: w.toList) (rest : String) :
    u.toList <+: (w ++ rest).toList := by
  rw [String.toList_append]
  exact h.trans (List.prefix_append _ _)

lemma opening_prefix_message (e : AnyError) : e.opening.toList <+: e.message.toList := by
  rcases e with ⟨⟨_⟩⟩ | (_ | _ | _)
  case catalogue =>
    unfold message CatalogueError.message
    simp only [opening]
    exact toList_prefix_append (by decide) _
  all_goals
    unfold message ProgramError.message
    simp only [opening, String.append_assoc]
    exact toList_prefix_append (by decide) _

lemma opening_eq_of_message_eq {e f : AnyError} (h : e.message = f.message) :
    e.opening = f.opening := by
  have he : e.opening.toList <+: f.message.toList := h ▸ e.opening_prefix_message
  have hf : f.opening.toList <+: f.message.toList := f.opening_prefix_message
  have hlen : e.opening.toList.length = f.opening.toList.length := by
    rw [String.length_toList, String.length_toList, length_opening, length_opening]
  exact String.toList_inj.1
    ((List.prefix_of_prefix_length_le he hf (Nat.le_of_eq hlen)).eq_of_length hlen)

lemma message_inj {e f : AnyError} : e.message = f.message ↔ e = f := by
  refine ⟨fun h => ?_, congrArg message⟩
  have ho := opening_eq_of_message_eq h
  rcases e with ⟨⟨b⟩⟩ | (⟨b, o⟩ | ⟨o, x, a⟩ | ⟨t, n⟩) <;>
    rcases f with ⟨⟨c⟩⟩ | (⟨c, p⟩ | ⟨p, y, d⟩ | ⟨u, m⟩)
  case catalogue.catalogue =>
    obtain rfl := CatalogueError.message_invalidOpcode_inj.1 h
    rfl
  case program.invalidOpcode.program.invalidOpcode =>
    obtain ⟨rfl, rfl⟩ := ProgramError.message_invalidOpcode_inj.1 h
    rfl
  case program.truncatedOperand.program.truncatedOperand =>
    obtain ⟨rfl, rfl, rfl⟩ := ProgramError.message_truncatedOperand_inj.1 h
    rfl
  case program.invalidJumpTarget.program.invalidJumpTarget =>
    obtain ⟨rfl, rfl⟩ := ProgramError.message_invalidJumpTarget_inj.1 h
    rfl
  -- errors of two kinds begin differently
  all_goals simp [opening] at ho

end AnyError

namespace CommandLine

open File (ReadError)

variable {read read' : String → Except ReadError (List UInt8)} {words words' : List String}
  {log log' : Log} {bytes bytes' : List UInt8} {cause cause' : ProgramError}

lemma stderr_eq_iff (hlog : log.Default) (hlog' : log'.Default)
    (hf : Finds read words bytes) (hd : Program.disassemble bytes = .error cause)
    (hf' : Finds read' words' bytes') (hd' : Program.disassemble bytes' = .error cause') :
    (run read words log).stderr = (run read' words' log').stderr ↔ cause = cause' := by
  have hmessage : cause.message = cause'.message ↔ cause = cause' := by
    rw [← AnyError.program.injEq, ← AnyError.message_inj]
    rfl
  rw [run_of_default hlog, run_of_default hlog', (ends_run read words).stderr_of_rejected hf hd,
    (ends_run read' words').stderr_of_rejected hf' hd', String.append_left_inj,
    String.append_right_inj, hmessage]

/-- **Errors are told apart by their messages**: two errors with one message are of one kind and
have the same fields, however many digits these have. So what a command writes about a file that
holds no program, unless a filter is set for the log, says which fault it is and nothing else. -/
theorem message_eq_iff :
    (∀ e f : AnyError, e.message = f.message ↔ e = f) ∧
    ∀ (read read' : String → Except ReadError (List UInt8)) (words words' : List String)
      (log log' : Log) (bytes bytes' : List UInt8) (cause cause' : ProgramError),
      log.Default → log'.Default →
      Finds read words bytes → Program.disassemble bytes = .error cause →
      Finds read' words' bytes' → Program.disassemble bytes' = .error cause' →
      ((run read words log).stderr = (run read' words' log').stderr ↔ cause = cause') :=
  ⟨fun _ _ => AnyError.message_inj, fun _ _ _ _ _ _ _ _ _ _ => stderr_eq_iff⟩

theorem message_eq_iff_rejected :
    let read : String → Except ReadError (List UInt8) := fun path =>
      if path = "a.koa" then .ok [0x20, 0xff, 0x29]
      else if path = "b.koa" then .ok [0x29, 0xff]
      else .ok [0x21, 0xff]
    let log : Log := .messages none
    (run read ["check", "a.koa"] log).stderr = (run read ["check", "b.koa", "--help"] log).stderr ∧
      (run read ["check", "a.koa"] log).stderr ≠ (run read ["check", "c.koa"] log).stderr ∧
      (AnyError.program (.invalidOpcode 0xff 1)).message ≠
        (AnyError.catalogue (.invalidOpcode 0xff)).message := by
  intro read log
  have hlog : log.Default := Log.default_messages
  have ha : Finds read ["check", "a.koa"] [0x20, 0xff, 0x29] := ⟨.inl rfl, "a.koa", rfl, rfl⟩
  have hb : Finds read ["check", "b.koa", "--help"] [0x29, 0xff] := ⟨.inl rfl, "b.koa", rfl, rfl⟩
  have hc : Finds read ["check", "c.koa"] [0x21, 0xff] := ⟨.inl rfl, "c.koa", rfl, rfl⟩
  have hda : Program.disassemble [0x20, 0xff, 0x29] = .error (.invalidOpcode 0xff 1) := by cbv
  have hdb : Program.disassemble [0x29, 0xff] = .error (.invalidOpcode 0xff 1) := by cbv
  have hdc : Program.disassemble [0x21, 0xff] = .error (.truncatedOperand 0 8 1) := by cbv
  obtain ⟨hmessage, hstderr⟩ := message_eq_iff
  refine ⟨(hstderr _ _ _ _ _ _ _ _ _ _ hlog hlog ha hda hb hdb).2 rfl, ?_, ?_⟩
  · exact mt (hstderr _ _ _ _ _ _ _ _ _ _ hlog hlog ha hda hc hdc).1 (by decide)
  · exact mt (hmessage _ _).1 (by decide)

end CommandLine

end Bytecode
