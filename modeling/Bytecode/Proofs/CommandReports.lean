import Mathlib.Tactic.Common
import Bytecode.Proofs.CommandOutcome
import Bytecode.Proofs.DecimalText
import Bytecode.Proofs.JumpMarkers

/-!
What the two commands write about one file.

Which command looks into the file makes no difference to whether it succeeds, nor to what is wrong
with the file. If it succeeds, one counts the jump destinations and the other lists them, and the
numbers are read back from what they write. Main statement: `reports_agree`.
-/

namespace Bytecode.CommandLine

open File (ReadError)
open Decimal (ofText? ofLines?)

lemma Command.run_cases (path : String) (found : Except ReadError (List UInt8)) :
    (∃ failure : Failure, failure.exitCode ≠ 0 ∧
      ∀ c : Command, c.run .silent path found = .ofFailure failure) ∨
    ∃ bytes p, found = .ok bytes ∧ Program.disassemble bytes = .ok p ∧
      ∀ c : Command, c.run .silent path found = .ofReport (c.report path p) := by
  cases found with
  | error cause =>
    exact .inl ⟨.unreadable path cause, (by decide : (1 : UInt32) ≠ 0), fun _ => rfl⟩
  | ok bytes =>
    cases hd : Program.disassemble bytes with
    | error cause =>
      exact .inl ⟨.rejected cause, (by decide : (2 : UInt32) ≠ 0),
        fun c => c.run_silent_of_rejected path hd⟩
    | ok p => exact .inr ⟨bytes, p, rfl, hd, fun c => c.run_silent_of_program path hd⟩

/-- **The two commands agree.** They end with the same exit code, and where they fail with the same
message and no report. Where they succeed there is no message, `check` gives the number of entries
and of jump destinations in one line, and `jumpdests` writes as many lines, which read back are the
jump destinations of the program: in ascending order, and each of them the index of an entry. What
is said of messages is said of runs in which no filter is set for the log. -/
theorem reports_agree (read : String → Except ReadError (List UInt8)) (path : String)
    (log log' : Log) :
    let check := run read ["check", path] log
    let list := run read ["jumpdests", path] log'
    check.exitCode = list.exitCode ∧
    (check.exitCode ≠ 0 → check.stdout = "" ∧ list.stdout = "" ∧
      (log.Default → log'.Default → check.stderr = list.stderr)) ∧
    (check.exitCode = 0 →
      (log.Default → check.stderr = "") ∧ (log'.Default → list.stderr = "") ∧
      ∃ bytes p entries markers indices,
        read path = .ok bytes ∧ Program.disassemble bytes = .ok p ∧
        check.stdout =
          "OK: " ++ path ++ " (" ++ entries ++ " entries, " ++ markers ++ " jump destinations)\n" ∧
        ofText? entries = some p.size ∧ ofText? markers = some indices.length ∧
        ofLines? list.stdout = some indices ∧ indices = p.jumpDestinations ∧
        indices.Pairwise (· < ·) ∧ ∀ i ∈ indices, i < p.size) := by
  intro check list
  obtain ⟨es, hes, hlogged⟩ := Command.check.run_logged path (read path)
  obtain ⟨es', hes', hlogged'⟩ := Command.jumpDestinations.run_logged path (read path)
  have hcheck : check = (Command.check.run .silent path (read path)).logged (log.text es) :=
    (run_word_path read .check path [] log).trans (hlogged log)
  have hlist :
      list = (Command.jumpDestinations.run .silent path (read path)).logged (log'.text es') :=
    (run_word_path read .jumpDestinations path [] log').trans (hlogged' log')
  rcases Command.run_cases path (read path) with
    ⟨failure, hcode, hrun⟩ | ⟨bytes, p, hread, hd, hrun⟩
  · rw [hcheck, hlist, hrun, hrun]
    refine ⟨rfl, fun _ => ⟨rfl, rfl, fun h h' => ?_⟩, fun h => absurd h hcode⟩
    rw [Log.text_eq_empty h hes, Log.text_eq_empty h' hes']
  · rw [hcheck, hlist, hrun, hrun]
    refine ⟨rfl, fun h => absurd rfl h, fun _ => ⟨fun h => ?_, fun h => ?_, ?_⟩⟩
    · rw [Log.text_eq_empty h hes]
      rfl
    · rw [Log.text_eq_empty h hes']
      rfl
    · exact ⟨bytes, p, toString p.size, toString p.jumpDestinations.length, p.jumpDestinations,
        hread, hd, rfl, Decimal.ofText?_toString _, Decimal.ofText?_toString _,
        Decimal.ofLines?_join _, rfl, p.pairwise_lt_jumpDestinations,
        fun _ => Program.lt_size_of_mem_jumpDestinations⟩

theorem reports_agree_two_markers :
    let bytes : List UInt8 := [0x29, 0x21, 0, 0, 0, 0, 0, 0, 0, 0x29, 0x30, 0x29, 0x3a]
    let p := Program.ofInstructions [.plain .jumpDst, .push (.ofUInt64 0x29), .plain .jumpi,
      .plain .jumpDst, .plain .exit]
    let read : String → Except ReadError (List UInt8) := fun path =>
      if path = "p.koa" then .ok bytes else .error .notFound
    let log : Log := .messages none
    let log' : Log := .messages (some "debug")
    Program.disassemble bytes = .ok p ∧ log.Default ∧
      (run read ["check", "p.koa"] log).exitCode = 0 ∧
      (run read ["check", "p.koa"] log).stderr = "" ∧
      (run read ["jumpdests", "p.koa"] log').exitCode = 0 ∧
      ofLines? (run read ["jumpdests", "p.koa"] log').stdout = some [0, 4] := by
  intro bytes p read log log'
  have hp : Program.disassemble bytes = .ok p := by cbv
  have hcode : (run read ["check", "p.koa"] log).exitCode = 0 := by decide +kernel
  obtain ⟨hsame, -, hsuccess⟩ := reports_agree read "p.koa" log log'
  obtain ⟨hmessage, -, bytes', q, _, _, indices, hread, hq, -, -, -, hlines, rfl, -⟩ :=
    hsuccess hcode
  obtain rfl : bytes = bytes' := Except.ok.inj hread
  obtain rfl : p = q := Except.ok.inj (hp.symm.trans hq)
  exact ⟨hp, Log.default_messages, hcode, hmessage Log.default_messages, hsame.symm.trans hcode,
    hlines.trans (by decide)⟩

end Bytecode.CommandLine
