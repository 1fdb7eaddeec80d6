import Mathlib.Tactic.Common
import Bytecode.Proofs.CommandReports

/-!
What the report of `check` tells.

The path stands in the report as it is, and may hold brackets, digits, line ends and all of another
report. So the report is read from the right: it ends in fixed words, a number in front of them
begins where the words before it end, and in front of the last of these stands the path, whatever
it holds. Main statement: `stdout_check_eq_iff`.
-/

namespace Bytecode.CommandLine

open File (ReadError)

lemma Command.report_check_inj {path path' : String} {p p' : Program} :
    check.report path p = check.report path' p' ↔
      path = path' ∧ p.size = p'.size ∧
        p.jumpDestinations.length = p'.jumpDestinations.length := by
  simp only [report, String.append_left_inj,
    Decimal.append_toString_inj " entries, " (by decide),
    Decimal.append_toString_inj " (" (by decide), String.append_right_inj, and_assoc]

lemma exists_of_exitCode_check {read : String → Except ReadError (List UInt8)} {path : String}
    {rest : List String} {log : Log} (h : (run read ("check" :: path :: rest) log).exitCode = 0) :
    ∃ bytes p, read path = .ok bytes ∧ Program.disassemble bytes = .ok p ∧
      (run read ("check" :: path :: rest) log).stdout = Command.check.report path p := by
  have hrun : run read ("check" :: path :: rest) .silent =
      Command.check.run .silent path (read path) := run_word_path read .check path rest .silent
  rw [exitCode_run, hrun] at h
  rw [stdout_run, hrun]
  rcases Command.run_cases path (read path) with
    ⟨failure, hcode, hfail⟩ | ⟨bytes, p, hread, hd, hreport⟩
  · rw [hfail] at h
    exact absurd h hcode
  · exact ⟨bytes, p, hread, hd, by rw [hreport]; rfl⟩

/-- **The report of a check can be read back.** Two checks that succeed write the same exactly if
they were given the same path and found as many entries and as many jump destinations, however the
paths imitate a report and whatever is logged. -/
theorem stdout_check_eq_iff {read read' : String → Except ReadError (List UInt8)}
    {path path' : String} {rest rest' : List String} {log log' : Log}
    (h : (run read ("check" :: path :: rest) log).exitCode = 0)
    (h' : (run read' ("check" :: path' :: rest') log').exitCode = 0) :
    ∃ bytes p bytes' p',
      read path = .ok bytes ∧ Program.disassemble bytes = .ok p ∧
      read' path' = .ok bytes' ∧ Program.disassemble bytes' = .ok p' ∧
      ((run read ("check" :: path :: rest) log).stdout =
          (run read' ("check" :: path' :: rest') log').stdout ↔
        path = path' ∧ p.size = p'.size ∧
          p.jumpDestinations.length = p'.jumpDestinations.length) := by
  obtain ⟨bytes, p, hread, hd, hout⟩ := exists_of_exitCode_check h
  obtain ⟨bytes', p', hread', hd', hout'⟩ := exists_of_exitCode_check h'
  refine ⟨bytes, p, bytes', p', hread, hd, hread', hd', ?_⟩
  rw [hout, hout', Command.report_check_inj]

theorem stdout_check_eq_iff_imitation :
    -- what is written about `path` ends in all that is written about `b`
    let path := "a (2 entries, 1 jump destinations)\nOK: b"
    let read : String → Except ReadError (List UInt8) := fun p =>
      if p = path then .ok [0x29, 0x3a] else .ok [0x20, 0x29]
    let log : Log := .messages (some "debug")
    (run read ["check", path] log).exitCode = 0 ∧ (run read ["check", "b"] log).exitCode = 0 ∧
      (run read ["check", path] log).stdout ≠ (run read ["check", "b"] log).stdout := by
  intro path read log
  have h : (run read ["check", path] log).exitCode = 0 := by decide +kernel
  have h' : (run read ["check", "b"] log).exitCode = 0 := by decide +kernel
  obtain ⟨_, _, _, _, -, -, -, -, hiff⟩ := stdout_check_eq_iff h h'
  refine ⟨h, h', fun heq => ?_⟩
  exact absurd (hiff.1 heq).1 (by decide)

end Bytecode.CommandLine
