import Mathlib.Tactic.Common
import Bytecode.CommandLine

/-!
How a run of the command line ends.

There are four ways: the words ask for help, they name a command and a file that holds a program,
they name a command and a file that holds none, or there is no file to look into. Each has its exit
code and the one stream that it writes to, and no other word than the first two bears on it.

A log adds lines to standard error and changes nothing else, and under `Log.Default` it adds none.
So runs are classified as if they were silent. Main statement: `run_classified`.
-/

namespace Bytecode.CommandLine

open File (ReadError)

def AsksHelp (words : List String) : Prop :=
  words[0]? = some "help" ∨ words[0]? = some "--help" ∨ words[0]? = some "-h"

def NamesCommand (words : List String) : Prop :=
  words[0]? = some "check" ∨ words[0]? = some "jumpdests"

/-- The words name a command and a file that can be read, and `bytes` are found there. -/
def Finds (read : String → Except ReadError (List UInt8)) (words : List String)
    (bytes : List UInt8) : Prop :=
  NamesCommand words ∧ ∃ path, words[1]? = some path ∧ read path = .ok bytes

inductive Ends (read : String → Except ReadError (List UInt8)) (words : List String) :
    Outcome → Prop where
  | helped (h : AsksHelp words) : Ends read words .ofHelp
  | reported {bytes : List UInt8} {p : Program} (report : String) (hf : Finds read words bytes)
      (hd : Program.disassemble bytes = .ok p) : Ends read words (.ofReport report)
  | rejected {bytes : List UInt8} {cause : ProgramError} (hf : Finds read words bytes)
      (hd : Program.disassemble bytes = .error cause) :
      Ends read words (.ofFailure (.rejected cause))
  | failed {failure : Failure} (hh : ¬ AsksHelp words) (hf : ∀ bytes, ¬ Finds read words bytes)
      (hc : failure.exitCode = 1) : Ends read words (.ofFailure failure)

variable {read : String → Except ReadError (List UInt8)} {words : List String}

/-! ### The words -/

lemma asksHelp_cons {word : String} {args : List String} :
    AsksHelp (word :: args) ↔ word ∈ helpWords := by
  simp [AsksHelp, helpWords]

lemma namesCommand_cons {word : String} {args : List String} :
    NamesCommand (word :: args) ↔ ∃ c : Command, c.word = word := by
  refine ⟨?_, ?_⟩
  · rintro (h | h)
    · exact ⟨.check, (Option.some.inj h).symm⟩
    · exact ⟨.jumpDestinations, (Option.some.inj h).symm⟩
  · rintro ⟨c, rfl⟩
    cases c with
    | check => exact .inl rfl
    | jumpDestinations => exact .inr rfl

lemma word_not_mem_helpWords (c : Command) : c.word ∉ helpWords := by
  cases c <;> decide

lemma NamesCommand.not_asksHelp (h : NamesCommand words) : ¬ AsksHelp words := by
  cases words with
  | nil => simp [AsksHelp]
  | cons word args =>
    obtain ⟨c, rfl⟩ := namesCommand_cons.1 h
    rw [asksHelp_cons]
    exact word_not_mem_helpWords c

lemma Finds.unique {bytes bytes' : List UInt8} (h : Finds read words bytes)
    (h' : Finds read words bytes') : bytes = bytes' := by
  obtain ⟨-, path, hpath, hread⟩ := h
  obtain ⟨-, path', hpath', hread'⟩ := h'
  obtain rfl : path = path' := Option.some.inj (hpath.symm.trans hpath')
  exact Except.ok.inj (hread.symm.trans hread')

lemma Finds.ne_error {bytes bytes' : List UInt8} {p : Program} {cause : ProgramError}
    (h : Finds read words bytes) (hd : Program.disassemble bytes = .ok p)
    (h' : Finds read words bytes') : Program.disassemble bytes' ≠ .error cause := by
  obtain rfl := h.unique h'
  rw [hd]
  simp

/-! ### The log -/

lemma Command.run_logged (c : Command) (path : String) (found : Except ReadError (List UInt8)) :
    ∃ es : List Event, (∀ e ∈ es, .warn < e.level) ∧
      ∀ log : Log, c.run log path found = (c.run .silent path found).logged (log.text es) := by
  cases found with
  | error cause => exact ⟨[], by simp, fun log => (Outcome.logged_empty _).symm⟩
  | ok bytes =>
    refine ⟨events path bytes, fun _ => warn_lt_of_mem_events, fun log => ?_⟩
    simp only [run, Log.text_silent, Outcome.logged_empty]

/-- What is logged stands in front of what the run writes when it is silent. -/
lemma run_logged (read : String → Except ReadError (List UInt8)) (words : List String) :
    ∃ es : List Event, (∀ e ∈ es, .warn < e.level) ∧
      ∀ log : Log, run read words log = (run read words .silent).logged (log.text es) := by
  match hw : Request.ofWords words with
  | .error _ | .ok .help =>
    refine ⟨[], by simp, fun log => ?_⟩
    simp only [run, hw, Log.text, Outcome.logged_empty]
  | .ok (.report c path) =>
    obtain ⟨es, hlevel, hrun⟩ := c.run_logged path (read path)
    refine ⟨es, hlevel, fun log => ?_⟩
    simpa only [run, hw] using hrun log

lemma exitCode_run (log : Log) :
    (run read words log).exitCode = (run read words .silent).exitCode := by
  obtain ⟨es, -, hrun⟩ := run_logged read words
  rw [hrun, Outcome.exitCode_logged]

lemma stdout_run (log : Log) : (run read words log).stdout = (run read words .silent).stdout := by
  obtain ⟨es, -, hrun⟩ := run_logged read words
  rw [hrun, Outcome.stdout_logged]

lemma run_of_default {log : Log} (h : log.Default) :
    run read words log = run read words .silent := by
  obtain ⟨es, hlevel, hrun⟩ := run_logged read words
  rw [hrun, Log.text_eq_empty h hlevel, Outcome.logged_empty]

/-! ### Runs -/

lemma run_word_path (read : String → Except ReadError (List UInt8)) (c : Command) (path : String)
    (rest : List String) (log : Log) :
    run read (c.word :: path :: rest) log = c.run log path (read path) := by
  have hc : Command.ofWord? c.word = some c := Command.ofWord?_eq_some_iff.2 rfl
  simp only [run, Request.ofWords, if_neg (word_not_mem_helpWords c), hc]

lemma ends_word_path (read : String → Except ReadError (List UInt8)) (c : Command) (path : String)
    (rest : List String) :
    Ends read (c.word :: path :: rest) (c.run .silent path (read path)) := by
  have hname : NamesCommand (c.word :: path :: rest) := namesCommand_cons.2 ⟨c, rfl⟩
  cases hr : read path with
  | error cause =>
    refine .failed hname.not_asksHelp ?_ rfl
    rintro bytes ⟨-, path', hpath, hread⟩
    obtain rfl : path = path' := Option.some.inj hpath
    rw [hr] at hread
    cases hread
  | ok bytes =>
    have hf : Finds read (c.word :: path :: rest) bytes := ⟨hname, path, rfl, hr⟩
    cases hd : Program.disassemble bytes with
    | error cause =>
      rw [c.run_silent_of_rejected path hd]
      exact .rejected hf hd
    | ok p =>
      rw [c.run_silent_of_program path hd]
      exact .reported _ hf hd

/-- Every run ends in one of the four ways. -/
theorem ends_run (read : String → Except ReadError (List UInt8)) (words : List String) :
    Ends read words (run read words .silent) := by
  match words with
  | [] => exact .failed (by simp [AsksHelp]) (fun _ hf => by simp [Finds, NamesCommand] at hf) rfl
  | word :: args =>
    by_cases hh : word ∈ helpWords
    · have hrun : run read (word :: args) .silent = .ofHelp := by
        simp only [run, Request.ofWords, if_pos hh]
      rw [hrun]
      exact .helped (asksHelp_cons.2 hh)
    · have hask : ¬ AsksHelp (word :: args) := mt asksHelp_cons.1 hh
      cases hw : Command.ofWord? word with
      | none =>
        have hrun : run read (word :: args) .silent = .ofFailure (.unknownCommand word) := by
          simp only [run, Request.ofWords, if_neg hh, hw]
        rw [hrun]
        refine .failed hask (fun _ hf => ?_) rfl
        obtain ⟨c, hc⟩ := namesCommand_cons.1 hf.1
        rw [Command.ofWord?_eq_some_iff.2 hc] at hw
        cases hw
      | some c =>
        obtain rfl := Command.ofWord?_eq_some_iff.1 hw
        match args with
        | [] =>
          have hrun : run read [c.word] .silent = .ofFailure (.noInput c) := by
            simp only [run, Request.ofWords, if_neg hh, hw]
          rw [hrun]
          exact .failed hask (fun _ hf => by simp [Finds] at hf) rfl
        | path :: rest =>
          rw [run_word_path]
          exact ends_word_path read c path rest

lemma run_take (read : String → Except ReadError (List UInt8)) (words : List String) (log : Log) :
    run read (words.take 2) log = run read words log := by
  match words with
  | [] | [_] => rfl
  | word :: arg :: rest =>
    have hask : Request.ofWords [word, arg] = Request.ofWords (word :: arg :: rest) := by
      cases hw : Command.ofWord? word <;> simp [Request.ofWords, hw]
    change run read [word, arg] log = _
    rw [run, hask, run]

/-! ### Exit codes and streams -/

lemma append_ne_empty {s t : String} (h : t ≠ "") : s ++ t ≠ "" :=
  fun hst => h (String.append_eq_empty_iff.1 hst).2

lemma usage_ne_empty : usage ≠ "" := append_ne_empty (by decide)

lemma Failure.message_ne_empty (failure : Failure) : failure.message ≠ "" := by
  cases failure with
  | noCommand => exact usage_ne_empty
  | unknownCommand word => exact append_ne_empty usage_ne_empty
  | noInput command => exact append_ne_empty (by decide)
  | unreadable path cause => exact append_ne_empty (by decide)
  | rejected cause => exact append_ne_empty (by decide)

section Ends

variable {o : Outcome} (h : Ends read words o)
include h

lemma Ends.exitCode_eq_zero_iff :
    o.exitCode = 0 ↔
      AsksHelp words ∨ ∃ bytes p, Finds read words bytes ∧ Program.disassemble bytes = .ok p := by
  cases h with
  | helped h => exact iff_of_true rfl (.inl h)
  | reported _ hf hd => exact iff_of_true rfl (.inr ⟨_, _, hf, hd⟩)
  | rejected hf hd =>
    refine iff_of_false (by decide : (2 : UInt32) ≠ 0) ?_
    rintro (hh | ⟨bytes, p, hf', hd'⟩)
    · exact hf.1.not_asksHelp hh
    · exact hf'.ne_error hd' hf hd
  | @failed failure hh hf hc =>
    have hne : failure.exitCode ≠ 0 := by rw [hc]; decide
    refine iff_of_false hne ?_
    rintro (hh' | ⟨bytes, p, hf', -⟩)
    · exact hh hh'
    · exact hf bytes hf'

lemma Ends.exitCode_eq_two_iff :
    o.exitCode = 2 ↔
      ∃ bytes cause, Finds read words bytes ∧ Program.disassemble bytes = .error cause := by
  cases h with
  | helped h =>
    refine iff_of_false (by decide : (0 : UInt32) ≠ 2) ?_
    rintro ⟨bytes, cause, hf, -⟩
    exact hf.1.not_asksHelp h
  | reported _ hf hd =>
    refine iff_of_false (by decide : (0 : UInt32) ≠ 2) ?_
    rintro ⟨bytes, cause, hf', hd'⟩
    exact hf.ne_error hd hf' hd'
  | rejected hf hd => exact iff_of_true rfl ⟨_, _, hf, hd⟩
  | @failed failure hh hf hc =>
    have hne : failure.exitCode ≠ 2 := by rw [hc]; decide
    refine iff_of_false hne ?_
    rintro ⟨bytes, cause, hf', -⟩
    exact hf bytes hf'

lemma Ends.exitCode_eq_one (h0 : o.exitCode ≠ 0) (h2 : o.exitCode ≠ 2) : o.exitCode = 1 := by
  cases h with
  | helped h => exact absurd rfl h0
  | reported _ hf hd => exact absurd rfl h0
  | rejected hf hd => exact absurd rfl h2
  | failed hh hf hc => exact hc

lemma Ends.stderr_of_rejected {bytes : List UInt8} {cause : ProgramError}
    (hf : Finds read words bytes) (hd : Program.disassemble bytes = .error cause) :
    o.stderr = "error: " ++ cause.message ++ "\n" := by
  cases h with
  | helped h => exact absurd h hf.1.not_asksHelp
  | reported _ hf' hd' => exact absurd hd (hf'.ne_error hd' hf)
  | rejected hf' hd' =>
    obtain rfl := hf.unique hf'
    obtain rfl := Except.error.inj (hd.symm.trans hd')
    rfl
  | failed hh hf' hc => exact absurd hf (hf' bytes)

lemma Ends.streams :
    (NamesCommand words ∧ o.exitCode = 0 ∨ o.stdout = "") ∧
      (o.stderr = "" ↔ NamesCommand words ∧ o.exitCode = 0) := by
  cases h with
  | helped h =>
    refine ⟨.inr rfl, iff_of_false usage_ne_empty ?_⟩
    rintro ⟨hn, -⟩
    exact hn.not_asksHelp h
  | reported _ hf hd => exact ⟨.inl ⟨hf.1, rfl⟩, iff_of_true rfl ⟨hf.1, rfl⟩⟩
  | @rejected _ cause hf hd =>
    refine ⟨.inr rfl, iff_of_false (Failure.rejected cause).message_ne_empty ?_⟩
    rintro ⟨-, hc⟩
    exact absurd hc (by decide : (2 : UInt32) ≠ 0)
  | @failed failure hh hf hc =>
    refine ⟨.inr rfl, iff_of_false failure.message_ne_empty ?_⟩
    rintro ⟨-, hc'⟩
    have hne : failure.exitCode ≠ 0 := by rw [hc]; decide
    exact hne hc'

end Ends

/-- **The exit code says how a run ended**: 0 for help and for a program that was read, 2 for a file
that holds none, and 1 for all else. Only a command that succeeds writes to standard output. Unless
a filter is set for the log, it alone leaves standard error empty, and for a file that holds no
program the first fault is the message. What stands behind the second word changes nothing. -/
theorem run_classified (read : String → Except ReadError (List UInt8)) (words : List String)
    (log : Log) :
    let o := run read words log
    (o.exitCode = 0 ↔
      AsksHelp words ∨ ∃ bytes p, Finds read words bytes ∧ Program.disassemble bytes = .ok p) ∧
    (o.exitCode = 2 ↔
      ∃ bytes cause, Finds read words bytes ∧ Program.disassemble bytes = .error cause) ∧
    (o.exitCode ≠ 0 → o.exitCode ≠ 2 → o.exitCode = 1) ∧
    (NamesCommand words ∧ o.exitCode = 0 ∨ o.stdout = "") ∧
    (log.Default →
      (∀ bytes cause, Finds read words bytes → Program.disassemble bytes = .error cause →
        o.stderr = "error: " ++ cause.message ++ "\n") ∧
      (o.stderr = "" ↔ NamesCommand words ∧ o.exitCode = 0)) ∧
    ∀ words', words'.take 2 = words.take 2 →
      run read words' log = o ∧
      ∀ log' : Log,
        (run read words' log').exitCode = o.exitCode ∧
        (run read words' log').stdout = o.stdout ∧
        (log.Default → log'.Default → (run read words' log').stderr = o.stderr) := by
  intro o
  -- the silent run is classified, and the log bears on nothing but standard error
  have h := ends_run read words
  obtain ⟨hout, herr⟩ := h.streams
  have hcode : o.exitCode = (run read words .silent).exitCode := exitCode_run log
  have hstdout : o.stdout = (run read words .silent).stdout := stdout_run log
  rw [hcode, hstdout]
  refine ⟨h.exitCode_eq_zero_iff, h.exitCode_eq_two_iff, h.exitCode_eq_one, hout, fun hlog => ?_,
    fun words' hw => ?_⟩
  · have hrun : o = run read words .silent := run_of_default hlog
    rw [hrun]
    exact ⟨fun _ _ => h.stderr_of_rejected, herr⟩
  · have hwords (log' : Log) : run read words' log' = run read words log' := by
      rw [← run_take read words', hw, run_take]
    refine ⟨hwords log, fun log' => ?_⟩
    rw [hwords log']
    refine ⟨exitCode_run log', stdout_run log', fun hlog hlog' => ?_⟩
    rw [run_of_default hlog']
    exact congrArg Outcome.stderr (run_of_default hlog).symm

theorem run_classified_rejected :
    let read : String → Except ReadError (List UInt8) := fun path =>
      if path = "p.koa" then .ok [0x20, 0xff] else .error .notFound
    let words := ["check", "p.koa", "--help"]
    let log : Log := .messages none
    Finds read words [0x20, 0xff] ∧ log.Default ∧ (run read words log).exitCode = 2 ∧
      (run read words log).stderr = "error: invalid opcode 0xff at offset 1\n" ∧
      run read ["check", "p.koa"] log = run read words log := by
  intro read words log
  have hf : Finds read words [0x20, 0xff] := ⟨.inl rfl, "p.koa", rfl, rfl⟩
  have hd : Program.disassemble [0x20, 0xff] = .error (.invalidOpcode 0xff 1) := by cbv
  obtain ⟨-, htwo, -, -, hdefault, htake⟩ := run_classified read words log
  obtain ⟨hmessage, -⟩ := hdefault Log.default_messages
  exact ⟨hf, Log.default_messages, htwo.2 ⟨_, _, hf, hd⟩,
    (hmessage _ _ hf hd).trans (by decide +kernel), (htake _ rfl).1⟩

-- with a filter that lets it through, the line on the file that was read comes first
example :
    (run (fun _ => .ok [0x20, 0xff]) ["check", "p.koa"] (.messages (some "info"))).stderr =
      "read bytecode\nerror: invalid opcode 0xff at offset 1\n" := by
  decide +kernel

end Bytecode.CommandLine
