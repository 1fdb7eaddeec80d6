import Bytecode.File.ReadError
import Bytecode.Log

/-!
The command line: `check` reports the size of a bytecode file and `jumpdests` lists its legal
jump targets.

A command that succeeds writes its report to standard output, and one that fails a message to
standard error. The exit code is 0 for success and for help, 1 if the words make no command or its
file cannot be read, and 2 if the file holds no program.

The log of a run is written to standard error too, in front of any message. It is a parameter of
`run`, and where none is given the run is silent: no log is kept then, whatever `RUST_LOG` is.
-/

namespace Bytecode.CommandLine

open File (ReadError)

inductive Command where
  | check
  | jumpDestinations
deriving DecidableEq, Repr

namespace Command

def word : Command → String
  | check => "check"
  | jumpDestinations => "jumpdests"

def ofWord? (word : String) : Option Command :=
  [check, jumpDestinations].find? (·.word == word)

theorem ofWord?_eq_some_iff {w : String} {c : Command} : ofWord? w = some c ↔ c.word = w := by
  constructor
  · intro h
    simpa using List.find?_some h
  · rintro rfl
    cases c <;> rfl

def report (path : String) (p : Program) : Command → String
  | check =>
    "OK: " ++ path ++ " (" ++ toString p.size ++ " entries, " ++
      toString p.jumpDestinations.length ++ " jump destinations)\n"
  | jumpDestinations => String.join (p.jumpDestinations.map fun i => toString i ++ "\n")

end Command

inductive Failure where
  | noCommand
  | unknownCommand (word : String)
  | noInput (command : Command)
  | unreadable (path : String) (cause : ReadError)
  | rejected (cause : ProgramError)
deriving DecidableEq, Repr

def usage : String :=
  "Usage: koa <command> [args]\n" ++
  "\n" ++
  "Commands:\n" ++
  "  check <input>       Disassemble a bytecode file and report its size\n" ++
  "  jumpdests <input>   List the entry indices that are legal jump targets\n" ++
  "\n" ++
  "Set RUST_LOG=debug to trace disassembly.\n"

namespace Failure

def message : Failure → String
  | noCommand => usage
  | unknownCommand word => "error: unknown command '" ++ word ++ "'\n\n" ++ usage
  | noInput command =>
    "error: " ++ command.word ++ " requires an input file\n" ++
      "Usage: koa " ++ command.word ++ " <input>\n"
  | unreadable path cause => "error: cannot read '" ++ path ++ "': " ++ cause.message ++ "\n"
  | rejected cause => "error: " ++ cause.message ++ "\n"

/-- A file that holds no program is told apart from all that keeps it from being looked at. -/
def exitCode : Failure → UInt32
  | rejected _ => 2
  | _ => 1

end Failure

/-! ### Requests -/

inductive Request where
  | help
  | report (command : Command) (path : String)
deriving DecidableEq, Repr

def helpWords : List String := ["help", "--help", "-h"]

/-- Reads the words of a command line. Those behind the file are not looked at. -/
def Request.ofWords : List String → Except Failure Request
  | [] => .error .noCommand
  | word :: args =>
    if word ∈ helpWords then .ok .help
    else
      match Command.ofWord? word, args with
      | none, _ => .error (.unknownCommand word)
      | some command, [] => .error (.noInput command)
      | some command, path :: _ => .ok (.report command path)

/-! ### Outcomes -/

structure Outcome where
  exitCode : UInt32
  stdout : String
  stderr : String
deriving DecidableEq, Repr

namespace Outcome

def ofHelp : Outcome := ⟨0, "", usage⟩

def ofReport (report : String) : Outcome := ⟨0, report, ""⟩

def ofFailure (failure : Failure) : Outcome := ⟨failure.exitCode, "", failure.message⟩

/-- The lines of a log come in front of what is written to standard error anyway. -/
def logged (lines : String) (o : Outcome) : Outcome := { o with stderr := lines ++ o.stderr }

@[simp] theorem exitCode_logged (lines : String) (o : Outcome) :
    (o.logged lines).exitCode = o.exitCode := rfl

@[simp] theorem stdout_logged (lines : String) (o : Outcome) :
    (o.logged lines).stdout = o.stdout := rfl

@[simp] theorem logged_empty (o : Outcome) : o.logged "" = o := by
  rw [logged, String.empty_append]

end Outcome

namespace Command

/-- What a command reports to the log about a file that it has read. -/
def events (path : String) (bytes : List UInt8) : List Event :=
  .read path bytes.length :: Program.events bytes

/-- Carries out a command on what was found at `path`. -/
def run (command : Command) (log : Log) (path : String) :
    Except ReadError (List UInt8) → Outcome
  | .error cause => .ofFailure (.unreadable path cause)
  | .ok bytes =>
    .logged (log.text (events path bytes)) <|
      match Program.disassemble bytes with
      | .error cause => .ofFailure (.rejected cause)
      | .ok p => .ofReport (command.report path p)

theorem run_silent_of_rejected {bytes : List UInt8} {cause : ProgramError} (c : Command)
    (path : String) (h : Program.disassemble bytes = .error cause) :
    c.run .silent path (.ok bytes) = .ofFailure (.rejected cause) := by
  rw [run, h, Log.text_silent, Outcome.logged_empty]

theorem run_silent_of_program {bytes : List UInt8} {p : Program} (c : Command) (path : String)
    (h : Program.disassemble bytes = .ok p) :
    c.run .silent path (.ok bytes) = .ofReport (c.report path p) := by
  rw [run, h, Log.text_silent, Outcome.logged_empty]

theorem warn_lt_of_mem_events {path : String} {bytes : List UInt8} {e : Event}
    (h : e ∈ events path bytes) : .warn < e.level := by
  rcases List.mem_cons.1 h with rfl | h
  · exact (by decide : Level.warn < .info)
  · exact Program.warn_lt_of_mem_events h

end Command

/-- Runs the program on the words of a command line over a way to read files. -/
def run (read : String → Except ReadError (List UInt8)) (words : List String)
    (log : Log := .silent) : Outcome :=
  match Request.ofWords words with
  | .error failure => .ofFailure failure
  | .ok .help => .ofHelp
  | .ok (.report command path) => command.run log path (read path)

end Bytecode.CommandLine
