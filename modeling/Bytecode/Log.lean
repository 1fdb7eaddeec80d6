import Bytecode.Program.Basic

/-!
The events that a run reports, and the log that is kept of them.

The program fixes the events, their levels and the filter of a run whose environment sets none,
which asks for warnings and errors. What a line of the log looks like, and which events a filter
lets through, is up to the log. No event is as severe as a warning, so the log of a run is empty
unless a filter is set. A refused jump is no event here, since no command makes a jump.
-/

namespace Bytecode

/-- How severe an event is. A level is less than those that are more verbose. -/
inductive Level where
  | error
  | warn
  | info
  | debug
  | trace
deriving DecidableEq, Repr

namespace Level

def all : List Level := [error, warn, info, debug, trace]

def word : Level → String
  | error => "error"
  | warn => "warn"
  | info => "info"
  | debug => "debug"
  | trace => "trace"

def ofWord? (word : String) : Option Level := all.find? (·.word == word)

def verbosity : Level → Nat
  | error => 0
  | warn => 1
  | info => 2
  | debug => 3
  | trace => 4

instance : LT Level := ⟨fun a b => a.verbosity < b.verbosity⟩

instance (a b : Level) : Decidable (a < b) :=
  inferInstanceAs (Decidable (a.verbosity < b.verbosity))

theorem ofWord?_word (level : Level) : ofWord? level.word = some level := by
  cases level <;> rfl

end Level

/-! ### Events -/

structure Span where
  level : Level
  name : String
  fields : List (String × String)
deriving DecidableEq, Repr

/-- What is reported at one place of the program, which is told by the message. -/
structure Event where
  level : Level
  message : String
  fields : List (String × String)
  span? : Option Span
deriving DecidableEq, Repr

def Event.read (path : String) (size : Nat) : Event where
  level := .info
  message := "read bytecode"
  fields := [("path", path), ("bytes", toString size)]
  span? := none

namespace Program

def disassemblySpan (bytes : List UInt8) : Span where
  level := .debug
  name := "disassemble"
  fields := [("len", toString bytes.length)]

def events (bytes : List UInt8) : List Event :=
  match disassemble bytes with
  | .error cause =>
    [{ level := .debug
       message := "disassembly aborted"
       fields := [("err", cause.message)]
       span? := some (disassemblySpan bytes) }]
  | .ok p =>
    [{ level := .trace
       message := "cost analysis"
       fields := [("entries", toString p.size)]
       span? := some (disassemblySpan bytes) },
     { level := .debug
       message := "disassembled"
       fields := [("entries", toString p.size), ("cost", toString p.cost)]
       span? := some (disassemblySpan bytes) }]

theorem warn_lt_of_mem_events {bytes : List UInt8} {e : Event} (h : e ∈ events bytes) :
    .warn < e.level := by
  have hdebug : Level.warn < .debug := by decide
  have htrace : Level.warn < .trace := by decide
  cases hd : disassemble bytes with
  | error cause =>
    rw [events, hd] at h
    obtain rfl := List.mem_singleton.1 h
    exact hdebug
  | ok p =>
    rw [events, hd] at h
    rcases List.mem_cons.1 h with rfl | h
    · exact htrace
    · obtain rfl := List.mem_singleton.1 h
      exact hdebug

end Program

/-! ### Logs -/

/-- A log of one run: the filter that the environment sets, if it can be read, and what the log
writes of an event under a filter. -/
structure Log where
  filter? : Option String
  write : String → Event → String

namespace Log

def silent : Log := ⟨none, fun _ _ => ""⟩

/-- A log of bare messages. The filter that it reads is the word of a level, and it writes what
that level holds. -/
def messages (filter? : Option String) : Log where
  filter? := filter?
  write filter e :=
    match Level.ofWord? filter with
    | none => ""
    | some level => if level < e.level then "" else e.message ++ "\n"

variable (log : Log)

def filter : String := log.filter?.getD Level.warn.word

def text : List Event → String
  | [] => ""
  | e :: events => log.write log.filter e ++ text events

@[simp] theorem text_silent (events : List Event) : silent.text events = "" := by
  induction events with
  | nil => rfl
  | cons e events ih =>
    rw [text, ih]
    rfl

/-- The environment sets no filter, and the log reads the word of a level as is documented: it
leaves out what is more verbose. -/
structure Default : Prop where
  unset : log.filter? = none
  write_of_lt (level : Level) (e : Event) (h : level < e.level) : log.write level.word e = ""

theorem default_messages : (messages none).Default where
  unset := rfl
  write_of_lt level e h := by
    simp only [messages, Level.ofWord?_word, if_pos h]

theorem text_eq_empty {log : Log} (hlog : log.Default) {events : List Event}
    (h : ∀ e ∈ events, .warn < e.level) : log.text events = "" := by
  have hfilter : log.filter = Level.warn.word := by
    rw [filter, hlog.unset, Option.getD_none]
  induction events with
  | nil => rfl
  | cons e events ih =>
    have he : log.write log.filter e = "" := by
      rw [hfilter]
      exact hlog.write_of_lt .warn e (h e List.mem_cons_self)
    rw [text, he, ih fun e he => h e (List.mem_cons_of_mem _ he)]
    rfl

end Log

end Bytecode
