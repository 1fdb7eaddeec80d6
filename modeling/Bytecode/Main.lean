import Bytecode.CommandLine

/-!
The program itself: it reads files from disk and writes what a run leaves behind.

It keeps no log. `RUST_LOG` is not read, though the usage text names it, and every run is silent.
-/

namespace Bytecode

open File (ReadError)

/-- The error behind a read that failed. Some come with their number negated. -/
def readError : IO.Error → ReadError
  | .noFileOrDirectory _ number reason
  | .inappropriateType _ number reason
  | .invalidArgument _ number reason
  | .permissionDenied _ number reason
  | .resourceExhausted _ number reason
  | .noSuchThing _ number reason
  | .interrupted _ number reason
  | .otherError number reason
  | .resourceBusy number reason
  | .hardwareFault number reason
  | .unsupportedOperation number reason
  | .illegalOperation number reason =>
    ReadError.ofNumber (if number < 0x80000000 then number else 0 - number) reason.capitalize
  | failure => ReadError.unnumbered (toString failure)

def readFile (path : String) : IO (Except ReadError (List UInt8)) := do
  match ← (IO.FS.readBinFile path).toBaseIO with
  | .ok content => return .ok content.toList
  | .error failure => return .error (readError failure)

end Bytecode

def main (words : List String) : IO UInt32 := do
  let content ←
    match Bytecode.CommandLine.Request.ofWords words with
    | .ok (.report _ path) => Bytecode.readFile path
    | _ => pure (.error .notFound)
  let outcome := Bytecode.CommandLine.run (fun _ => content) words .silent
  IO.print outcome.stdout
  IO.eprint outcome.stderr
  return outcome.exitCode
