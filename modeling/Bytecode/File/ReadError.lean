/-!
Why the bytes of a file cannot be had, and how that is worded: a reason, and behind it in brackets
the number of the error if it comes from the system.
-/

namespace Bytecode.File

inductive ReadError where
  | notFound
  | notADirectory
  | isADirectory
  | nameTooLong
  | other (number : UInt32) (reason : String)
  | unnumbered (reason : String)
deriving DecidableEq, Repr

namespace ReadError

/-- The number of an error, if the system gives it one. -/
def number? : ReadError → Option UInt32
  | notFound => some 2
  | notADirectory => some 20
  | isADirectory => some 21
  | nameTooLong => some 36
  | other number _ => some number
  | unnumbered _ => none

def reason : ReadError → String
  | notFound => "No such file or directory"
  | notADirectory => "Not a directory"
  | isADirectory => "Is a directory"
  | nameTooLong => "File name too long"
  | other _ reason => reason
  | unnumbered reason => reason

def message (e : ReadError) : String :=
  match e.number? with
  | some number => e.reason ++ " (os error " ++ toString number.toNat ++ ")"
  | none => e.reason

/-- The error that the system gives a number, with its reason for those that have no name here. -/
def ofNumber (number : UInt32) (reason : String) : ReadError :=
  ([notFound, notADirectory, isADirectory, nameTooLong].find? (·.number? == some number)).getD
    (other number reason)

end ReadError

end Bytecode.File
