import Bytecode.File.ReadError

/-!
A tree of files held in memory, read by path.

A path is walked from the left. An empty part, as between two slashes, and `.` stay where they
are, `..` goes up, and any other part is a name to enter. With a part left to walk, even an empty
one, only a directory leads on.
-/

namespace Bytecode.File

/-- A place in a tree: the names on the way up to the root, which is the empty list. -/
abbrev Place := List String

/-- Where one part of a path leads. There is nothing above the root. -/
def Place.enter (place : Place) (part : String) : Place :=
  if part = "" ∨ part = "." then place
  else if part = ".." then place.tail
  else part :: place

inductive Node where
  | directory
  | file (content : List UInt8)
deriving DecidableEq, Repr

/-- What has been put into a tree, the latest first, and the place that relative paths start
from. -/
structure Tree where
  nodes : List (Place × Node)
  working : Place
deriving DecidableEq, Repr

namespace Tree

/-- The longest name that a directory holds, in bytes. -/
def maxName : Nat := 255

/-- The longest path that can be walked, in bytes. -/
def maxPath : Nat := 4095

/-- What stands at a place. The root is always a directory. -/
def node? (t : Tree) (place : Place) : Option Node :=
  if place = [] then some .directory else t.nodes.lookup place

/-- Makes a directory at a place, and the missing ones above it. -/
def makeDirectory (t : Tree) : Place → Tree
  | [] => t
  | name :: above =>
    let t := t.makeDirectory above
    match t.node? (name :: above) with
    | some _ => t
    | none => { t with nodes := (name :: above, .directory) :: t.nodes }

def putFile (t : Tree) (place : Place) (content : List UInt8) : Tree :=
  let t := t.makeDirectory place.tail
  { t with nodes := (place, .file content) :: t.nodes }

def ofWorking (working : Place) : Tree := makeDirectory ⟨[], working⟩ working

def parts (path : String) : List String := path.splitOn "/"

/-- The place that a path starts from: the root if it starts with a slash. -/
def origin (t : Tree) (path : String) : Place :=
  if path.startsWith "/" then [] else t.working

def place (t : Tree) (path : String) : Place :=
  (parts path).foldl Place.enter (t.origin path)

def walk (t : Tree) (place : Place) : List String → Except ReadError Node
  | [] => (t.node? place).elim (.error .notFound) .ok
  | part :: parts =>
    match t.node? place with
    | none => .error .notFound
    | some (.file _) => .error .notADirectory
    | some .directory =>
      if maxName < part.utf8ByteSize then .error .nameTooLong
      else t.walk (place.enter part) parts

def read (t : Tree) (path : String) : Except ReadError (List UInt8) :=
  if path = "" then .error .notFound
  else if maxPath < path.utf8ByteSize then .error .nameTooLong
  else
    match t.walk (t.origin path) (parts path) with
    | .error cause => .error cause
    | .ok .directory => .error .isADirectory
    | .ok (.file content) => .ok content

end Tree

end Bytecode.File
