import Bytecode.Scan

/-!
Programs: the entries of a byte stream, their static cost and a program counter.

The counter and every index count entries, not bytes. A program comes from `disassemble`, which
puts the counter on the first entry.
-/

namespace Bytecode

structure Program where
  entries : Array Entry
  cost : UInt64
  pc : Nat
deriving DecidableEq, Repr

/-- The static cost of entries. No opcode has a price, so it is zero. -/
def staticCost (_entries : Array Entry) : UInt64 := 0

namespace Program

def ofEntries (entries : Array Entry) : Program := ⟨entries, staticCost entries, 0⟩

/-- Reads a byte stream into a program: all of it, or the first fault in it. -/
def disassemble (bytes : List UInt8) : Except ProgramError Program :=
  (Scan.start bytes).run.map fun s => ofEntries s.entries

def size (p : Program) : Nat := p.entries.size

def isEmpty (p : Program) : Bool := p.entries.isEmpty

def get? (p : Program) (i : Nat) : Option Entry := p.entries[i]?

/-- The entry under the program counter; only an empty program has none. -/
def current? (p : Program) : Option Entry := p.get? p.pc

/-- The indices of the jump markers, in ascending order. -/
def jumpDestinations (p : Program) : List Nat :=
  (p.entries.toList.zipIdx.filter (·.1.isJumpDst)).map (·.2)

def toBytes (p : Program) : List UInt8 :=
  (Entry.appendAll #[] p.entries.toList).toList

theorem isEmpty_iff {p : Program} : p.isEmpty = true ↔ p.size = 0 :=
  Array.isEmpty_iff_size_eq_zero

theorem current?_eq_none_iff {p : Program} : p.current? = none ↔ p.size ≤ p.pc :=
  Array.getElem?_eq_none_iff

theorem toBytes_eq (p : Program) : p.toBytes = p.entries.toList.flatMap Entry.encode := by
  simp [toBytes]

end Program

end Bytecode
