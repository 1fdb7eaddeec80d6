import Bytecode.Operand

/-!
The catalogue of opcodes: what each is called, the one byte that encodes it, and the number of
operand bytes that follow that byte in the stream.
-/

namespace Bytecode

inductive Opcode where
  | add | mul | sub | div | mod | and | or
  | lt | lte | gt | gte | eq | not
  | pop | push | mload | mstore | msize | loadFunc | loadArgs | returning | jump | jumpDst
  | jumpi | dup | swap | exit
deriving DecidableEq, Repr

namespace Opcode

def all : List Opcode :=
  [add, mul, sub, div, mod, and, or,
   lt, lte, gt, gte, eq, not,
   pop, push, mload, mstore, msize, loadFunc, loadArgs, returning, jump, jumpDst,
   jumpi, dup, swap, exit]

def byte : Opcode → UInt8
  | add => 0x01
  | mul => 0x02
  | sub => 0x03
  | div => 0x04
  | mod => 0x05
  | and => 0x06
  | or => 0x07
  | lt => 0x10
  | lte => 0x11
  | gt => 0x12
  | gte => 0x13
  | eq => 0x14
  | not => 0x15
  | pop => 0x20
  | push => 0x21
  | mload => 0x22
  | mstore => 0x23
  | msize => 0x24
  | loadFunc => 0x25
  | loadArgs => 0x26
  | returning => 0x27
  | jump => 0x28
  | jumpDst => 0x29
  | jumpi => 0x30
  | dup => 0x31
  | swap => 0x32
  | exit => 0x3a

def name : Opcode → String
  | add => "Add"
  | mul => "Mul"
  | sub => "Sub"
  | div => "Div"
  | mod => "Mod"
  | and => "And"
  | or => "Or"
  | lt => "Lt"
  | lte => "Lte"
  | gt => "Gt"
  | gte => "Gte"
  | eq => "Eq"
  | not => "Not"
  | pop => "Pop"
  | push => "Push"
  | mload => "Mload"
  | mstore => "Mstore"
  | msize => "Msize"
  | loadFunc => "LoadFunc"
  | loadArgs => "LoadArgs"
  | returning => "Returning"
  | jump => "Jump"
  | jumpDst => "JumpDst"
  | jumpi => "Jumpi"
  | dup => "Dup"
  | swap => "Swap"
  | exit => "Exit"

/-- The word for an opcode in a listing: its name in capitals. -/
def mnemonic (o : Opcode) : String :=
  o.name.toUpper

def operandWidth : Opcode → Nat
  | push => Operand.width
  | _ => 0

def ofByte? (b : UInt8) : Option Opcode :=
  all.find? (·.byte == b)

theorem operandWidth_of_ne_push {o : Opcode} (h : o ≠ push) : o.operandWidth = 0 := by
  unfold operandWidth
  split
  · contradiction
  · rfl

@[simp] theorem ofByte?_byte (o : Opcode) : ofByte? o.byte = some o := by
  cases o <;> rfl

theorem ofByte?_eq_some_iff {b : UInt8} {o : Opcode} : ofByte? b = some o ↔ o.byte = b := by
  constructor
  · intro h
    simpa using List.find?_some h
  · rintro rfl
    exact ofByte?_byte o

theorem ofByte?_eq_none_iff {b : UInt8} : ofByte? b = none ↔ ∀ o : Opcode, o.byte ≠ b := by
  simp only [Option.eq_none_iff_forall_ne_some, ne_eq, ofByte?_eq_some_iff]

theorem byte_injective {o p : Opcode} (h : o.byte = p.byte) : o = p := by
  rw [← Option.some_inj, ← ofByte?_byte o, h, ofByte?_byte]

end Opcode

end Bytecode
