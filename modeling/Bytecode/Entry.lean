import Bytecode.Hex
import Bytecode.Opcode

/-!
The entries of a program: an opcode, or the operand of the push before it.

An entry is written at the end of a buffer; `toList_appendTo` and `toList_appendAll` say that
nothing before it changes.
-/

namespace Bytecode

/-- One entry of a program. An operand is an entry of its own, with an index of its own. -/
inductive Entry where
  | op (o : Opcode)
  | data (d : Operand)
deriving DecidableEq, Repr

namespace Entry

def encode : Entry → List UInt8
  | op o => [o.byte]
  | data d => d.bytes

def firstByte : Entry → UInt8
  | op o => o.byte
  | data d => d.firstByte

def width : Entry → Nat
  | op _ => 1
  | data _ => Operand.width

def opcode? : Entry → Option Opcode
  | op o => some o
  | data _ => none

def isJumpDst : Entry → Bool
  | op .jumpDst => true
  | _ => false

/-- An entry in a listing: a mnemonic, or `#` and the bytes of the operand. -/
def text : Entry → String
  | op o => o.mnemonic
  | data d => "#" ++ Hex.ofBytes d.bytes

def appendTo (buf : Array UInt8) : Entry → Array UInt8
  | op o => buf.push o.byte
  | data d => buf ++ d.bytes

def appendAll (buf : Array UInt8) (es : List Entry) : Array UInt8 :=
  es.foldl appendTo buf

@[simp] theorem length_encode (e : Entry) : e.encode.length = e.width := by
  cases e with
  | op o => rfl
  | data d => exact d.length_bytes

theorem head?_encode (e : Entry) : e.encode.head? = some e.firstByte := by
  cases e with
  | op o => rfl
  | data d => exact List.head?_eq_some_head _

theorem isJumpDst_iff {e : Entry} : e.isJumpDst = true ↔ e = op .jumpDst := by
  unfold isJumpDst; split <;> simp_all

@[simp] theorem toList_appendTo (buf : Array UInt8) (e : Entry) :
    (e.appendTo buf).toList = buf.toList ++ e.encode := by
  cases e <;> simp [appendTo, encode]

@[simp] theorem toList_appendAll (buf : Array UInt8) (es : List Entry) :
    (appendAll buf es).toList = buf.toList ++ es.flatMap encode := by
  induction es generalizing buf with
  | nil => simp [appendAll]
  | cons e es ih =>
    rw [appendAll, List.foldl_cons, ← appendAll, ih, toList_appendTo, List.flatMap_cons,
      List.append_assoc]

end Entry

end Bytecode
