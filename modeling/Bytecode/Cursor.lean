import Bytecode.Program.Traversal

/-!
Reading a program straight off its bytes, with no list of entries.

A cursor stands on an opcode byte or on the first byte of an operand. It moves on as a program
does, and jumps by starting anew and counting entries.
-/

namespace Bytecode

structure Cursor where
  offset : Nat
  inOperand : Bool
deriving DecidableEq, Repr

inductive Cursor.Reply where
  | reached (e : Option Entry)
  | jumped (done : Bool)
deriving DecidableEq, Repr

namespace Cursor

def start : Cursor := ⟨0, false⟩

/-- The position behind an entry. -/
def successor (bytes : List UInt8) (c : Cursor) : Cursor :=
  if c.inOperand then ⟨c.offset + Operand.width, false⟩
  else ⟨c.offset + 1, bytes[c.offset]? == some Opcode.push.byte⟩

def current? (bytes : List UInt8) (c : Cursor) : Option Entry :=
  if c.inOperand then
    (Operand.ofBytes? ((bytes.drop c.offset).take Operand.width)).map .data
  else bytes[c.offset]?.bind fun b => (Opcode.ofByte? b).map .op

def next? (bytes : List UInt8) (c : Cursor) : Option Cursor :=
  if bytes = [] ∨ (c.successor bytes).offset = bytes.length then none
  else some (c.successor bytes)

/-- The position of the entry with the given index, counted from a cursor on. -/
def seek? (bytes : List UInt8) (c : Cursor) : Nat → Option Cursor
  | 0 => if bytes = [] then none else some c
  | n + 1 => (c.next? bytes).bind fun d => d.seek? bytes n

/-- Makes one move. A move that fails leaves the cursor where it is. -/
def move (bytes : List UInt8) (c : Cursor) : Move → Cursor × Reply
  | .next =>
    match c.next? bytes with
    | some d => (d, .reached (d.current? bytes))
    | none => (c, .reached none)
  | .jump target =>
    match start.seek? bytes target with
    | some d => (d, .jumped true)
    | none => (c, .jumped false)

/-- Makes moves one after the other. Each is listed with its reply and the entry that the cursor
stands on behind it. -/
def moves (bytes : List UInt8) (c : Cursor) : List Move → List (Reply × Option Entry)
  | [] => []
  | m :: ms => ((c.move bytes m).2, (c.move bytes m).1.current? bytes) ::
      (c.move bytes m).1.moves bytes ms

end Cursor

/-- What a cursor reports where a program makes a given reply. -/
def Move.Reply.seen : Move.Reply → Cursor.Reply
  | .reached e => .reached e
  | .done => .jumped true
  | .refused _ => .jumped false

end Bytecode
