import Bytecode.BigEndian

/-!
The operand that an instruction carries inline: eight bytes, kept as they stand in the stream.

An operand is read off the front of a stream by `split?`, and stands for a 64-bit number whose
most significant byte comes first.
-/

namespace Bytecode

abbrev Operand.width : Nat := 8

structure Operand where
  bytes : List UInt8
  length_bytes : bytes.length = Operand.width
deriving DecidableEq, Repr

namespace Operand

@[ext] theorem ext {d e : Operand} (h : d.bytes = e.bytes) : d = e := by
  cases d; cases e; simpa using h

def ofBytes? (bs : List UInt8) : Option Operand :=
  if h : bs.length = width then some ⟨bs, h⟩ else none

def ofUInt64 (v : UInt64) : Operand :=
  ⟨BigEndian.digits width v.toNat, BigEndian.length_digits _ _⟩

def toUInt64 (d : Operand) : UInt64 :=
  UInt64.ofNat (BigEndian.value d.bytes)

def firstByte (d : Operand) : UInt8 :=
  d.bytes.head (List.ne_nil_of_length_pos (by simp [d.length_bytes]))

/-- The operand at the front of a stream and the bytes behind it. -/
def split? (bs : List UInt8) : Option (Operand × List UInt8) :=
  if h : (bs.take width).length = width then some (⟨bs.take width, h⟩, bs.drop width) else none

/-! ### Reading off a stream -/

theorem split?_eq_none_iff {bs : List UInt8} : split? bs = none ↔ bs.length < width := by
  have h : (bs.take width).length = min width bs.length := List.length_take
  unfold split?
  split
  · exact iff_of_false (by simp) (by omega)
  · exact iff_of_true rfl (by omega)

theorem split?_eq_some_iff {bs r : List UInt8} {d : Operand} :
    split? bs = some (d, r) ↔ bs = d.bytes ++ r := by
  constructor
  · intro h
    simp only [split?] at h
    split at h
    · cases h
      exact (List.take_append_drop _ _).symm
    · cases h
  · rintro rfl
    have ht : (d.bytes ++ r).take width = d.bytes := by simp [d.length_bytes]
    have hd : (d.bytes ++ r).drop width = r := by simp [d.length_bytes]
    simp [split?, d.length_bytes]

end Operand

end Bytecode
