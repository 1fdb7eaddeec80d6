import Mathlib.Algebra.GroupWithZero.Nat
import Mathlib.Tactic.Common
import Bytecode.Proofs.Disassembly

/-!
Where the entries of a program stand in its byte stream.

An entry begins where the widths of those in front of it end. From there on stand its bytes and
those of the entries behind it, whether the entries are paired or not.
-/

namespace Bytecode

open Instruction

namespace Entry

/-- The byte offset of the entry with index `i`: the widths of all in front of it. -/
def offset (es : List Entry) (i : Nat) : Nat := ((es.take i).map width).sum

lemma width_pos (e : Entry) : 0 < e.width := by
  cases e <;> simp [width]

lemma length_flatMap_encode (es : List Entry) :
    (es.flatMap encode).length = (es.map width).sum := by
  rw [List.length_flatMap]
  exact congrArg (fun f => (es.map f).sum) (funext length_encode)

variable {es : List Entry} {e : Entry} {i j : Nat}

lemma offset_eq_length (es : List Entry) (i : Nat) :
    offset es i = ((es.take i).flatMap encode).length := by
  rw [length_flatMap_encode, offset]

lemma offset_of_length_le (h : es.length ≤ i) : offset es i = (es.flatMap encode).length := by
  rw [offset_eq_length, List.take_of_length_le h]

lemma offset_add (es : List Entry) (i j : Nat) :
    offset es (i + j) = offset es i + offset (es.drop i) j := by
  rw [offset, List.take_add, List.map_append, List.sum_append, offset, offset]

lemma offset_mono (h : i ≤ j) : offset es i ≤ offset es j := by
  obtain ⟨k, rfl⟩ := Nat.exists_eq_add_of_le h
  rw [offset_add]
  exact Nat.le_add_right _ _

lemma offset_succ (h : es[i]? = some e) : offset es (i + 1) = offset es i + e.width := by
  obtain ⟨hi, rfl⟩ := List.getElem?_eq_some_iff.1 h
  rw [offset_add, List.drop_eq_getElem_cons hi]
  rfl

lemma offset_lt_offset (h : i < j) (hi : i < es.length) : offset es i < offset es j := by
  have hw := es[i].width_pos
  have hs := offset_succ (List.getElem?_eq_getElem hi)
  have hm : offset es (i + 1) ≤ offset es j := offset_mono h
  omega

/-! ### The bytes at an offset -/

lemma drop_offset (es : List Entry) (i : Nat) :
    (es.flatMap encode).drop (offset es i) = (es.drop i).flatMap encode := by
  conv_lhs => rw [← List.take_append_drop i es, List.flatMap_append]
  rw [List.drop_left' (by rw [List.take_append_drop, offset_eq_length])]

lemma drop_offset_of_getElem? (h : es[i]? = some e) :
    (es.flatMap encode).drop (offset es i) = e.encode ++ (es.drop (i + 1)).flatMap encode := by
  obtain ⟨hi, rfl⟩ := List.getElem?_eq_some_iff.1 h
  rw [drop_offset, List.drop_eq_getElem_cons hi, List.flatMap_cons]

lemma take_width_drop_offset (h : es[i]? = some e) :
    ((es.flatMap encode).drop (offset es i)).take e.width = e.encode := by
  rw [drop_offset_of_getElem? h, ← length_encode, List.take_left]

lemma getElem?_offset (h : es[i]? = some e) :
    (es.flatMap encode)[offset es i]? = some e.firstByte := by
  have hne : 0 < e.encode.length := by
    rw [length_encode]
    exact e.width_pos
  rw [← Nat.add_zero (offset es i), ← List.getElem?_drop, drop_offset_of_getElem? h,
    List.getElem?_append_left hne, ← List.head?_eq_getElem?, head?_encode]

end Entry

namespace Program

def offset (p : Program) (i : Nat) : Nat := Entry.offset p.entries.toList i

lemma offset_succ {p : Program} {i : Nat} {e : Entry} (he : p.get? i = some e) :
    p.offset (i + 1) = p.offset i + e.width := by
  rw [get?_eq] at he
  exact Entry.offset_succ he

lemma offset_ofInstructions (is js : List Instruction) :
    (ofInstructions (is ++ js)).offset (listing is).length = (codes is).length := by
  rw [offset, entries_ofInstructions, Entry.offset_eq_length, listing_append, List.take_left,
    flatMap_encode_listing]

end Program

end Bytecode
