import Mathlib.Tactic.Common
import Bytecode.Proofs.ByteOffset

/-!
Writing entries at the end of a buffer.

What the buffer holds stays, and behind it come the bytes of the entries one after the other, as
many as their widths say. It makes no difference where the writing is left and taken up again, nor
whether the entries are paired. An entry is known by its bytes: opcodes by the one that is theirs,
and operands by having more. Main statement: `appendAll_only_appends`.
-/

namespace Bytecode.Entry

variable {e f : Entry} {buf : Array UInt8} {es fs : List Entry}

lemma encode_ne_nil (e : Entry) : e.encode ≠ [] := by
  rw [← List.length_pos_iff, length_encode]
  exact e.width_pos

lemma encode_op_ne_encode_data {o : Opcode} {d : Operand} : (op o).encode ≠ (data d).encode := by
  intro h
  have hwidth : (op o).width = (data d).width := by rw [← length_encode, h, length_encode]
  simp [width, Operand.width] at hwidth

lemma encode_inj : e.encode = f.encode ↔ e = f := by
  refine ⟨fun h => ?_, congrArg encode⟩
  cases e with
  | op o =>
    cases f with
    | op q =>
      have hbyte : o.byte = q.byte := List.head_eq_of_cons_eq h
      rw [Opcode.byte_injective hbyte]
    | data d => exact absurd h encode_op_ne_encode_data
  | data d =>
    cases f with
    | op o => exact absurd h.symm encode_op_ne_encode_data
    | data c => rw [Operand.ext h]

lemma appendAll_append : appendAll buf (es ++ fs) = appendAll (appendAll buf es) fs :=
  List.foldl_append

lemma size_appendAll : (appendAll buf es).size = buf.size + (es.map width).sum := by
  rw [← Array.length_toList, toList_appendAll, List.length_append, Array.length_toList,
    length_flatMap_encode]

/-- **Writing only appends, entry by entry.** Behind what the buffer held come the bytes of the
entries, and after each of them the buffer has grown by the widths so far. Writing may be left
anywhere and taken up again. What an entry adds is not empty and begins with its first byte, and no
other entry adds the same. -/
theorem appendAll_only_appends (buf : Array UInt8) (es : List Entry) :
    (appendAll buf es).toList = buf.toList ++ es.flatMap encode ∧
    (∀ k, (appendAll buf (es.take k)).size = buf.size + ((es.take k).map width).sum) ∧
    (∀ k, appendAll (appendAll buf (es.take k)) (es.drop k) = appendAll buf es) ∧
    (∀ e : Entry, (e.appendTo buf).toList = buf.toList ++ e.encode ∧ e.encode ≠ [] ∧
      e.encode.head? = some e.firstByte) ∧
    ∀ e f : Entry, e.encode = f.encode ↔ e = f := by
  refine ⟨toList_appendAll buf es, fun k => size_appendAll, fun k => ?_, fun e => ?_,
    fun _ _ => encode_inj⟩
  · rw [← appendAll_append, List.take_append_drop]
  · exact ⟨toList_appendTo buf e, e.encode_ne_nil, e.head?_encode⟩

/-- A buffer that ends in a push byte, and an operand behind it that no push precedes. -/
example : (appendAll #[0x21] [.data (.ofUInt64 0x2129), .op .jumpDst]).toList =
    [0x21, 0, 0, 0, 0, 0, 0, 0x21, 0x29, 0x29] := by
  decide

end Bytecode.Entry
