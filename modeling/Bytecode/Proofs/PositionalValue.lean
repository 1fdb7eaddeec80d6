import Mathlib.Algebra.BigOperators.Fin
import Mathlib.Tactic.Common
import Mathlib.Tactic.Ring
import Bytecode.Operand

/-!
Numbers written in bytes read back as they were, and so do operands as numbers.

`digits k n` keeps `n` modulo `256 ^ k`, so eight bytes keep a 64-bit number whole. Each byte
counts by the power of 256 that belongs to its place, and as the first counts most, the order of
numbers is the lexicographic order of their bytes.
-/

namespace Bytecode

namespace BigEndian

theorem value_digits (k n : Nat) : value (digits k n) = n % 256 ^ k := by
  induction k generalizing n with
  | zero => simp [digits, Nat.mod_one]
  | succ k ih =>
    rw [digits, value_append_singleton, ih, Nat.pow_succ', Nat.mod_mul, UInt8.toNat_ofNat']
    omega

theorem value_lt (ds : List UInt8) : value ds < 256 ^ ds.length := by
  rw [← List.reverse_reverse ds]
  induction ds.reverse with
  | nil => simp
  | cons d es ih =>
    have hd := d.toNat_lt
    rw [List.reverse_cons, value_append_singleton, List.length_append, List.length_singleton,
      Nat.pow_succ']
    omega

theorem digits_value (ds : List UInt8) : digits ds.length (value ds) = ds := by
  induction h : ds.length generalizing ds with
  | zero => simp [List.eq_nil_of_length_eq_zero h, digits]
  | succ k ih =>
    rcases List.eq_nil_or_concat ds with rfl | ⟨es, d, rfl⟩
    · simp at h
    · have hd := d.toNat_lt
      rw [List.concat_eq_append] at h ⊢
      rw [digits, value_append_singleton, show (256 * value es + d.toNat) / 256 = value es by omega,
        ih es (by simpa using h)]
      congr 2
      rw [← UInt8.toNat_inj, UInt8.toNat_ofNat']
      omega

/-! ### Places -/

theorem value_cons (d : UInt8) (ds : List UInt8) :
    value (d :: ds) = d.toNat * 256 ^ ds.length + value ds := by
  induction ds using List.reverseRecOn with
  | nil => simp [value]
  | append_singleton ds e ih =>
    rw [← List.cons_append, value_append_singleton, ih, value_append_singleton,
      List.length_append, List.length_singleton, Nat.pow_succ]
    ring

theorem value_ofFn {n : Nat} (f : Fin n → UInt8) :
    value (List.ofFn f) = ∑ i, (f i).toNat * 256 ^ (n - 1 - i.val) := by
  induction n with
  | zero => rfl
  | succ n ih =>
    rw [List.ofFn_succ, value_cons, ih, List.length_ofFn, Fin.sum_univ_succ]
    congr 1
    refine Finset.sum_congr rfl fun i _ => ?_
    rw [Fin.val_succ, Nat.add_sub_cancel, Nat.sub_sub, Nat.add_comm 1]

lemma mul_add_lt_mul_add_iff {a b x y base : Nat} (hx : x < base) (hy : y < base) :
    a * base + x < b * base + y ↔ a < b ∨ a = b ∧ x < y := by
  rcases Nat.lt_trichotomy a b with hlt | rfl | hgt
  · have hstep : (a + 1) * base ≤ b * base := Nat.mul_le_mul_right base hlt
    rw [Nat.add_mul, Nat.one_mul] at hstep
    exact iff_of_true (by omega) (.inl hlt)
  · simp
  · have hstep : (b + 1) * base ≤ a * base := Nat.mul_le_mul_right base hgt
    rw [Nat.add_mul, Nat.one_mul] at hstep
    exact iff_of_false (by omega) (by omega)

theorem lex_iff_value_lt {ds es : List UInt8} (h : ds.length = es.length) :
    List.Lex (· < ·) ds es ↔ value ds < value es := by
  induction ds generalizing es with
  | nil =>
    obtain rfl : es = [] := List.eq_nil_of_length_eq_zero h.symm
    simp
  | cons d ds ih =>
    cases es with
    | nil => simp at h
    | cons e es =>
      have hlen : ds.length = es.length := Nat.succ.inj h
      have hds : value ds < 256 ^ es.length := hlen ▸ value_lt ds
      rw [List.cons_lex_cons_iff, ih hlen, value_cons, value_cons, hlen,
        mul_add_lt_mul_add_iff hds (value_lt es), UInt8.lt_iff_toNat_lt, UInt8.toNat_inj]

end BigEndian

namespace Operand

def byte (d : Operand) (i : Fin width) : UInt8 := d.bytes.get (i.cast d.length_bytes.symm)

theorem value_bytes_lt (d : Operand) : BigEndian.value d.bytes < 2 ^ 64 := by
  have h := BigEndian.value_lt d.bytes
  rwa [d.length_bytes] at h

theorem toNat_toUInt64 (d : Operand) : d.toUInt64.toNat = BigEndian.value d.bytes := by
  rw [toUInt64, UInt64.toNat_ofNat', Nat.mod_eq_of_lt d.value_bytes_lt]

@[simp] theorem toUInt64_ofUInt64 (v : UInt64) : (ofUInt64 v).toUInt64 = v := by
  rw [← UInt64.toNat_inj, toNat_toUInt64, ofUInt64, BigEndian.value_digits]
  exact Nat.mod_eq_of_lt v.toNat_lt

@[simp] theorem ofUInt64_toUInt64 (d : Operand) : ofUInt64 d.toUInt64 = d := by
  refine ext ?_
  have h := BigEndian.digits_value d.bytes
  rwa [d.length_bytes, ← toNat_toUInt64] at h

lemma bytes_eq_ofFn (d : Operand) : d.bytes = List.ofFn d.byte := by
  refine List.ext_getElem (by rw [d.length_bytes, List.length_ofFn]) fun i _ _ => ?_
  rw [List.getElem_ofFn]
  rfl

theorem toNat_toUInt64_eq_sum (d : Operand) :
    d.toUInt64.toNat = ∑ i, (d.byte i).toNat * 256 ^ (width - 1 - i.val) := by
  rw [toNat_toUInt64, bytes_eq_ofFn, BigEndian.value_ofFn]

theorem lt_iff_lex_bytes (v w : UInt64) :
    v < w ↔ List.Lex (· < ·) (ofUInt64 v).bytes (ofUInt64 w).bytes := by
  have hlen : (ofUInt64 v).bytes.length = (ofUInt64 w).bytes.length := by
    rw [length_bytes, length_bytes]
  rw [BigEndian.lex_iff_value_lt hlen, ← toNat_toUInt64, ← toNat_toUInt64, toUInt64_ofUInt64,
    toUInt64_ofUInt64, UInt64.lt_iff_toNat_lt]

end Operand

end Bytecode
