/-!
Bytes as text: two lower-case hexadecimal digits a byte.
-/

namespace Bytecode.Hex

/-- The two hexadecimal digits of a byte, the high one first. -/
def digits (b : UInt8) : List Char :=
  [Nat.digitChar (b.toNat / 16), Nat.digitChar (b.toNat % 16)]

def ofByte (b : UInt8) : String :=
  String.ofList (digits b)

def ofBytes (bs : List UInt8) : String :=
  String.ofList (bs.flatMap digits)

theorem digits_injective {a b : UInt8} (h : digits a = digits b) : a = b := by
  have key : ∀ m < 16, ∀ n < 16, Nat.digitChar m = Nat.digitChar n → m = n := by decide
  have ha := a.toNat_lt
  have hb := b.toNat_lt
  simp only [digits, List.cons.injEq, and_true] at h
  have hi := key _ (by omega) _ (by omega) h.1
  have lo := key _ (by omega) _ (by omega) h.2
  exact UInt8.toNat_inj.1 (by omega)

theorem ofByte_append_inj {a b : UInt8} {r s : String} :
    ofByte a ++ r = ofByte b ++ s ↔ a = b ∧ r = s := by
  refine ⟨fun h => ?_, fun ⟨ha, hr⟩ => by rw [ha, hr]⟩
  have hchars : digits a ++ r.toList = digits b ++ s.toList := by
    simpa only [ofByte, String.toList_append, String.toList_ofList] using congrArg String.toList h
  obtain ⟨hd, hr⟩ := List.append_inj hchars rfl
  exact ⟨digits_injective hd, String.toList_inj.1 hr⟩

theorem ofByte_inj {a b : UInt8} : ofByte a = ofByte b ↔ a = b := by
  rw [ofByte, ofByte, String.ofList_inj]
  exact ⟨digits_injective, congrArg digits⟩

end Bytecode.Hex
