/-!
Numbers written in bytes, most significant byte first.

`digits k n` writes `n` in exactly `k` bytes, leaving out what does not fit, and `value` reads any
number of bytes.
-/

namespace Bytecode.BigEndian

/-- The last `k` digits of `n` in base 256, the most significant first. -/
def digits : Nat → Nat → List UInt8
  | 0, _ => []
  | k + 1, n => digits k (n / 256) ++ [UInt8.ofNat n]

def value (ds : List UInt8) : Nat :=
  ds.foldl (fun v d => 256 * v + d.toNat) 0

@[simp] theorem length_digits (k n : Nat) : (digits k n).length = k := by
  induction k generalizing n with
  | zero => rfl
  | succ k ih => simp [digits, ih]

@[simp] theorem value_nil : value [] = 0 := rfl

@[simp] theorem value_append_singleton (ds : List UInt8) (d : UInt8) :
    value (ds ++ [d]) = 256 * value ds + d.toNat := by
  simp [value]

end Bytecode.BigEndian
