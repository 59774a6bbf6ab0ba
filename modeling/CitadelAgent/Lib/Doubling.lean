import Mathlib

/-!
# A factor that doubles

`1u32.checked_shl(n).unwrap_or(u32::MAX)`, the factor of an exponential backoff, as the number it is.
-/

namespace CitadelAgent.Doubling

theorem toNat_shift (n : UInt32) :
    (if n < 32 then 1 <<< n else UInt32.ofNat (2 ^ 32 - 1)).toNat = min (2 ^ n.toNat) (2 ^ 32 - 1) := by
  split_ifs with h
  · have h : n.toNat < 32 := by simpa using UInt32.lt_iff_toNat_lt.1 h
    have hlt : 2 ^ n.toNat < 2 ^ 32 := Nat.pow_lt_pow_right (by decide) h
    rw [UInt32.toNat_shiftLeft, Nat.mod_eq_of_lt h, UInt32.toNat_one, Nat.one_shiftLeft, Nat.mod_eq_of_lt hlt]
    omega
  · have h : 32 ≤ n.toNat := by simpa using UInt32.le_iff_toNat_le.1 (UInt32.not_lt.1 h)
    have hle : 2 ^ 32 ≤ 2 ^ n.toNat := Nat.pow_le_pow_right (by decide) h
    rw [Nat.min_eq_right (Nat.le_trans (Nat.sub_le _ _) hle)]
    rfl

end CitadelAgent.Doubling
