import Mathlib

/-!
# Address blocks

* `mask w p` : the `p` leading ones of a `w`-bit word;
* `and_mask_eq_iff` : two words agree under the mask exactly when their leading `p` bits, read as a number, do;
* `toNat_append_eq` : a word written as two halves, as a number.
-/

namespace CitadelAgent.Lib.Cidr

def mask (w p : Nat) : BitVec w := if p = 0 then 0 else BitVec.allOnes w <<< (w - p)

theorem getLsbD_mask {w p : Nat} (hp : p ≤ w) (i : Nat) : (mask w p).getLsbD i = (decide (w - p ≤ i) && decide (i < w)) := by
  unfold mask
  split
  · rename_i h
    subst h
    by_cases hi : i < w
    · simp [Nat.not_le.mpr hi]
    · simp [hi]
  · simp only [BitVec.getLsbD_shiftLeft, BitVec.getLsbD_allOnes]
    by_cases hi : i < w <;> by_cases hk : i < w - p <;> simp [hi, hk] <;> omega

theorem shiftRight_and_mask {w p : Nat} (hp : p ≤ w) (x : BitVec w) :
    (x &&& mask w p) >>> (w - p) = x >>> (w - p) := by
  refine BitVec.eq_of_getLsbD_eq fun i hi => ?_
  simp only [BitVec.getLsbD_ushiftRight, BitVec.getLsbD_and, getLsbD_mask hp]
  by_cases h : w - p + i < w
  · simp [h]
  · rw [BitVec.getLsbD_of_ge x _ (by omega)]
    rfl

theorem shiftLeft_shiftRight_mask {w p : Nat} (hp : p ≤ w) (x : BitVec w) :
    (x >>> (w - p)) <<< (w - p) = x &&& mask w p := by
  refine BitVec.eq_of_getLsbD_eq fun i hi => ?_
  simp only [BitVec.getLsbD_shiftLeft, BitVec.getLsbD_ushiftRight, BitVec.getLsbD_and, getLsbD_mask hp, hi]
  by_cases h : i < w - p
  · simp [h, Nat.not_le.mpr h]
  · have hle : w - p ≤ i := Nat.le_of_not_lt h
    have hsum : w - p + (i - (w - p)) = i := by omega
    simp [h, hle, hsum]

theorem and_mask_eq_iff {w p : Nat} (hp : p ≤ w) (x y : BitVec w) :
    x &&& mask w p = y &&& mask w p ↔ x.toNat / 2 ^ (w - p) = y.toNat / 2 ^ (w - p) := by
  have hdiv : ∀ z : BitVec w, (z >>> (w - p)).toNat = z.toNat / 2 ^ (w - p) := by
    intro z
    rw [BitVec.toNat_ushiftRight, Nat.shiftRight_eq_div_pow]
  constructor
  · intro h
    rw [← hdiv, ← hdiv, ← shiftRight_and_mask hp x, h, shiftRight_and_mask hp y]
  · intro h
    have hshift : x >>> (w - p) = y >>> (w - p) := BitVec.eq_of_toNat_eq (by rw [hdiv, hdiv, h])
    rw [← shiftLeft_shiftRight_mask hp x, hshift, shiftLeft_shiftRight_mask hp y]

theorem toNat_append_eq {m n : Nat} (x : BitVec m) (y : BitVec n) :
    (x ++ y).toNat = x.toNat * 2 ^ n + y.toNat := by
  rw [BitVec.toNat_append, ← Nat.shiftLeft_add_eq_or_of_lt y.isLt, Nat.shiftLeft_eq]

end CitadelAgent.Lib.Cidr
