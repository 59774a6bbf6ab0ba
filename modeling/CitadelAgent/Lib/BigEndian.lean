import Mathlib

/-!
# Big-endian words

`beBytes k n` is the `k`-byte big-endian form of `n`, `ofBe` its reading: the two are inverse on numbers below
`256 ^ k` (`ofBe_beBytes`) and on byte strings of length `k` (`beBytes_ofBe`).
-/

namespace BigEndian

/-- The last `k` base-256 digits of `n`, most significant first. -/
def beBytes : Nat → Nat → List UInt8
  | 0, _ => []
  | k + 1, n => UInt8.ofNat (n / 256 ^ k) :: beBytes k n

def ofBe : List UInt8 → Nat
  | [] => 0
  | b :: bs => b.toNat * 256 ^ bs.length + ofBe bs

@[simp] theorem length_beBytes (k n : Nat) : (beBytes k n).length = k := by
  induction k with
  | zero => simp [beBytes]
  | succ k ih => simp [beBytes, ih]

theorem ofBe_lt (bs : List UInt8) : ofBe bs < 256 ^ bs.length := by
  induction bs with
  | nil => simp [ofBe]
  | cons b bs ih =>
    have hb : b.toNat + 1 ≤ 256 := b.toNat_lt
    calc ofBe (b :: bs) < b.toNat * 256 ^ bs.length + 256 ^ bs.length := by simp only [ofBe]; omega
      _ = (b.toNat + 1) * 256 ^ bs.length := by ring
      _ ≤ 256 * 256 ^ bs.length := Nat.mul_le_mul_right _ hb
      _ = 256 ^ (b :: bs).length := by rw [List.length_cons, pow_succ]; ring

theorem beBytes_add_mul (k n m : Nat) : beBytes k (m * 256 ^ k + n) = beBytes k n := by
  induction k generalizing m with
  | zero => rfl
  | succ k ih =>
    have hpos : 0 < 256 ^ k := by positivity
    have hdiv : (m * 256 ^ (k + 1) + n) / 256 ^ k = m * 256 + n / 256 ^ k := by
      rw [show m * 256 ^ (k + 1) + n = n + 256 ^ k * (m * 256) by ring, Nat.add_mul_div_left _ _ hpos]
      omega
    have htail := ih (m * 256)
    rw [show m * 256 * 256 ^ k = m * 256 ^ (k + 1) by ring] at htail
    rw [beBytes, beBytes, htail, hdiv, ← UInt8.toNat_inj.mp (by simp : (UInt8.ofNat (m * 256 + n / 256 ^ k)).toNat
      = (UInt8.ofNat (n / 256 ^ k)).toNat)]

theorem ofBe_beBytes {k n : Nat} (h : n < 256 ^ k) : ofBe (beBytes k n) = n := by
  induction k generalizing n with
  | zero => simp at h; simp [beBytes, ofBe, h]
  | succ k ih =>
    have hpos : 0 < 256 ^ k := by positivity
    have hd : n / 256 ^ k < 256 := Nat.div_lt_of_lt_mul (by rwa [pow_succ] at h)
    have hsplit : n / 256 ^ k * 256 ^ k + n % 256 ^ k = n := Nat.div_add_mod' n (256 ^ k)
    have htail : beBytes k n = beBytes k (n % 256 ^ k) := by
      conv_lhs => rw [← hsplit]
      exact beBytes_add_mul k _ _
    rw [beBytes, ofBe, htail, ih (Nat.mod_lt _ hpos), length_beBytes, UInt8.toNat_ofNat_of_lt' (by simpa using hd)]
    exact hsplit

theorem beBytes_ofBe (bs : List UInt8) : beBytes bs.length (ofBe bs) = bs := by
  induction bs with
  | nil => rfl
  | cons b bs ih =>
    have hpos : 0 < 256 ^ bs.length := by positivity
    have hd : (b.toNat * 256 ^ bs.length + ofBe bs) / 256 ^ bs.length = b.toNat := by
      rw [Nat.mul_comm, Nat.mul_add_div hpos, Nat.div_eq_of_lt (ofBe_lt bs), Nat.add_zero]
    rw [List.length_cons, beBytes, ofBe, hd, beBytes_add_mul, ih, UInt8.ofNat_toNat]

end BigEndian
