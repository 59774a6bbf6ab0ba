import CitadelAgent.Lib.Float64

/-!
# Binary64: what is exact

* `magBits_strictMono`, `roundBits_magBits` : bits and magnitudes are in order, and rounding a representable
  magnitude gives its bits;
* `ofInt_toI64`, `ofInt_toU64` : an integral float is its own cast there and back, up to the sign of zero.
-/

namespace F64

/-! ## Bits and magnitudes -/

theorem magBits_lt_succ (b : Nat) : magBits b < magBits (b + 1) := by
  unfold magBits
  by_cases h : b + 1 < 2 ^ 52
  · rw [if_pos h, if_pos (by omega)]
    omega
  rw [if_neg h]
  by_cases h' : b < 2 ^ 52
  · obtain rfl : b = 2 ^ 52 - 1 := by omega
    decide
  rw [if_neg h']
  by_cases hf : b % 2 ^ 52 + 1 < 2 ^ 52
  · rw [show (b + 1) % 2 ^ 52 = b % 2 ^ 52 + 1 by omega, show (b + 1) / 2 ^ 52 = b / 2 ^ 52 by omega]
    exact Nat.mul_lt_mul_of_pos_right (by omega) (Nat.two_pow_pos _)
  · -- the fraction wraps and the exponent goes up
    rw [show (b + 1) % 2 ^ 52 = 0 by omega, show (b + 1) / 2 ^ 52 - 1 = (b / 2 ^ 52 - 1) + 1 by omega, pow_succ]
    have hpos : 0 < 2 ^ (b / 2 ^ 52 - 1) := Nat.two_pow_pos _
    have hlt : 2 ^ 52 + b % 2 ^ 52 < (2 ^ 52 + 0) * 2 := by omega
    calc (2 ^ 52 + b % 2 ^ 52) * 2 ^ (b / 2 ^ 52 - 1) < (2 ^ 52 + 0) * 2 * 2 ^ (b / 2 ^ 52 - 1) :=
          Nat.mul_lt_mul_of_pos_right hlt hpos
      _ = (2 ^ 52 + 0) * (2 ^ (b / 2 ^ 52 - 1) * 2) := by ring

theorem magBits_strictMono : StrictMono magBits := strictMono_nat_of_lt_succ magBits_lt_succ

@[simp] theorem magBits_zero : magBits 0 = 0 := rfl

variable {n m b : Nat} {x y : F64} {z : Bool} {k : Int}

theorem roundBits_of_dvd {k : Nat} (hk : n.log2 - 52 = k) (h : 2 ^ k ∣ n) :
    roundBits n 0 = min (k * 2 ^ 52 + n / 2 ^ k) infBits := by
  obtain ⟨m, rfl⟩ := h
  have hpos : 0 < 2 ^ k := Nat.two_pow_pos _
  simp only [roundBits, Nat.zero_add, Nat.add_zero, hk, Nat.mul_mod_right]
  rw [if_pos (.inl (by omega))]

theorem log2_eq {k : Nat} (h₁ : 2 ^ k ≤ m) (h₂ : m < 2 ^ (k + 1)) : m.log2 = k := by
  have hm : m ≠ 0 := by have := Nat.two_pow_pos k; omega
  exact (Nat.log2_eq_iff hm).mpr ⟨h₁, h₂⟩

theorem log2_mul_two_pow (hm : m ≠ 0) (k : Nat) : (m * 2 ^ k).log2 = m.log2 + k := by
  obtain ⟨h₁, h₂⟩ := (Nat.log2_eq_iff hm).mp rfl
  have hpos := Nat.two_pow_pos k
  refine log2_eq ?_ ?_
  · rw [Nat.pow_add]
    exact Nat.mul_le_mul_right _ h₁
  · rw [show m.log2 + k + 1 = (m.log2 + 1) + k by omega, Nat.pow_add]
    exact Nat.mul_lt_mul_of_pos_right h₂ hpos

theorem roundBits_magBits (hb : b < infBits) : roundBits (magBits b) 0 = b := by
  unfold magBits
  split_ifs with h
  · have hlog : b.log2 - 52 = 0 := by
      by_cases h0 : b = 0
      · simp [h0]
      · have := (Nat.log2_lt h0).mpr h
        omega
    rw [roundBits_of_dvd hlog (by simp)]
    simp only [Nat.zero_mul, Nat.zero_add, pow_zero, Nat.div_one]
    exact Nat.min_eq_left hb.le
  · have hm : (2 ^ 52 + b % 2 ^ 52).log2 = 52 := log2_eq (by omega) (by omega)
    have hlog : ((2 ^ 52 + b % 2 ^ 52) * 2 ^ (b / 2 ^ 52 - 1)).log2 - 52 = b / 2 ^ 52 - 1 := by
      rw [log2_mul_two_pow (by omega), hm]
      omega
    rw [roundBits_of_dvd hlog (Nat.dvd_mul_left _ _), Nat.mul_div_cancel _ (Nat.two_pow_pos _)]
    have hb' : (b / 2 ^ 52 - 1) * 2 ^ 52 + (2 ^ 52 + b % 2 ^ 52) = b := by omega
    rw [hb']
    exact Nat.min_eq_left hb.le

/-- Half a unit in the last place of the largest finite magnitude. -/
def halfUlp : Nat := 2 ^ 2044

theorem two_pow_mul {a c : Nat} (h : a + b = c) : 2 ^ a * 2 ^ b = 2 ^ c := by
  rw [← Nat.pow_add, h]

theorem halfUlp_pos : 0 < halfUlp := by
  unfold halfUlp
  positivity

theorem oneMag_mul_lt_halfUlp : 2 ^ 128 * oneMag < halfUlp := by
  unfold oneMag halfUlp
  rw [two_pow_mul (c := 1202) (by norm_num)]
  exact Nat.pow_lt_pow_right (by norm_num) (by omega)

theorem roundBits_lt_infBits (h : n < (2 ^ 54 - 1) * halfUlp) : roundBits n 0 < infBits := by
  have hlog : n.log2 ≤ 2097 := by
    by_cases h0 : n = 0
    · simp [h0]
    · have hn : n < 2 ^ 2098 := by
        have hmul : (2 ^ 54 - 1) * halfUlp < 2 ^ 54 * halfUlp :=
          Nat.mul_lt_mul_of_pos_right (by decide) halfUlp_pos
        have hpow : 2 ^ 54 * halfUlp = 2 ^ 2098 := by
          unfold halfUlp
          exact two_pow_mul (by norm_num)
        exact (h.trans hmul).trans_eq hpow
      exact Nat.le_of_lt_succ ((Nat.log2_lt h0).mpr hn)
  have hq : n / 2 ^ (n.log2 - 52) < 2 ^ 53 := by
    rw [Nat.div_lt_iff_lt_mul (Nat.two_pow_pos _), ← Nat.pow_add]
    exact Nat.lt_of_lt_of_le Nat.lt_log2_self (Nat.pow_le_pow_right (by decide) (by omega))
  simp only [roundBits, Nat.zero_add, Nat.add_zero]
  generalize hk : n.log2 - 52 = k at hq ⊢
  have hk45 : k ≤ 2045 := by omega
  refine Nat.lt_of_le_of_lt (Nat.min_le_left _ _) ?_
  by_cases hlast : k = 2045
  · -- in the last binade the quotient cannot round up to `2 ^ 53`
    subst hlast
    have hround : n / 2 ^ 2045 + 1 = 2 ^ 53 → 2 * (n % 2 ^ 2045) < 2 ^ 2045 := by
      intro hmax
      have hdm := Nat.div_add_mod n (2 ^ 2045)
      rw [show n / 2 ^ 2045 = 2 ^ 53 - 1 by omega] at hdm
      have htwice : 2 ^ 2045 = halfUlp * 2 := by
        unfold halfUlp
        exact pow_succ 2 2044
      rw [htwice] at hdm ⊢
      generalize halfUlp = d at *
      omega
    unfold infBits
    split_ifs with hc
    · omega
    · have hne : n / 2 ^ 2045 + 1 ≠ 2 ^ 53 := fun hmax => hc (.inl (hround hmax))
      generalize n / 2 ^ 2045 = q at *
      omega
  · unfold infBits
    split_ifs <;> omega

theorem roundBits_pos (h : 0 < n) : 0 < roundBits n 0 := by
  have hlog := Nat.log2_self_le (Nat.pos_iff_ne_zero.mp h)
  have hq : 0 < n / 2 ^ (n.log2 - 52) :=
    Nat.div_pos (Nat.le_trans (Nat.pow_le_pow_right (by decide) (Nat.sub_le _ _)) hlog) (Nat.two_pow_pos _)
  simp only [roundBits, Nat.zero_add, Nat.add_zero]
  refine lt_min ?_ (by decide)
  split_ifs <;> omega

/-! ## Sign and magnitude -/

@[simp] theorem absBits_ofSignBits (hb : b < 2 ^ 63) (s : Bool) : (ofSignBits s b).absBits = b := by
  unfold absBits ofSignBits
  rw [UInt64.toNat_ofNat']
  split_ifs <;> omega

@[simp] theorem isSignNegative_ofSignBits (hb : b < 2 ^ 63) (s : Bool) :
    (ofSignBits s b).isSignNegative = s := by
  unfold isSignNegative ofSignBits
  rw [UInt64.toNat_ofNat']
  cases s
  · simpa using by omega
  · simpa using by omega

theorem ext_absBits (hs : x.isSignNegative = y.isSignNegative) (h : x.absBits = y.absBits) : x = y := by
  obtain ⟨bx⟩ := x
  obtain ⟨bY⟩ := y
  have hx := bx.toNat_lt
  have hy := bY.toNat_lt
  simp only [isSignNegative, absBits, decide_eq_decide] at hs h
  congr
  apply UInt64.toNat_inj.mp
  omega

theorem eq_ofSignBits_zero (h : x.absBits = 0) : x = ofSignBits x.isSignNegative 0 :=
  ext_absBits (by rw [isSignNegative_ofSignBits (by decide)]) (by rw [absBits_ofSignBits (by decide), h])

theorem infBits_lt : infBits < 2 ^ 63 := by decide

theorem isFinite_iff : x.isFinite = true ↔ x.absBits < infBits := by simp [isFinite]

theorem not_isNaN_of_isFinite (h : x.isFinite = true) : x.isNaN = false := by
  simp only [isFinite_iff, isNaN, decide_eq_false_iff_not] at *
  omega

theorem not_isInfinite_of_isFinite (h : x.isFinite = true) : x.isInfinite = false := by
  simp only [isFinite_iff, isInfinite, decide_eq_false_iff_not] at *
  omega

def norm (x : F64) : F64 := if x.absBits = 0 then ofSignBits false 0 else x

theorem scaled_eq_key_order : x.scaled < y.scaled ↔ x.key < y.key := by
  have hm := magBits_strictMono
  have hlt := hm.lt_iff_lt (a := x.absBits) (b := y.absBits)
  have hgt := hm.lt_iff_lt (a := y.absBits) (b := x.absBits)
  have hx : 0 < magBits x.absBits ↔ 0 < x.absBits := by
    simpa using hm.lt_iff_lt (a := 0) (b := x.absBits)
  have hy : 0 < magBits y.absBits ↔ 0 < y.absBits := by
    simpa using hm.lt_iff_lt (a := 0) (b := y.absBits)
  unfold scaled key
  split_ifs <;> omega

theorem scaled_eq_iff_key : x.scaled = y.scaled ↔ x.key = y.key := by
  have h₁ := scaled_eq_key_order (x := x) (y := y)
  have h₂ := scaled_eq_key_order (x := y) (y := x)
  omega

theorem norm_eq_of_scaled (h : x.scaled = y.scaled) : x.norm = y.norm := by
  have hk := scaled_eq_iff_key.mp h
  unfold norm
  unfold key at hk
  split_ifs at hk ⊢ with h1 h2 h3 h4 h5 h6 <;> first | rfl | omega | skip
  all_goals exact ext_absBits (by simp_all) (by omega)

/-! ## Exact results -/

def Representable (n : Nat) : Prop := ∃ b < infBits, magBits b = n

theorem isFinite_ofScaled {n : Int} (h : n.natAbs < (2 ^ 54 - 1) * halfUlp) :
    (ofScaled n z).isFinite = true := by
  have hb := roundBits_lt_infBits h
  rw [isFinite_iff]
  unfold ofScaled
  split_ifs
  · rw [absBits_ofSignBits (by decide)]
    decide
  · rwa [absBits_ofSignBits (hb.trans infBits_lt)]

theorem scaled_ofScaled {n : Int} (h : Representable n.natAbs) : (ofScaled n z).scaled = n := by
  obtain ⟨b, hb, hn⟩ := h
  unfold ofScaled
  split_ifs with h0
  · unfold scaled
    rw [absBits_ofSignBits (by decide), isSignNegative_ofSignBits (by decide), h0]
    cases z <;> rfl
  · have hlt : b < 2 ^ 63 := hb.trans infBits_lt
    unfold scaled
    rw [← hn, roundBits_magBits hb, absBits_ofSignBits hlt, isSignNegative_ofSignBits hlt, hn]
    by_cases hneg : n < 0
    · simp only [hneg, decide_true, if_true]
      omega
    · simp only [hneg, decide_false, Bool.false_eq_true, if_false]
      omega

theorem oneMag_pos : 0 < oneMag := by
  unfold oneMag
  positivity

theorem representable_int {k : Nat} (hk : k < 2 ^ 53) : Representable (k * oneMag) := by
  rcases Nat.eq_zero_or_pos k with rfl | hpos
  · exact ⟨0, by decide, by simp⟩
  obtain ⟨h₁, h₂⟩ := (Nat.log2_eq_iff (by omega : k ≠ 0)).mp rfl
  have hL : k.log2 ≤ 52 := Nat.le_of_lt_succ ((Nat.log2_lt (by omega)).mpr hk)
  have hlow : 2 ^ 52 ≤ k * 2 ^ (52 - k.log2) := by
    calc 2 ^ 52 = 2 ^ k.log2 * 2 ^ (52 - k.log2) := by rw [← Nat.pow_add]; congr 1; omega
      _ ≤ k * 2 ^ (52 - k.log2) := Nat.mul_le_mul_right _ h₁
  have hhigh : k * 2 ^ (52 - k.log2) < 2 ^ 53 := by
    calc k * 2 ^ (52 - k.log2) < 2 ^ (k.log2 + 1) * 2 ^ (52 - k.log2) :=
          Nat.mul_lt_mul_of_pos_right h₂ (Nat.two_pow_pos _)
      _ = 2 ^ 53 := by rw [← Nat.pow_add]; congr 1; omega
  refine ⟨(k.log2 + 1022) * 2 ^ 52 + k * 2 ^ (52 - k.log2), by unfold infBits; omega, ?_⟩
  generalize hm : k * 2 ^ (52 - k.log2) = m at hlow hhigh ⊢
  unfold magBits
  rw [if_neg (by omega), show ((k.log2 + 1022) * 2 ^ 52 + m) % 2 ^ 52 = m - 2 ^ 52 by omega,
    show ((k.log2 + 1022) * 2 ^ 52 + m) / 2 ^ 52 - 1 = k.log2 + 1022 by omega,
    show 2 ^ 52 + (m - 2 ^ 52) = m by omega, ← hm, Nat.mul_assoc, ← Nat.pow_add,
    show 52 - k.log2 + (k.log2 + 1022) = 1074 by omega, oneMag]

/-- An integer every operation here is exact on. -/
def Small (k : Int) : Prop := k.natAbs < 2 ^ 53

instance (k : Int) : Decidable (Small k) := inferInstanceAs (Decidable (k.natAbs < 2 ^ 53))

theorem representable_ofInt (hk : Small k) : Representable (k * oneMag).natAbs := by
  rw [Int.natAbs_mul, Int.natAbs_natCast]
  exact representable_int hk

theorem scaled_ofInt (hk : Small k) : (ofInt k).scaled = k * oneMag :=
  scaled_ofScaled (representable_ofInt hk)

theorem isFinite_ofInt (hk : k.natAbs ≤ 2 ^ 128) : (ofInt k).isFinite = true := by
  refine isFinite_ofScaled ?_
  rw [Int.natAbs_mul, Int.natAbs_natCast]
  have hle : k.natAbs * oneMag ≤ 2 ^ 128 * oneMag := Nat.mul_le_mul_right _ hk
  have hlt := oneMag_mul_lt_halfUlp
  have hpos := halfUlp_pos
  omega

theorem add_eq_ofScaled (hx : x.isFinite = true) (hy : y.isFinite = true) :
    x.add y = ofScaled (x.scaled + y.scaled) (x.isSignNegative && y.isSignNegative) := by
  unfold add
  rw [if_neg (by simp [not_isNaN_of_isFinite hx, not_isNaN_of_isFinite hy]),
    if_neg (by simp [not_isInfinite_of_isFinite hx]), if_neg (by simp [not_isInfinite_of_isFinite hy])]

theorem isFinite_ofInt_small (hk : Small k) : (ofInt k).isFinite = true :=
  isFinite_ofInt (by unfold Small at hk; omega)

theorem isSignNegative_ofInt (hk : Small k) : (ofInt k).isSignNegative = decide (k < 0) := by
  have hpos := oneMag_pos
  have hs : k * oneMag < 0 ↔ k < 0 := by
    constructor
    · intro h
      by_contra hk
      have := Int.mul_nonneg (Int.not_lt.mp hk) (Int.natCast_nonneg oneMag)
      omega
    · exact fun h => Int.mul_neg_of_neg_of_pos h (by omega)
  obtain ⟨b, hb, hn⟩ := representable_ofInt hk
  unfold ofInt ofScaled
  split_ifs with h0
  · rw [isSignNegative_ofSignBits (by decide), eq_comm, decide_eq_false_iff_not]
    omega
  · rw [← hn, roundBits_magBits hb, isSignNegative_ofSignBits (hb.trans infBits_lt)]
    exact decide_eq_decide.mpr hs

theorem ofScaled_false {n : Int} (h : n = 0 → z = false) : ofScaled n z = ofScaled n false := by
  unfold ofScaled
  split_ifs with h0
  · rw [h h0]
  · rfl

theorem ofInt_add {a b : Int} (ha : Small a) (hb : Small b) : (ofInt a).add (ofInt b) = ofInt (a + b) := by
  rw [add_eq_ofScaled (isFinite_ofInt_small ha) (isFinite_ofInt_small hb), scaled_ofInt ha, scaled_ofInt hb, ← add_mul,
    isSignNegative_ofInt ha, isSignNegative_ofInt hb]
  refine ofScaled_false fun h0 => ?_
  have hpos := oneMag_pos
  rcases Int.mul_eq_zero.mp h0 with h0 | h0
  · simp only [Bool.and_eq_false_iff, decide_eq_false_iff_not]
    omega
  · omega

theorem scaled_neg (h : x.isFinite = true) : x.neg.scaled = -x.scaled := by
  have hlt : x.absBits < 2 ^ 63 := (isFinite_iff.mp h).trans infBits_lt
  unfold neg scaled
  rw [absBits_ofSignBits hlt, isSignNegative_ofSignBits hlt]
  cases x.isSignNegative <;> simp

theorem isFinite_neg (h : x.isFinite = true) : x.neg.isFinite = true := by
  have hlt := isFinite_iff.mp h
  unfold neg
  rwa [isFinite_iff, absBits_ofSignBits (hlt.trans infBits_lt)]

theorem ofInt_sub {a b : Int} (ha : Small a) (hb : Small b) : (ofInt a).sub (ofInt b) = ofInt (a - b) := by
  have hfb := isFinite_ofInt_small hb
  have hlt : (ofInt b).absBits < 2 ^ 63 := (isFinite_iff.mp hfb).trans infBits_lt
  have hneg : (ofInt b).neg.isSignNegative = !decide (b < 0) := by
    rw [neg, isSignNegative_ofSignBits hlt, isSignNegative_ofInt hb]
  rw [sub, add_eq_ofScaled (isFinite_ofInt_small ha) (isFinite_neg hfb), scaled_neg hfb, scaled_ofInt ha,
    scaled_ofInt hb, ← Int.sub_eq_add_neg, ← sub_mul, isSignNegative_ofInt ha, hneg]
  refine ofScaled_false fun h0 => ?_
  have hpos := oneMag_pos
  rcases Int.mul_eq_zero.mp h0 with h0 | h0
  · obtain rfl : a = b := by omega
    simp
  · omega

theorem scaled_le_max (h : x.isFinite = true) : x.scaled.natAbs ≤ (2 ^ 54 - 2) * halfUlp := by
  have hb := isFinite_iff.mp h
  have hmax : magBits (infBits - 1) = (2 ^ 54 - 2) * halfUlp := by
    unfold magBits infBits halfUlp
    rw [if_neg (by decide), show (2047 * 2 ^ 52 - 1) / 2 ^ 52 - 1 = 2044 + 1 by decide, pow_succ]
    omega
  have hle : magBits x.absBits ≤ magBits (infBits - 1) := magBits_strictMono.monotone (by omega)
  unfold scaled
  split_ifs <;> omega

theorem isFinite_add_one (h : x.isFinite = true) : (x.add (ofNat 1)).isFinite = true := by
  have h1 : Small 1 := by decide
  rw [ofNat, Nat.cast_one, add_eq_ofScaled h (isFinite_ofInt_small h1), scaled_ofInt h1]
  refine isFinite_ofScaled ?_
  have hx := scaled_le_max h
  have hone := oneMag_mul_lt_halfUlp
  have hpos := halfUlp_pos
  generalize halfUlp = d at *
  generalize oneMag = o at *
  omega

theorem isFinite_sub_one (h : x.isFinite = true) : (x.sub (ofNat 1)).isFinite = true := by
  have h1 : Small 1 := by decide
  have hfin := isFinite_ofInt_small h1
  rw [ofNat, Nat.cast_one, sub, add_eq_ofScaled h (isFinite_neg hfin), scaled_neg hfin, scaled_ofInt h1]
  refine isFinite_ofScaled ?_
  have hx := scaled_le_max h
  have hone := oneMag_mul_lt_halfUlp
  have hpos := halfUlp_pos
  generalize halfUlp = d at *
  generalize oneMag = o at *
  omega

theorem isFinite_max (hx : x.isFinite = true) (hy : y.isFinite = true) : (x.max y).isFinite = true := by
  unfold F64.max
  split_ifs
  · exact hy
  · exact hy
  · exact hx

/-! ## Integral floats -/

theorem scaled_natAbs (x : F64) : x.scaled.natAbs = magBits x.absBits := by
  unfold scaled
  split_ifs <;> omega

theorem representable_wholeUnits (h : x.isFinite = true) : Representable (x.wholeUnits * oneMag) := by
  by_cases hbig : x.absBits / 2 ^ 52 - 1 < 1074
  · refine representable_int ?_
    unfold wholeUnits
    rw [Nat.div_lt_iff_lt_mul oneMag_pos]
    unfold magBits oneMag
    split_ifs with hsub
    · calc x.absBits < 2 ^ 52 := hsub
        _ ≤ 2 ^ 53 * 2 ^ 1074 := by
          rw [two_pow_mul (c := 1127) (by norm_num)]
          exact Nat.pow_le_pow_right (by norm_num) (by omega)
    · refine Nat.mul_lt_mul_of_lt_of_le (by omega) ?_ (by positivity)
      exact Nat.pow_le_pow_right (by norm_num) (by omega)
  · -- every bit of the fraction weighs a whole unit or more
    have hdvd : oneMag ∣ magBits x.absBits := by
      unfold magBits oneMag
      rw [if_neg (by omega)]
      exact Dvd.dvd.mul_left (Nat.pow_dvd_pow 2 (by omega)) _
    rw [wholeUnits, Nat.div_mul_cancel hdvd]
    exact ⟨x.absBits, isFinite_iff.mp h, rfl⟩

theorem scaled_trunc (h : x.isFinite = true) :
    x.trunc.scaled = (if x.isSignNegative then -((x.wholeUnits * oneMag : Nat) : Int) else (x.wholeUnits * oneMag : Nat)) ∧
      x.trunc.isFinite = true := by
  obtain ⟨b, hb, hn⟩ := representable_wholeUnits h
  have hlt : b < 2 ^ 63 := hb.trans infBits_lt
  rw [isFinite_iff, trunc, if_pos h, ← hn, roundBits_magBits hb]
  unfold scaled
  rw [absBits_ofSignBits hlt, isSignNegative_ofSignBits hlt]
  exact ⟨rfl, hb⟩

theorem key_ofScaled_eq_zero {n : Int} (hlt : n.natAbs < (2 ^ 54 - 1) * halfUlp) (h : (ofScaled n z).key = 0) : n = 0 := by
  by_contra h0
  have hb := roundBits_lt_infBits hlt
  have hpos := roundBits_pos (Int.natAbs_pos.mpr h0)
  unfold ofScaled at h
  rw [if_neg h0] at h
  unfold key at h
  rw [absBits_ofSignBits (hb.trans infBits_lt)] at h
  split_ifs at h <;> omega

theorem ofInt_zero : ofInt 0 = ofSignBits false 0 := by
  rw [ofInt, Int.zero_mul, ofScaled, if_pos rfl]

theorem dvd_of_fract (h : x.isFinite = true) (hf : x.fract.eq (ofInt 0) = true) :
    oneMag ∣ magBits x.absBits := by
  obtain ⟨ht, htf⟩ := scaled_trunc h
  have hzero : (ofInt 0).key = 0 := by
    rw [ofInt_zero]
    decide
  have hkey : x.fract.key = 0 := by
    simp only [eq, Bool.and_eq_true, decide_eq_true_eq, hzero] at hf
    exact hf.2
  have hmod := Nat.div_add_mod' (magBits x.absBits) oneMag
  have hx := scaled_le_max h
  rw [scaled_natAbs] at hx
  have hdiff : x.scaled + x.trunc.neg.scaled =
      if x.isSignNegative then -((magBits x.absBits % oneMag : Nat) : Int) else (magBits x.absBits % oneMag : Nat) := by
    rw [scaled_neg htf, ht]
    unfold scaled wholeUnits
    split_ifs <;> omega
  rw [fract, sub, add_eq_ofScaled h (isFinite_neg htf)] at hkey
  have hle : magBits x.absBits % oneMag ≤ magBits x.absBits := Nat.mod_le _ _
  have hpos := halfUlp_pos
  have h0 := key_ofScaled_eq_zero (by rw [hdiff]; split_ifs <;> omega) hkey
  rw [hdiff] at h0
  refine Nat.dvd_of_mod_eq_zero ?_
  split_ifs at h0 <;> omega

/-! ## Order -/

theorem lt_iff (hx : x.isFinite = true) (hy : y.isFinite = true) :
    x.lt y = true ↔ x.scaled < y.scaled := by
  simp [lt, not_isNaN_of_isFinite hx, not_isNaN_of_isFinite hy, scaled_eq_key_order]

theorem le_iff (hx : x.isFinite = true) (hy : y.isFinite = true) :
    x.le y = true ↔ x.scaled ≤ y.scaled := by
  have h := scaled_eq_key_order (x := y) (y := x)
  simp only [le, not_isNaN_of_isFinite hx, not_isNaN_of_isFinite hy, Bool.not_false, Bool.and_self, Bool.true_and,
    decide_eq_true_eq]
  omega

theorem eq_iff (hx : x.isFinite = true) (hy : y.isFinite = true) :
    x.eq y = true ↔ x.scaled = y.scaled := by
  simp [eq, not_isNaN_of_isFinite hx, not_isNaN_of_isFinite hy, scaled_eq_iff_key]

theorem le_eq_true : x.le y = true ↔ x.isNaN = false ∧ y.isNaN = false ∧ x.key ≤ y.key := by
  simp [le, and_assoc]

theorem le_trans {z : F64} (h : x.le y = true) (h' : y.le z = true) : x.le z = true := by
  rw [le_eq_true] at h h' ⊢
  exact ⟨h.1, h'.2.1, h.2.2.trans h'.2.2⟩

theorem le_of_not_lt (hx : x.isNaN = false) (hy : y.isNaN = false) (h : ¬ x.lt y = true) : y.le x = true := by
  simp only [lt, hx, hy, Bool.not_false, Bool.and_self, Bool.true_and, decide_eq_true_eq] at h
  exact le_eq_true.mpr ⟨hy, hx, by omega⟩

theorem le_of_lt (h : x.lt y = true) : x.le y = true := by
  simp only [lt, Bool.and_eq_true, Bool.not_eq_true', decide_eq_true_eq] at h
  exact le_eq_true.mpr ⟨h.1.1, h.1.2, h.2.le⟩

theorem scaled_le_of_totalKey_le (h : x.totalKey ≤ y.totalKey) : x.scaled ≤ y.scaled := by
  have hk := scaled_eq_key_order (x := y) (y := x)
  have hle : x.key ≤ y.key := by
    unfold totalKey at h
    unfold key
    split_ifs at h ⊢ <;> omega
  omega

/-! ## Casts -/

@[simp] theorem isFinite_norm (x : F64) : x.norm.isFinite = x.isFinite := by
  unfold norm
  split_ifs with h
  · simp [isFinite, h, absBits_ofSignBits (b := 0) (by decide)]
  · rfl

@[simp] theorem scaled_norm (x : F64) : x.norm.scaled = x.scaled := by
  unfold norm
  split_ifs with h
  · simp [scaled, h, absBits_ofSignBits (b := 0) (by decide)]
  · rfl

theorem le_norm (x y : F64) : x.le y.norm = x.le y := by
  unfold norm
  split_ifs with h
  · simp [le, isNaN, key, h, absBits_ofSignBits (b := 0) (by decide)]
  · rfl

theorem norm_le (x y : F64) : x.norm.le y = x.le y := by
  unfold norm
  split_ifs with h
  · simp [le, isNaN, key, h, absBits_ofSignBits (b := 0) (by decide)]
  · rfl

@[simp] theorem norm_norm (x : F64) : x.norm.norm = x.norm := norm_eq_of_scaled (by simp)

theorem norm_eq_self (h : x.absBits ≠ 0) : x.norm = x := by simp [norm, h]

theorem norm_ofInt (hk : Small k) : (ofInt k).norm = ofInt k := by
  unfold norm
  split_ifs with h
  · have hs := scaled_ofInt hk
    have hpos := oneMag_pos
    have hz : (ofInt k).scaled = 0 := by simp [scaled, h]
    have hk0 : k = 0 := by
      rcases Int.mul_eq_zero.mp (hs.symm.trans hz) with h0 | h0 <;> omega
    rw [hk0, ofInt_zero]
  · rfl

def intPart (x : F64) : Int := if x.isSignNegative then -(x.wholeUnits : Int) else x.wholeUnits

theorem norm_eq_ofInt (hd : oneMag ∣ magBits x.absBits) (hs : Small x.intPart) :
    x.norm = ofInt x.intPart := by
  have hmul : x.wholeUnits * oneMag = magBits x.absBits := Nat.div_mul_cancel hd
  have hscaled : x.scaled = (ofInt x.intPart).scaled := by
    rw [scaled_ofInt hs]
    unfold scaled intPart
    rw [← hmul]
    split_ifs <;> push_cast <;> ring
  rw [norm_eq_of_scaled hscaled, norm_ofInt hs]

theorem wholeUnits_lt (h : magBits x.absBits < n * oneMag) : x.wholeUnits < n :=
  (Nat.div_lt_iff_lt_mul oneMag_pos).mpr h

theorem toI64_eq_intPart (h : x.isFinite = true) (hs : Small x.intPart) : x.toI64 = x.intPart := by
  have hlt : x.wholeUnits < 2 ^ 53 := by
    unfold Small intPart at hs
    split_ifs at hs <;> omega
  unfold toI64 intPart
  rw [if_neg (by simp [not_isNaN_of_isFinite h])]
  split_ifs
  · rw [Nat.min_eq_left (by omega)]
  · rw [Nat.min_eq_left (by omega)]

theorem toU64_eq_wholeUnits (h : x.isFinite = true) (hn : x.isSignNegative = false)
    (hs : x.wholeUnits < 2 ^ 53) : x.toU64.toNat = x.wholeUnits := by
  unfold toU64
  rw [if_neg (by simp [not_isNaN_of_isFinite h, hn]), Nat.min_eq_left (by omega),
    UInt64.toNat_ofNat_of_lt' (Nat.lt_trans hs (by decide))]

theorem wholeUnits_ofInt (hk : Small k) : (ofInt k).wholeUnits = k.natAbs := by
  rw [wholeUnits, ← scaled_natAbs, scaled_ofInt hk, Int.natAbs_mul, Int.natAbs_natCast,
    Nat.mul_div_cancel _ oneMag_pos]

theorem toU64_ofInt (hk : Small k) (h0 : 0 ≤ k) : (ofInt k).toU64.toNat = k.natAbs := by
  rw [toU64_eq_wholeUnits (isFinite_ofInt_small hk) (by rw [isSignNegative_ofInt hk]; simpa using h0)
    (by rw [wholeUnits_ofInt hk]; exact hk), wholeUnits_ofInt hk]

theorem intPart_mul (hd : oneMag ∣ magBits x.absBits) : x.intPart * oneMag = x.scaled := by
  have hmul : x.wholeUnits * oneMag = magBits x.absBits := Nat.div_mul_cancel hd
  unfold scaled intPart
  rw [← hmul]
  split_ifs <;> push_cast <;> ring

theorem intPart_le (hd : oneMag ∣ magBits x.absBits) (h : x.scaled ≤ k * oneMag) :
    x.intPart ≤ k := by
  rw [← intPart_mul hd] at h
  exact le_of_mul_le_mul_right h (by exact_mod_cast oneMag_pos)

theorem le_intPart (hd : oneMag ∣ magBits x.absBits) (h : k * oneMag ≤ x.scaled) :
    k ≤ x.intPart := by
  rw [← intPart_mul hd] at h
  exact le_of_mul_le_mul_right h (by exact_mod_cast oneMag_pos)

theorem ofNat_le_iff (hn : n < 2 ^ 53) (hx : x.isFinite = true) :
    (ofNat n).le x = true ↔ n * (oneMag : Int) ≤ x.scaled := by
  have hs : Small n := by unfold Small; omega
  rw [ofNat, le_iff (isFinite_ofInt_small hs) hx, scaled_ofInt hs]

theorem le_ofNat_iff (hn : n < 2 ^ 53) (hx : x.isFinite = true) :
    x.le (ofNat n) = true ↔ x.scaled ≤ n * (oneMag : Int) := by
  have hs : Small n := by unfold Small; omega
  rw [ofNat, le_iff hx (isFinite_ofInt_small hs), scaled_ofInt hs]

/-! ## Counters and marks -/

theorem scaled_ofNat (hn : n < 2 ^ 53) : (ofNat n).scaled = n * (oneMag : Int) := by
  have hs : Small n := by unfold Small; omega
  rw [ofNat, scaled_ofInt hs]

theorem isFinite_ofNat (hn : n < 2 ^ 53) : (ofNat n).isFinite = true := by
  have hs : Small n := by unfold Small; omega
  rw [ofNat, isFinite_ofInt_small hs]

theorem norm_ofNat (hn : n < 2 ^ 53) : (ofNat n).norm = ofNat n := by
  have hs : Small n := by unfold Small; omega
  rw [ofNat, norm_ofInt hs]

theorem ofNat_add_one (hn : n < 2 ^ 53) : (ofNat n).add (ofNat 1) = ofNat (n + 1) := by
  have hs : Small n := by unfold Small; omega
  rw [ofNat, ofNat, ofInt_add hs (by decide), ofNat, Nat.cast_add]

theorem ofNat_eq_iff (hm : m < 2 ^ 53) (hn : n < 2 ^ 53) : (ofNat m).eq (ofNat n) = true ↔ m = n := by
  rw [eq_iff (isFinite_ofNat hm) (isFinite_ofNat hn), scaled_ofNat hm, scaled_ofNat hn,
    mul_left_inj' (by exact_mod_cast oneMag_pos.ne'), Nat.cast_inj]

theorem ofNat_max_zero (hn : n < 2 ^ 53) : (ofNat n).max (ofNat 0) = ofNat n := by
  have hfin := isFinite_ofNat hn
  have hge : (ofNat n).lt (ofNat 0) = false := by
    rw [Bool.eq_false_iff, Ne, lt_iff hfin (isFinite_ofNat (by decide)), scaled_ofNat hn, scaled_ofNat (by decide)]
    have hpos : 0 ≤ (n : Int) * oneMag := Int.mul_nonneg (Int.natCast_nonneg _) (Int.natCast_nonneg _)
    rw [Int.natCast_zero, Int.zero_mul]
    omega
  rw [F64.max, if_neg (by simp [not_isNaN_of_isFinite hfin]), if_neg (by simp [hge])]

theorem toU64_ofNat (hn : n < 2 ^ 53) : (ofNat n).toU64.toNat = n := by
  have hs : Small n := by unfold Small; omega
  rw [ofNat, toU64_ofInt hs (Int.natCast_nonneg n), Int.natAbs_natCast]

theorem ofNat_sub_max (hn : n < 2 ^ 53) (h : m ≤ n) :
    ((ofNat n).sub (ofNat m)).max (ofNat 0) = ofNat (n - m) := by
  have hsn : Small n := by unfold Small; omega
  have hsm : Small m := by unfold Small; omega
  have hsub : (ofNat n).sub (ofNat m) = ofNat (n - m) := by
    rw [ofNat, ofNat, ofInt_sub hsn hsm, ofNat, Nat.cast_sub h]
  rw [hsub, ofNat_max_zero (by omega)]

theorem min_of_finite (hx : x.isFinite = true) (hy : y.isFinite = true) :
    (x.min y).isFinite = true ∧ (x.min y).scaled ≤ x.scaled ∧ (x.min y).scaled ≤ y.scaled := by
  have hlt := lt_iff hy hx
  rw [F64.min, not_isNaN_of_isFinite hx]
  cases h : y.lt x with
  | true =>
    have := hlt.mp h
    simp only [Bool.false_eq_true, if_false, if_true]
    exact ⟨hy, by omega, le_refl _⟩
  | false =>
    have hnot : ¬ y.scaled < x.scaled := fun hc => by simp [hlt.mpr hc] at h
    simp only [Bool.false_eq_true, if_false]
    exact ⟨hx, le_refl _, by omega⟩

end F64
