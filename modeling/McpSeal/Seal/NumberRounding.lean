import McpSeal.Foundation.Rounding
import McpSeal.Seal.NumberReading
set_option autoImplicit false

/-!
# Seal: the rounding of the agreement check (`Seal/JsonUtil.lean`)

The check rounds a decimal to binary64 with natural numbers only.  What it
computes is the nearest number of the format, and so a line it lets pass has no
number that a binary64 reader would take for another one.
-/

namespace McpSeal.Seal.JsonUtil

open McpSeal.Data
open McpSeal.Data.Json.Parser
open McpSeal.Foundation.Rounding

/-- The finite nonnegative binary64 numbers. -/
def binary64 : Set ℚ :=
  binaryFloats 53 (-1074) 971

/-- The rational number a binary64 number is. -/
def Binary64Value.toRat (b : Binary64Value) : ℚ :=
  b.significand * 2 ^ b.exp2

/-! ## Rounding a ratio to an integer -/

theorem roundDivEven_spec {n d : Nat} (hd : 0 < d) :
    |(n : ℚ) / d - roundDivEven n d| ≤ 1 / 2 := by
  have hpos : (0 : ℚ) < d := by exact_mod_cast hd
  have hdiv : (n : ℚ) = d * (n / d : Nat) + (n % d : Nat) := by
    exact_mod_cast (Nat.div_add_mod n d).symm
  have hquot : (n : ℚ) / d = (n / d : Nat) + ((n % d : Nat) : ℚ) / d := by
    rw [hdiv]
    field_simp
  have hmod : ((n % d : Nat) : ℚ) < d := by exact_mod_cast Nat.mod_lt n hd
  have hfrac : (0 : ℚ) ≤ ((n % d : Nat) : ℚ) / d := by positivity
  have hdown : 2 * (n % d) ≤ d → |(n : ℚ) / d - (n / d : Nat)| ≤ 1 / 2 := by
    intro h
    have hq : 2 * ((n % d : Nat) : ℚ) ≤ d := by exact_mod_cast h
    rw [hquot, add_sub_cancel_left, abs_of_nonneg hfrac, div_le_div_iff₀ hpos (by norm_num)]
    linarith
  have hup : d ≤ 2 * (n % d) → |(n : ℚ) / d - (n / d + 1 : Nat)| ≤ 1 / 2 := by
    intro h
    have hq : (d : ℚ) ≤ 2 * ((n % d : Nat) : ℚ) := by exact_mod_cast h
    have hhalf : 1 / 2 ≤ ((n % d : Nat) : ℚ) / d := by
      rw [div_le_div_iff₀ (by norm_num) hpos]
      linarith
    have hone : ((n % d : Nat) : ℚ) / d ≤ 1 := by
      rw [div_le_one hpos]
      exact hmod.le
    rw [hquot]
    push_cast
    rw [abs_le]
    constructor <;> linarith
  rw [roundDivEven]
  split_ifs with h₁ h₂ h₃
  · exact hdown h₁.le
  · exact hup h₂.le
  · exact hdown (by omega)
  · exact hup (by omega)

theorem roundRatioScale2_spec {n d : Nat} (hd : 0 < d) (shift : Int) :
    |(n : ℚ) / d * 2 ^ shift - roundRatioScale2 n d shift| ≤ 1 / 2 := by
  rw [roundRatioScale2]
  split
  · rename_i hshift
    obtain ⟨s, rfl⟩ := Int.eq_ofNat_of_zero_le hshift
    have h := roundDivEven_spec (n := n * 2 ^ s) hd
    rw [Int.toNat_natCast, zpow_natCast]
    push_cast at h
    rw [div_mul_eq_mul_div]
    exact h
  · rename_i hshift
    obtain ⟨s, hs⟩ := Int.eq_ofNat_of_zero_le (by omega : 0 ≤ -shift)
    have h := roundDivEven_spec (n := n) (d := d * 2 ^ s) (by positivity)
    rw [hs, Int.toNat_natCast, (by omega : shift = -(s : Int)), zpow_neg, zpow_natCast]
    push_cast at h
    rw [← div_eq_mul_inv, div_div]
    exact h

/-! ## The binary exponent of a ratio -/

theorem compareRatioPow2_lt_iff {n d : Nat} (hd : 0 < d) (e : Int) :
    compareRatioPow2 n d e = .lt ↔ (n : ℚ) / d < 2 ^ e := by
  have hpos : (0 : ℚ) < d := by exact_mod_cast hd
  rw [compareRatioPow2]
  split
  · rename_i he
    obtain ⟨k, rfl⟩ := Int.eq_ofNat_of_zero_le he
    rw [Nat.compare_eq_lt, Int.toNat_natCast, zpow_natCast, div_lt_iff₀ hpos]
    rw [mul_comm d]
    exact_mod_cast Iff.rfl
  · rename_i he
    obtain ⟨k, hk⟩ := Int.eq_ofNat_of_zero_le (by omega : 0 ≤ -e)
    rw [hk, Nat.compare_eq_lt, Int.toNat_natCast, (by omega : e = -(k : Int)), zpow_neg,
      zpow_natCast, div_lt_iff₀ hpos, inv_mul_eq_div, lt_div_iff₀ (by positivity)]
    exact_mod_cast Iff.rfl

/-- The exponent that the logarithms of the two sides and one comparison give. -/
theorem ratio_exponent {n d : Nat} (hn : 0 < n) (hd : 0 < d) {guess e : Int}
    (hguess : guess = (n.log2 : Int) - (d.log2 : Int))
    (he : e = if compareRatioPow2 n d guess == .lt then guess - 1 else guess) :
    (2 : ℚ) ^ e ≤ (n : ℚ) / d ∧ (n : ℚ) / d < 2 ^ (e + 1) := by
  have hpos : (0 : ℚ) < d := by exact_mod_cast hd
  have hnlow : (2 : ℚ) ^ n.log2 ≤ n := by exact_mod_cast Nat.log2_self_le hn.ne'
  have hnhigh : (n : ℚ) < 2 ^ (n.log2 + 1) := by exact_mod_cast Nat.lt_log2_self
  have hdlow : (2 : ℚ) ^ d.log2 ≤ d := by exact_mod_cast Nat.log2_self_le hd.ne'
  have hdhigh : (d : ℚ) < 2 ^ (d.log2 + 1) := by exact_mod_cast Nat.lt_log2_self
  have hlow : (2 : ℚ) ^ (guess - 1) ≤ (n : ℚ) / d := by
    rw [le_div_iff₀ hpos]
    calc (2 : ℚ) ^ (guess - 1) * d ≤ 2 ^ (guess - 1) * 2 ^ (d.log2 + 1) := by
          exact mul_le_mul_of_nonneg_left hdhigh.le (by positivity)
      _ = 2 ^ n.log2 := by
          rw [← zpow_natCast, ← zpow_add₀ (by norm_num), ← zpow_natCast]
          congr 1
          push_cast
          omega
      _ ≤ n := hnlow
  have hhigh : (n : ℚ) / d < 2 ^ (guess + 1) := by
    rw [div_lt_iff₀ hpos]
    calc (n : ℚ) < 2 ^ (n.log2 + 1) := hnhigh
      _ = 2 ^ (guess + 1) * 2 ^ d.log2 := by
          rw [← zpow_natCast, ← zpow_natCast, ← zpow_add₀ (by norm_num)]
          congr 1
          push_cast
          omega
      _ ≤ 2 ^ (guess + 1) * d := mul_le_mul_of_nonneg_left hdlow (by positivity)
  cases hcmp : compareRatioPow2 n d guess == .lt with
  | true =>
      have hlt := (compareRatioPow2_lt_iff hd guess).mp (beq_iff_eq.mp hcmp)
      rw [hcmp, if_pos rfl] at he
      rw [he, sub_add_cancel]
      exact ⟨hlow, hlt⟩
  | false =>
      have hge : ¬ (n : ℚ) / d < 2 ^ guess := by
        rw [← compareRatioPow2_lt_iff hd guess]
        exact fun h => by simp [h] at hcmp
      rw [hcmp, if_neg (by decide)] at he
      rw [he]
      exact ⟨not_lt.mp hge, hhigh⟩

/-! ## Rounding a ratio to binary64 -/

theorem mem_binary64 {s : Nat} {e : Int} (hs : s < 2 ^ 53) (hlow : -1074 ≤ e) (hhigh : e ≤ 971) :
    (s : ℚ) * 2 ^ e ∈ binary64 :=
  ⟨s, e, hs, hlow, hhigh, rfl⟩

/-- A rounding is at most the integer above a number. -/
theorem le_of_round {x : ℚ} {k m : Nat} (hround : |x - k| ≤ 1 / 2) (hx : x < m) : k ≤ m := by
  have hlow := (abs_le.mp hround).1
  have hlt : (k : ℚ) < (m + 1 : Nat) := by
    push_cast
    linarith
  exact Nat.lt_succ_iff.mp (by exact_mod_cast hlt)

/-- Half a unit after scaling is half a step. -/
theorem abs_sub_scaled {x : ℚ} {k : Nat} {e : Int} (h : |x * 2 ^ (-e) - k| ≤ 1 / 2) :
    |x - ((k : Int) : ℚ) * 2 ^ e| ≤ 2 ^ e / 2 := by
  have hpos : (0 : ℚ) < 2 ^ e := by positivity
  have hscale : x - ((k : Int) : ℚ) * 2 ^ e = (x * 2 ^ (-e) - k) * 2 ^ e := by
    rw [sub_mul, mul_assoc, ← zpow_add₀ (by norm_num), neg_add_cancel, zpow_zero, mul_one]
    push_cast
    rfl
  rw [hscale, abs_mul, abs_of_pos hpos]
  linarith [mul_le_mul_of_nonneg_right h hpos.le]

/-- A number the rounding above `2 ^ e` gives is the nearest one. -/
theorem nearest_of_round_normal {x : ℚ} {e : Int} (hx : (2 : ℚ) ^ e ≤ x) {k : Nat}
    (hround : |x * 2 ^ (52 - e) - k| ≤ 1 / 2) {b : Binary64Value}
    (hb : b.toRat = k * 2 ^ (e - 52)) (hmem : b.toRat ∈ binary64) :
    IsNearest binary64 x b.toRat := by
  rw [(by ring : 52 - e = -(e - 52))] at hround
  have hhalf := abs_sub_scaled hround
  rw [hb] at hmem ⊢
  have hcast : ((k : Int) : ℚ) = (k : ℚ) := by push_cast; rfl
  rw [hcast] at hhalf
  rw [← hcast] at hhalf hmem ⊢
  exact isNearest_normal (by push_cast; ring) (by norm_num) hx hhalf hmem

theorem nearest_of_round_subnormal {x : ℚ} {k : Nat}
    (hround : |x * 2 ^ (1074 : Int) - k| ≤ 1 / 2) {b : Binary64Value}
    (hb : b.toRat = k * 2 ^ (-1074 : Int)) (hmem : b.toRat ∈ binary64) :
    IsNearest binary64 x b.toRat := by
  have hhalf := abs_sub_scaled (e := -1074) (by rw [neg_neg]; exact hround)
  have hcast : ((k : Int) : ℚ) = (k : ℚ) := by push_cast; rfl
  rw [hb, ← hcast] at hmem ⊢
  exact isNearest_subnormal hhalf hmem

/-- Scaled to 53 binary digits a ratio rounds to `2 ^ 53` at most. -/
theorem roundRatioScale2_normal_le {n d : Nat} (hd : 0 < d) {e : Int}
    (hhigh : (n : ℚ) / d < 2 ^ (e + 1)) : roundRatioScale2 n d (52 - e) ≤ 2 ^ 53 := by
  refine le_of_round (roundRatioScale2_spec hd (52 - e)) ?_
  calc (n : ℚ) / d * 2 ^ (52 - e) < 2 ^ (e + 1) * 2 ^ (52 - e) :=
        mul_lt_mul_of_pos_right hhigh (by positivity)
    _ = (2 ^ 53 : Nat) := by
        rw [← zpow_add₀ (by norm_num), (by ring : e + 1 + (52 - e) = 53)]
        norm_num

/-- Below the normal range the smallest step leaves 52 binary digits. -/
theorem roundRatioScale2_subnormal_le {n d : Nat} (hd : 0 < d) {e : Int} (he : e < -1022)
    (hhigh : (n : ℚ) / d < 2 ^ (e + 1)) : roundRatioScale2 n d 1074 ≤ 2 ^ 52 := by
  refine le_of_round (roundRatioScale2_spec hd 1074) ?_
  calc (n : ℚ) / d * 2 ^ (1074 : Int) < 2 ^ (e + 1) * 2 ^ (1074 : Int) :=
        mul_lt_mul_of_pos_right hhigh (by positivity)
    _ ≤ 2 ^ (-1022 : Int) * 2 ^ (1074 : Int) := by
        refine mul_le_mul_of_nonneg_right ?_ (by positivity)
        exact zpow_le_zpow_right₀ (by norm_num) (by omega)
    _ = (2 ^ 52 : Nat) := by
        rw [← zpow_add₀ (by norm_num)]
        norm_num

/-- A number that is rounded up to the next power of two. -/
theorem nearest_of_carry {x : ℚ} {e : Int} (hx : (2 : ℚ) ^ e ≤ x)
    (hround : |x * 2 ^ (52 - e) - (2 ^ 53 : Nat)| ≤ 1 / 2) (hmin : -1022 ≤ e) (hmax : e < 1023) :
    IsNearest binary64 x (Binary64Value.toRat ⟨2 ^ 52, e + 1 - 52⟩) := by
  have hmem : ((2 ^ 52 : Nat) : ℚ) * 2 ^ (e + 1 - 52) ∈ binary64 :=
    mem_binary64 (by norm_num) (by omega) (by omega)
  refine nearest_of_round_normal hx hround ?_ hmem
  show ((2 ^ 52 : Nat) : ℚ) * 2 ^ (e + 1 - 52) = ((2 ^ 53 : Nat) : ℚ) * 2 ^ (e - 52)
  rw [(by ring : e + 1 - 52 = 1 + (e - 52)), zpow_add₀ (by norm_num : (2 : ℚ) ≠ 0)]
  norm_num
  ring

theorem zero_mem_binary64 : ((0 : Nat) : ℚ) * 2 ^ (0 : Int) ∈ binary64 :=
  mem_binary64 (by norm_num) (by norm_num) (by norm_num)

/-- Where a ratio has a binary64 number it is the nearest one. -/
theorem rationalToBinary64?_nearest {n d : Nat} (hd : 0 < d) {b : Binary64Value}
    (h : rationalToBinary64? n d = some b) : IsNearest binary64 ((n : ℚ) / d) b.toRat := by
  rw [rationalToBinary64?] at h
  by_cases hn : n = 0
  · rw [if_pos (beq_iff_eq.mpr hn)] at h
    obtain rfl := Option.some.inj h
    rw [hn, Nat.cast_zero, zero_div]
    simpa [Binary64Value.toRat] using isNearest_self zero_mem_binary64
  rw [if_neg (by simpa using hn)] at h
  dsimp only at h
  obtain ⟨e, he⟩ : ∃ e, e =
      if compareRatioPow2 n d ((n.log2 : Int) - (d.log2 : Int)) == .lt
      then (n.log2 : Int) - (d.log2 : Int) - 1 else (n.log2 : Int) - (d.log2 : Int) := ⟨_, rfl⟩
  obtain ⟨hlow, hhigh⟩ := ratio_exponent (Nat.pos_of_ne_zero hn) hd rfl he
  rw [← he] at h
  split_ifs at h with hbig hnormal hcarry hcarried hsmall
  · -- rounded up to the next power of two
    obtain rfl := Option.some.inj h
    have hround := roundRatioScale2_spec (n := n) hd (52 - e)
    rw [beq_iff_eq.mp hcarry] at hround
    exact nearest_of_carry hlow hround hnormal (by omega)
  · obtain rfl := Option.some.inj h
    have hlt : roundRatioScale2 n d (52 - e) < 2 ^ 53 :=
      lt_of_le_of_ne (roundRatioScale2_normal_le hd hhigh) (by simpa using hcarry)
    have hmem : (roundRatioScale2 n d (52 - e) : ℚ) * 2 ^ (e - 52) ∈ binary64 :=
      mem_binary64 hlt (by omega) (by omega)
    exact nearest_of_round_normal hlow (roundRatioScale2_spec hd (52 - e)) rfl hmem
  · -- rounded to zero
    obtain rfl := Option.some.inj h
    have hround := roundRatioScale2_spec (n := n) hd 1074
    rw [beq_iff_eq.mp hsmall] at hround
    exact nearest_of_round_subnormal hround (by simp [Binary64Value.toRat]) zero_mem_binary64
  · obtain rfl := Option.some.inj h
    have hlt : roundRatioScale2 n d 1074 < 2 ^ 53 :=
      lt_of_le_of_lt (roundRatioScale2_subnormal_le hd (by omega) hhigh) (by norm_num)
    exact nearest_of_round_subnormal (roundRatioScale2_spec hd 1074) rfl
      (mem_binary64 hlt (by norm_num) (by norm_num))

/-! ## Rounding a decimal -/

/-- The coefficient a literal can have here. -/
def maxCoefficient : Nat := 10 ^ 17

/-- The largest decimal that is rounded to zero unseen is below half the smallest step. -/
theorem tiny_le_half : (10 : ℚ) ^ 17 * 10 ^ (-401 : Int) * 2 ^ (1074 : Int) ≤ 1 / 2 := by
  have hpow : (2 : ℚ) ^ 1075 ≤ 10 ^ 384 := by
    calc (2 : ℚ) ^ 1075 ≤ 2 ^ (3 * 384) := pow_le_pow_right₀ (by norm_num) (by norm_num)
      _ = 8 ^ 384 := by rw [pow_mul, (by norm_num : (2 : ℚ) ^ 3 = 8)]
      _ ≤ 10 ^ 384 := pow_le_pow_left₀ (by norm_num) (by norm_num) 384
  have hten : (10 : ℚ) ^ 17 * 10 ^ (-401 : Int) = (10 ^ 384)⁻¹ := by
    rw [← zpow_natCast, ← zpow_natCast, ← zpow_neg, ← zpow_add₀ (by norm_num)]
    congr 1
  have htwo : (2 : ℚ) ^ 1075 = 2 ^ (1074 : Int) * 2 := pow_succ 2 1074
  rw [hten, inv_mul_le_iff₀ (by positivity), mul_one_div, le_div_iff₀ (by norm_num), ← htwo]
  exact hpow

theorem decimalToBinary64?_nearest {d : DecimalValue} (hcoeff : d.coeff < maxCoefficient)
    {b : Binary64Value} (h : decimalToBinary64? d = some b) :
    IsNearest binary64 d.toRat b.toRat := by
  rw [decimalToBinary64?] at h
  split_ifs at h with hc hbig hsmall hexp
  · obtain rfl := Option.some.inj h
    rw [DecimalValue.toRat, beq_iff_eq.mp hc, Nat.cast_zero, zero_mul]
    simpa [Binary64Value.toRat] using isNearest_self zero_mem_binary64
  · -- a decimal this small is nearer to zero than to the smallest number
    obtain rfl := Option.some.inj h
    refine nearest_of_round_subnormal (k := 0) ?_ (by simp [Binary64Value.toRat]) zero_mem_binary64
    have hc' : (d.coeff : ℚ) ≤ 10 ^ 17 := by exact_mod_cast hcoeff.le
    have hpow : (10 : ℚ) ^ d.exp10 ≤ 10 ^ (-401 : Int) :=
      zpow_le_zpow_right₀ (by norm_num) (by omega)
    have hle : d.toRat ≤ 10 ^ 17 * 10 ^ (-401 : Int) :=
      mul_le_mul hc' hpow (by positivity) (by positivity)
    have hnonneg : 0 ≤ d.toRat := by
      rw [DecimalValue.toRat]
      positivity
    rw [Nat.cast_zero, sub_zero, abs_of_nonneg (by positivity)]
    exact le_trans (mul_le_mul_of_nonneg_right hle (by positivity)) tiny_le_half
  · obtain ⟨k, hk⟩ := Int.eq_ofNat_of_zero_le hexp
    have hnear := rationalToBinary64?_nearest Nat.one_pos h
    have hvalue : d.toRat = ((d.coeff * 10 ^ d.exp10.toNat : Nat) : ℚ) / (1 : Nat) := by
      rw [DecimalValue.toRat, hk, Int.toNat_natCast, zpow_natCast]
      push_cast
      rw [div_one]
    rw [hvalue]
    exact hnear
  · obtain ⟨k, hk⟩ := Int.eq_ofNat_of_zero_le (by omega : 0 ≤ -d.exp10)
    have hnear := rationalToBinary64?_nearest (by positivity) h
    have hvalue : d.toRat = (d.coeff : ℚ) / ((10 ^ (-d.exp10).toNat : Nat) : ℚ) := by
      rw [DecimalValue.toRat, hk, Int.toNat_natCast, (by omega : d.exp10 = -(k : Int)), zpow_neg,
        zpow_natCast, ← div_eq_mul_inv]
      push_cast
      rfl
    rw [hvalue]
    exact hnear

theorem toRat_eq_of_decimalEqualsBinary64 {d : DecimalValue} {b : Binary64Value}
    (h : decimalEqualsBinary64 d b = true) : d.toRat = b.toRat := by
  have hratio : b.toRat = ((binaryRatio b).1 : ℚ) / ((binaryRatio b).2 : ℚ) ∧
      (0 : ℚ) < (binaryRatio b).2 := by
    rw [Binary64Value.toRat, binaryRatio]
    split
    · rename_i he
      obtain ⟨k, hk⟩ := Int.eq_ofNat_of_zero_le he
      rw [hk, Int.toNat_natCast, zpow_natCast]
      push_cast
      exact ⟨(div_one _).symm, by norm_num⟩
    · rename_i he
      obtain ⟨k, hk⟩ := Int.eq_ofNat_of_zero_le (by omega : 0 ≤ -b.exp2)
      rw [hk, Int.toNat_natCast, (by omega : b.exp2 = -(k : Int)), zpow_neg, zpow_natCast,
        ← div_eq_mul_inv]
      push_cast
      exact ⟨rfl, by positivity⟩
  obtain ⟨hvalue, hpos⟩ := hratio
  rw [hvalue, eq_div_iff hpos.ne', DecimalValue.toRat]
  rw [decimalEqualsBinary64] at h
  dsimp only at h
  split_ifs at h with he
  · obtain ⟨k, hk⟩ := Int.eq_ofNat_of_zero_le he
    rw [hk, Int.toNat_natCast] at h
    rw [hk, zpow_natCast]
    exact_mod_cast beq_iff_eq.mp h
  · obtain ⟨k, hk⟩ := Int.eq_ofNat_of_zero_le (by omega : 0 ≤ -d.exp10)
    rw [hk, Int.toNat_natCast] at h
    rw [(by omega : d.exp10 = -(k : Int)), zpow_neg, zpow_natCast, mul_right_comm,
      ← div_eq_mul_inv, div_eq_iff (by positivity)]
    exact_mod_cast beq_iff_eq.mp h

/-! ## What the check lets pass -/

/-- A binary64 reader sees the number, or shows it as it was written. -/
def AgreesAs (x : ℚ) (b : Binary64Value) : Prop :=
  IsNearest binary64 x b.toRat ∧
    (b.toRat = x ∨ ∃ d, shortestDecimal? b = some d ∧ d.toRat = x)

theorem coefficient_lt {ds : List Char} (hds : Digits ds) (hlength : ds.length ≤ 17) :
    digitsValue ds < maxCoefficient :=
  lt_of_lt_of_le (digitsValue_lt hds) (Nat.pow_le_pow_right (by decide) hlength)

/-- A binary64 number that is equal to the decimal. -/
theorem agreesAs_of_exact {d : DecimalValue} (hcoeff : d.coeff < maxCoefficient)
    {b : Binary64Value} (hb : decimalToBinary64? d = some b)
    (hexact : decimalEqualsBinary64 d b = true) : AgreesAs d.toRat b :=
  ⟨decimalToBinary64?_nearest hcoeff hb, Or.inl (toRat_eq_of_decimalEqualsBinary64 hexact).symm⟩

/-- A binary64 number of which the decimal is the shortest. -/
theorem agreesAs_of_shortest {d : DecimalValue} (hcoeff : d.coeff < maxCoefficient)
    {b : Binary64Value} (hb : decimalToBinary64? d = some b)
    (hshortest : shortestDecimal? b = some d) : AgreesAs d.toRat b :=
  ⟨decimalToBinary64?_nearest hcoeff hb, Or.inr ⟨d, hshortest, rfl⟩⟩

/-- The value of a parsed number is the number, with an exponent of 0 for zero. -/
theorem parsedValue?_eq_some {p : ParsedWireDecimal} (hdigits : Digits p.digits)
    {d : DecimalValue} (h : parsedValue? p = some d) :
    d.coeff < maxCoefficient ∧ d.toRat = digitsValue p.digits * (10 : ℚ) ^ p.exp10 := by
  rw [parsedValue?] at h
  split at h
  · contradiction
  · rename_i hlength
    rw [coefficient?_digits hdigits] at h
    obtain rfl := Option.some.inj h
    refine ⟨coefficient_lt hdigits (by omega), ?_⟩
    rw [DecimalValue.toRat]
    dsimp only
    split
    · rename_i hzero
      rw [beq_iff_eq.mp hzero, Nat.cast_zero, zero_mul, zero_mul]
    · rfl

/-- An integer is let pass if a binary64 number is equal to it. -/
theorem agreesAs_of_integer {literal : String} {p : ParsedWireDecimal}
    (hread : parseWireDecimal? literal = some p) (hdigits : Digits p.digits)
    (hint : p.integerSyntax = true) (hsafe : numberLiteralAgreementSafe? literal ≠ some false) :
    ∃ b, AgreesAs (digitsValue p.digits * (10 : ℚ) ^ p.exp10) b := by
  rw [numberLiteralAgreementSafe?, hread] at hsafe
  simp only [Option.bind_eq_bind, Option.bind_some, coefficient?_digits hdigits, if_pos hint]
    at hsafe
  split at hsafe
  · exact absurd rfl hsafe
  · rename_i hlength
    split at hsafe
    · exact absurd rfl hsafe
    · rename_i b hb
      have hcoeff : digitsValue p.digits < maxCoefficient := coefficient_lt hdigits (by omega)
      have hexact : decimalEqualsBinary64 ⟨digitsValue p.digits, p.exp10⟩ b = true := by
        simpa using hsafe
      have hagrees := agreesAs_of_exact hcoeff hb hexact
      rw [DecimalValue.toRat] at hagrees
      exact ⟨b, hagrees⟩

/-- Any other number is let pass if it is the shortest decimal of a binary64 number. -/
theorem agreesAs_of_decimal {literal : String} {p : ParsedWireDecimal}
    (hread : parseWireDecimal? literal = some p) (hdigits : Digits p.digits)
    (hint : ¬ p.integerSyntax = true)
    (hsafe : numberLiteralAgreementSafe? literal ≠ some false) :
    ∃ b, AgreesAs (digitsValue p.digits * (10 : ℚ) ^ p.exp10) b := by
  rw [numberLiteralAgreementSafe?, hread] at hsafe
  simp only [Option.bind_eq_bind, Option.bind_some, if_neg hint] at hsafe
  split at hsafe
  · exact absurd rfl hsafe
  · rename_i d hvalue
    obtain ⟨hcoeff, hrat⟩ := parsedValue?_eq_some hdigits hvalue
    rw [← hrat]
    split at hsafe
    · exact absurd rfl hsafe
    · rename_i b hb
      split at hsafe
      · exact absurd rfl hsafe
      · rename_i shortest hshortest
        obtain rfl : shortest = d := by simpa using hsafe
        exact ⟨b, agreesAs_of_shortest hcoeff hb hshortest⟩

/-- A literal the check lets pass is read alike by a reader with binary64 values. -/
theorem agreesAs_of_safe {w : Numeral} (h : w.Valid)
    (hexponent : ∀ e, w.exponent = some e → e.digits.length ≤ maxExponentDigits)
    (hsafe : numberLiteralAgreementSafe? (String.ofList w.text) ≠ some false) :
    ∃ b, AgreesAs |jsonRat w.value| b := by
  obtain ⟨p, hread, hdigits, hvalue, _⟩ := parseWireDecimal?_text h hexponent
  rw [← hvalue]
  by_cases hint : p.integerSyntax = true
  · exact agreesAs_of_integer hread hdigits hint hsafe
  · exact agreesAs_of_decimal hread hdigits hint hsafe

/-- **Numbers agree.**  On a line that passes the exponent and the agreement
scan, every number of the parsed value has a nearest binary64 number that either
is that number, or has it as its shortest decimal. -/
theorem numbers_agree {line : String} {j : Json} (hnumbers : wireNumbersSafe line = true)
    (hagree : wireNumbersAgreementSafe line = true) (h : Json.parse line = .ok j) :
    ∀ n ∈ j.numbers, ∃ b, AgreesAs |jsonRat n| b := by
  intro n hn
  obtain ⟨w, hjudged, rfl⟩ := exists_judged_of_parse h n hn
  exact agreesAs_of_safe hjudged.valid (hjudged.exponent hnumbers) (hjudged.agrees hagree)

end McpSeal.Seal.JsonUtil
