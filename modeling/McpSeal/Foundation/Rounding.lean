import Mathlib.Algebra.Order.Field.Rat
import Mathlib.Algebra.Order.Field.Power
import Mathlib.Data.Set.Basic
import Mathlib.Tactic.FieldSimp
import Mathlib.Tactic.Linarith
import Mathlib.Tactic.Positivity
import Mathlib.Tactic.Ring
set_option autoImplicit false

/-!
# Foundation: rounding to nearest

Nearest elements of a set of rationals, and the two cases of rounding to a
binary floating-point format: where the number is at least as large as a power
of two the format has all its digits for, the spacing is relative to that power;
below, it is the format's smallest.  Nothing here names a program.
-/

namespace McpSeal.Foundation.Rounding

/-- `y` is an element of `S` than which none is nearer to `x`. -/
def IsNearest (S : Set ℚ) (x y : ℚ) : Prop :=
  y ∈ S ∧ ∀ z ∈ S, |x - y| ≤ |x - z|

theorem isNearest_self {S : Set ℚ} {x : ℚ} (h : x ∈ S) : IsNearest S x x := by
  refine ⟨h, fun z _ => ?_⟩
  rw [sub_self, abs_zero]
  exact abs_nonneg _

/-- Within half a step of a grid there is no nearer point of the grid. -/
theorem abs_sub_le_of_half {u x : ℚ} (hu : 0 < u) {k : Int} (h : |x - k * u| ≤ u / 2) (m : Int) :
    |x - k * u| ≤ |x - m * u| := by
  by_cases hkm : m = k
  · rw [hkm]
  · have hone : (1 : ℚ) ≤ |((m - k : Int) : ℚ)| := by
      have hint : (1 : Int) ≤ |m - k| := Int.one_le_abs (sub_ne_zero.mpr hkm)
      exact_mod_cast hint
    have hstep : u ≤ |(m : ℚ) * u - k * u| := by
      rw [← sub_mul, abs_mul, abs_of_pos hu]
      have hcast : ((m - k : Int) : ℚ) = (m : ℚ) - k := by push_cast; ring
      rw [hcast] at hone
      nlinarith
    have htriangle : |(m : ℚ) * u - k * u| ≤ |x - k * u| + |x - m * u| := by
      have hsplit : (m : ℚ) * u - k * u = (x - k * u) - (x - m * u) := by ring
      rw [hsplit]
      exact abs_sub _ _
    linarith

/-- The numbers `s * 2 ^ e` of a binary format: `p` binary digits, and the
exponents from `emin` to `emax`. -/
def binaryFloats (p : Nat) (emin emax : Int) : Set ℚ :=
  {z | ∃ (s : Nat) (e : Int), s < 2 ^ p ∧ emin ≤ e ∧ e ≤ emax ∧ z = s * 2 ^ e}

section Formats

variable {p : Nat} {emin emax : Int}

/-- Numbers of the format from `2 ^ e` on are multiples of its step there. -/
theorem exists_multiple_of_le {z : ℚ} (hz : z ∈ binaryFloats p emin emax) {e u : Int}
    (hu : u + p = e + 1) (he : (2 : ℚ) ^ e ≤ z) : ∃ m : Int, z = m * 2 ^ u := by
  obtain ⟨s, f, hs, _, _, rfl⟩ := hz
  have hlt : (2 : ℚ) ^ e < 2 ^ (p + f) := by
    have hs' : (s : ℚ) < 2 ^ p := by exact_mod_cast hs
    have hpos : (0 : ℚ) < 2 ^ f := by positivity
    calc (2 : ℚ) ^ e ≤ s * 2 ^ f := he
      _ < 2 ^ p * 2 ^ f := mul_lt_mul_of_pos_right hs' hpos
      _ = 2 ^ (p + f) := by rw [zpow_add₀ (by norm_num), zpow_natCast]
  have hef : e < p + f := (zpow_lt_zpow_iff_right₀ (by norm_num)).mp hlt
  obtain ⟨d, hd⟩ := Int.eq_ofNat_of_zero_le (by omega : 0 ≤ f - u)
  refine ⟨s * 2 ^ d, ?_⟩
  have hf : f = d + u := by omega
  rw [hf, zpow_add₀ (by norm_num), zpow_natCast]
  push_cast
  ring

/-- Every number of the format is a multiple of its smallest step. -/
theorem exists_multiple {z : ℚ} (hz : z ∈ binaryFloats p emin emax) :
    ∃ m : Int, z = m * 2 ^ emin := by
  obtain ⟨s, f, _, hmin, _, rfl⟩ := hz
  obtain ⟨d, hd⟩ := Int.eq_ofNat_of_zero_le (by omega : 0 ≤ f - emin)
  refine ⟨s * 2 ^ d, ?_⟩
  have hf : f = d + emin := by omega
  rw [hf, zpow_add₀ (by norm_num), zpow_natCast]
  push_cast
  ring

/-- Rounding above `2 ^ e`, to the step `2 ^ u` the format has there. -/
theorem isNearest_normal {e u : Int} {x : ℚ} (hu : u + p = e + 1) (hp : 0 < p)
    (hx : (2 : ℚ) ^ e ≤ x) {k : Int} (hk : |x - k * 2 ^ u| ≤ 2 ^ u / 2)
    (hmem : (k : ℚ) * 2 ^ u ∈ binaryFloats p emin emax) :
    IsNearest (binaryFloats p emin emax) x (k * 2 ^ u) := by
  have hpos : (0 : ℚ) < 2 ^ u := by positivity
  refine ⟨hmem, fun z hz => ?_⟩
  rcases le_or_gt ((2 : ℚ) ^ e) z with hle | hlt
  · obtain ⟨m, rfl⟩ := exists_multiple_of_le hz hu hle
    exact abs_sub_le_of_half hpos hk m
  · -- a number below the power of two is farther off than the power itself
    have hpower : (2 : ℚ) ^ e = ((2 ^ (p - 1) : Nat) : Int) * 2 ^ u := by
      push_cast
      rw [← zpow_natCast, ← zpow_add₀ (by norm_num : (2 : ℚ) ≠ 0)]
      congr 1
      omega
    have hgrid := abs_sub_le_of_half hpos hk ((2 ^ (p - 1) : Nat) : Int)
    rw [← hpower, abs_of_nonneg (sub_nonneg.mpr hx)] at hgrid
    rw [abs_of_nonneg (by linarith : (0 : ℚ) ≤ x - z)]
    linarith

/-- Rounding to the smallest step of the format. -/
theorem isNearest_subnormal {x : ℚ} {k : Int} (hk : |x - k * 2 ^ emin| ≤ 2 ^ emin / 2)
    (hmem : (k : ℚ) * 2 ^ emin ∈ binaryFloats p emin emax) :
    IsNearest (binaryFloats p emin emax) x (k * 2 ^ emin) := by
  refine ⟨hmem, fun z hz => ?_⟩
  obtain ⟨m, rfl⟩ := exists_multiple hz
  exact abs_sub_le_of_half (by positivity) hk m

end Formats

end McpSeal.Foundation.Rounding
