import Mathlib.Data.Nat.Digits.Defs
import Mathlib.Order.Compare
set_option autoImplicit false

/-!
# Foundation: comparing numbers digit by digit

Positional numbers are compared from the most significant digit down.  With the
digits stored least significant first, the comparison of `d :: ds` is the
comparison of `ds`, refined by the digit `d` only where `ds` is undecided:
`Ordering.then`.
-/

namespace McpSeal.Foundation.Radix

/-- Comparison of two little-endian digit lists of one length, the most
significant digit deciding first. -/
def compareDigits : List Nat → List Nat → Ordering
  | x :: xs, y :: ys => (compareDigits xs ys).then (compare x y)
  | _, _ => .eq

/-- One position: the higher parts decide, and the lowest digit breaks ties. -/
theorem compare_add_mul {b x y : Nat} (hx : x < b) (hy : y < b) (u v : Nat) :
    compare (x + b * u) (y + b * v) = (compare u v).then (compare x y) := by
  rcases lt_trichotomy u v with huv | huv | huv
  · have hstep : b * (u + 1) ≤ b * v := Nat.mul_le_mul_left b huv
    have hlt : x + b * u < y + b * v := by
      rw [Nat.mul_succ] at hstep
      omega
    rw [Nat.compare_eq_lt.mpr hlt, Nat.compare_eq_lt.mpr huv]
    rfl
  · subst huv
    have hcancel : compare (x + b * u) (y + b * u) = compare x y := by
      rcases lt_trichotomy x y with hxy | hxy | hxy
      · rw [Nat.compare_eq_lt.mpr hxy, Nat.compare_eq_lt.mpr (by omega)]
      · rw [Nat.compare_eq_eq.mpr hxy, Nat.compare_eq_eq.mpr (by omega)]
      · rw [Nat.compare_eq_gt.mpr hxy, Nat.compare_eq_gt.mpr (by omega)]
    rw [hcancel, Nat.compare_eq_eq.mpr rfl]
    rfl
  · have hstep : b * (v + 1) ≤ b * u := Nat.mul_le_mul_left b huv
    have hgt : y + b * v < x + b * u := by
      rw [Nat.mul_succ] at hstep
      omega
    rw [Nat.compare_eq_gt.mpr hgt, Nat.compare_eq_gt.mpr huv]
    rfl

/-- Comparing digits compares the numbers they stand for. -/
theorem compareDigits_eq {b : Nat} {xs ys : List Nat} (hlength : xs.length = ys.length)
    (hxs : ∀ x ∈ xs, x < b) (hys : ∀ y ∈ ys, y < b) :
    compareDigits xs ys = compare (Nat.ofDigits b xs) (Nat.ofDigits b ys) := by
  induction xs generalizing ys with
  | nil =>
      obtain rfl : ys = [] := List.length_eq_zero_iff.mp hlength.symm
      exact (Nat.compare_eq_eq.mpr rfl).symm
  | cons x xs ih =>
      cases ys with
      | nil => simp at hlength
      | cons y ys =>
          simp only [List.forall_mem_cons] at hxs hys
          have htail := ih (by simpa using hlength) hxs.2 hys.2
          rw [compareDigits, htail, Nat.ofDigits_cons, Nat.ofDigits_cons,
            compare_add_mul hxs.1 hys.1]

end McpSeal.Foundation.Radix
