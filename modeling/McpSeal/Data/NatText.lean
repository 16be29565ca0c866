import Mathlib.Data.Nat.Digits.Defs
import Mathlib.Data.List.Basic
import Mathlib.Tactic.Common
set_option autoImplicit false

/-!
# Data: decimal numerals (`String.toNat?`)

The source reads clock texts and signed times with the library's
`String.toNat?`: digits, with single underscores allowed between them.
-/

namespace McpSeal.Data

/-- Digits and single separators, ending in a digit. -/
def isNatChars (lastWasDigit : Bool) : List Char → Bool
  | [] => lastWasDigit
  | c :: rest =>
      if c = '_' then lastWasDigit && isNatChars false rest
      else c.isDigit && isNatChars true rest

/-- The numeral's value; separators are skipped. -/
def natOfChars (chars : List Char) : Nat :=
  chars.foldl (fun n c => if c = '_' then n else n * 10 + (c.toNat - '0'.toNat)) 0

/-- `String.toNat?`. -/
def toNat? (s : String) : Option Nat :=
  if isNatChars false s.toList then some (natOfChars s.toList) else none

/-! ## Printed numbers -/

theorem isNatChars_of_digits {chars : List Char} (h : ∀ c ∈ chars, c.isDigit = true)
    (lastWasDigit : Bool) :
    isNatChars lastWasDigit chars = (lastWasDigit || !chars.isEmpty) := by
  induction chars generalizing lastWasDigit with
  | nil => simp [isNatChars]
  | cons c rest ih =>
      have hc : c.isDigit = true := h c List.mem_cons_self
      have hne : c ≠ '_' := by
        rintro rfl
        exact absurd hc (by decide)
      have hrest := ih (fun d hd => h d (List.mem_cons_of_mem c hd)) true
      rw [isNatChars, if_neg hne, hc, hrest]
      simp

theorem natOfChars_of_digits {chars : List Char} (h : ∀ c ∈ chars, c.isDigit = true) :
    natOfChars chars = Nat.ofDigitChars 10 chars 0 := by
  rw [natOfChars, Nat.ofDigitChars_eq_foldl]
  refine List.foldl_ext _ _ _ fun n c hc => ?_
  have hne : c ≠ '_' := by
    rintro rfl
    exact absurd (h '_' hc) (by decide)
  rw [if_neg hne, Nat.mul_comm]

/-- A positive number is printed with a nonzero first digit. -/
theorem exists_first_toDigits {n : Nat} (h : 0 < n) :
    ∃ c rest, Nat.toDigits 10 n = c :: rest ∧ '1' ≤ c ∧ c ≤ '9' := by
  have hdigit : ∀ d : Fin 10, 0 < d.val → '1' ≤ d.val.digitChar ∧ d.val.digitChar ≤ '9' := by
    decide
  induction n using Nat.strongRecOn with
  | ind n ih =>
      rcases Nat.lt_or_ge n 10 with hlt | hge
      · rw [Nat.toDigits_of_lt_base hlt]
        exact ⟨n.digitChar, [], rfl, hdigit ⟨n, hlt⟩ h⟩
      · obtain ⟨c, rest, hdigits, hc⟩ := ih (n / 10) (by omega) (by omega)
        rw [Nat.toDigits_of_base_le (by decide) hge, hdigits]
        exact ⟨c, _, rfl, hc⟩

/-- A printed number is read back. -/
theorem toNat?_toString (n : Nat) : toNat? (toString n) = some n := by
  have hchars : (toString n).toList = Nat.toDigits 10 n := Nat.toList_repr
  have hdigits : ∀ c ∈ Nat.toDigits 10 n, c.isDigit = true := fun c hc =>
    Nat.isDigit_of_mem_toDigits (by decide) (by decide) hc
  have hvalid : isNatChars false (Nat.toDigits 10 n) = true := by
    rw [isNatChars_of_digits hdigits]
    simp [Nat.toDigits_ne_nil]
  rw [toNat?, hchars, if_pos hvalid, natOfChars_of_digits hdigits, Nat.ofDigitChars_ten_toDigits]

end McpSeal.Data
