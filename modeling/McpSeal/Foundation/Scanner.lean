import Mathlib.Logic.Function.Basic
set_option autoImplicit false

/-!
# Foundation: scanners and the texts they read

A scanner consumes a prefix of its input and returns a value with the rest.
`Reads` says that it reads one text as one value in front of every admissible
tail, the form that composes through concatenation.  `Accepts` is the converse:
whatever it reads is the printed text of the value, with blanks put in.
-/

namespace McpSeal.Foundation

/-- A scanner over a list of symbols. -/
abbrev Scanner (σ α : Type) : Type := List σ → Option (α × List σ)

/-- `scan` reads `text` as `value` in front of every tail that satisfies
`stop`. -/
def Reads {σ α : Type} (scan : Scanner σ α) (stop : List σ → Prop) (text : List σ)
    (value : α) : Prop :=
  ∀ tail, stop tail → scan (text ++ tail) = some (value, tail)

/-- A text is read as one value only. -/
theorem Reads.unique {σ α : Type} {scan : Scanner σ α} {stop : List σ → Prop}
    {text : List σ} {a b : α} (ha : Reads scan stop text a)
    (hb : Reads scan stop text b) {tail : List σ} (hstop : stop tail) : a = b := by
  have h := (ha tail hstop).symm.trans (hb tail hstop)
  exact congrArg Prod.fst (Option.some.inj h)

/-! ## Texts with blanks put in -/

/-- `chars` is `text` with blanks put in. -/
inductive Padded {σ : Type} (blank : σ → Bool) : List σ → List σ → Prop where
  | nil : Padded blank [] []
  | keep (c : σ) {text chars : List σ} (h : Padded blank text chars) :
      Padded blank (c :: text) (c :: chars)
  | skip {c : σ} (hc : blank c = true) {text chars : List σ} (h : Padded blank text chars) :
      Padded blank text (c :: chars)

namespace Padded

variable {σ : Type} {blank : σ → Bool} {text mid chars : List σ}

theorem refl (blank : σ → Bool) : ∀ text : List σ, Padded blank text text
  | [] => .nil
  | c :: rest => .keep c (refl blank rest)

theorem append_left (front : List σ) (h : Padded blank text chars) :
    Padded blank (front ++ text) (front ++ chars) := by
  induction front with
  | nil => exact h
  | cons c rest ih => exact .keep c ih

theorem trans (h : Padded blank text mid) (h' : Padded blank mid chars) :
    Padded blank text chars := by
  induction h' generalizing text with
  | nil => exact h
  | keep c _ ih =>
      cases h with
      | keep _ h => exact .keep c (ih h)
      | skip hc h => exact .skip hc (ih h)
  | skip hc _ ih => exact .skip hc (ih h)

theorem length_le (h : Padded blank text chars) : text.length ≤ chars.length := by
  induction h with
  | nil => exact Nat.le_refl _
  | keep _ _ ih => exact Nat.succ_le_succ ih
  | skip _ _ ih => exact Nat.le_succ_of_le ih

/-- Where there are no blanks, none have been put in. -/
theorem eq_of_no_blank (h : Padded blank text chars) (hchars : ∀ c ∈ chars, blank c = false) :
    chars = text := by
  induction h with
  | nil => rfl
  | keep c _ ih =>
      obtain ⟨_, hrest⟩ := List.forall_mem_cons.mp hchars
      rw [ih hrest]
  | skip hc _ _ =>
      obtain ⟨hblank, _⟩ := List.forall_mem_cons.mp hchars
      exact absurd hc (by simp [hblank])

end Padded

/-- What `scan` reads is what `print` writes of the value, with blanks put in. -/
def Accepts {σ α : Type} (blank : σ → Bool) (scan : Scanner σ α) (print : α → List σ) : Prop :=
  ∀ chars value rest, scan chars = some (value, rest) → Padded blank (print value ++ rest) chars

end McpSeal.Foundation
