import Mathlib.Data.List.Basic
set_option autoImplicit false

/-!
# Foundation: words between separators

The words of a list are its maximal nonempty runs of items that are no
separators.  Words joined by separators are split into themselves.
-/

namespace McpSeal.Foundation

variable {α : Type}

/-- The nonempty runs between separators, in order. -/
def words (isSep : α → Bool) (items : List α) : List (List α) :=
  (items.splitOnP isSep).filter fun run => !run.isEmpty

/-- A nonempty list without separators, as every word is. -/
structure IsWord (isSep : α → Bool) (word : List α) : Prop where
  nonempty : word ≠ []
  noSep : ∀ x ∈ word, isSep x = false

namespace words

variable {isSep : α → Bool}

theorem nil : words isSep [] = [] := rfl

theorem cons_sep {sep : α} (h : isSep sep = true) (rest : List α) :
    words isSep (sep :: rest) = words isSep rest := by
  unfold words
  rw [List.splitOnP_cons_eq_if_modifyHead, if_pos h]
  rfl

/-- Separators alone make no words. -/
theorem of_all_sep {items : List α} (h : items.all isSep = true) : words isSep items = [] := by
  induction items with
  | nil => exact nil
  | cons sep rest ih =>
      obtain ⟨hsep, hrest⟩ := Bool.and_eq_true_iff.mp h
      rw [cons_sep hsep]
      exact ih hrest

theorem append_sep {word : List α} {sep : α} (hword : IsWord isSep word)
    (hsep : isSep sep = true) (rest : List α) :
    words isSep (word ++ sep :: rest) = word :: words isSep rest := by
  unfold words
  rw [List.splitOnP_append_cons_of_forall_mem hword.noSep sep hsep]
  rw [List.filter_cons_of_pos]
  simpa using hword.nonempty

theorem singleton {word : List α} (hword : IsWord isSep word) :
    words isSep word = [word] := by
  unfold words
  rw [List.splitOnP_eq_singleton hword.noSep, List.filter_cons_of_pos]
  · rfl
  · simpa using hword.nonempty

/-- **Words.**  Words joined by one separator are split into themselves. -/
theorem intercalate {sep : α} (hsep : isSep sep = true) {ws : List (List α)}
    (hws : ∀ w ∈ ws, IsWord isSep w) : words isSep (List.intercalate [sep] ws) = ws := by
  induction ws with
  | nil => rfl
  | cons w rest ih =>
      obtain ⟨hw, hrest⟩ := List.forall_mem_cons.mp hws
      cases rest with
      | nil =>
          rw [List.intercalate_singleton]
          exact singleton hw
      | cons w' rest =>
          rw [List.intercalate_cons_cons, List.append_assoc]
          rw [List.singleton_append, append_sep hw hsep, ih hrest]

end words

end McpSeal.Foundation
