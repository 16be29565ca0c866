import McpSeal.Foundation.Ledger
set_option autoImplicit false

/-!
# Foundation: ledgers that are pruned from outside

Here a ledger of one-shot tokens is pruned by a step of its own, at a clock that
nothing ties to the spends.  What it holds after a list of changes is said exactly,
and with it when a key that was recorded can be recorded again: only after a
pruning past the expiry it was recorded with.
-/

namespace McpSeal.Foundation.Ledger

open Expiring (key expiry)

/-- What is done to a ledger. -/
inductive Change (ε τ : Type) where
  | record (entry : ε)
  | prune (clock : τ)

variable {ε κ τ : Type} [Expiring ε κ τ] [DecidableEq κ] [LinearOrder τ]

/-- Record a token, refused when the ledger has its key. -/
def record? (entry : ε) (entries : List ε) : Option (List ε) :=
  if spent entries (key entry) then none else some (entry :: entries)

/-- One change; a refused token leaves the ledger as it is. -/
def change (entries : List ε) : Change ε τ → List ε
  | .record entry => (record? entry entries).getD entries
  | .prune clock => prune clock entries

/-- The entries after a list of changes. -/
def changes (entries : List ε) (cs : List (Change ε τ)) : List ε :=
  cs.foldl change entries

/-- No pruning among the changes is past the expiry of the entry. -/
def Kept (e : ε) (cs : List (Change ε τ)) : Prop :=
  ∀ clock, .prune clock ∈ cs → clock ≤ expiry e

omit [DecidableEq κ] in
theorem kept_cons {e : ε} {c : Change ε τ} {cs : List (Change ε τ)} :
    Kept e (c :: cs) ↔ (∀ clock, c = .prune clock → clock ≤ expiry e) ∧ Kept e cs := by
  simp only [Kept, List.mem_cons, or_imp, forall_and, eq_comm (a := c)]

/-- What one change leaves in the ledger. -/
theorem mem_change {entries : List ε} {c : Change ε τ} {e : ε} :
    e ∈ change entries c ↔
      (e ∈ entries ∧ ∀ clock, c = .prune clock → clock ≤ expiry e) ∨
      (c = .record e ∧ spent entries (key e) = false) := by
  cases c with
  | prune clock => simp [change, mem_prune]
  | record entry =>
      cases hspent : spent entries (key entry) with
      | true =>
          have hrefused : record? entry entries = none := if_pos hspent
          rw [change, hrefused, Option.getD_none]
          constructor
          · exact fun h => Or.inl ⟨h, by simp⟩
          · rintro (⟨h, -⟩ | ⟨heq, hfree⟩)
            · exact h
            · obtain rfl := Change.record.inj heq
              exact absurd (hspent.symm.trans hfree) (by simp)
      | false =>
          have hdone : record? entry entries = some (entry :: entries) :=
            if_neg (by rw [hspent]; simp)
          rw [change, hdone, Option.getD_some, List.mem_cons]
          constructor
          · rintro (rfl | h)
            · exact Or.inr ⟨rfl, hspent⟩
            · exact Or.inl ⟨h, by simp⟩
          · rintro (⟨h, -⟩ | ⟨heq, -⟩)
            · exact Or.inr h
            · exact Or.inl (Change.record.inj heq).symm

/-- **What a ledger holds after a list of changes.**  An entry it started with, or one
that was recorded, if no later pruning was past its expiry. -/
theorem mem_changes {entries : List ε} {cs : List (Change ε τ)} {e : ε} :
    e ∈ changes entries cs ↔
      (e ∈ entries ∧ Kept e cs) ∨
      ∃ before after, cs = before ++ .record e :: after ∧
        spent (changes entries before) (key e) = false ∧ Kept e after := by
  induction cs generalizing entries with
  | nil => simp [changes, Kept]
  | cons c rest ih =>
      have hstep : changes entries (c :: rest) = changes (change entries c) rest := rfl
      rw [hstep, ih, mem_change, kept_cons]
      constructor
      · rintro (⟨⟨hmem, hkept⟩ | ⟨rfl, hfree⟩, hrest⟩ | ⟨before, after, rfl, hfree, hafter⟩)
        · exact Or.inl ⟨hmem, hkept, hrest⟩
        · exact Or.inr ⟨[], rest, rfl, hfree, hrest⟩
        · exact Or.inr ⟨c :: before, after, rfl, hfree, hafter⟩
      · rintro (⟨hmem, hkept, hrest⟩ | ⟨before, after, hsplit, hfree, hafter⟩)
        · exact Or.inl ⟨Or.inl ⟨hmem, hkept⟩, hrest⟩
        · cases before with
          | nil =>
              obtain ⟨rfl, rfl⟩ := List.cons.inj hsplit
              exact Or.inl ⟨Or.inr ⟨rfl, hfree⟩, hafter⟩
          | cons b before =>
              obtain ⟨rfl, rfl⟩ := List.cons.inj hsplit
              exact Or.inr ⟨before, after, rfl, hfree, hafter⟩

/-- **No second record without a pruning in between.**  A key that was recorded and is
free again has been pruned, at a clock past the expiry it was recorded with. -/
theorem exists_prune {entries : List ε} {before between : List (Change ε τ)} {e : ε}
    (hrecorded : spent (changes entries before) (key e) = false)
    (hfree : spent (changes entries (before ++ .record e :: between)) (key e) = false) :
    ∃ clock, .prune clock ∈ between ∧ expiry e < clock := by
  by_contra hnone
  have hkept : Kept e between := fun clock hmem =>
    not_lt.mp fun hlate => hnone ⟨clock, hmem, hlate⟩
  have hmem : e ∈ changes entries (before ++ .record e :: between) :=
    mem_changes.mpr (Or.inr ⟨before, between, rfl, hrecorded, hkept⟩)
  exact absurd (hfree.symm.trans (spent_iff.mpr ⟨e, hmem, rfl⟩)) (by simp)

end McpSeal.Foundation.Ledger
