import Mathlib.Order.Basic
import Mathlib.Order.Lattice
import Mathlib.Data.List.Basic
set_option autoImplicit false

/-!
# Foundation: ledgers of one-shot tokens that expire

A token has a key and an expiry.  It may be spent at a clock reading up to its
expiry, and at most once.  A ledger remembers the spent tokens, and forgets
those that have expired at the clock it is used with: that is what makes it
small, and it is sound as long as clocks do not go back, because an expired
token would be refused anyway.

The clock readings are inputs here and nothing orders them.  The central rule,
`exists_later_clock`, therefore names what a second spend needs: an accepted
spend in between whose clock was past the token's expiry.  `History` is the
specification of a ledger that never forgets, and `exists_history` says that an
expiring ledger meets it on every run whose accepted clocks do not go back.
-/

namespace McpSeal.Foundation

/-- A type of ledger entries: the key a token is spent under, and the last
clock reading it may be spent at. -/
class Expiring (ε : Type) (κ τ : outParam Type) where
  key : ε → κ
  expiry : ε → τ

/-- A relation holds pairwise when it holds of any two members at a split. -/
theorem pairwise_of_splits {α : Type} {R : α → α → Prop} {l : List α}
    (h : ∀ before x between y after, l = before ++ x :: (between ++ y :: after) → R x y) :
    l.Pairwise R := by
  induction l with
  | nil => exact List.Pairwise.nil
  | cons a l ih =>
      refine List.pairwise_cons.mpr ⟨?_, ?_⟩
      · intro b hb
        obtain ⟨between, after, rfl⟩ := List.append_of_mem hb
        exact h [] a between b after rfl
      · refine ih fun before x between y after hl => ?_
        exact h (a :: before) x between y after (by rw [hl]; rfl)

namespace Ledger

open Expiring (key expiry)

/-- One attempt to spend a token at a clock reading. -/
structure Attempt (ε τ : Type) where
  clock : τ
  entry : ε

variable {ε κ τ : Type} [Expiring ε κ τ] [DecidableEq κ] [LinearOrder τ]

/-- Keep the entries that are still live. -/
def prune (now : τ) (entries : List ε) : List ε :=
  entries.filter fun e => now ≤ expiry e

/-- Some entry has this key. -/
def spent (entries : List ε) (k : κ) : Bool :=
  entries.any fun e => key e = k

/-- Spend a token: refused when it has expired or its key is already spent,
otherwise recorded in the pruned ledger. -/
def spend? (now : τ) (entry : ε) (entries : List ε) : Option (List ε) :=
  if expiry entry < now then none
  else if spent (prune now entries) (key entry) then none
  else some (entry :: prune now entries)

/-! ## One spend -/

omit [DecidableEq κ] in
theorem mem_prune {now : τ} {entries : List ε} {e : ε} :
    e ∈ prune now entries ↔ e ∈ entries ∧ now ≤ expiry e := by
  simp [prune]

omit [LinearOrder τ] in
theorem spent_iff {entries : List ε} {k : κ} :
    spent entries k = true ↔ ∃ e ∈ entries, key e = k := by
  simp [spent]

/-- Everything an accepted spend says. -/
theorem spend?_eq_some {now : τ} {entry : ε} {entries entries' : List ε} :
    spend? now entry entries = some entries' ↔
      now ≤ expiry entry ∧ spent (prune now entries) (key entry) = false ∧
        entries' = entry :: prune now entries := by
  unfold spend?
  by_cases hexp : expiry entry < now
  · simp [hexp, not_le.mpr hexp]
  · by_cases hspent : spent (prune now entries) (key entry) = true
    · simp [hexp, hspent]
    · simp [hexp, hspent, not_lt.mp hexp, eq_comm]

theorem live_of_spend {now : τ} {entry : ε} {entries entries' : List ε}
    (h : spend? now entry entries = some entries') : now ≤ expiry entry :=
  (spend?_eq_some.mp h).1

theorem spend?_eq_none_of_spent {now : τ} {entry : ε} {entries : List ε}
    (h : spent (prune now entries) (key entry) = true) :
    spend? now entry entries = none := by
  unfold spend?
  rw [if_pos h, ite_self]

/-- A live entry of the ledger refuses every spend of its key. -/
theorem spend?_eq_none_of_mem {now : τ} {entry e : ε} {entries : List ε}
    (hmem : e ∈ entries) (hlive : now ≤ expiry e) (hkey : key e = key entry) :
    spend? now entry entries = none :=
  spend?_eq_none_of_spent (spent_iff.mpr ⟨e, mem_prune.mpr ⟨hmem, hlive⟩, hkey⟩)

/-- An accepted spend keeps exactly the new entry and the live old ones. -/
theorem mem_of_spend {now : τ} {entry e : ε} {entries entries' : List ε}
    (h : spend? now entry entries = some entries') :
    e ∈ entries' ↔ e = entry ∨ (e ∈ entries ∧ now ≤ expiry e) := by
  obtain ⟨_, _, rfl⟩ := spend?_eq_some.mp h
  rw [List.mem_cons, mem_prune]

/-! ## Runs -/

/-- One step of a run: a refused attempt leaves the ledger as it is. -/
def attempt (entries : List ε) (a : Attempt ε τ) : List ε :=
  (spend? a.clock a.entry entries).getD entries

/-- The ledger after a list of attempts. -/
def run (entries : List ε) (attempts : List (Attempt ε τ)) : List ε :=
  attempts.foldl attempt entries

/-- The attempts of a run that were accepted, in order. -/
def accepted (entries : List ε) : List (Attempt ε τ) → List (Attempt ε τ)
  | [] => []
  | a :: rest =>
      match spend? a.clock a.entry entries with
      | none => accepted entries rest
      | some entries' => a :: accepted entries' rest

theorem attempt_of_spend {entries entries' : List ε} {a : Attempt ε τ}
    (h : spend? a.clock a.entry entries = some entries') : attempt entries a = entries' := by
  rw [attempt, h, Option.getD_some]

theorem attempt_of_refused {entries : List ε} {a : Attempt ε τ}
    (h : spend? a.clock a.entry entries = none) : attempt entries a = entries := by
  rw [attempt, h, Option.getD_none]

/-- No key is recorded twice. -/
def DistinctKeys (entries : List ε) : Prop :=
  entries.Pairwise fun a b => key a ≠ key b

theorem distinctKeys_of_spend {now : τ} {entry : ε} {entries entries' : List ε}
    (hdistinct : DistinctKeys entries) (h : spend? now entry entries = some entries') :
    DistinctKeys entries' := by
  obtain ⟨_, hspent, rfl⟩ := spend?_eq_some.mp h
  refine List.pairwise_cons.mpr ⟨?_, List.Pairwise.filter _ hdistinct⟩
  intro e he hkey
  have hspent' := spent_iff.mpr ⟨e, he, hkey.symm⟩
  rw [hspent] at hspent'
  contradiction

/-- **What a ledger holds after a run.**  An entry it started with, if no
accepted spend ran past its expiry, or the entry of an accepted spend, if none
after it did. -/
theorem mem_run {entries : List ε} {attempts : List (Attempt ε τ)} {e : ε} :
    e ∈ run entries attempts ↔
      (e ∈ entries ∧ ∀ a ∈ accepted entries attempts, a.clock ≤ expiry e) ∨
      ∃ before x after, accepted entries attempts = before ++ x :: after ∧ x.entry = e ∧
        ∀ a ∈ after, a.clock ≤ expiry e := by
  induction attempts generalizing entries with
  | nil => simp [run, accepted]
  | cons a rest ih =>
      have hrun : run entries (a :: rest) = run (attempt entries a) rest := rfl
      rw [hrun]
      cases hspend : spend? a.clock a.entry entries with
      | none =>
          simp only [attempt_of_refused hspend, accepted, hspend]
          exact ih
      | some entries' =>
          simp only [attempt_of_spend hspend, accepted, hspend]
          rw [ih, mem_of_spend hspend]
          constructor
          · rintro (⟨rfl | ⟨hmem, hkept⟩, hlater⟩ | ⟨before, x, after, hsplit, hx, hlater⟩)
            · exact Or.inr ⟨[], a, _, rfl, rfl, hlater⟩
            · exact Or.inl ⟨hmem, List.forall_mem_cons.mpr ⟨hkept, hlater⟩⟩
            · exact Or.inr ⟨a :: before, x, after, by rw [hsplit]; rfl, hx, hlater⟩
          · rintro (⟨hmem, hlater⟩ | ⟨before, x, after, hsplit, hx, hlater⟩)
            · obtain ⟨hkept, hlater⟩ := List.forall_mem_cons.mp hlater
              exact Or.inl ⟨Or.inr ⟨hmem, hkept⟩, hlater⟩
            · cases before with
              | nil =>
                  obtain ⟨rfl, rfl⟩ := List.cons.inj hsplit
                  exact Or.inl ⟨Or.inl hx.symm, hlater⟩
              | cons b before =>
                  exact Or.inr ⟨before, x, after, (List.cons.inj hsplit).2, hx, hlater⟩

theorem live_of_mem_accepted {entries : List ε} {attempts : List (Attempt ε τ)}
    {a : Attempt ε τ} (h : a ∈ accepted entries attempts) :
    a.clock ≤ expiry a.entry := by
  induction attempts generalizing entries with
  | nil => simp [accepted] at h
  | cons b rest ih =>
      unfold accepted at h
      split at h
      · exact ih h
      · rename_i entries' hspend
        rcases List.mem_cons.mp h with rfl | h
        · exact live_of_spend hspend
        · exact ih h

/-- A recorded entry whose key is accepted again, at a clock up to its expiry,
was forgotten in between: an accepted spend ran past its expiry. -/
theorem exists_later_clock_of_mem {entries : List ε} {attempts : List (Attempt ε τ)}
    {e : ε} {between after : List (Attempt ε τ)} {y : Attempt ε τ} (hmem : e ∈ entries)
    (haccepted : accepted entries attempts = between ++ y :: after)
    (hkey : key e = key y.entry) (hlive : y.clock ≤ expiry e) :
    ∃ m ∈ between, expiry e < m.clock := by
  induction attempts generalizing entries between with
  | nil => simp [accepted] at haccepted
  | cons a rest ih =>
      cases hspend : spend? a.clock a.entry entries with
      | none =>
          simp only [accepted, hspend] at haccepted
          exact ih hmem haccepted
      | some entries' =>
          simp only [accepted, hspend] at haccepted
          cases between with
          | nil =>
              -- the entry is still recorded and refuses the second spend
              obtain rfl : a = y := (List.cons.inj haccepted).1
              rw [spend?_eq_none_of_mem hmem hlive hkey] at hspend
              exact absurd hspend (by simp)
          | cons m between =>
              obtain ⟨rfl, hrest⟩ := List.cons.inj haccepted
              rcases lt_or_ge (expiry e) a.clock with hlate | hkept
              · exact ⟨a, List.mem_cons_self, hlate⟩
              · have hmem' : e ∈ entries' :=
                  (mem_of_spend hspend).mpr (Or.inr ⟨hmem, hkept⟩)
                obtain ⟨m, hm, hlate⟩ := ih hmem' hrest
                exact ⟨m, List.mem_cons_of_mem _ hm, hlate⟩

/-- **No second spend without a later clock in between.**  When a key is
accepted twice, the second time at a clock up to the expiry of the first, some
accepted spend in between ran past that expiry. -/
theorem exists_later_clock {entries : List ε} {attempts : List (Attempt ε τ)}
    {before between after : List (Attempt ε τ)} {x y : Attempt ε τ}
    (haccepted : accepted entries attempts = before ++ x :: (between ++ y :: after))
    (hkey : key x.entry = key y.entry) (hlive : y.clock ≤ expiry x.entry) :
    ∃ m ∈ between, expiry x.entry < m.clock := by
  induction attempts generalizing entries before with
  | nil => simp [accepted] at haccepted
  | cons a rest ih =>
      cases hspend : spend? a.clock a.entry entries with
      | none =>
          simp only [accepted, hspend] at haccepted
          exact ih haccepted
      | some entries' =>
          simp only [accepted, hspend] at haccepted
          cases before with
          | nil =>
              obtain ⟨rfl, hrest⟩ := List.cons.inj haccepted
              have hrecorded : a.entry ∈ entries' := (mem_of_spend hspend).mpr (Or.inl rfl)
              exact exists_later_clock_of_mem hrecorded hrest hkey hlive
          | cons b before => exact ih (List.cons.inj haccepted).2

/-! ## The ledger that never forgets -/

/-- Two entries are the same token when key and expiry agree. -/
def SameToken (a b : ε) : Prop :=
  key a = key b ∧ expiry a = expiry b

/-- What a ledger is for: a sequence of grants in clock order, each within its
token's lifetime, no token granted twice. -/
structure History (ε : Type) {κ τ : Type} [Expiring ε κ τ] [LinearOrder τ] where
  grants : List (Attempt ε τ)
  ordered : grants.Pairwise fun a b => a.clock ≤ b.clock
  live : ∀ a ∈ grants, a.clock ≤ expiry a.entry
  once : grants.Pairwise fun a b => ¬ SameToken a.entry b.entry

/-- The accepted spends of a run with ordered clocks never repeat a token: an
accepted spend in between would have run past the expiry, and the second spend
later still. -/
theorem accepted_once {entries : List ε} {attempts : List (Attempt ε τ)}
    (hordered : (accepted entries attempts).Pairwise fun a b => a.clock ≤ b.clock) :
    (accepted entries attempts).Pairwise fun a b => ¬ SameToken a.entry b.entry := by
  refine pairwise_of_splits fun before x between y after hsplit hsame => ?_
  have hylive : y.clock ≤ expiry x.entry := by
    rw [hsame.2]
    exact live_of_mem_accepted (by rw [hsplit]; simp)
  obtain ⟨m, hm, hlate⟩ := exists_later_clock hsplit hsame.1 hylive
  have hmy : m.clock ≤ y.clock := by
    rw [hsplit] at hordered
    have htail := (List.pairwise_append.mp hordered).2.1
    have hrest := (List.pairwise_cons.mp htail).2
    exact (List.pairwise_append.mp hrest).2.2 m hm y List.mem_cons_self
  exact absurd (lt_of_lt_of_le hlate hmy) (not_lt.mpr hylive)

/-- **Refinement.**  On every run whose accepted clocks do not go back, the
accepted spends of an expiring ledger are a history of the ledger that never
forgets. -/
theorem exists_history {entries : List ε} {attempts : List (Attempt ε τ)}
    (hordered : (accepted entries attempts).Pairwise fun a b => a.clock ≤ b.clock) :
    ∃ history : History ε, history.grants = accepted entries attempts :=
  ⟨{ grants := accepted entries attempts
     ordered := hordered
     live := fun _ h => live_of_mem_accepted h
     once := accepted_once hordered }, rfl⟩

end Ledger

end McpSeal.Foundation
