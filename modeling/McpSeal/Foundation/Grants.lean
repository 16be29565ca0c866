import Mathlib.Algebra.BigOperators.Group.List.Basic
import Mathlib.Algebra.Ring.Nat
import Mathlib.Logic.Function.Basic
import Mathlib.Order.Basic
import Mathlib.Tactic.Common
set_option autoImplicit false

/-!
# Foundation: one-shot grants with a deadline

A store keeps at most one open grant a key, with its deadline.  Issuing a grant
replaces the open one, redeeming it before its deadline uses it up, and purging
forgets the grants whose deadline has come.  Each redemption is traced back to
the grant it used; purging only ever takes redemptions away, and none at all as
long as the clock does not go back.
-/

namespace McpSeal.Foundation.Grants

variable {κ : Type}

/-- The deadline of the open grant of each key that has one. -/
abbrev Store (κ : Type) : Type := κ → Option Nat

/-- What can be done to a store. -/
inductive Op (κ : Type) where
  | issue (key : κ) (deadline : Nat)
  | redeem (key : κ) (now : Nat)
  | purge (now : Nat)

/-- No grant is open. -/
def empty : Store κ := fun _ => none

/-- A grant of the key is open, and its deadline is still to come. -/
def live (s : Store κ) (key : κ) (now : Nat) : Bool :=
  match s key with
  | some deadline => now < deadline
  | none => false

theorem live_eq_true {s : Store κ} {key : κ} {now : Nat} :
    live s key now = true ↔ ∃ deadline, s key = some deadline ∧ now < deadline := by
  unfold live
  cases s key with
  | none => simp
  | some deadline => simp

/-- Every grant of `s` is a grant of `t`. -/
def Sub (s t : Store κ) : Prop :=
  ∀ key deadline, s key = some deadline → t key = some deadline

theorem Sub.refl (s : Store κ) : Sub s s := fun _ _ h => h

theorem Sub.live {s t : Store κ} (h : Sub s t) {key : κ} {now : Nat}
    (hlive : live s key now = true) : Grants.live t key now = true := by
  obtain ⟨deadline, hopen, hnow⟩ := live_eq_true.mp hlive
  exact live_eq_true.mpr ⟨deadline, h key deadline hopen, hnow⟩

/-- The stores agree on what is live, at `now` and later. -/
def AgreeFrom (now : Nat) (s t : Store κ) : Prop :=
  ∀ key later, now ≤ later → live s key later = live t key later

theorem AgreeFrom.mono {now later : Nat} {s t : Store κ} (h : AgreeFrom now s t)
    (hle : now ≤ later) : AgreeFrom later s t :=
  fun key _ hlater => h key _ (Nat.le_trans hle hlater)

/-- The clock an operation reads. -/
def Op.now? : Op κ → Option Nat
  | .issue _ _ => none
  | .redeem _ now => some now
  | .purge now => some now

/-- The operation is a purge. -/
def Op.isPurge : Op κ → Bool
  | .purge _ => true
  | _ => false

variable [DecidableEq κ]

/-- One operation; a redemption of a grant that is not live changes nothing. -/
def step (s : Store κ) : Op κ → Store κ
  | .issue key deadline => Function.update s key (some deadline)
  | .redeem key now => if live s key now then Function.update s key none else s
  | .purge now => fun key => (s key).filter fun deadline => now < deadline

/-- The store after a list of operations. -/
def run (s : Store κ) (ops : List (Op κ)) : Store κ :=
  ops.foldl step s

theorem run_append (s : Store κ) (front back : List (Op κ)) :
    run s (front ++ back) = run (run s front) back :=
  List.foldl_append

/-! ## Where a grant comes from -/

/-- A grant that is open after an operation was open before it, or the operation
issues it. -/
theorem open_of_step {s : Store κ} {key : κ} {op : Op κ} {deadline : Nat}
    (h : step s op key = some deadline) :
    s key = some deadline ∨ op = .issue key deadline := by
  cases op with
  | issue k d =>
      by_cases hk : key = k
      · subst hk
        rw [step, Function.update_self] at h
        obtain rfl := Option.some.inj h
        exact Or.inr rfl
      · rw [step, Function.update_of_ne hk] at h
        exact Or.inl h
  | redeem k now =>
      rw [step] at h
      split at h
      · by_cases hk : key = k
        · subst hk
          rw [Function.update_self] at h
          contradiction
        · rw [Function.update_of_ne hk] at h
          exact Or.inl h
      · exact Or.inl h
  | purge now => exact Or.inl (Option.filter_eq_some_iff.mp h).1

/-- Only an issue opens a grant. -/
theorem none_of_step {s : Store κ} {key : κ} {op : Op κ} (h : s key = none)
    (hop : ∀ deadline, op ≠ .issue key deadline) : step s op key = none := by
  refine Option.eq_none_iff_forall_ne_some.mpr fun deadline hopen => ?_
  rcases open_of_step hopen with hbefore | hissue
  · exact absurd (h.symm.trans hbefore) (Option.some_ne_none deadline).symm
  · exact hop deadline hissue

/-- A live grant is used up. -/
theorem step_redeem_self {s : Store κ} {key : κ} {now : Nat} (h : live s key now = true) :
    step s (.redeem key now) key = none := by
  rw [step, if_pos h, Function.update_self]

/-- **Origin.**  A grant that is open after a run was open before it, or was issued in it. -/
theorem open_of_run {s : Store κ} {key : κ} {deadline : Nat} {ops : List (Op κ)}
    (h : run s ops key = some deadline) :
    s key = some deadline ∨ .issue key deadline ∈ ops := by
  induction ops generalizing s with
  | nil => exact Or.inl h
  | cons op rest ih =>
      rcases ih h with hopen | hmem
      · rcases open_of_step hopen with hbefore | rfl
        · exact Or.inl hbefore
        · exact Or.inr List.mem_cons_self
      · exact Or.inr (List.mem_cons_of_mem op hmem)

/-! ## Counting -/

/-- One if the operation redeems the grant of `key`. -/
def redeems (s : Store κ) (key : κ) : Op κ → Nat
  | .redeem k now => if k = key ∧ live s k now = true then 1 else 0
  | _ => 0

/-- One if the operation issues a grant of `key`. -/
def issues (key : κ) : Op κ → Nat
  | .issue k _ => if k = key then 1 else 0
  | _ => 0

/-- Redemptions of `key` in a run. -/
def redeemed (s : Store κ) (key : κ) : List (Op κ) → Nat
  | [] => 0
  | op :: rest => redeems s key op + redeemed (step s op) key rest

theorem redeemed_append (s : Store κ) (key : κ) (front back : List (Op κ)) :
    redeemed s key (front ++ back) = redeemed s key front + redeemed (run s front) key back := by
  induction front generalizing s with
  | nil => exact (Nat.zero_add _).symm
  | cons op rest ih =>
      rw [List.cons_append, redeemed, redeemed, ih, Nat.add_assoc]
      rfl

/-- Grants of `key` issued in a run. -/
def issued (key : κ) (ops : List (Op κ)) : Nat :=
  (ops.map (issues key)).sum

/-- Open grants of `key`. -/
def openGrants (s : Store κ) (key : κ) : Nat :=
  if (s key).isSome then 1 else 0

theorem redeems_add_open_le (s : Store κ) (key : κ) (op : Op κ) :
    redeems s key op + openGrants (step s op) key ≤ openGrants s key + issues key op := by
  cases op with
  | issue k deadline =>
      by_cases hk : k = key
      · subst hk
        simp [redeems, openGrants, issues, step]
      · simp [redeems, openGrants, issues, step, Function.update_of_ne (Ne.symm hk), hk]
  | redeem k now =>
      by_cases hk : k = key
      · subst hk
        by_cases hlive : live s k now = true
        · obtain ⟨deadline, hopen, _⟩ := live_eq_true.mp hlive
          simp [redeems, openGrants, issues, step, hlive, hopen]
        · simp [redeems, openGrants, issues, step, hlive]
      · by_cases hlive : live s k now = true
        · simp [redeems, openGrants, issues, step, Function.update_of_ne (Ne.symm hk), hk, hlive]
        · simp [redeems, openGrants, issues, step, hk, hlive]
  | purge now =>
      cases hopen : s key with
      | none => simp [redeems, openGrants, issues, step, hopen]
      | some deadline =>
          simp only [redeems, openGrants, issues, hopen]
          split <;> simp

/-- **One redemption a grant.**  What has been redeemed and what is still open was
open at the start or has been issued since. -/
theorem redeemed_add_open_le (s : Store κ) (key : κ) (ops : List (Op κ)) :
    redeemed s key ops + openGrants (run s ops) key ≤ openGrants s key + issued key ops := by
  induction ops generalizing s with
  | nil => simp [redeemed, issued, run]
  | cons op rest ih =>
      have hstep := redeems_add_open_le s key op
      have hrest : redeemed (step s op) key rest + openGrants (run s (op :: rest)) key ≤
          openGrants (step s op) key + issued key rest := ih (step s op)
      rw [redeemed, issued, List.map_cons, List.sum_cons, ← issued]
      omega

/-! ## Purging -/

theorem Sub.step {s t : Store κ} (h : Sub s t) {op : Op κ} (hop : op.isPurge = false) :
    Sub (step s op) (Grants.step t op) := by
  intro key deadline hkey
  cases op with
  | issue k d =>
      by_cases hk : key = k
      · subst hk
        rw [Grants.step, Function.update_self] at hkey ⊢
        exact hkey
      · rw [Grants.step, Function.update_of_ne hk] at hkey ⊢
        exact h key deadline hkey
  | redeem k now =>
      have hopen : s key = some deadline := by
        rcases open_of_step hkey with hopen | heq
        · exact hopen
        · contradiction
      rw [Grants.step]
      split
      · rename_i hlive
        have hk : key ≠ k := by
          rintro rfl
          obtain ⟨d, hd, hnow⟩ := live_eq_true.mp hlive
          obtain rfl := Option.some.inj ((h key deadline hopen).symm.trans hd)
          have hs : Grants.live s key now = true := live_eq_true.mpr ⟨deadline, hopen, hnow⟩
          rw [Grants.step, if_pos hs, Function.update_self] at hkey
          contradiction
        rw [Function.update_of_ne hk]
        exact h key deadline hopen
      · exact h key deadline hopen
  | purge now => contradiction

theorem Sub.purge {s t : Store κ} (h : Sub s t) {op : Op κ} (hop : op.isPurge = true) :
    Sub (Grants.step s op) t := by
  intro key deadline hkey
  rcases open_of_step hkey with hopen | rfl
  · exact h key deadline hopen
  · contradiction

/-- Without purges, what has less grants keeps less grants. -/
theorem Sub.run {s t : Store κ} (h : Sub s t) {ops : List (Op κ)}
    (hops : ∀ op ∈ ops, op.isPurge = false) : Sub (run s ops) (Grants.run t ops) := by
  induction ops generalizing s t with
  | nil => exact h
  | cons op rest ih =>
      obtain ⟨hop, hrest⟩ := List.forall_mem_cons.mp hops
      exact ih (h.step hop) hrest

theorem live_update (s : Store κ) (k : κ) (value : Option Nat) (key : κ) (now : Nat) :
    live (Function.update s k value) key now =
      if key = k then (value.any fun deadline => now < deadline) else live s key now := by
  by_cases hk : key = k
  · subst hk
    rw [if_pos rfl, live, Function.update_self]
    cases value <;> rfl
  · rw [if_neg hk, live, Function.update_of_ne hk]
    rfl

theorem AgreeFrom.step {now : Nat} {s t : Store κ} (h : AgreeFrom now s t) {op : Op κ}
    (hnow : ∀ time ∈ op.now?, now ≤ time) (hop : op.isPurge = false) :
    AgreeFrom now (Grants.step s op) (Grants.step t op) := by
  intro key later hlater
  cases op with
  | issue k deadline => rw [Grants.step, Grants.step, live_update, live_update, h key later hlater]
  | redeem k time =>
      rw [Grants.step, Grants.step, ← h k time (hnow time rfl)]
      split
      · rw [live_update, live_update, h key later hlater]
      · exact h key later hlater
  | purge time => contradiction

theorem AgreeFrom.run {now : Nat} {s t : Store κ} (h : AgreeFrom now s t) {ops : List (Op κ)}
    (hnow : ∀ op ∈ ops, ∀ time ∈ op.now?, now ≤ time)
    (hops : ∀ op ∈ ops, op.isPurge = false) :
    AgreeFrom now (Grants.run s ops) (Grants.run t ops) := by
  induction ops generalizing s t with
  | nil => exact h
  | cons op rest ih =>
      obtain ⟨hfirst, hnow⟩ := List.forall_mem_cons.mp hnow
      obtain ⟨hop, hops⟩ := List.forall_mem_cons.mp hops
      exact ih (h.step hfirst hop) hnow hops

theorem live_purge (s : Store κ) (key : κ) {now later : Nat} (hle : now ≤ later) :
    live (step s (.purge now)) key later = live s key later := by
  rw [Bool.eq_iff_iff, live_eq_true, live_eq_true]
  constructor
  · rintro ⟨deadline, hopen, hlater⟩
    exact ⟨deadline, (Option.filter_eq_some_iff.mp hopen).1, hlater⟩
  · rintro ⟨deadline, hopen, hlater⟩
    have hnow : now < deadline := Nat.lt_of_le_of_lt hle hlater
    exact ⟨deadline, Option.filter_eq_some_iff.mpr ⟨hopen, by simpa using hnow⟩, hlater⟩

theorem AgreeFrom.purge {now : Nat} {s t : Store κ} (h : AgreeFrom now s t) :
    AgreeFrom now (Grants.step s (.purge now)) t :=
  fun key later hlater => (live_purge s key hlater).trans (h key later hlater)

end McpSeal.Foundation.Grants
