import McpSeal.Foundation.Grants
import McpSeal.SealCore.Sha256
set_option autoImplicit false

/-!
# SealCore: the approval automaton (`SealCore/Event.lean`, `SealCore/Automaton.lean`)

The engine behind the stdio gate.  An approval opens a grant for one target, a
guarded call uses it up, and everything else is decided without the state.  As
seen through the lookup of a target the engine is the store of one-shot grants,
so what is known of those stores holds of it.
-/

namespace McpSeal.SealCore

open McpSeal.Foundation

/-- The hash that names a target. -/
abbrev TargetHash := Sha256.TargetHash

/-- What the automaton is told: an approval read from the control file, or a call of
one of the three kinds the classifier knows. -/
inductive Event where
  | approval (target : TargetHash) (deadline : Nat)
  | guarded (target : TargetHash)
  | benign
  | defaultDeny
  deriving DecidableEq

/-- What it answers. -/
inductive Decision where
  | allow
  | block
  deriving DecidableEq

/-- The answer lets the call through. -/
def Decision.isAllow : Decision → Bool
  | .allow => true
  | .block => false

/-- Deadlines, in milliseconds, of the approved targets. -/
structure State where
  approved : Std.HashMap TargetHash Nat := ∅

/-- No approval is open. -/
def State.empty : State := {}

/-- The target has an approval whose deadline has not come. -/
def live (s : State) (target : TargetHash) (now : Nat) : Bool :=
  match s.approved[target]? with
  | some deadline => now < deadline
  | none => false

/-- Drop the approvals whose deadline has come. -/
def prune (now : Nat) (approved : Std.HashMap TargetHash Nat) : Std.HashMap TargetHash Nat :=
  approved.fold (fun acc target deadline =>
    if now < deadline then acc.insert target deadline else acc) ∅

/-- Mediate one event.  A guarded call is let through on a live approval of its
target, which it uses up; default deny is a block that changes nothing. -/
def step (now : Nat) (s : State) (e : Event) : Decision × State :=
  match e with
  | .approval target deadline => (.allow, { approved := s.approved.insert target deadline })
  | .guarded target =>
      if live s target now then
        (.allow, { approved := s.approved.erase target })
      else
        (.block, s)
  | .benign => (.allow, s)
  | .defaultDeny => (.block, s)

/-- The state after a list of events at one clock. -/
def run (now : Nat) (s : State) (events : List Event) : State :=
  events.foldl (fun st e => (step now st e).2) s

/-! ## The engine as a store of grants -/

/-- The store a state stands for. -/
def State.grants (s : State) : Grants.Store TargetHash :=
  fun target => s.approved[target]?

/-- What an event does to the store, if anything. -/
def Event.op? (now : Nat) : Event → Option (Grants.Op TargetHash)
  | .approval target deadline => some (.issue target deadline)
  | .guarded target => some (.redeem target now)
  | .benign => none
  | .defaultDeny => none

theorem grants_empty : State.empty.grants = Grants.empty := by
  funext target
  exact Std.HashMap.getElem?_empty

theorem live_grants (s : State) (target : TargetHash) (now : Nat) :
    Grants.live s.grants target now = live s target now := rfl

theorem grants_insert (m : Std.HashMap TargetHash Nat) (target : TargetHash) (deadline : Nat) :
    (State.mk (m.insert target deadline)).grants =
      Function.update (State.mk m).grants target (some deadline) := by
  funext t
  by_cases h : t = target
  · subst h
    rw [Function.update_self]
    exact Std.HashMap.getElem?_insert_self
  · rw [Function.update_of_ne h]
    show (m.insert target deadline)[t]? = m[t]?
    rw [Std.HashMap.getElem?_insert, if_neg (by simpa using Ne.symm h)]

theorem grants_erase (m : Std.HashMap TargetHash Nat) (target : TargetHash) :
    (State.mk (m.erase target)).grants = Function.update (State.mk m).grants target none := by
  funext t
  by_cases h : t = target
  · subst h
    rw [Function.update_self]
    exact Std.HashMap.getElem?_erase_self
  · rw [Function.update_of_ne h]
    show (m.erase target)[t]? = m[t]?
    rw [Std.HashMap.getElem?_erase, if_neg (by simpa using Ne.symm h)]

/-- **Events.**  An event does to the grants what its operation does. -/
theorem grants_step (now : Nat) (s : State) (e : Event) :
    (step now s e).2.grants = Grants.run s.grants (e.op? now).toList := by
  cases e with
  | approval target deadline => exact grants_insert s.approved target deadline
  | guarded target =>
      show (step now s (.guarded target)).2.grants = Grants.step s.grants (.redeem target now)
      rw [step, Grants.step, live_grants]
      split
      · exact grants_erase s.approved target
      · rfl
  | benign => rfl
  | defaultDeny => rfl

theorem grants_run (now : Nat) (s : State) (events : List Event) :
    (run now s events).grants = Grants.run s.grants (events.filterMap (Event.op? now)) := by
  induction events generalizing s with
  | nil => rfl
  | cons e rest ih =>
      have hstep := ih (step now s e).2
      rw [grants_step, ← Grants.run_append] at hstep
      rw [List.filterMap_cons]
      refine hstep.trans ?_
      cases e.op? now <;> rfl

/-- What the fold of `prune` collects from bindings of distinct targets. -/
theorem getElem?_foldl_prune (now : Nat) (bindings : List (TargetHash × Nat))
    (acc : Std.HashMap TargetHash Nat) (hdistinct : bindings.Pairwise fun a b => a.1 ≠ b.1)
    (hacc : ∀ b ∈ bindings, acc[b.1]? = none) (target : TargetHash) (deadline : Nat) :
    (bindings.foldl (fun acc b => if now < b.2 then acc.insert b.1 b.2 else acc) acc)[target]? =
        some deadline ↔
      ((target, deadline) ∈ bindings ∧ now < deadline) ∨ acc[target]? = some deadline := by
  induction bindings generalizing acc with
  | nil => simp
  | cons b rest ih =>
      obtain ⟨t, d⟩ := b
      obtain ⟨hfirst, hrest⟩ := List.pairwise_cons.mp hdistinct
      obtain ⟨hnone, hothers⟩ := List.forall_mem_cons.mp hacc
      have hnext : ∀ b ∈ rest, (if now < d then acc.insert t d else acc)[b.1]? = none := by
        intro b hb
        split
        · rw [Std.HashMap.getElem?_insert, if_neg (by simpa using hfirst b hb)]
          exact hothers b hb
        · exact hothers b hb
      rw [List.foldl_cons, ih _ hrest hnext]
      by_cases hlive : now < d
      · rw [if_pos hlive, Std.HashMap.getElem?_insert]
        by_cases ht : t = target
        · subst ht
          have hrest' : (t, deadline) ∉ rest := fun hmem => hfirst _ hmem rfl
          simp only [hnone, hrest', List.mem_cons, Prod.mk.injEq, true_and, beq_self_eq_true,
            if_true, false_and, false_or, or_false, Option.some.injEq, reduceCtorEq]
          constructor
          · rintro rfl
            exact ⟨rfl, hlive⟩
          · exact fun h => h.1.symm
        · simp [ht, Ne.symm ht]
      · rw [if_neg hlive]
        have hmem : ((target, deadline) ∈ (t, d) :: rest ∧ now < deadline) ↔
            ((target, deadline) ∈ rest ∧ now < deadline) := by
          constructor
          · rintro ⟨hmem, hnow⟩
            refine ⟨(List.mem_cons.mp hmem).resolve_left ?_, hnow⟩
            rintro heq
            obtain ⟨rfl, rfl⟩ := Prod.mk.inj heq
            exact hlive hnow
          · exact fun h => ⟨List.mem_cons_of_mem _ h.1, h.2⟩
        rw [hmem]

/-- **Pruning.**  A target keeps its approval exactly if the deadline has not come. -/
theorem getElem?_prune (now : Nat) (m : Std.HashMap TargetHash Nat) (target : TargetHash) :
    (prune now m)[target]? = (m[target]?).filter fun deadline => now < deadline := by
  have hdistinct : m.toList.Pairwise fun a b => a.1 ≠ b.1 :=
    Std.HashMap.distinct_keys_toList.imp fun h => by simpa using h
  ext deadline
  rw [prune, Std.HashMap.fold_eq_foldl_toList,
    getElem?_foldl_prune now m.toList ∅ hdistinct (fun _ _ => Std.HashMap.getElem?_empty),
    Std.HashMap.mem_toList_iff_getElem?_eq_some, Std.HashMap.getElem?_empty,
    Option.filter_eq_some_iff]
  simp

theorem grants_prune (now : Nat) (m : Std.HashMap TargetHash Nat) :
    (State.mk (prune now m)).grants = Grants.step (State.mk m).grants (.purge now) := by
  funext target
  exact getElem?_prune now m target

end McpSeal.SealCore
