import McpSeal.Foundation.Ledger
import McpSeal.SealV2.Validation
set_option autoImplicit false

/-!
# SealV2: validate and consume (`SealV2/Validation.lean`)

The source validates first and then prunes, looks up and records the nonce
through a store interface.  Over the in-memory list store that sequence is one
`spend?` of the expiring ledger in `Foundation.Ledger`, and on the session's own
store the lookup cannot fail any more: validation has made it already.
-/

namespace McpSeal.SealV2

open McpSeal.Foundation
open McpSeal.Foundation.Ledger (spend? spent spend?_eq_some spend?_eq_none_of_spent)

/-- A spent nonce is keyed by its namespace and expires with its approval. -/
instance : Expiring ConsumedNonce (ReplayNamespace × Nonce) UnixSeconds where
  key e := (e.ns, e.nonce)
  expiry e := e.expiresAt

/-- Errors a replay store may report; each of them denies. -/
inductive ReplayStoreError where
  | conflict
  | backend (message : String)

/-- What a store of spent nonces has to offer; every operation may fail. -/
structure ReplayStoreOps (σ : Type) where
  contains? : σ → ReplayNamespace → Nonce → Except ReplayStoreError Bool
  insertConsumed : σ → ConsumedNonce → Except ReplayStoreError σ
  pruneExpired : σ → Nat → Except ReplayStoreError σ

variable (ed25519Verify : Ed25519Verify)

/-- Validate, then record the nonce; the witness is only returned with the
store that holds it. -/
def validateAndConsumeWithStore {σ : Type}
    (ops : ReplayStoreOps σ) (store : σ) (ast : AST) (state : ApprovalState) :
    Option (σ × Σ checkedAst, ValidApproval ed25519Verify checkedAst state) :=
  match validate ed25519Verify ast state with
  | none => none
  | some checked =>
      let approval := checked.snd.approval
      let target := checked.snd.target
      let ns := replayNamespace state target
      match ops.pruneExpired store state.now with
      | .error _ => none
      | .ok pruned =>
          match ops.contains? pruned ns approval.nonce with
          | .error _ => none
          | .ok true => none
          | .ok false =>
              let entry : ConsumedNonce :=
                { ns := ns, nonce := approval.nonce, expiresAt := approval.expiresAt }
              match ops.insertConsumed pruned entry with
              | .error _ => none
              | .ok store' => some (store', checked)

/-- The in-memory store. -/
def listReplayStore : ReplayStoreOps (List ConsumedNonce) where
  contains? entries ns nonce :=
    .ok (entries.any (fun e => e.ns == ns && e.nonce == nonce))
  insertConsumed entries entry := .ok (entry :: entries)
  pruneExpired entries now := .ok (pruneConsumedNonces now entries)

/-! ## What validation decides

`validate` looks the approval up and then tests again everything the lookup has
established, to have it as proof terms.  Its outcome is the lookup's. -/

/-- The approval a tree is granted on: the first one live for its target. -/
def approvalFor? (ast : AST) (state : ApprovalState) : Option Approval :=
  if IsCanonical ast then
    (requestFromAst ast).bind fun request =>
      (findToolSpec state request).bind fun spec =>
        findApproval ed25519Verify state (targetFor state request spec)
  else none

variable {ed25519Verify}

theorem live_of_findApproval {state : ApprovalState} {target : Target}
    {approval : Approval} (h : findApproval ed25519Verify state target = some approval) :
    approval ∈ state.approvals ∧ approval.target = target ∧
      approval.session = state.session ∧ approval.consumed = false ∧
      state.now ≤ approval.expiresAt ∧ ttlWithinCap state approval = true ∧
      nonceConsumed state target approval = false ∧
      verifySignature ed25519Verify state.publicKey approval = true := by
  have hmem : approval ∈ state.approvals := List.mem_of_find?_eq_some h
  exact ⟨hmem, approvalLiveFor_eq_true.mp (List.find?_some h)⟩

theorem mem_of_findToolSpec {state : ApprovalState} {request : CapabilityRequest}
    {spec : ToolSpec} (h : findToolSpec state request = some spec) :
    state.tools.contains spec = true ∧ spec.actions.contains request.action = true := by
  have hmem : spec ∈ state.tools := List.mem_of_find?_eq_some h
  have hmatch := List.find?_some h
  simp only [Bool.and_eq_true, List.any_eq_true, beq_iff_eq] at hmatch
  obtain ⟨_, action, haction, rfl⟩ := hmatch
  exact ⟨List.contains_iff_mem.mpr hmem, List.contains_iff_mem.mpr haction⟩

/-- Validation grants on the approval the lookup finds: the tests after the
lookup never fail. -/
theorem validate_approval (ast : AST) (state : ApprovalState) :
    (validate ed25519Verify ast state).map (fun checked => checked.snd.approval) =
      approvalFor? ed25519Verify ast state := by
  unfold validate
  split
  · rename_i hcanonical
    split
    · rename_i hreq
      simp [approvalFor?, hcanonical, hreq]
    · rename_i request hreq
      split
      · rename_i hspec
        simp [approvalFor?, hcanonical, hreq, hspec]
      · rename_i spec hspec
        have hfor : approvalFor? ed25519Verify ast state =
            findApproval ed25519Verify state (targetFor state request spec) := by
          simp [approvalFor?, hcanonical, hreq, hspec]
        rw [hfor]
        dsimp only
        split
        · rename_i happroval
          rw [happroval]
          rfl
        · rename_i approval happroval
          obtain ⟨hmem, htarget, hsession, hunused, hexpiry, _, _, hsig⟩ :=
            live_of_findApproval happroval
          obtain ⟨htool, haction⟩ := mem_of_findToolSpec hspec
          rw [dif_pos hsig, dif_pos htool, dif_pos haction,
            dif_pos (List.contains_iff_mem.mpr hmem), dif_pos (beq_iff_eq.mpr htarget),
            dif_pos hsession, dif_pos hunused, dif_pos hexpiry, happroval]
          rfl
  · rename_i hcanonical
    simp [approvalFor?, hcanonical]

/-- The witness is for the tree that was validated. -/
theorem validate_fst {ast : AST} {state : ApprovalState}
    {checked : Σ checkedAst, ValidApproval ed25519Verify checkedAst state}
    (h : validate ed25519Verify ast state = some checked) : checked.fst = ast := by
  unfold validate at h
  split at h <;> try contradiction
  split at h <;> try contradiction
  split at h <;> try contradiction
  dsimp only at h
  -- one lookup and eight tests, each of them a rejection on its other branch
  repeat (split at h <;> try contradiction)
  obtain rfl := Option.some.inj h
  rfl

/-! ## Consuming is one spend -/

/-- The record an accepted approval leaves in the store. -/
def entryFor (state : ApprovalState) (approval : Approval) : ConsumedNonce :=
  { ns := replayNamespace state approval.target, nonce := approval.nonce,
    expiresAt := approval.expiresAt }

/-- The store's lookup is the ledger's. -/
theorem contains_eq_spent (entries : List ConsumedNonce) (ns : ReplayNamespace)
    (nonce : Nonce) :
    (entries.any fun e => e.ns == ns && e.nonce == nonce) = spent entries (ns, nonce) := by
  unfold spent
  congr 1
  funext e
  show (e.ns == ns && e.nonce == nonce) = decide ((e.ns, e.nonce) = (ns, nonce))
  rw [Bool.eq_iff_iff]
  simp

/-- The ledger's spend of a live nonce, in the store's words. -/
theorem spend?_consumedNonce {now : UnixSeconds} {entry : ConsumedNonce}
    (hlive : now ≤ entry.expiresAt) (store : List ConsumedNonce) :
    spend? now entry store =
      match spent (pruneConsumedNonces now store) (entry.ns, entry.nonce) with
      | true => none
      | false => some (entry :: pruneConsumedNonces now store) := by
  cases hspent : spent (pruneConsumedNonces now store) (entry.ns, entry.nonce) with
  | true => exact spend?_eq_none_of_spent hspent
  | false => exact spend?_eq_some.mpr ⟨hlive, hspent, rfl⟩

/-- Over the list store, consuming is validation followed by one spend. -/
theorem validateAndConsume_list (store : List ConsumedNonce) (ast : AST)
    (state : ApprovalState) :
    validateAndConsumeWithStore ed25519Verify listReplayStore store ast state =
      (validate ed25519Verify ast state).bind fun checked =>
        (spend? state.now (entryFor state checked.snd.approval) store).map
          fun store' => (store', checked) := by
  unfold validateAndConsumeWithStore
  cases validate ed25519Verify ast state with
  | none => rfl
  | some checked =>
      have htarget : checked.snd.approval.target = checked.snd.target :=
        beq_iff_eq.mp checked.snd.approval_target_matches
      have hlive : state.now ≤ (entryFor state checked.snd.approval).expiresAt :=
        checked.snd.approval_unexpired
      rw [Option.bind_some, spend?_consumedNonce hlive]
      simp only [← htarget, listReplayStore, contains_eq_spent, entryFor]
      cases spent (pruneConsumedNonces state.now store)
          (replayNamespace state checked.snd.approval.target,
            checked.snd.approval.nonce) <;> rfl

/-- On the session's own store an approval that validates is always spent:
the lookup has already refused every recorded nonce. -/
theorem spend?_of_approvalFor {ast : AST} {state : ApprovalState} {approval : Approval}
    (h : approvalFor? ed25519Verify ast state = some approval) :
    spend? state.now (entryFor state approval) state.consumedNonces =
      some (entryFor state approval :: pruneConsumedNonces state.now state.consumedNonces) := by
  unfold approvalFor? at h
  split at h
  · obtain ⟨request, _, h⟩ := Option.bind_eq_some_iff.mp h
    obtain ⟨spec, _, h⟩ := Option.bind_eq_some_iff.mp h
    obtain ⟨_, htarget, _, _, hexpiry, _, hfresh, _⟩ := live_of_findApproval h
    have hnot : spent (pruneConsumedNonces state.now state.consumedNonces)
        (replayNamespace state approval.target, approval.nonce) = false := by
      rw [← contains_eq_spent, htarget]
      exact hfresh
    exact spend?_eq_some.mpr ⟨hexpiry, hnot, rfl⟩
  · exact absurd h (by simp)

/-- The session once an approval is spent at its clock. -/
def consume (state : ApprovalState) (approval : Approval) : ApprovalState :=
  { state with
    consumedNonces :=
      entryFor state approval :: pruneConsumedNonces state.now state.consumedNonces }

variable (ed25519Verify) in
/-- On the session's own store, consuming grants exactly what validation grants
and records the approval in the pruned store. -/
theorem validateAndConsume_session (ast : AST) (state : ApprovalState) :
    validateAndConsumeWithStore ed25519Verify listReplayStore state.consumedNonces ast state =
      (validate ed25519Verify ast state).map fun checked =>
        ((consume state checked.snd.approval).consumedNonces, checked) := by
  rw [validateAndConsume_list]
  cases hvalid : validate ed25519Verify ast state with
  | none => rfl
  | some checked =>
      have hfor : approvalFor? ed25519Verify ast state = some checked.snd.approval := by
        rw [← validate_approval, hvalid]
        rfl
      rw [Option.bind_some, spend?_of_approvalFor hfor]
      rfl

end McpSeal.SealV2
