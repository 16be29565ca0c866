import McpSeal.SealV2.Approval
import McpSeal.SealV2.Crypto
set_option autoImplicit false

/-!
# SealV2: validation (`SealV2/Validation.lean`)

`validate` either rejects a tree or returns a witness that carries the request,
the matched tool, the target and the live approval it was granted on.  The
witness is a structure whose fields are the facts later steps rely on, so no
caller has to re-derive them.
-/

namespace McpSeal.SealV2

variable (ed25519Verify : Ed25519Verify)

/-- The signature covers exactly the canonical bytes of the approval's own
signed message; malformed hex fails closed. -/
def verifySignature (publicKey : PublicKey) (approval : Approval) : Bool :=
  match signedParse approval.signedMessageRaw with
  | some ast =>
      (signedMessageFromAst? ast.val == some (signedMessage approval)) &&
        ast.val == signedMessageAst (signedMessage approval) &&
        (match hexDecode? publicKey, hexDecode? approval.signature with
         | some pkBytes, some sigBytes =>
             ed25519Verify pkBytes approval.signedMessageRaw.toUTF8 sigBytes
         | _, _ => false)
  | none => false

/-- The signature verifies, and its text says what the approval says. -/
structure SignatureVerified (publicKey : PublicKey) (approval : Approval) : Prop where
  verified : verifySignature ed25519Verify publicKey approval = true
  signed_message_is_target_session_expiry :
    signedMessage approval =
      { target := approval.target, session := approval.session,
        issuedAt := approval.issuedAt, expiry := approval.expiresAt, nonce := approval.nonce }

/-- The first tool of the session with the request's name and action. -/
def findToolSpec (state : ApprovalState) (request : CapabilityRequest) :
    Option ToolSpec :=
  state.tools.find? fun spec =>
    spec.tool == request.tool && spec.actions.any (fun action => action == request.action)

/-- What a request asks to have approved. -/
def targetFor (state : ApprovalState) (request : CapabilityRequest) (spec : ToolSpec) :
    Target :=
  {
    tool := request.tool,
    action := request.action,
    toolVersion := spec.version,
    manifestDigest := state.manifestDigest,
    arguments := request.arguments,
    metadata := request.metadata,
    requestState := request.requestState,
    inputResponses := request.inputResponses
  }

/-! ## The replay ledger as validation reads it -/

/-- Keep the entries still live at `now`. -/
def pruneConsumedNonces (now : Nat) (entries : List ConsumedNonce) : List ConsumedNonce :=
  entries.filter (fun e => now <= e.expiresAt)

/-- Where the nonces spent on a target are recorded. -/
def replayNamespace (state : ApprovalState) (target : Target) : ReplayNamespace :=
  { publicKey := state.publicKey,
    targetKey := serializeTargetKey target,
    session := state.session,
    policyVersion := state.policyVersion }

/-- The approval's nonce is already spent in its namespace. -/
def nonceConsumed (state : ApprovalState) (target : Target) (approval : Approval) : Bool :=
  let ns := replayNamespace state target
  let pruned := pruneConsumedNonces state.now state.consumedNonces
  pruned.any (fun e => e.ns == ns && e.nonce == approval.nonce)

/-- The approval does not expire before it was issued, and lives no longer than the
cap. -/
def ttlWithinCap (state : ApprovalState) (approval : Approval) : Bool :=
  approval.issuedAt <= approval.expiresAt &&
    (approval.expiresAt - approval.issuedAt) <= state.maxApprovalTtl

/-- Every condition under which an approval lets a target through. -/
def approvalLiveFor (state : ApprovalState) (target : Target) (approval : Approval) : Bool :=
  approval.target == target &&
    approval.session == state.session &&
    approval.consumed == false &&
    state.now <= approval.expiresAt &&
    ttlWithinCap state approval &&
    !nonceConsumed state target approval &&
    verifySignature ed25519Verify state.publicKey approval

/-- The first approval of the session that does. -/
def findApproval (state : ApprovalState) (target : Target) : Option Approval :=
  state.approvals.find? (approvalLiveFor ed25519Verify state target)

variable {ed25519Verify} in
/-- Everything a live approval satisfies. -/
theorem approvalLiveFor_eq_true {state : ApprovalState} {target : Target}
    {approval : Approval} :
    approvalLiveFor ed25519Verify state target approval = true ↔
      approval.target = target ∧ approval.session = state.session ∧
      approval.consumed = false ∧ state.now ≤ approval.expiresAt ∧
      ttlWithinCap state approval = true ∧ nonceConsumed state target approval = false ∧
      verifySignature ed25519Verify state.publicKey approval = true := by
  simp only [approvalLiveFor, Bool.and_eq_true, beq_iff_eq, decide_eq_true_eq,
    Bool.not_eq_true', and_assoc]

/-! ## The witness -/

/-- The evidence for a granted request: where it came from and which approval carries
it. -/
structure ValidApproval (ast : AST) (state : ApprovalState) where
  ast_canonical : IsCanonical ast
  request : CapabilityRequest
  request_from_ast : requestFromAst ast = some request
  toolSpec : ToolSpec
  tool_spec_in_state : state.tools.contains toolSpec = true
  action_allowed : toolSpec.actions.contains request.action = true
  target : Target
  target_matches : target = targetFor state request toolSpec
  approval : Approval
  approval_in_state : state.approvals.contains approval = true
  approval_target_matches : (approval.target == target) = true
  approval_session_matches : approval.session = state.session
  approval_unused : approval.consumed = false
  approval_unexpired : state.now <= approval.expiresAt
  signature_verified : SignatureVerified ed25519Verify state.publicKey approval

/-- Find the approval a request is granted on, with the evidence. -/
def validate (ast : AST) (state : ApprovalState) :
    Option (Σ checkedAst, ValidApproval ed25519Verify checkedAst state) :=
  if hCanonical : IsCanonical ast then
    match hReq : requestFromAst ast with
    | none => none
    | some request =>
        match findToolSpec state request with
        | none => none
        | some spec =>
            let target := targetFor state request spec
            match findApproval ed25519Verify state target with
            | none => none
            | some approval =>
                if hSig : verifySignature ed25519Verify state.publicKey approval then
                  if hTools : state.tools.contains spec then
                    if hAction : spec.actions.contains request.action then
                      if hApprovals : state.approvals.contains approval then
                        if hTarget : approval.target == target then
                          if hSession : approval.session = state.session then
                            if hUnused : approval.consumed = false then
                              if hExpiry : state.now <= approval.expiresAt then
                                some ⟨ast, {
                                  ast_canonical := hCanonical,
                                  request := request,
                                  request_from_ast := hReq,
                                  toolSpec := spec,
                                  tool_spec_in_state := hTools,
                                  action_allowed := hAction,
                                  target := target,
                                  target_matches := rfl,
                                  approval := approval,
                                  approval_in_state := hApprovals,
                                  approval_target_matches := hTarget,
                                  approval_session_matches := hSession,
                                  approval_unused := hUnused,
                                  approval_unexpired := hExpiry,
                                  signature_verified := {
                                    verified := hSig,
                                    signed_message_is_target_session_expiry := rfl
                                  }
                                }⟩
                              else none
                            else none
                          else none
                        else none
                      else none
                    else none
                  else none
                else none
  else
    none

/-- The bytes released on a grant. -/
def serialize {state : ApprovalState}
    (checked : Σ ast, ValidApproval ed25519Verify ast state) : CanonicalBytes :=
  serializeAst ⟨checked.fst, checked.snd.ast_canonical⟩

end McpSeal.SealV2
