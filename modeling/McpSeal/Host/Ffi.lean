import McpSeal.SealV2.ReplayStore
set_option autoImplicit false

/-!
# Host: the exported session (`Ffi.lean`)

The host drives the core through four calls on one mutable cell that holds the
session, empty until `init` succeeds.  The cell is passed explicitly: every
call takes its content and returns the new content with the JSON reply.  The
host serialises the calls, so a run is a list of them.
-/

namespace McpSeal.Host

open McpSeal.Data
open McpSeal.SealV2

/-- Content of the session cell. -/
abbrev StateRef := Option ApprovalState

/-! ## Replies -/

/-- The reply to a call that could not be carried out. -/
def errJson (msg : String) : String :=
  (Json.mkObj [("ok", Json.bool false), ("error", Json.str msg)]).compress

/-- The reply to a call that has nothing to return. -/
def okJson : String :=
  (Json.mkObj [("ok", Json.bool true)]).compress

/-- The reply to a `decide`, with the text to release if there is one. -/
def decisionJson (decision : String) (out : Option String) : String :=
  let base := [("ok", Json.bool true), ("decision", Json.str decision)]
  let fields := match out with
    | some o => base ++ [("out", Json.str o)]
    | none => base
  (Json.mkObj fields).compress

/-! ## Configuration -/

/-- A tool of the configuration: its name, its version and the actions it offers. -/
def parseToolSpec (j : Json) : Except String ToolSpec := do
  let tool ← (← j.getObjVal? "tool").getStr?
  let version ← (← j.getObjVal? "version").getStr?
  let actionsArr ← (← j.getObjVal? "actions").getArr?
  let actions ← actionsArr.mapM (fun a => a.getStr?)
  pure { tool, version, actions }

/-- The session a configuration starts: clock 0, no approvals, nothing spent. -/
def parseConfig (j : Json) : Except String ApprovalState := do
  let session ← (← j.getObjVal? "session").getStr?
  let publicKey ← (← j.getObjVal? "publicKey").getStr?
  let manifestDigest ← (← j.getObjVal? "manifestDigest").getStr?
  let policyVersion ← (← j.getObjVal? "policyVersion").getStr?
  let maxTtl ← (← j.getObjVal? "maxApprovalTtl").getNat?
  let toolsArr ← (← j.getObjVal? "tools").getArr?
  let tools ← toolsArr.mapM parseToolSpec
  pure {
    session, now := 0, publicKey, manifestDigest, tools,
    approvals := [], policyVersion, maxApprovalTtl := maxTtl, consumedNonces := []
  }

/-! ## The calls -/

/-- Start a session; a malformed configuration leaves the cell alone. -/
def initImpl (configText : String) (stateRef : StateRef) : StateRef × String :=
  match Json.parse configText with
  | .error e => (stateRef, errJson ("config json: " ++ e))
  | .ok j =>
      match parseConfig j with
      | .error e => (stateRef, errJson ("config: " ++ e))
      | .ok st => (some st, okJson)

/-- Add an approval, given its signed text and signature.  The signature is not
checked here but whenever the approval is looked up. -/
def addApprovalImpl (rawSigned sigHex : String) (stateRef : StateRef) :
    StateRef × String :=
  match stateRef with
  | none => (stateRef, errJson "not initialized")
  | some st =>
      match signedParse rawSigned with
      | none => (stateRef, errJson "signed message not canonical")
      | some ast =>
          match signedMessageFromAst? ast.val with
          | none => (stateRef, errJson "signed message shape invalid")
          | some sm =>
              let approval : Approval := {
                target := sm.target, session := sm.session,
                issuedAt := sm.issuedAt, expiresAt := sm.expiry, consumed := false,
                signedMessageRaw := rawSigned, signature := sigHex, nonce := sm.nonce
              }
              (some { st with approvals := st.approvals ++ [approval] }, okJson)

/-- The clock a text stands for: its number, or the stored clock where it is
not one. -/
def effectiveClock (st0 : ApprovalState) (nowText : String) : UnixSeconds :=
  (toNat? nowText).getD st0.now

/-- The session at the clock of a call. -/
def atClock (st0 : ApprovalState) (nowText : String) : ApprovalState :=
  { st0 with now := effectiveClock st0 nowText }

section Decide

variable (ed25519Verify : Ed25519Verify)

/-- Mediate one request.  The cell, and with it the clock, is written on a
grant only. -/
def decideImpl (rawRequest nowText : String) (stateRef : StateRef) : StateRef × String :=
  match stateRef with
  | none => (stateRef, errJson "not initialized")
  | some st0 =>
      let st := atClock st0 nowText
      match parse rawRequest with
      | none => (stateRef, decisionJson "Block" none)
      | some ast =>
          match validateAndConsumeWithStore ed25519Verify listReplayStore
              st.consumedNonces ast st with
          | none => (stateRef, decisionJson "Block" none)
          | some (store', checked) =>
              (some { st with consumedNonces := store' },
                decisionJson "Allow" (some (serialize ed25519Verify checked)))

/-- The text an approver signs for a pending request; the cell is only read. -/
def challengeImpl (rawRequest issuedAtText expiryText nonceHex : String)
    (stateRef : StateRef) : StateRef × String :=
  match stateRef with
  | none => (stateRef, errJson "not initialized")
  | some st =>
      match parse rawRequest with
      | none => (stateRef, errJson "parse failed")
      | some ast =>
          match requestFromAst ast with
          | none => (stateRef, errJson "not a tools/call request")
          | some req =>
              match findToolSpec st req with
              | none => (stateRef, errJson "no matching tool/action")
              | some spec =>
                  if h : isCanonicalNonceString nonceHex = true then
                    let msg : SignedMessage := {
                      target := targetFor st req spec, session := st.session,
                      issuedAt := (toNat? issuedAtText).getD 0,
                      expiry := (toNat? expiryText).getD 0,
                      nonce := { value := nonceHex, canonical := h }
                    }
                    (stateRef, (Json.mkObj [("ok", Json.bool true),
                      ("signed_bytes", Json.str (signedMessageRawFor msg))]).compress)
                  else
                    (stateRef, errJson "nonce must be 64 lowercase hex chars")

/-- A call after `init`. -/
inductive Call where
  | addApproval (rawSigned sigHex : String)
  | decide (rawRequest nowText : String)
  | challenge (rawRequest issuedAtText expiryText nonceHex : String)
  deriving DecidableEq

/-- Run one call on the cell. -/
def Call.exec : Call → StateRef → StateRef × String
  | .addApproval rawSigned sigHex => addApprovalImpl rawSigned sigHex
  | .decide rawRequest nowText => decideImpl ed25519Verify rawRequest nowText
  | .challenge rawRequest issuedAtText expiryText nonceHex =>
      challengeImpl rawRequest issuedAtText expiryText nonceHex

end Decide

end McpSeal.Host
