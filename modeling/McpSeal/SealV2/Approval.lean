import McpSeal.Data.NatText
import McpSeal.Seal.Hash
import McpSeal.SealV2.Request
set_option autoImplicit false

/-!
# SealV2: approvals and their signed messages (`SealV2/Validation.lean`)

An approval is a signed statement that one target may be called once, in one
session, until it expires.  The state it is judged against is the mediation
session, which also holds the ledger of spent nonces.
-/

namespace McpSeal.SealV2

open McpSeal.Data (toNat?)
open McpSeal.Seal (encodeParts)

/-- The name of a session. -/
abbrev SessionId := String
/-- An Ed25519 public key, in hexadecimal. -/
abbrev PublicKey := String
/-- An Ed25519 signature, in hexadecimal. -/
abbrev Signature := String
/-- The digest of the manifest a session was configured with. -/
abbrev ManifestDigest := String
/-- The version of a tool. -/
abbrev ToolVersion := String

/-- Whole seconds since the Unix epoch. -/
abbrev UnixSeconds := Nat

/-- A tool of the session, at one version and with the actions it offers. -/
structure ToolSpec where
  tool : ToolName
  version : ToolVersion
  actions : List Action
  deriving DecidableEq

/-- What an approval is for: one action of one tool, on these arguments and optional
values, under one manifest. -/
structure Target where
  tool : ToolName
  action : Action
  toolVersion : ToolVersion
  manifestDigest : ManifestDigest
  arguments : AST
  metadata : MetaValue
  requestState : RequestState := .absent
  inputResponses : InputResponses := .absent
  deriving DecidableEq

/-- A lowercase hexadecimal digit. -/
def isLowerHexChar (c : Char) : Bool :=
  ('0'.toNat ≤ c.toNat && c.toNat ≤ '9'.toNat) ||
  ('a'.toNat ≤ c.toNat && c.toNat ≤ 'f'.toNat)

/-- 64 lowercase hexadecimal digits. -/
def isCanonicalNonceString (s : String) : Bool :=
  s.toList.length == 64 && s.toList.all isLowerHexChar

/-- A nonce carries the proof that it is 64 lowercase hex characters. -/
structure Nonce where
  value : String
  canonical : isCanonicalNonceString value = true
  deriving DecidableEq

/-- What an approver signs: a target, for one session, between two times, once. -/
structure SignedMessage where
  target : Target
  session : SessionId
  issuedAt : UnixSeconds
  expiry : UnixSeconds
  nonce : Nonce
  deriving DecidableEq

/-- A message with its signature, and the text the signature was made over. -/
structure Approval where
  target : Target
  session : SessionId
  issuedAt : UnixSeconds
  expiresAt : UnixSeconds
  consumed : Bool
  signedMessageRaw : RawBytes
  signature : Signature
  nonce : Nonce
  deriving DecidableEq

/-- The namespace a spent nonce lives in. -/
structure ReplayNamespace where
  publicKey : PublicKey
  targetKey : String
  session : SessionId
  policyVersion : String
  deriving DecidableEq

/-- A spent nonce with the time after which it may be pruned. -/
structure ConsumedNonce where
  ns : ReplayNamespace
  nonce : Nonce
  expiresAt : UnixSeconds
  deriving DecidableEq

/-- The mediation session. -/
structure ApprovalState where
  session : SessionId
  now : UnixSeconds
  publicKey : PublicKey
  manifestDigest : ManifestDigest
  tools : List ToolSpec
  approvals : List Approval
  policyVersion : String := ""
  maxApprovalTtl : Nat := 300
  consumedNonces : List ConsumedNonce := []
  ledgerGeneration : Nat := 0
  deriving DecidableEq

/-! ## Signed messages -/

/-- The message an approval's signature is over. -/
def signedMessage (approval : Approval) : SignedMessage :=
  { target := approval.target, session := approval.session,
    issuedAt := approval.issuedAt, expiry := approval.expiresAt, nonce := approval.nonce }

/-- The signed member for `requestState`, written only if it is there. -/
def signedRequestStateField : RequestState → List (String × AST)
  | .absent => []
  | .present canonicalValue =>
      [("requestState", RequestState.signedAst canonicalValue)]

/-- The signed member for `inputResponses`, written only if it is there. -/
def signedInputResponsesField : InputResponses → List (String × AST)
  | .absent => []
  | .present canonicalValue =>
      [("inputResponses", InputResponses.signedAst canonicalValue)]

/-- The members of a signed target, in the order they are signed. -/
def signedTargetFields (target : Target) : List (String × AST) :=
  [
    ("tool", .string target.tool),
    ("action", .string target.action),
    ("toolVersion", .string target.toolVersion),
    ("manifestDigest", .string target.manifestDigest),
    ("arguments", target.arguments),
    ("metadata", target.metadata.signedAst)
  ] ++ signedRequestStateField target.requestState ++
    signedInputResponsesField target.inputResponses

/-- The tree of a message. -/
def signedMessageAst (message : SignedMessage) : AST :=
  .object [
    ("target", .object (signedTargetFields message.target)),
    ("session", .string message.session),
    ("issuedAt", .number
      { negative := false, intDigits := toString message.issuedAt, fracDigits := none }),
    ("expiry", .number
      { negative := false, intDigits := toString message.expiry, fracDigits := none }),
    ("nonce", .string message.nonce.value)
  ]

/-- A non-negative integer from a decimal node. -/
def astNat? : AST → Option Nat
  | .number d =>
      if d.negative then none
      else (if d.fracDigits.isSome then none else toNat? d.intDigits)
  | _ => none

/-- The two optional values from what is left of a signed target: nothing, one of
them, or both in this order. -/
def mrtrFromSignedFields? :
    List (String × AST) → Option (RequestState × InputResponses)
  | [] => some (.absent, .absent)
  | [("requestState", stateAst)] => do
      let state ← RequestState.fromSignedAst? stateAst
      some (state, .absent)
  | [("inputResponses", responsesAst)] => do
      let responses ← InputResponses.fromSignedAst? responsesAst
      some (.absent, responses)
  | [("requestState", stateAst), ("inputResponses", responsesAst)] => do
      let state ← RequestState.fromSignedAst? stateAst
      let responses ← InputResponses.fromSignedAst? responsesAst
      some (state, responses)
  | _ => none

/-- The signed message a tree denotes: exactly the members of
`signedMessageAst`, in their order, with a canonical nonce. -/
def signedMessageFromAst? (ast : AST) : Option SignedMessage :=
  match ast with
  | .object [
      ("target", .object (
        ("tool", .string tool) ::
        ("action", .string action) ::
        ("toolVersion", .string toolVersion) ::
        ("manifestDigest", .string manifestDigest) ::
        ("arguments", arguments) ::
        ("metadata", metadataAst) :: mrtrFields)),
      ("session", .string session),
      ("issuedAt", issuedAtAst),
      ("expiry", expiryAst),
      ("nonce", .string nonceStr)] =>
    match astNat? issuedAtAst, astNat? expiryAst, MetaValue.fromSignedAst? metadataAst,
        mrtrFromSignedFields? mrtrFields with
    | some issuedAt, some expiry, some metadata, some (requestState, inputResponses) =>
        if h : isCanonicalNonceString nonceStr = true then
          some {
            target := {
              tool, action, toolVersion, manifestDigest, arguments, metadata,
              requestState, inputResponses
            },
            session := session,
            issuedAt := issuedAt,
            expiry := expiry,
            nonce := { value := nonceStr, canonical := h }
          }
        else
          none
    | _, _, _, _ => none
  | _ => none

/-- The tree of a message, if it is canonical. -/
def signedMessageCanonical? (message : SignedMessage) : Option {ast // IsCanonical ast} :=
  let ast := signedMessageAst message
  if h : IsCanonical ast then
    some ⟨ast, h⟩
  else
    none

/-- Parse a signed text that is byte for byte its own serialization. -/
def signedParse (raw : RawBytes) : Option {ast // IsCanonical ast} :=
  match parse raw with
  | none => none
  | some ast =>
      if h : IsCanonical ast then
        if raw == serializeAst ⟨ast, h⟩ then
          some ⟨ast, h⟩
        else
          none
      else
        none

/-- The text to sign.  A message whose tree is not canonical has a text no tree has.
-/
def signedMessageRawFor (message : SignedMessage) : RawBytes :=
  match signedMessageCanonical? message with
  | some ast => serializeAst ast
  | none => "<noncanonical>"

/-! ## Target keys -/

/-- The parts of the key a target is recorded under. -/
def Target.keyParts (target : Target) : List String :=
  [target.tool, target.action, target.toolVersion, target.manifestDigest,
    serializeAstValue target.arguments] ++ target.metadata.preimageParts ++
    target.requestState.preimageParts ++ target.inputResponses.preimageParts

/-- That key: the parts, framed so that their borders count. -/
def serializeTargetKey (target : Target) : String :=
  encodeParts target.keyParts

end McpSeal.SealV2
