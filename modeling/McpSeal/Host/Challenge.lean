import McpSeal.Host.Authorization
import McpSeal.SealV2.Acceptance
import McpSeal.SealV2.Normalization
set_option autoImplicit false

/-!
# Host: from a challenge to an allowed request (`Ffi.lean`)

An approver is shown a pending request through `challenge`, signs the text it
returns, and the host adds the signed text as an approval.  This module follows
that path: the text names the target the request itself names, and once it is
added the request is allowed at every clock up to the expiry until the approval
is spent.
-/

namespace McpSeal.Host

open McpSeal.Data (Json toNat?)
open McpSeal.SealV2

variable {ed25519Verify : Ed25519Verify}

/-! ## What a challenge is over -/

/-- The message a challenge asks an approver to sign. -/
def challenged? (config : ApprovalState) (rawRequest issuedAtText expiryText nonceHex : String) :
    Option SignedMessage :=
  (requestedTarget? config rawRequest).bind fun target =>
    if h : isCanonicalNonceString nonceHex = true then
      some { target, session := config.session, issuedAt := (toNat? issuedAtText).getD 0,
             expiry := (toNat? expiryText).getD 0, nonce := { value := nonceHex, canonical := h } }
    else none

/-- A challenge is over the request's own target, in the session. -/
theorem challenged?_eq_some {config : ApprovalState}
    {rawRequest issuedAtText expiryText nonceHex : String} {message : SignedMessage}
    (h : challenged? config rawRequest issuedAtText expiryText nonceHex = some message) :
    requestedTarget? config rawRequest = some message.target ∧
      message.session = config.session := by
  obtain ⟨target, htarget, hmessage⟩ := Option.bind_eq_some_iff.mp h
  split at hmessage
  · obtain rfl := Option.some.inj hmessage
    exact ⟨htarget, rfl⟩
  · contradiction

/-- The reply to a challenge. -/
def challengeJson (message : SignedMessage) : String :=
  (Json.mkObj [("ok", Json.bool true),
    ("signed_bytes", Json.str (signedMessageRawFor message))]).compress

/-- A challenge returns the text of its message, or an error when there is none. -/
theorem challengeImpl_snd (rawRequest issuedAtText expiryText nonceHex : String)
    (st : ApprovalState) :
    match challenged? st rawRequest issuedAtText expiryText nonceHex with
    | some message =>
        (challengeImpl rawRequest issuedAtText expiryText nonceHex (some st)).2 =
          challengeJson message
    | none =>
        ∃ msg, (challengeImpl rawRequest issuedAtText expiryText nonceHex (some st)).2 =
          errJson msg := by
  unfold challengeImpl challenged? requestedTarget?
  cases parse rawRequest with
  | none => exact ⟨_, rfl⟩
  | some ast =>
      simp only [Option.bind_some]
      cases requestFromAst ast with
      | none => exact ⟨_, rfl⟩
      | some request =>
          simp only [Option.bind_some]
          cases findToolSpec st request with
          | none => exact ⟨_, rfl⟩
          | some spec =>
              simp only [Option.map_some, Option.bind_some]
              by_cases hnonce : isCanonicalNonceString nonceHex = true
              · simp only [dif_pos hnonce]
                rfl
              · simp only [dif_neg hnonce]
                exact ⟨_, rfl⟩

/-! ## The values of a request -/

theorem canonical_of_lookupObj {key : String} {fields : List (String × AST)} {value : AST}
    (hfields : isCanonicalObject fields = true) (h : lookupObj key fields = some value) :
    IsCanonical value := by
  have hmembers := (isCanonicalObject_iff.mp hfields).1
  clear hfields
  induction fields with
  | nil => contradiction
  | cons field rest ih =>
      obtain ⟨hfield, hrest⟩ := List.forall_mem_cons.mp hmembers
      unfold lookupObj at h
      split at h
      · obtain rfl := Option.some.inj h
        exact hfield
      · exact ih h hrest

theorem length_of_lookupObj {key : String} {fields : List (String × AST)} {value : AST}
    (h : lookupObj key fields = some value) : (text value).length ≤ (fieldsText fields).length := by
  rw [fieldsText_eq_commaList]
  induction fields with
  | nil => contradiction
  | cons field rest ih =>
      obtain ⟨hfield, hrest⟩ := Json.Parser.length_commaList_cons (fieldText field) (rest.map fieldText)
      rw [List.map_cons]
      unfold lookupObj at h
      split at h
      · obtain rfl := Option.some.inj h
        exact (length_text_le field).trans hfield
      · exact (ih h).trans hrest

/-- The members of an admissible object are admissible. -/
theorem admissible_lookupObj {fields : List (String × AST)} (h : Admissible (.object fields))
    (key : String) : AdmissibleMember (lookupObj key fields) := by
  intro value hvalue
  have hlength := h.length
  rw [text_object, List.length_cons, List.length_append] at hlength
  have hmember := length_of_lookupObj hvalue
  exact { canonical := canonical_of_lookupObj h.canonical hvalue, length := by omega }

/-- A tree that is parsed from a text of at most `2 ^ 64` characters. -/
theorem admissible_of_parse {raw : RawBytes} {ast : AST} (h : parse raw = some ast)
    (hlength : raw.toList.length ≤ 2 ^ 64) : Admissible ast where
  canonical := parse_canonical h
  length := (length_text_le_of_parse h).trans hlength

/-- Where the values of a request stand in its tree. -/
theorem requestFromAst_eq_some {ast : AST} {request : CapabilityRequest}
    (h : requestFromAst ast = some request) :
    ∃ fields params, ast = .object fields ∧ lookupObj "params" fields = some (.object params) ∧
      lookupObj "arguments" params = some request.arguments ∧
      MetaValue.fromAst? (lookupObj "_meta" params) = some request.metadata ∧
      RequestState.fromAst? (lookupObj "requestState" params) = some request.requestState ∧
      InputResponses.fromAst? (lookupObj "inputResponses" params) =
        some request.inputResponses := by
  cases ast with
  | object fields =>
      obtain ⟨method, _, h⟩ := Option.bind_eq_some_iff.mp h
      split at h
      · contradiction
      · split at h
        · rename_i params hparams
          obtain ⟨tool, _, h⟩ := Option.bind_eq_some_iff.mp h
          obtain ⟨action, _, h⟩ := Option.bind_eq_some_iff.mp h
          obtain ⟨arguments, harguments, h⟩ := Option.bind_eq_some_iff.mp h
          obtain ⟨metadata, hmetadata, h⟩ := Option.bind_eq_some_iff.mp h
          obtain ⟨requestState, hstate, h⟩ := Option.bind_eq_some_iff.mp h
          obtain ⟨inputResponses, hresponses, h⟩ := Option.bind_eq_some_iff.mp h
          obtain rfl := Option.some.inj h
          exact ⟨fields, params, rfl, hparams, harguments, hmetadata, hstate, hresponses⟩
        · contradiction
  | _ => contradiction

/-! ## From the text to an approval -/

/-- The approval of a message under a signature. -/
def approvalFor (message : SignedMessage) (sigHex : Signature) : Approval :=
  { target := message.target, session := message.session, issuedAt := message.issuedAt,
    expiresAt := message.expiry, consumed := false,
    signedMessageRaw := signedMessageRawFor message, signature := sigHex, nonce := message.nonce }

/-- The text of a readable message is added as its approval. -/
theorem approvalOf?_signedMessageRawFor {message : SignedMessage} (h : message.Readable)
    (sigHex : Signature) :
    approvalOf? (signedMessageRawFor message) sigHex = some (approvalFor message sigHex) := by
  obtain ⟨ast, hparse, hmessage⟩ := signedParse_signedMessageRawFor h
  rw [approvalOf?, hparse, Option.bind_some, hmessage]
  rfl

/-- A challenge over a request of at most `2 ^ 64` characters is over a readable
message: what its text says can be read back from it. -/
theorem readable_of_challenged {config : ApprovalState}
    {rawRequest issuedAtText expiryText nonceHex : String} {message : SignedMessage}
    (h : challenged? config rawRequest issuedAtText expiryText nonceHex = some message)
    (hlength : rawRequest.toList.length ≤ 2 ^ 64) : message.Readable := by
  obtain ⟨ast, hparse, hrequested⟩ := Option.bind_eq_some_iff.mp (challenged?_eq_some h).1
  obtain ⟨request, hrequest, hspec⟩ := Option.bind_eq_some_iff.mp hrequested
  obtain ⟨spec, _, htarget⟩ := Option.map_eq_some_iff.mp hspec
  obtain ⟨fields, params, rfl, hparams, harguments, hmetadata, hstate, hresponses⟩ :=
    requestFromAst_eq_some hrequest
  have hast := admissible_of_parse hparse hlength
  have hmembers := admissible_lookupObj (admissible_lookupObj hast "params" _ hparams)
  exact {
    arguments := by
      rw [← htarget]
      exact (hmembers "arguments" _ harguments).canonical
    metadata := by
      rw [← htarget]
      exact signed_metadata (hmembers "_meta") hmetadata
    mrtr := by
      rw [← htarget]
      exact signed_mrtr (hmembers "requestState") (hmembers "inputResponses") hstate hresponses }

/-- The leaf accepts a signature over the text of a message. -/
structure SignedBy (ed25519Verify : Ed25519Verify) (publicKey : PublicKey)
    (message : SignedMessage) (sigHex : Signature) : Prop where
  verified : ∃ pkBytes sigBytes, hexDecode? publicKey = some pkBytes ∧
    hexDecode? sigHex = some sigBytes ∧
    ed25519Verify pkBytes (signedMessageRawFor message).toUTF8 sigBytes = true

/-- A signed approval verifies. -/
theorem verifySignature_approvalFor {publicKey : PublicKey} {message : SignedMessage}
    {sigHex : Signature} (hreadable : message.Readable)
    (hsigned : SignedBy ed25519Verify publicKey message sigHex) :
    verifySignature ed25519Verify publicKey (approvalFor message sigHex) = true := by
  have hcanonical := isCanonical_signedMessageAst hreadable.arguments
  have hraw : signedMessageRawFor message = serializeAst ⟨_, hcanonical⟩ := by
    rw [signedMessageRawFor, signedMessageCanonical?, dif_pos hcanonical]
  exact verifySignature_eq_true.mpr ⟨⟨hcanonical, hraw⟩,
    signedMessageFromAst?_signedMessageAst hreadable, hsigned.verified⟩

/-- The approval of a challenge authorizes the request it was made for, at every
clock up to its expiry, if it was issued within the lifetime cap. -/
theorem authorizes_of_challenged {config : ApprovalState}
    {rawRequest issuedAtText expiryText nonceHex : String} {message : SignedMessage}
    (h : challenged? config rawRequest issuedAtText expiryText nonceHex = some message)
    (hreadable : message.Readable) {sigHex : Signature}
    (hsigned : SignedBy ed25519Verify config.publicKey message sigHex)
    (hlifetime : ttlWithinCap config (approvalFor message sigHex) = true)
    {clock : UnixSeconds} (hlive : clock ≤ message.expiry) :
    Authorizes ed25519Verify config rawRequest clock (approvalFor message sigHex) where
  target := (challenged?_eq_some h).1
  session := (challenged?_eq_some h).2
  signed := verifySignature_approvalFor hreadable hsigned
  lifetime := hlifetime
  live := hlive

variable (ed25519Verify) in
/-- **Completeness.**  Once the signed text of a challenge has been added, its
request is allowed at every clock up to the expiry, unless the approval has been
spent. -/
theorem challenged_allowed (calls : List Call) {st st' : ApprovalState} (hfresh : Fresh st)
    (hrun : (runCalls ed25519Verify calls (some st)).1 = some st')
    {rawRequest issuedAtText expiryText nonceHex : String} {message : SignedMessage}
    (h : challenged? st rawRequest issuedAtText expiryText nonceHex = some message)
    (hlength : rawRequest.toList.length ≤ 2 ^ 64) {sigHex : Signature}
    (hsigned : SignedBy ed25519Verify st.publicKey message sigHex)
    (hlifetime : ttlWithinCap st (approvalFor message sigHex) = true)
    (hadded : Call.addApproval (signedMessageRawFor message) sigHex ∈ calls)
    {nowText : String} (hlive : effectiveClock st' nowText ≤ message.expiry) :
    SpentIn (decisions ed25519Verify calls (some st)) st (effectiveClock st' nowText)
        (approvalFor message sigHex) ∨
      ∃ out, parse out = parse rawRequest ∧
        (decideImpl ed25519Verify rawRequest nowText (some st')).2 =
          decisionJson "Allow" (some out) := by
  have hreadable := readable_of_challenged h hlength
  have hmem : approvalFor message sigHex ∈ added calls :=
    List.mem_filterMap.mpr ⟨_, hadded, approvalOf?_signedMessageRawFor hreadable sigHex⟩
  have hauthorizes := authorizes_of_challenged h hreadable hsigned hlifetime hlive
  rcases mediated ed25519Verify calls hfresh hrun rawRequest nowText with
    ⟨_, _, out, _, _, hout, hdecide⟩ | ⟨hspent, _⟩
  · exact Or.inr ⟨out, hout, by rw [hdecide]⟩
  · exact Or.inl (hspent _ hmem hauthorizes)

theorem challenged_allowed_sample :
    ∃ out, (decideImpl vectorVerify (serializeAstValue (writeRequest "users")) "10"
      (some (sessionAt 0 []))).2 = decisionJson "Allow" (some out) := by
  have hchallenged : challenged? configured (serializeAstValue (writeRequest "users")) "0" "120"
      usersApproval.nonce.value = some (signedMessage usersApproval) := by
    have htarget : requestedTarget? configured (serializeAstValue (writeRequest "users")) =
      some (writeTarget "users") := requestedTarget?_writeRequest 0 [] "users"
    have hissued : toNat? "0" = some 0 := by decide
    have hexpiry : toNat? "120" = some 120 := by decide
    rw [challenged?, htarget, Option.bind_some, dif_pos usersApproval.nonce.canonical, hissued,
      hexpiry]
    rfl
  have hlength : (serializeAstValue (writeRequest "users")).toList.length ≤ 2 ^ 64 := by
    decide +kernel
  obtain ⟨_, _, pk, sig, hpk, hsig, hleaf⟩ :=
    verifySignature_eq_true.mp (verify_vector (Or.inl rfl))
  have hsigned : SignedBy vectorVerify configured.publicKey (signedMessage usersApproval)
      usersApproval.signature := ⟨pk, sig, hpk, hsig, hleaf⟩
  have hlive : effectiveClock (sessionAt 0 []) "10" ≤ 120 := by decide
  rcases challenged_allowed vectorVerify addBoth (fresh_of_init initImpl_configJson)
    runCalls_addBoth hchallenged hlength hsigned rfl List.mem_cons_self hlive with
    hspent | ⟨out, _, hreply⟩
  · exact absurd hspent (not_spentIn_addBoth _ _)
  · exact ⟨out, hreply⟩

end McpSeal.Host
