import McpSeal.SealV2.EffectEnvelope
import McpSeal.SealV2.ReplayStore
import McpSeal.SealV2.RoundTrip
import McpSeal.SealV2.SignedMessage
set_option autoImplicit false

/-!
# SealV2: what an accepted envelope stands for (`SealV2/EffectEnvelope.lean`)

Two kinds of text are signed: approvals, which are canonical JSON, and effect
envelopes, which are tagged frames.  One byte string is accepted as one statement of
one kind, whatever keys the planes share.  And where an envelope with a claim is let
through, the claim, the released bytes and the approval speak of one effect.
-/

namespace McpSeal.SealV2.Effect

variable {ed25519Verify : Ed25519Verify}

/-! ## Statements -/

/-- An envelope's message is not the text of an object. -/
theorem effectMessage_ne_object (authority : ByteArray) (e : EffectEnvelope) (rest : String) :
    effectMessage authority e ≠ ("\x7b" ++ rest).toUTF8 := by
  intro h
  have hbytes := congrArg bytes h
  rw [bytes_effectMessage, String.toUTF8_eq_toByteArray, String.toUTF8_eq_toByteArray,
    String.toByteArray_append, bytes_append] at hbytes
  have htag : bytes effectTag.toByteArray = 115 :: (bytes effectTag.toByteArray).tail := by
    decide
  have hbrace : bytes "\x7b".toByteArray = [123] := by decide
  rw [htag, hbrace] at hbytes
  exact absurd (List.cons.inj hbytes).1 (by decide)

/-- What a signature can vouch for. -/
inductive Statement where
  | effect (authority : ByteArray) (e : EffectEnvelope)
  | approval (message : SignedMessage)

variable (ed25519Verify) in
/-- The statement is accepted, under some key, as signed in these bytes. -/
inductive Accepts : Statement → ByteArray → Prop
  | effect {authority : ByteArray} {reg : PrincipalRegistry} {e : EffectEnvelope}
      {sigHex : String} {id : AuthenticatedId}
      (h : verifyEffect ed25519Verify authority reg e sigHex = some id) :
      Accepts (.effect authority e) (effectMessage authority e)
  | approval {publicKey : PublicKey} {approval : Approval}
      (h : verifySignature ed25519Verify publicKey approval = true) :
      Accepts (.approval (signedMessage approval)) approval.signedMessageRaw.toUTF8

theorem serializeAstValue_object (fields : List (String × AST)) :
    serializeAstValue (.object fields) = "\x7b" ++ (serializeObjectValue fields ++ "\x7d") := by
  rw [serializeAstValue, String.append_assoc]

theorem exists_object_of_verifySignature {publicKey : PublicKey} {approval : Approval}
    (h : verifySignature ed25519Verify publicKey approval = true) :
    ∃ rest, approval.signedMessageRaw = "\x7b" ++ rest := by
  obtain ⟨⟨_, hraw⟩, -⟩ := verifySignature_eq_true.mp h
  exact ⟨_, hraw.trans (serializeAstValue_object _)⟩

/-- **One message, one statement.**  A byte string is accepted as one envelope under one
authority, or as one approval, and never as both. -/
theorem accepts_inj {s s' : Statement} {message : ByteArray}
    (h : Accepts ed25519Verify s message) (h' : Accepts ed25519Verify s' message) : s = s' := by
  cases h with
  | effect hs =>
      obtain ⟨_, _, _, _, _, _, hauthority, _, hsized, _⟩ := verifyEffect_eq_some.mp hs
      generalize hmessage : effectMessage _ _ = m at h'
      cases h' with
      | effect hs' =>
          obtain ⟨_, _, _, _, _, _, hauthority', _, hsized', _⟩ := verifyEffect_eq_some.mp hs'
          obtain ⟨rfl, rfl⟩ := effectMessage_inj hauthority hauthority' hsized hsized' hmessage
          rfl
      | approval hs' =>
          obtain ⟨rest, hraw⟩ := exists_object_of_verifySignature hs'
          rw [hraw] at hmessage
          exact absurd hmessage (effectMessage_ne_object _ _ rest)
  | approval hs =>
      obtain ⟨rest, hraw⟩ := exists_object_of_verifySignature hs
      generalize hmessage : String.toUTF8 _ = m at h'
      cases h' with
      | effect hs' =>
          rw [hraw] at hmessage
          exact absurd hmessage.symm (effectMessage_ne_object _ _ rest)
      | approval hs' =>
          rw [signedMessage_eq_of_raw hs hs' (String.toByteArray_inj.mp hmessage)]

/-! ## Envelopes that are let through -/

variable (ed25519Verify) in
/-- What an envelope passes before its line is judged. -/
structure Admitted (authority : ByteArray) (reg : PrincipalRegistry) (mediator : AdapterId)
    (e : EffectEnvelope) (sigHex : String) (state : ApprovalState) : Prop where
  verified : ∃ id, verifyEffect ed25519Verify authority reg e sigHex = some id
  adapter : e.adapterType = mediator.type ∧ e.adapterVersion = mediator.version
  session : e.session ≠ "" ∧ e.session = state.session
  claim : ∀ c, e.effect = some c → mediator.type = mcpAdapterType ∧ deriveEffect e.line = some c
  expires : e.expiresAt ≠ 0 ∧ state.now ≤ e.expiresAt
  issued : e.issuedAt ≤ state.now ∧ state.now - e.issuedAt ≤ state.maxApprovalTtl
  policyVersion : e.policyVersion ≠ "" ∧ e.policyVersion = state.policyVersion

variable {authority : ByteArray} {reg : PrincipalRegistry} {mediator : AdapterId}
  {e : EffectEnvelope} {sigHex : String} {state : ApprovalState} {out : CanonicalBytes}

theorem effectGate_eq_true : effectGate mediator e = true ↔
    ∀ c, e.effect = some c → mediator.type = mcpAdapterType ∧ deriveEffect e.line = some c := by
  rw [effectGate, Option.all_eq_true]
  simp only [Bool.and_eq_true, beq_iff_eq]

/-- An envelope that is let through has been admitted, and its line judged. -/
theorem effectStep_eq_allow :
    effectStep ed25519Verify authority reg mediator e sigHex state = .allow out ↔
      Admitted ed25519Verify authority reg mediator e sigHex state ∧
        Decision.decide ed25519Verify e.line state = .allow out := by
  unfold effectStep
  cases hverify : verifyEffect ed25519Verify authority reg e sigHex with
  | none =>
      constructor
      · exact fun h => Decision.noConfusion h
      · rintro ⟨⟨⟨id, hid⟩, -, -, -, -, -, -⟩, -⟩
        exact absurd (hverify.symm.trans hid) (Option.some_ne_none id).symm
  | some id =>
      dsimp only
      split
      · rename_i hgates
        simp only [Bool.and_eq_true, adapterGate, sessionGate, expiryGate, issuedAtGate,
          policyVersionGate, effectGate_eq_true, beq_iff_eq, bne_iff_ne, decide_eq_true_eq,
          and_assoc] at hgates
        obtain ⟨htype, hversion, hsession, hsame, hclaim, hzero, hexpires, hfuture, hwindow,
          hpolicy, hpin⟩ := hgates
        exact ⟨fun h => ⟨⟨⟨id, hverify⟩, ⟨htype, hversion⟩, ⟨hsession, hsame⟩, hclaim,
          ⟨hzero, hexpires⟩, ⟨hfuture, hwindow⟩, ⟨hpolicy, hpin⟩⟩, h⟩, And.right⟩
      · rename_i hgates
        constructor
        · exact fun h => Decision.noConfusion h
        · rintro ⟨h, -⟩
          refine absurd ?_ hgates
          simp only [Bool.and_eq_true, adapterGate, sessionGate, expiryGate, issuedAtGate,
            policyVersionGate, effectGate_eq_true, beq_iff_eq, bne_iff_ne, decide_eq_true_eq]
          exact ⟨⟨⟨⟨⟨h.adapter, h.session⟩, h.claim⟩, h.expires⟩, h.issued⟩, h.policyVersion⟩

/-- The judge releases the canonical text of a line it finds an approval for. -/
theorem decide_eq_allow {raw : RawBytes} :
    Decision.decide ed25519Verify raw state = .allow out ↔
      ∃ ast approval, parse raw = some ast ∧
        approvalFor? ed25519Verify ast state = some approval ∧ out = serializeAstValue ast := by
  unfold Decision.decide
  cases hparse : parse raw with
  | none => simp
  | some ast =>
      have hfor : _ = approvalFor? ed25519Verify ast state := validate_approval ast state
      cases hvalid : validate ed25519Verify ast state with
      | none =>
          rw [hvalid] at hfor
          simp [hvalid, ← hfor]
      | some checked =>
          have hout : serialize ed25519Verify checked = serializeAstValue ast := by
            exact congrArg serializeAstValue (validate_fst hvalid)
          rw [hvalid, Option.map_some] at hfor
          simp only [hvalid, hout, Decision.allow.injEq, Option.some.injEq]
          constructor
          · rintro rfl
            exact ⟨ast, _, rfl, hfor.symm, rfl⟩
          · rintro ⟨_, _, rfl, -, rfl⟩
            rfl

/-- The effect a target approves. -/
def targetEffect (target : Target) : EffectClaim where
  resource := target.tool
  action := target.action
  args := serializeAstValue target.arguments
  metadata := target.metadata
  requestState := target.requestState
  inputResponses := target.inputResponses

/-- **Claim, approval and release agree.**  If an envelope is let through, some approval of
the session, signed and live, approves exactly the effect of the released bytes; and if
the signer has claimed an effect, it is that one. -/
theorem effect_agreement
    (h : effectStep ed25519Verify authority reg mediator e sigHex state = .allow out) :
    ∃ approval ∈ state.approvals,
      verifySignature ed25519Verify state.publicKey approval = true ∧
      approval.session = state.session ∧ state.now ≤ approval.expiresAt ∧
      deriveEffect out = some (targetEffect approval.target) ∧
      ∀ c, e.effect = some c → c = targetEffect approval.target := by
  obtain ⟨hadmitted, hdecide⟩ := effectStep_eq_allow.mp h
  obtain ⟨ast, approval, hparse, happroval, rfl⟩ := decide_eq_allow.mp hdecide
  unfold approvalFor? at happroval
  split at happroval
  · rename_i hcanonical
    obtain ⟨request, hrequest, happroval⟩ := Option.bind_eq_some_iff.mp happroval
    obtain ⟨spec, -, happroval⟩ := Option.bind_eq_some_iff.mp happroval
    obtain ⟨hmem, htarget, hsession, -, hlive, -, -, hsigned⟩ := live_of_findApproval happroval
    have hline : deriveEffect e.line = some (targetEffect approval.target) := by
      simp only [deriveEffect, hparse, hrequest, htarget]
      rfl
    refine ⟨approval, hmem, hsigned, hsession, hlive, ?_, fun c hc => ?_⟩
    · have hout : parse (serializeAstValue ast) = some ast := parse_serializeAst ⟨ast, hcanonical⟩
      rw [← hline, deriveEffect, hout, deriveEffect, hparse]
    · have hclaim := (hadmitted.claim c hc).2
      exact Option.some.inj (hclaim.symm.trans hline)
  · exact absurd happroval (Option.some_ne_none approval).symm

/-! ### A signed envelope

One envelope around one approved request, with the Ed25519 signatures of two keys. -/

/-- The write to a table. -/
def sampleTarget : Target :=
  { tool := "db.execute", action := "write", toolVersion := "v1",
    manifestDigest := "manifest-001",
    arguments := .object [("table", .string "users"),
      ("amount", .number { negative := false, intDigits := "12", fracDigits := some "34" })],
    metadata := .absent }

/-- The request for it. -/
def sampleRequest : AST :=
  .object [("method", .string "tools/call"),
    ("params", .object [("name", .string "db.execute"), ("action", .string "write"),
      ("arguments", sampleTarget.arguments)])]

/-- The message its approver signs. -/
def sampleMessage : SignedMessage :=
  { target := sampleTarget, session := "session-1", issuedAt := 0, expiry := 120,
    nonce := { value := "cccccccccccccccccccccccccccccccccccccccccccccccccccccccccccccccc"
               canonical := by decide +kernel } }

/-- The approval, with its Ed25519 signature under the key of the session. -/
def sampleApproval : Approval :=
  { target := sampleTarget, session := "session-1", issuedAt := 0, expiresAt := 120,
    consumed := false, signedMessageRaw := signedMessageRawFor sampleMessage,
    signature := "2c79e2c0180fdd7abc7d666a081595811bde1fe64e9f4bbfb3100b525a013121" ++
      "ffeacc5bf5357bdef01b0f86ade35bad1693c1cfea8785fe957c9a1cf9ac7607",
    nonce := sampleMessage.nonce }

/-- A session that holds the approval, at a clock. -/
def sampleState (now : UnixSeconds) : ApprovalState :=
  { session := "session-1", now,
    publicKey := "03a107bff3ce10be1d70dd18e74bc09967e4d6309ba50d5f1ddc8664125531b8",
    manifestDigest := "manifest-001",
    tools := [{ tool := "db.execute", version := "v1", actions := ["write"] }],
    approvals := [sampleApproval], policyVersion := "policy-1", ledgerGeneration := 1 }

/-- The principal, with its Ed25519 key. -/
def sampleKey : PrincipalKey :=
  ⟨"alice", "79b5562e8fe654f94078b112e8a98ba7901f853ae695bed7e0e3910bad049664"⟩

/-- The authority the principal signs under. -/
def sampleAuthority : ByteArray := ⟨Array.replicate 32 0xa0⟩

/-- The adapter the host mediates. -/
def sampleMediator : AdapterId := ⟨mcpAdapterType, "2025-06-18"⟩

/-- The request in an envelope that claims the effect it has. -/
def sampleEnvelope : EffectEnvelope :=
  { keyId := "alice", nonce := ⟨Array.replicate 32 7⟩, issuedAt := 5, expiresAt := 60,
    line := serializeAstValue sampleRequest, adapterType := mcpAdapterType,
    adapterVersion := "2025-06-18", session := "session-1", policyVersion := "policy-1",
    effect := some (targetEffect sampleTarget) }

/-- The principal's Ed25519 signature of the envelope. -/
def sampleSignature : Signature :=
  "e0f02cf799653c4674bb3e5d9bed7ee601a1574521b5d9280e771f0d368caa6a" ++
    "ca70beab01140796a2db6dbd06ee2c6354f8af8247110d5f71609c6b8792050b"

/-- The leaf on the two signatures: it accepts them, which are the keys' signatures of
these messages, and no others. -/
def sampleVerify : Ed25519Verify := fun pk message sig =>
  [((sampleState 0).publicKey, sampleApproval.signedMessageRaw.toUTF8, sampleApproval.signature),
    (sampleKey.pubkey, effectMessage sampleAuthority sampleEnvelope, sampleSignature)].any
      fun signed => hexDecode? signed.1 = some pk ∧ signed.2.1 = message ∧
        hexDecode? signed.2.2 = some sig

theorem verify_sampleApproval :
    verifySignature sampleVerify (sampleState 0).publicKey sampleApproval = true := by
  have hpk : (hexDecode? (sampleState 0).publicKey).isSome = true := by decide +kernel
  have hsig : (hexDecode? sampleApproval.signature).isSome = true := by decide +kernel
  obtain ⟨pk, hpk⟩ := Option.isSome_iff_exists.mp hpk
  obtain ⟨sig, hsig⟩ := Option.isSome_iff_exists.mp hsig
  have hreadable : sampleMessage.Readable := ⟨rfl, rfl, rfl⟩
  have hcanonical := isCanonical_signedMessageAst hreadable.arguments
  have hraw : sampleApproval.signedMessageRaw = serializeAst ⟨_, hcanonical⟩ := by
    have htext : sampleApproval.signedMessageRaw = signedMessageRawFor sampleMessage := rfl
    rw [htext, signedMessageRawFor, signedMessageCanonical?, dif_pos hcanonical]
  refine verifySignature_eq_true.mpr ⟨⟨hcanonical, hraw⟩,
    signedMessageFromAst?_signedMessageAst hreadable, pk, sig, hpk, hsig, ?_⟩
  simp [sampleVerify, hpk, hsig]

theorem verify_sampleEnvelope :
    verifyEffect sampleVerify sampleAuthority [sampleKey] sampleEnvelope sampleSignature =
      some ⟨"alice"⟩ := by
  have hpk : (hexDecode? sampleKey.pubkey).map (·.size) = some 32 := by decide +kernel
  have hsig : (hexDecode? sampleSignature).isSome = true := by decide +kernel
  obtain ⟨pk, hpk, hsize⟩ := Option.map_eq_some_iff.mp hpk
  obtain ⟨sig, hsig⟩ := Option.isSome_iff_exists.mp hsig
  refine verifyEffect_eq_some.mpr
    ⟨sampleKey, pk, sig, rfl, hpk, hsig, rfl, hsize, by decide +kernel, ?_, rfl⟩
  simp [sampleVerify, hpk, hsig]

theorem step_sample {now : Nat} (hissued : 5 ≤ now) (hexpires : now ≤ 60) :
    effectStep sampleVerify sampleAuthority [sampleKey] sampleMediator sampleEnvelope
      sampleSignature (sampleState now) = .allow sampleEnvelope.line := by
  have hcanonical : IsCanonical sampleRequest := rfl
  have hparse : parse sampleEnvelope.line = some sampleRequest :=
    parse_serializeAst ⟨_, hcanonical⟩
  have hlive : approvalLiveFor sampleVerify (sampleState now) sampleTarget sampleApproval =
      true := approvalLiveFor_eq_true.mpr
    ⟨rfl, rfl, rfl, hexpires.trans (by decide), rfl, rfl, verify_sampleApproval⟩
  refine effectStep_eq_allow.mpr ⟨⟨⟨_, verify_sampleEnvelope⟩, ⟨rfl, rfl⟩, ⟨by decide, rfl⟩, ?_,
    ⟨by decide, hexpires⟩, ⟨hissued, ?_⟩, ⟨by decide, rfl⟩⟩, decide_eq_allow.mpr
      ⟨sampleRequest, sampleApproval, hparse, ?_, rfl⟩⟩
  · intro c hc
    obtain rfl := Option.some.inj hc
    refine ⟨rfl, ?_⟩
    rw [deriveEffect, hparse]
    rfl
  · have hwindow : now - 5 ≤ 300 := by omega
    exact hwindow
  · have hfind : findApproval sampleVerify (sampleState now) sampleTarget = some sampleApproval :=
      List.find?_cons_of_pos hlive
    rw [approvalFor?, if_pos hcanonical]
    exact hfind

theorem effect_agreement_sample :
    deriveEffect sampleEnvelope.line = some (targetEffect sampleTarget) := by
  obtain ⟨approval, -, -, -, -, hderived, hclaim⟩ :=
    effect_agreement (step_sample (Nat.le_refl 5) (by decide))
  rw [hderived, ← hclaim _ rfl]

theorem accepts_inj_sample :
    Statement.approval (signedMessage sampleApproval) = .approval sampleMessage ∧
      ¬ Accepts sampleVerify (.approval sampleMessage)
        (effectMessage sampleAuthority sampleEnvelope) := by
  refine ⟨accepts_inj (.approval verify_sampleApproval) (.approval verify_sampleApproval),
    fun h => ?_⟩
  exact Statement.noConfusion (accepts_inj (.effect verify_sampleEnvelope) h)

end McpSeal.SealV2.Effect
