import McpSeal.Foundation.Framing
import McpSeal.SealV2.Validation
set_option autoImplicit false

/-!
# SealV2: signed effect envelopes (`SealV2/EffectEnvelope.lean`, `SealV2/Decide.lean`)

A principal signs an envelope around one line: which key signs, a nonce, when it was
issued and until when it may be used, the adapter, the session and the policy it was
made for, and perhaps what effect the line is believed to have.  The line is judged as
it always is; everything else only decides whether it is judged at all.
-/

namespace McpSeal.SealV2

section Decide

variable (ed25519Verify : Ed25519Verify)

/-- What the judge shows of its verdict. -/
inductive Decision where
  | block
  | allow (out : CanonicalBytes)
  deriving DecidableEq

/-- `SealV2.decide`: judge a line against the session. -/
def Decision.decide (raw : RawBytes) (state : ApprovalState) : Decision :=
  match parse raw with
  | none => .block
  | some ast =>
      match validate ed25519Verify ast state with
      | none => .block
      | some checked => .allow (serialize ed25519Verify checked)

end Decide

namespace Effect

open McpSeal.Foundation.Framing

/-- Bytes are compared by the core library's instance, whatever else is imported. -/
instance decEqByteArray : DecidableEq ByteArray := ByteArray.instDecidableEq

/-! ## Wire primitives -/

/-- Eight bytes, the highest first. -/
def u64be (n : Nat) : ByteArray :=
  ⟨#[UInt8.ofNat (n >>> 56), UInt8.ofNat (n >>> 48), UInt8.ofNat (n >>> 40),
    UInt8.ofNat (n >>> 32), UInt8.ofNat (n >>> 24), UInt8.ofNat (n >>> 16),
    UInt8.ofNat (n >>> 8), UInt8.ofNat n]⟩

/-- A time, as eight bytes. -/
def unixSecondsBE (t : UnixSeconds) : ByteArray :=
  u64be t

/-- A text behind its length in bytes. -/
def frame (s : String) : ByteArray :=
  u64be s.utf8ByteSize ++ s.toUTF8

/-! ## Envelopes and their messages -/

/-- The first bytes of every effect message, the zero byte included. -/
def effectTag : String := "seal.effect/v2\x00"

/-- What the signer believes the line does. -/
structure EffectClaim where
  resource : String
  action : String
  args : String
  metadata : MetaValue
  requestState : RequestState := .absent
  inputResponses : InputResponses := .absent
  deriving DecidableEq

/-- A line to be executed, with what its principal commits to beside it. -/
structure EffectEnvelope where
  keyId : String
  nonce : ByteArray
  issuedAt : UnixSeconds
  expiresAt : UnixSeconds
  line : String
  adapterType : String
  adapterVersion : String
  session : String
  policyVersion : String
  effect : Option EffectClaim
  deriving DecidableEq

/-- The optional `_meta`, behind a byte that says whether it is there. -/
def optMeta : MetaValue → ByteArray
  | .absent => ⟨#[0]⟩
  | .present canonicalObject => ⟨#[1]⟩ ++ frame canonicalObject

/-- The two multi-round-trip values; when both are missing nothing is written. -/
def optMrtr : RequestState → InputResponses → ByteArray
  | .absent, .absent => ByteArray.empty
  | .present state, .absent => ⟨#[1]⟩ ++ frame state
  | .absent, .present responses => ⟨#[2]⟩ ++ frame responses
  | .present state, .present responses => ⟨#[3]⟩ ++ frame state ++ frame responses

/-- The optional claim, behind a byte that says whether it is there. -/
def optEffect : Option EffectClaim → ByteArray
  | none => ⟨#[0]⟩
  | some c => ⟨#[1]⟩ ++ frame c.resource ++ frame c.action ++ frame c.args ++
      optMeta c.metadata ++ optMrtr c.requestState c.inputResponses

/-- The message a principal signs. -/
def effectMessage (authority : ByteArray) (e : EffectEnvelope) : ByteArray :=
  effectTag.toUTF8 ++ authority ++ frame e.keyId ++ e.nonce ++
    unixSecondsBE e.issuedAt ++ unixSecondsBE e.expiresAt ++ frame e.line ++
    frame e.adapterType ++ frame e.adapterVersion ++ frame e.session ++
    frame e.policyVersion ++ optEffect e.effect

/-! ## Widths -/

/-- A text whose length fits its field. -/
def wireText (s : String) : Bool :=
  s.utf8ByteSize < 2 ^ 64

/-- The text of a `_meta` that is there fits its field. -/
def wireMeta : MetaValue → Bool
  | .absent => true
  | .present canonicalObject => wireText canonicalObject

/-- The text of a `requestState` that is there fits its field. -/
def wireRequestState : RequestState → Bool
  | .absent => true
  | .present canonicalValue => wireText canonicalValue

/-- The text of `inputResponses` that are there fits its field. -/
def wireInputResponses : InputResponses → Bool
  | .absent => true
  | .present canonicalValue => wireText canonicalValue

/-- Every text of a claim fits its field. -/
def wireClaim (c : EffectClaim) : Bool :=
  wireText c.resource && wireText c.action && wireText c.args && wireMeta c.metadata &&
    wireRequestState c.requestState && wireInputResponses c.inputResponses

/-- Every field fits where the message puts it. -/
def wireSizedB (e : EffectEnvelope) : Bool :=
  e.nonce.size == 32 && wireText e.keyId &&
    Decidable.decide (e.issuedAt < 2 ^ 64) && Decidable.decide (e.expiresAt < 2 ^ 64) &&
    wireText e.line && wireText e.adapterType && wireText e.adapterVersion &&
    wireText e.session && wireText e.policyVersion &&
    match e.effect with
    | none => true
    | some c => wireClaim c

/-! ## The verifier -/

/-- A principal of the signed configuration, with its key in hex. -/
structure PrincipalKey where
  id : String
  pubkey : String

/-- The principals of the signed configuration; the first with an id counts. -/
abbrev PrincipalRegistry := List PrincipalKey

/-- The caller an envelope was verified for. -/
structure AuthenticatedId where
  id : String
  deriving DecidableEq

section Verify

variable (ed25519Verify : Ed25519Verify)

/-- The principal that signed an envelope, if its key is registered and its signature
verifies over the message of this authority. -/
def verifyEffect (authority : ByteArray) (reg : PrincipalRegistry) (e : EffectEnvelope)
    (sigHex : String) : Option AuthenticatedId :=
  match reg.find? (fun k => k.id == e.keyId) with
  | none => none
  | some k =>
      match hexDecode? k.pubkey, hexDecode? sigHex with
      | some pk, some sig =>
          if authority.size == 32 && pk.size == 32 && wireSizedB e &&
              ed25519Verify pk (effectMessage authority e) sig
          then some ⟨k.id⟩ else none
      | _, _ => none

end Verify

/-! ## The gates -/

/-- The adapter the host knows to mediate. -/
structure AdapterId where
  type : String
  version : String
  deriving DecidableEq

/-- The adapter type of MCP. -/
def mcpAdapterType : String := "mcp"

/-- The effect the parser finds in a line. -/
def deriveEffect (line : RawBytes) : Option EffectClaim :=
  match parse line with
  | none => none
  | some ast =>
      match requestFromAst ast with
      | none => none
      | some req => some {
          resource := req.tool,
          action := req.action,
          args := serializeAstValue req.arguments,
          metadata := req.metadata,
          requestState := req.requestState,
          inputResponses := req.inputResponses
        }

/-- The envelope is for the adapter the host mediates. -/
def adapterGate (mediator : AdapterId) (e : EffectEnvelope) : Bool :=
  e.adapterType == mediator.type && e.adapterVersion == mediator.version

/-- The envelope is for this session, which has a name. -/
def sessionGate (state : ApprovalState) (e : EffectEnvelope) : Bool :=
  e.session != "" && e.session == state.session

/-- The envelope is for this policy version, which has a name. -/
def policyVersionGate (state : ApprovalState) (e : EffectEnvelope) : Bool :=
  e.policyVersion != "" && e.policyVersion == state.policyVersion

/-- The envelope has an expiry, and it has not passed. -/
def expiryGate (state : ApprovalState) (e : EffectEnvelope) : Bool :=
  e.expiresAt != 0 && Decidable.decide (state.now ≤ e.expiresAt)

/-- The envelope is not from the future, and not older than an approval may be. -/
def issuedAtGate (state : ApprovalState) (e : EffectEnvelope) : Bool :=
  Decidable.decide (e.issuedAt ≤ state.now) &&
    Decidable.decide (state.now - e.issuedAt ≤ state.maxApprovalTtl)

/-- A claim that is made must be the effect of the line, and the adapter MCP. -/
def effectGate (mediator : AdapterId) (e : EffectEnvelope) : Bool :=
  e.effect.all fun c =>
    mediator.type == mcpAdapterType && (deriveEffect e.line == some c)

section Step

variable (ed25519Verify : Ed25519Verify)

/-- Judge an envelope: verify it, compare what it says with what is known, and judge
its line. -/
def effectStep (authority : ByteArray) (reg : PrincipalRegistry) (mediator : AdapterId)
    (e : EffectEnvelope) (sigHex : String) (state : ApprovalState) : Decision :=
  match verifyEffect ed25519Verify authority reg e sigHex with
  | none => .block
  | some _ =>
      if adapterGate mediator e && sessionGate state e && effectGate mediator e &&
          expiryGate state e && issuedAtGate state e && policyVersionGate state e
      then Decision.decide ed25519Verify e.line state
      else .block

end Step

/-! ## Frames -/

/-- The bytes of an array, in order. -/
def bytes (b : ByteArray) : List UInt8 :=
  b.data.toList

@[simp] theorem bytes_append (a b : ByteArray) : bytes (a ++ b) = bytes a ++ bytes b :=
  ByteArray.toList_data_append

@[simp] theorem length_bytes (b : ByteArray) : (bytes b).length = b.size := by
  rw [bytes, Array.length_toList, ByteArray.size_data]

theorem bytes_inj {a b : ByteArray} (h : bytes a = bytes b) : a = b :=
  ByteArray.ext (Array.toList_inj.mp h)

theorem u64be_inj {n m : Nat} (hn : n < 2 ^ 64) (hm : m < 2 ^ 64)
    (h : bytes (u64be n) = bytes (u64be m)) : n = m := by
  simp only [bytes, u64be, List.cons.injEq, and_true, ← UInt8.toNat_inj, UInt8.toNat_ofNat',
    Nat.shiftRight_eq_div_pow] at h
  omega

theorem selfDelimiting_raw32 : SelfDelimitingOn (fun b : ByteArray => b.size = 32) bytes :=
  selfDelimitingOn_fixed (fun b hb => (length_bytes b).trans hb) fun _ _ _ _ => bytes_inj

theorem selfDelimiting_u64be : SelfDelimitingOn (· < 2 ^ 64) fun n => bytes (u64be n) := by
  have hwidth : ∀ n, (bytes (u64be n)).length = 8 := fun _ => rfl
  exact selfDelimitingOn_fixed (fun n _ => hwidth n) fun _ _ => u64be_inj

theorem bytes_frame (s : String) :
    bytes (frame s) = bytes (u64be (bytes s.toUTF8).length) ++ bytes s.toUTF8 := by
  rw [frame, bytes_append, length_bytes, String.toUTF8_eq_toByteArray, String.size_toByteArray]

theorem selfDelimiting_frame :
    SelfDelimitingOn (fun s => wireText s = true) fun s => bytes (frame s) := by
  have hinj : Function.Injective fun s : String => bytes s.toUTF8 :=
    fun _ _ h => String.toByteArray_inj.mp (bytes_inj h)
  intro a b ha hb tail tail' heq
  simp only [bytes_frame] at heq
  refine selfDelimiting_u64be.counted.comap hinj a b ?_ ?_ tail tail' heq
  · simpa [wireText] using ha
  · simpa [wireText] using hb

/-- The text of a metadata value, as its frame has it. -/
def metaText : MetaValue → Option String
  | .absent => none
  | .present canonicalObject => some canonicalObject

theorem metaText_inj : Function.Injective metaText := by
  intro m m' h
  cases m <;> cases m' <;> simp_all [metaText]

theorem bytes_optMeta (m : MetaValue) :
    bytes (optMeta m) = (metaText m).elim [0] fun s => 1 :: bytes (frame s) := by
  cases m with
  | absent => rfl
  | present s => simp [optMeta, metaText, bytes]

theorem selfDelimiting_optMeta :
    SelfDelimitingOn (fun m => wireMeta m = true) fun m => bytes (optMeta m) := by
  intro m m' hm hm' tail tail' heq
  simp only [bytes_optMeta] at heq
  refine (selfDelimiting_frame.optional (by decide)).comap metaText_inj m m' ?_ ?_ tail tail' heq
  · cases m <;> simp_all [metaText, wireMeta]
  · cases m' <;> simp_all [metaText, wireMeta]

/-- The multi-round-trip block by its shapes. -/
theorem bytes_optMrtr (s : RequestState) (i : InputResponses) :
    bytes (optMrtr s i) =
      match s, i with
      | .absent, .absent => []
      | .present state, .absent => 1 :: bytes (frame state)
      | .absent, .present responses => 2 :: bytes (frame responses)
      | .present state, .present responses =>
          3 :: (bytes (frame state) ++ bytes (frame responses)) := by
  cases s <;> cases i <;> simp [optMrtr, bytes]

/-- The last block of a claim, with nothing behind it: its first byte tells the shapes
apart, and where there is none both values are missing. -/
theorem optMrtr_inj {s s' : RequestState} {i i' : InputResponses}
    (hs : wireRequestState s = true) (hs' : wireRequestState s' = true)
    (hi : wireInputResponses i = true) (hi' : wireInputResponses i' = true)
    (h : bytes (optMrtr s i) = bytes (optMrtr s' i')) : s = s' ∧ i = i' := by
  have hlast : ∀ {t u}, wireText t = true → wireText u = true →
      bytes (frame t) = bytes (frame u) → t = u := by
    intro t u ht hu heq
    exact (selfDelimiting_frame t u ht hu [] [] (by simpa using heq)).1
  rw [bytes_optMrtr, bytes_optMrtr] at h
  cases s <;> cases i <;> cases s' <;> cases i' <;> simp at h ⊢
  case absent.present.absent.present => exact hlast hi hi' h
  case present.absent.present.absent => exact hlast hs hs' h
  case present.present.present.present =>
    obtain ⟨hstate, hrest⟩ := selfDelimiting_frame _ _ hs hs' _ _ h
    exact ⟨hstate, hlast hi hi' hrest⟩

/-- A claim up to its last block. -/
theorem selfDelimiting_claim :
    SelfDelimitingOn
      (fun x : String × String × String × MetaValue =>
        wireText x.1 = true ∧ wireText x.2.1 = true ∧ wireText x.2.2.1 = true ∧
          wireMeta x.2.2.2 = true)
      fun x => bytes (frame x.1) ++ (bytes (frame x.2.1) ++ (bytes (frame x.2.2.1) ++
        bytes (optMeta x.2.2.2))) :=
  selfDelimiting_frame.append <| selfDelimiting_frame.append <|
    selfDelimiting_frame.append selfDelimiting_optMeta

theorem bytes_optEffect (c : EffectClaim) :
    bytes (optEffect (some c)) = 1 :: ((bytes (frame c.resource) ++ (bytes (frame c.action) ++
      (bytes (frame c.args) ++ bytes (optMeta c.metadata)))) ++
        bytes (optMrtr c.requestState c.inputResponses)) := by
  simp [optEffect, bytes]

theorem claim_inj {c c' : EffectClaim} (hc : wireClaim c = true) (hc' : wireClaim c' = true)
    (h : bytes (optEffect (some c)) = bytes (optEffect (some c'))) : c = c' := by
  obtain ⟨resource, action, args, metadata, state, responses⟩ := c
  obtain ⟨resource', action', args', metadata', state', responses'⟩ := c'
  simp only [wireClaim, Bool.and_eq_true, and_assoc] at hc hc'
  obtain ⟨hresource, haction, hargs, hmeta, hstate, hresponses⟩ := hc
  obtain ⟨hresource', haction', hargs', hmeta', hstate', hresponses'⟩ := hc'
  rw [bytes_optEffect, bytes_optEffect] at h
  obtain ⟨hfront, hlast⟩ := selfDelimiting_claim (resource, action, args, metadata)
    (resource', action', args', metadata') ⟨hresource, haction, hargs, hmeta⟩
    ⟨hresource', haction', hargs', hmeta'⟩ _ _ (List.cons.inj h).2
  obtain ⟨rfl, rfl⟩ := optMrtr_inj hstate hstate' hresponses hresponses' hlast
  simp only [Prod.mk.injEq] at hfront
  obtain ⟨rfl, rfl, rfl, rfl⟩ := hfront
  rfl

theorem optEffect_inj {o o' : Option EffectClaim} (ho : ∀ c, o = some c → wireClaim c = true)
    (ho' : ∀ c, o' = some c → wireClaim c = true)
    (h : bytes (optEffect o) = bytes (optEffect o')) : o = o' := by
  cases o with
  | none =>
      cases o' with
      | none => rfl
      | some c' =>
          rw [bytes_optEffect] at h
          exact absurd (List.cons.inj h).1 (by decide)
  | some c =>
      cases o' with
      | none =>
          rw [bytes_optEffect] at h
          exact absurd (List.cons.inj h).1 (by decide)
      | some c' => rw [claim_inj (ho c rfl) (ho' c' rfl) h]

/-! ## Messages -/

/-- What an envelope puts on the wire in front of its claim. -/
abbrev Front : Type :=
  ByteArray × String × ByteArray × UnixSeconds × UnixSeconds × String × String × String ×
    String × String

/-- What an envelope signs in front of its claim. -/
def EffectEnvelope.front (authority : ByteArray) (e : EffectEnvelope) : Front :=
  (authority, e.keyId, e.nonce, e.issuedAt, e.expiresAt, e.line, e.adapterType,
    e.adapterVersion, e.session, e.policyVersion)

/-- The bytes of that part of the message, the tag left out. -/
def Front.bytes : Front → List UInt8
  | (authority, keyId, nonce, issuedAt, expiresAt, line, adapterType, adapterVersion, session,
      policyVersion) =>
    Effect.bytes authority ++ (Effect.bytes (frame keyId) ++ (Effect.bytes nonce ++
      (Effect.bytes (u64be issuedAt) ++ (Effect.bytes (u64be expiresAt) ++
        (Effect.bytes (frame line) ++ (Effect.bytes (frame adapterType) ++
          (Effect.bytes (frame adapterVersion) ++ (Effect.bytes (frame session) ++
            Effect.bytes (frame policyVersion)))))))))

/-- The widths of the fields in front of the claim. -/
def Front.Sized : Front → Prop
  | (authority, keyId, nonce, issuedAt, expiresAt, line, adapterType, adapterVersion, session,
      policyVersion) =>
    authority.size = 32 ∧ wireText keyId = true ∧ nonce.size = 32 ∧ issuedAt < 2 ^ 64 ∧
      expiresAt < 2 ^ 64 ∧ wireText line = true ∧ wireText adapterType = true ∧
      wireText adapterVersion = true ∧ wireText session = true ∧ wireText policyVersion = true

theorem selfDelimiting_front : SelfDelimitingOn Front.Sized Front.bytes :=
  selfDelimiting_raw32.append <| selfDelimiting_frame.append <| selfDelimiting_raw32.append <|
    selfDelimiting_u64be.append <| selfDelimiting_u64be.append <|
    selfDelimiting_frame.append <| selfDelimiting_frame.append <|
    selfDelimiting_frame.append <| selfDelimiting_frame.append selfDelimiting_frame

theorem bytes_effectMessage (authority : ByteArray) (e : EffectEnvelope) :
    bytes (effectMessage authority e) =
      bytes effectTag.toUTF8 ++ ((e.front authority).bytes ++ bytes (optEffect e.effect)) := by
  simp only [effectMessage, EffectEnvelope.front, Front.bytes, unixSecondsBE, bytes_append,
    List.append_assoc]

theorem sized_of_wireSizedB {authority : ByteArray} {e : EffectEnvelope}
    (hauthority : authority.size = 32) (h : wireSizedB e = true) :
    (e.front authority).Sized ∧ ∀ c, e.effect = some c → wireClaim c = true := by
  simp only [wireSizedB, Bool.and_eq_true, beq_iff_eq, decide_eq_true_eq, and_assoc] at h
  obtain ⟨hnonce, hkeyId, hissuedAt, hexpiresAt, hline, htype, hversion, hsession, hpolicy,
    heffect⟩ := h
  refine ⟨⟨hauthority, hkeyId, hnonce, hissuedAt, hexpiresAt, hline, htype, hversion, hsession,
    hpolicy⟩, fun c hc => ?_⟩
  rw [hc] at heffect
  exact heffect

/-- **Messages.**  A message has one authority and one envelope. -/
theorem effectMessage_inj {authority authority' : ByteArray} {e e' : EffectEnvelope}
    (hauthority : authority.size = 32) (hauthority' : authority'.size = 32)
    (he : wireSizedB e = true) (he' : wireSizedB e' = true)
    (h : effectMessage authority e = effectMessage authority' e') :
    authority = authority' ∧ e = e' := by
  obtain ⟨hsized, hclaim⟩ := sized_of_wireSizedB hauthority he
  obtain ⟨hsized', hclaim'⟩ := sized_of_wireSizedB hauthority' he'
  have hbytes : bytes (effectMessage authority e) = bytes (effectMessage authority' e') := by
    rw [h]
  rw [bytes_effectMessage, bytes_effectMessage] at hbytes
  obtain ⟨hfront, hlast⟩ :=
    selfDelimiting_front _ _ hsized hsized' _ _ (List.append_cancel_left hbytes)
  have heffect : e.effect = e'.effect := optEffect_inj hclaim hclaim' hlast
  simp only [EffectEnvelope.front, Prod.mk.injEq] at hfront
  obtain ⟨rfl, hkeyId, hnonce, hissuedAt, hexpiresAt, hline, htype, hversion, hsession,
    hpolicy⟩ := hfront
  exact ⟨rfl, by cases e; cases e'; simp_all⟩

/-! ## What a verified envelope satisfies -/

section Verified

variable {ed25519Verify : Ed25519Verify}

/-- Everything the verifier has checked. -/
theorem verifyEffect_eq_some {authority : ByteArray} {reg : PrincipalRegistry}
    {e : EffectEnvelope} {sigHex : String} {id : AuthenticatedId} :
    verifyEffect ed25519Verify authority reg e sigHex = some id ↔
      ∃ k pk sig, reg.find? (fun k => k.id == e.keyId) = some k ∧
        hexDecode? k.pubkey = some pk ∧ hexDecode? sigHex = some sig ∧
        authority.size = 32 ∧ pk.size = 32 ∧ wireSizedB e = true ∧
        ed25519Verify pk (effectMessage authority e) sig = true ∧ id = ⟨k.id⟩ := by
  unfold verifyEffect
  cases hfind : reg.find? (fun k => k.id == e.keyId) with
  | none => simp
  | some k =>
      cases hpk : hexDecode? k.pubkey with
      | none => simp [hpk]
      | some pk =>
          cases hsig : hexDecode? sigHex with
          | none => simp
          | some sig =>
              simp only [hpk, Bool.and_eq_true, beq_iff_eq, and_assoc, Option.some.injEq,
                exists_eq_left', exists_and_left, eq_comm (a := id)]
              split <;> simp_all

end Verified

end Effect

end McpSeal.SealV2
