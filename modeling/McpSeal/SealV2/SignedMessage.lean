import McpSeal.SealV2.RoundTrip
import McpSeal.SealV2.Validation
set_option autoImplicit false

/-!
# SealV2: what a signature covers (`SealV2/Validation.lean`)

The signed text of a message is one text: `signedParse` accepts exactly the
serializer's output, and a readable message is recovered from it.  So a verified
approval was signed over the canonical bytes of its own target, session, times
and nonce, and over nothing else.
-/

namespace McpSeal.SealV2

open McpSeal.Data (toNat? toNat?_toString exists_first_toDigits)

/-! ## Signed texts -/

/-- A signed text is accepted exactly if it is the canonical text of the tree. -/
theorem signedParse_eq_some {raw : RawBytes} {ast : {ast // IsCanonical ast}} :
    signedParse raw = some ast ↔ raw = serializeAst ast := by
  constructor
  · intro h
    unfold signedParse at h
    split at h
    · contradiction
    · split at h
      · split at h
        · rename_i heq
          obtain rfl := Option.some.inj h
          exact eq_of_beq heq
        · contradiction
      · contradiction
  · rintro rfl
    simp only [signedParse, parse_serializeAst, dif_pos ast.property, beq_self_eq_true, if_true]

/-! ## Signed messages -/

theorem isDigitChar_of_isDigit {c : Char} (h : c.isDigit = true) : isDigitChar c = true := by
  simp only [Char.isDigit, Bool.and_eq_true, decide_eq_true_eq, ge_iff_le,
    UInt32.le_iff_toNat_le] at h
  simp only [isDigitChar, Bool.and_eq_true, decide_eq_true_eq]
  exact h

/-- Printed numbers are canonical. -/
theorem isCanonicalIntDigits_toString (n : Nat) : isCanonicalIntDigits (toString n) = true := by
  have hchars : (toString n).toList = Nat.toDigits 10 n := Nat.toList_repr
  rcases Nat.eq_zero_or_pos n with rfl | hpos
  · rfl
  · obtain ⟨c, rest, hdigits, hone, hnine⟩ := exists_first_toDigits hpos
    have hc : isNonZeroDigitChar c = true :=
      Bool.and_eq_true_iff.mpr ⟨decide_eq_true hone, decide_eq_true hnine⟩
    have hall : rest.all isDigitChar = true := by
      rw [List.all_eq_true]
      intro d hd
      refine isDigitChar_of_isDigit (Nat.isDigit_of_mem_toDigits (b := 10) (n := n)
        (by decide) (by decide) ?_)
      rw [hdigits]
      exact List.mem_cons_of_mem c hd
    unfold isCanonicalIntDigits
    rw [hchars, hdigits]
    split
    · rfl
    · rename_i heq
      obtain ⟨rfl, rfl⟩ := List.cons.inj heq
      rw [hc, hall]
      rfl
    · contradiction

theorem isCanonical_nat (n : Nat) :
    IsCanonical (.number { negative := false, intDigits := toString n, fracDigits := none }) := by
  show (isCanonicalIntDigits (toString n) && true && !(false && _ && _)) = true
  rw [isCanonicalIntDigits_toString]
  rfl

/-- The target members are canonical if the arguments are: their keys are
distinct whichever of the optional ones are present. -/
theorem isCanonical_signedTargetFields {target : Target} (h : IsCanonical target.arguments) :
    isCanonicalObject (signedTargetFields target) = true := by
  have harguments : isCanonicalAst target.arguments = true := h
  have hmeta : isCanonicalAst target.metadata.signedAst = true := by
    cases target.metadata <;> rfl
  unfold signedTargetFields signedRequestStateField signedInputResponsesField
  cases target.requestState <;> cases target.inputResponses <;>
    simp [isCanonicalObject, isCanonicalAst, isCanonicalString, hasDuplicateKey,
      RequestState.signedAst, InputResponses.signedAst, signedCanonicalValue, harguments, hmeta]

/-- The tree of a signed message is canonical if its arguments are. -/
theorem isCanonical_signedMessageAst {message : SignedMessage}
    (h : IsCanonical message.target.arguments) : IsCanonical (signedMessageAst message) := by
  have htarget := isCanonical_signedTargetFields h
  have hissued : isCanonicalAst _ = true := isCanonical_nat message.issuedAt
  have hexpiry : isCanonicalAst _ = true := isCanonical_nat message.expiry
  show isCanonicalObject _ = true
  simp only [isCanonicalObject, hissued, hexpiry]
  simp [isCanonicalAst, isCanonicalString, hasDuplicateKey, htarget]

theorem astNat?_toString (n : Nat) :
    astNat? (.number { negative := false, intDigits := toString n, fracDigits := none }) =
      some n :=
  toNat?_toString n

/-- A message whose tree denotes it: its arguments are canonical, and its
optional values are texts that are their own normal form. -/
structure SignedMessage.Readable (message : SignedMessage) : Prop where
  arguments : IsCanonical message.target.arguments
  metadata : MetaValue.fromSignedAst? message.target.metadata.signedAst =
    some message.target.metadata
  mrtr : mrtrFromSignedFields?
      (signedRequestStateField message.target.requestState ++
        signedInputResponsesField message.target.inputResponses) =
    some (message.target.requestState, message.target.inputResponses)

/-- **Signed messages.**  A readable message is recovered from its tree. -/
theorem signedMessageFromAst?_signedMessageAst {message : SignedMessage}
    (h : message.Readable) :
    signedMessageFromAst? (signedMessageAst message) = some message := by
  have hnonce : isCanonicalNonceString message.nonce.value = true := message.nonce.canonical
  simp only [signedMessageFromAst?, signedMessageAst, signedTargetFields, List.cons_append,
    List.nil_append, astNat?_toString, h.metadata, h.mrtr, dif_pos hnonce]

/-- The text of a readable message is accepted, and denotes the message. -/
theorem signedParse_signedMessageRawFor {message : SignedMessage} (h : message.Readable) :
    ∃ ast, signedParse (signedMessageRawFor message) = some ast ∧
      signedMessageFromAst? ast.val = some message := by
  have hcanonical := isCanonical_signedMessageAst h.arguments
  refine ⟨⟨signedMessageAst message, hcanonical⟩, ?_, signedMessageFromAst?_signedMessageAst h⟩
  rw [signedParse_eq_some, signedMessageRawFor, signedMessageCanonical?, dif_pos hcanonical]

/-! ## Verified approvals -/

variable {ed25519Verify : Ed25519Verify}

/-- **What a signature covers.**  An approval verifies exactly if its text is the
canonical text of its own message and the leaf accepts the signature over the
bytes of that text. -/
theorem verifySignature_eq_true {publicKey : PublicKey} {approval : Approval} :
    verifySignature ed25519Verify publicKey approval = true ↔
      (∃ h : IsCanonical (signedMessageAst (signedMessage approval)),
        approval.signedMessageRaw = serializeAst ⟨_, h⟩) ∧
      signedMessageFromAst? (signedMessageAst (signedMessage approval)) =
        some (signedMessage approval) ∧
      ∃ pkBytes sigBytes, hexDecode? publicKey = some pkBytes ∧
        hexDecode? approval.signature = some sigBytes ∧
        ed25519Verify pkBytes approval.signedMessageRaw.toUTF8 sigBytes = true := by
  constructor
  · intro h
    unfold verifySignature at h
    split at h
    · rename_i ast hparse
      obtain ⟨ast, hcanonical⟩ := ast
      simp only [Bool.and_eq_true, beq_iff_eq] at h
      obtain ⟨⟨hmessage, hast⟩, hleaf⟩ := h
      subst hast
      refine ⟨⟨hcanonical, signedParse_eq_some.mp hparse⟩, hmessage, ?_⟩
      split at hleaf
      · rename_i pkBytes sigBytes hpk hsig
        exact ⟨pkBytes, sigBytes, hpk, hsig, hleaf⟩
      · contradiction
    · contradiction
  · rintro ⟨⟨hcanonical, hraw⟩, hmessage, pkBytes, sigBytes, hpk, hsig, hleaf⟩
    simp only [verifySignature, signedParse_eq_some.mpr hraw, hmessage, hpk, hsig, hleaf,
      beq_self_eq_true, Bool.and_self]

/-- Approvals verified over one text are approvals of one message. -/
theorem signedMessage_eq_of_raw {pk pk' : PublicKey} {a b : Approval}
    (ha : verifySignature ed25519Verify pk a = true)
    (hb : verifySignature ed25519Verify pk' b = true)
    (hraw : a.signedMessageRaw = b.signedMessageRaw) : signedMessage a = signedMessage b := by
  obtain ⟨⟨hca, hra⟩, hma, _⟩ := verifySignature_eq_true.mp ha
  obtain ⟨⟨hcb, hrb⟩, hmb, _⟩ := verifySignature_eq_true.mp hb
  have hast := serializeAst_injective (hra.symm.trans (hraw.trans hrb))
  rw [Subtype.mk.injEq] at hast
  rw [hast, hmb] at hma
  exact (Option.some.inj hma).symm

end McpSeal.SealV2
