import McpSeal.Host.ClockRobustness
import McpSeal.SealV2.SignedMessage
import McpSeal.C.SealEd25519
set_option autoImplicit false

/-!
# Host: what a session allows (`Ffi.lean`)

In every run after `init`, a `decide` answers `Allow` exactly when an approval
added before it authorizes the request and has not been spent: it names the
request's own target under the configured tools, is signed under the configured
key over its own canonical text, was issued for this session within the lifetime
cap, and is live at the effective clock.  Any other answer leaves the cell alone.
-/

namespace McpSeal.Host

open McpSeal.Foundation
open McpSeal.SealV2

variable {ed25519Verify : Ed25519Verify}

/-! ## Approvals come from the host -/

/-- The approvals the calls of a run add. -/
def added (calls : List Call) : List Approval :=
  calls.filterMap fun
    | .addApproval rawSigned sigHex => approvalOf? rawSigned sigHex
    | _ => none

theorem approvals_effect (call : Call) (st : ApprovalState) :
    ((call.effect ed25519Verify st).apply st).approvals = st.approvals ++ added [call] := by
  cases call with
  | addApproval rawSigned sigHex =>
      simp only [Call.effect, added, List.filterMap_cons, List.filterMap_nil]
      cases approvalOf? rawSigned sigHex with
      | none => exact (List.append_nil _).symm
      | some approval => rfl
  | decide rawRequest nowText =>
      simp only [Call.effect, added, List.filterMap_cons, List.filterMap_nil, List.append_nil]
      cases grantedOn? ed25519Verify st rawRequest nowText <;> rfl
  | challenge rawRequest issuedAtText expiryText nonceHex => exact (List.append_nil _).symm

/-- A run adds approvals and removes none. -/
theorem approvals_run (calls : List Call) {st st' : ApprovalState}
    (hrun : (runCalls ed25519Verify calls (some st)).1 = some st') :
    st'.approvals = st.approvals ++ added calls := by
  induction calls generalizing st with
  | nil =>
      obtain rfl := Option.some.inj hrun
      exact (List.append_nil _).symm
  | cons call rest ih =>
      rw [runCalls_cons] at hrun
      have hcons : added (call :: rest) = added [call] ++ added rest :=
        List.filterMap_append (l := [call])
      rw [ih hrun, approvals_effect, hcons, List.append_assoc]

/-- An approval is added unconsumed. -/
theorem unconsumed_of_added {calls : List Call} {approval : Approval}
    (h : approval ∈ added calls) : approval.consumed = false := by
  obtain ⟨call, _, hcall⟩ := List.mem_filterMap.mp h
  cases call with
  | addApproval rawSigned sigHex =>
      obtain ⟨ast, _, hmap⟩ := Option.bind_eq_some_iff.mp hcall
      obtain ⟨sm, _, rfl⟩ := Option.map_eq_some_iff.mp hmap
      rfl
  | decide rawRequest nowText => contradiction
  | challenge rawRequest issuedAtText expiryText nonceHex => contradiction

/-! ## Authorization -/

/-- The target a raw request names under a configuration. -/
def requestedTarget? (config : ApprovalState) (rawRequest : String) : Option Target :=
  (parse rawRequest).bind fun ast =>
    (requestFromAst ast).bind fun request =>
      (findToolSpec config request).map (targetFor config request)

/-- What an approval has to be for a request, apart from not being spent. -/
structure Authorizes (ed25519Verify : Ed25519Verify) (config : ApprovalState)
    (rawRequest : String) (clock : UnixSeconds) (approval : Approval) : Prop where
  target : requestedTarget? config rawRequest = some approval.target
  session : approval.session = config.session
  signed : verifySignature ed25519Verify config.publicKey approval = true
  lifetime : ttlWithinCap config approval = true
  live : clock ≤ approval.expiresAt

theorem SameConfig.requestedTarget?_eq {st st' : ApprovalState} (h : SameConfig st st')
    (rawRequest : String) : requestedTarget? st' rawRequest = requestedTarget? st rawRequest := by
  have htarget : targetFor st' = targetFor st := by
    funext request spec
    rw [targetFor, targetFor, h.manifestDigest]
  have hspec : findToolSpec st' = findToolSpec st := by
    funext request
    rw [findToolSpec, findToolSpec, h.tools]
  simp only [requestedTarget?, htarget, hspec]

/-- Authorization depends on the configuration and the clock only. -/
theorem Authorizes.of_sameConfig {st st' : ApprovalState} (h : SameConfig st st')
    {rawRequest : String} {clock : UnixSeconds} {approval : Approval} :
    Authorizes ed25519Verify st' rawRequest clock approval ↔
      Authorizes ed25519Verify st rawRequest clock approval := by
  have hcap : ttlWithinCap st' approval = ttlWithinCap st approval := by
    rw [ttlWithinCap, ttlWithinCap, h.maxApprovalTtl]
  constructor
  · rintro ⟨htarget, hsession, hsigned, hlifetime, hlive⟩
    rw [h.requestedTarget?_eq] at htarget
    rw [h.session] at hsession
    rw [h.publicKey] at hsigned
    rw [hcap] at hlifetime
    exact ⟨htarget, hsession, hsigned, hlifetime, hlive⟩
  · rintro ⟨htarget, hsession, hsigned, hlifetime, hlive⟩
    rw [← h.requestedTarget?_eq] at htarget
    rw [← h.session] at hsession
    rw [← h.publicKey] at hsigned
    rw [← hcap] at hlifetime
    exact ⟨htarget, hsession, hsigned, hlifetime, hlive⟩

/-! ## Spent approvals -/

/-- The ledger holds the approval's nonce, and a prune at the clock keeps it. -/
def Spent (st : ApprovalState) (clock : UnixSeconds) (approval : Approval) : Prop :=
  ∃ e ∈ st.consumedNonces,
    Expiring.key e = Expiring.key (entryFor st approval) ∧ clock ≤ e.expiresAt

theorem nonceConsumed_iff {st : ApprovalState} {nowText : String} {approval : Approval} :
    nonceConsumed (atClock st nowText) approval.target approval = true ↔
      Spent st (effectiveClock st nowText) approval := by
  unfold nonceConsumed
  dsimp only
  rw [contains_eq_spent, Ledger.spent_iff]
  constructor
  · rintro ⟨e, he, hkey⟩
    obtain ⟨hmem, hlive⟩ := Ledger.mem_prune.mp he
    exact ⟨e, hmem, hkey, hlive⟩
  · rintro ⟨e, hmem, hkey, hlive⟩
    exact ⟨e, Ledger.mem_prune.mpr ⟨hmem, hlive⟩, hkey⟩

/-- A grant among these decisions spent the approval's nonce, and no grant since
then, nor this clock, is past the expiry it was recorded with. -/
def SpentIn (ds : List Decision) (config : ApprovalState) (clock : UnixSeconds)
    (approval : Approval) : Prop :=
  ∃ before d after b, ds = before ++ d :: after ∧ d.granted = some b ∧
    Expiring.key (entryFor config b) = Expiring.key (entryFor config approval) ∧
    (∀ g ∈ after, g.granted ≠ none → g.clock ≤ b.expiresAt) ∧ clock ≤ b.expiresAt

/-- The spends at a split are those of the decisions at a split. -/
theorem spendsOf_eq_append {config : ApprovalState} {ds : List Decision}
    {before after : List (Ledger.Attempt ConsumedNonce UnixSeconds)}
    {x : Ledger.Attempt ConsumedNonce UnixSeconds}
    (h : spendsOf config ds = before ++ x :: after) :
    ∃ before' d after' b, ds = before' ++ d :: after' ∧ d.granted = some b ∧
      x.entry = entryFor config b ∧ spendsOf config after' = after := by
  obtain ⟨front, back, rfl, hfront, hback⟩ := List.filterMap_eq_append_iff.mp h
  obtain ⟨skipped, d, after', rfl, _, hd, hafter⟩ := List.filterMap_eq_cons_iff.mp hback
  obtain ⟨b, hb, rfl⟩ := Option.map_eq_some_iff.mp hd
  exact ⟨front ++ skipped, d, after', b, by rw [List.append_assoc], hb, rfl, hafter⟩

/-- A bound on the spends is a bound on the granted decisions. -/
theorem forall_spendsOf {config : ApprovalState} {ds : List Decision} {t : UnixSeconds} :
    (∀ a ∈ spendsOf config ds, a.clock ≤ t) ↔
      ∀ g ∈ ds, g.granted ≠ none → g.clock ≤ t := by
  constructor
  · intro h g hg hgranted
    obtain ⟨b, hb⟩ := Option.ne_none_iff_exists'.mp hgranted
    exact h ⟨g.clock, entryFor config b⟩
      (List.mem_filterMap.mpr ⟨g, hg, by rw [hb]; rfl⟩)
  · intro h a ha
    obtain ⟨g, hg, hspend⟩ := List.mem_filterMap.mp ha
    obtain ⟨b, hb, rfl⟩ := Option.map_eq_some_iff.mp hspend
    exact h g hg (by simp [hb])

/-- What the ledger of a run holds is what its grants have spent. -/
theorem spent_iff_spentIn (calls : List Call) {st st' : ApprovalState} (hfresh : Fresh st)
    (hrun : (runCalls ed25519Verify calls (some st)).1 = some st')
    {clock : UnixSeconds} {approval : Approval} :
    Spent st' clock approval ↔
      SpentIn (decisions ed25519Verify calls (some st)) st clock approval := by
  have hsame : SameConfig st st' := sameConfig_run calls hrun
  have hentries := consumedNonces_run ed25519Verify calls (SameConfig.refl st) hrun
  have haccepted := accepted_spendsOf ed25519Verify calls (SameConfig.refl st)
  rw [hfresh.consumedNonces] at hentries haccepted
  unfold Spent SpentIn
  rw [hentries, hsame.entryFor_eq]
  constructor
  · rintro ⟨e, he, hkey, hlive⟩
    rcases Ledger.mem_run.mp he with ⟨hnil, _⟩ | ⟨before, x, after, hsplit, rfl, hlater⟩
    · contradiction
    · rw [haccepted] at hsplit
      obtain ⟨before', d, after', b, hds, hb, hentry, rfl⟩ := spendsOf_eq_append hsplit
      rw [hentry] at hkey hlive hlater
      exact ⟨before', d, after', b, hds, hb, hkey, forall_spendsOf.mp hlater, hlive⟩
  · rintro ⟨before, d, after, b, hds, hb, hkey, hlater, hlive⟩
    refine ⟨entryFor st b, Ledger.mem_run.mpr (Or.inr ?_), hkey, hlive⟩
    refine ⟨spendsOf st before, ⟨d.clock, entryFor st b⟩, spendsOf st after, ?_, rfl,
      forall_spendsOf.mpr hlater⟩
    rw [haccepted, hds, spendsOf, List.filterMap_append, List.filterMap_cons, hb]
    rfl

/-! ## What is allowed -/

/-- A decision is a lookup of the request's target. -/
theorem grantedOn?_eq_find (st : ApprovalState) (rawRequest nowText : String) :
    grantedOn? ed25519Verify st rawRequest nowText =
      (requestedTarget? st rawRequest).bind
        (findApproval ed25519Verify (atClock st nowText)) := by
  rw [grantedOn?_eq, requestedTarget?, Option.bind_assoc]
  refine Option.bind_congr fun ast hparse => ?_
  rw [approvalFor?, if_pos (parse_canonical hparse), Option.bind_assoc]
  refine Option.bind_congr fun request _ => ?_
  rw [Option.bind_map]
  rfl

/-- An approval the lookup finds authorizes the request and is not spent. -/
theorem authorizes_of_granted {st : ApprovalState} {rawRequest nowText : String}
    {approval : Approval}
    (h : grantedOn? ed25519Verify st rawRequest nowText = some approval) :
    approval ∈ st.approvals ∧
      Authorizes ed25519Verify st rawRequest (effectiveClock st nowText) approval ∧
      ¬ Spent st (effectiveClock st nowText) approval := by
  rw [grantedOn?_eq_find] at h
  obtain ⟨target, htarget, hfind⟩ := Option.bind_eq_some_iff.mp h
  obtain ⟨hmem, rfl, hsession, _, hlive, hlifetime, hunspent, hsigned⟩ :=
    live_of_findApproval hfind
  refine ⟨hmem, ⟨htarget, hsession, hsigned, hlifetime, hlive⟩, ?_⟩
  rw [← nonceConsumed_iff, hunspent]
  decide

/-- The lookup finds an approval whenever one authorizes the request. -/
theorem granted_of_authorizes {st : ApprovalState} {rawRequest nowText : String}
    {approval : Approval} (hmem : approval ∈ st.approvals)
    (hunconsumed : approval.consumed = false)
    (h : Authorizes ed25519Verify st rawRequest (effectiveClock st nowText) approval)
    (hunspent : ¬ Spent st (effectiveClock st nowText) approval) :
    grantedOn? ed25519Verify st rawRequest nowText ≠ none := by
  rw [← nonceConsumed_iff, Bool.not_eq_true] at hunspent
  rw [grantedOn?_eq_find, h.target, Option.bind_some, findApproval]
  intro hnone
  have hnot := List.find?_eq_none.mp hnone approval hmem
  exact hnot (approvalLiveFor_eq_true.mpr
    ⟨rfl, h.session, hunconsumed, h.live, h.lifetime, hunspent, h.signed⟩)

variable (ed25519Verify) in
/-- **Mediation.**  After any run of a started session, a `decide` either spends
an added, unspent approval that authorizes the request and releases the
request's canonical text, or there is no such approval, it answers `Block` and
leaves the cell alone. -/
theorem mediated (calls : List Call) {st st' : ApprovalState} (hfresh : Fresh st)
    (hrun : (runCalls ed25519Verify calls (some st)).1 = some st')
    (rawRequest nowText : String) :
    (∃ approval ∈ added calls, ∃ out,
      Authorizes ed25519Verify st rawRequest (effectiveClock st' nowText) approval ∧
      ¬ SpentIn (decisions ed25519Verify calls (some st)) st
        (effectiveClock st' nowText) approval ∧
      parse out = parse rawRequest ∧
      decideImpl ed25519Verify rawRequest nowText (some st') =
        (some (consume (atClock st' nowText) approval), decisionJson "Allow" (some out))) ∨
    ((∀ approval ∈ added calls,
      Authorizes ed25519Verify st rawRequest (effectiveClock st' nowText) approval →
      SpentIn (decisions ed25519Verify calls (some st)) st
        (effectiveClock st' nowText) approval) ∧
      decideImpl ed25519Verify rawRequest nowText (some st') =
        (some st', decisionJson "Block" none)) := by
  have hsame : SameConfig st st' := sameConfig_run calls hrun
  have happrovals : st'.approvals = added calls := by
    rw [approvals_run calls hrun, hfresh.approvals, List.nil_append]
  rw [decideImpl_some]
  cases hgranted : grantedOn? ed25519Verify st' rawRequest nowText with
  | none =>
      refine Or.inr ⟨fun approval hadded hauthorizes => ?_, rfl⟩
      rw [← spent_iff_spentIn calls hfresh hrun]
      by_contra hunspent
      refine granted_of_authorizes ?_ (unconsumed_of_added hadded)
        ((Authorizes.of_sameConfig hsame).mpr hauthorizes) hunspent hgranted
      rw [happrovals]
      exact hadded
  | some approval =>
      obtain ⟨hmem, hauthorizes, hunspent⟩ := authorizes_of_granted hgranted
      rw [happrovals] at hmem
      rw [spent_iff_spentIn calls hfresh hrun] at hunspent
      obtain ⟨ast, hparse, _⟩ := Option.bind_eq_some_iff.mp hauthorizes.target
      have hcanonical := parse_canonical hparse
      refine Or.inl ⟨approval, hmem, serializeAstValue ast,
        (Authorizes.of_sameConfig hsame).mp hauthorizes, hunspent, ?_, ?_⟩
      · rw [hparse]
        exact parse_serializeAst ⟨ast, hcanonical⟩
      · rw [hparse]
        rfl

variable (ed25519Verify) in
/-- What a run grants authorizes the request it was granted for. -/
theorem authorizes_of_decision (calls : List Call) {st st' : ApprovalState}
    (hsame : SameConfig st st') {d : Decision} (hmem : d ∈ decisions ed25519Verify calls (some st'))
    {approval : Approval} (hgranted : d.granted = some approval) :
    ∃ rawRequest, Authorizes ed25519Verify st rawRequest d.clock approval := by
  induction calls generalizing st' with
  | nil => exact absurd hmem List.not_mem_nil
  | cons call rest ih =>
      rw [decisions, exec_fst] at hmem
      rcases List.mem_append.mp hmem with hhere | hlater
      · cases call with
        | decide rawRequest nowText =>
            obtain rfl := Option.some.inj (Option.mem_toList.mp hhere)
            obtain ⟨-, hauthorizes, -⟩ := authorizes_of_granted hgranted
            exact ⟨rawRequest, (Authorizes.of_sameConfig hsame).mp hauthorizes⟩
        | addApproval rawSigned sigHex => exact absurd hhere List.not_mem_nil
        | challenge rawRequest issuedAtText expiryText nonceHex =>
            exact absurd hhere List.not_mem_nil
      · exact ih (hsame.apply (call.effect ed25519Verify st')) hlater

/-! ## The sample session -/

/-- The request names the write it is for. -/
theorem requestedTarget?_writeRequest (now : UnixSeconds) (consumed : List ConsumedNonce)
    (table : String) :
    requestedTarget? (sessionAt now consumed) (serializeAstValue (writeRequest table)) =
      some (writeTarget table) := by
  have hparse : parse (serializeAstValue (writeRequest table)) = some (writeRequest table) :=
    parse_serializeAst ⟨_, canonical_writeRequest table⟩
  rw [requestedTarget?, hparse, Option.bind_some, requestFromAst_writeRequest, Option.bind_some]
  rfl

theorem runCalls_addBoth :
    (runCalls vectorVerify addBoth (some configured)).1 = some (sessionAt 0 []) := by
  have husers : approvalOf? usersApproval.signedMessageRaw usersApproval.signature =
    some usersApproval := approvalOf?_writeApproval _ _ _ _
  have horders : approvalOf? ordersApproval.signedMessageRaw ordersApproval.signature =
    some ordersApproval := approvalOf?_writeApproval _ _ _ _
  rw [addBoth, runCalls_cons, runCalls_cons, Call.effect, Call.effect, husers, horders]
  rfl

/-- Adding approvals spends none. -/
theorem not_spentIn_addBoth (clock : UnixSeconds) (approval : Approval) :
    ¬ SpentIn (decisions vectorVerify addBoth (some configured)) configured clock approval := by
  rintro ⟨before, d, after, b, hsplit, _⟩
  have hnone := decisions_addBoth []
  rw [List.append_nil, initImpl_configJson, hsplit] at hnone
  exact absurd hnone (by simp [decisions])

/-- The first approval authorizes the write to `users`, for any leaf that accepts its
signature. -/
theorem authorizes_users (hsigned : verifySignature ed25519Verify pubkey usersApproval = true)
    {clock : UnixSeconds} (hlive : clock ≤ 120) :
    Authorizes ed25519Verify configured (serializeAstValue (writeRequest "users")) clock
      usersApproval where
  target := requestedTarget?_writeRequest 0 [] "users"
  session := rfl
  signed := hsigned
  lifetime := rfl
  live := hlive

/-! ## Over the native leaf -/

section Native

open McpSeal.C

variable (crypto_sign_open : (sm pk : ByteArray) → CInt)
  (smAllocated mAllocated : (pk msg sig : ByteArray) → Bool)

/-- The leaf the host links: the shim's answer, read as a Boolean. -/
def nativeVerify : Ed25519Verify := fun pk msg sig =>
  lean_seal_ed25519_verify crypto_sign_open (smAllocated pk msg sig) (mAllocated pk msg sig)
    pk msg sig != 0

variable {crypto_sign_open smAllocated mAllocated}

/-- The shim accepts signatures of the right width below the group order only. -/
theorem inRange_of_nativeVerify {pk msg sig : ByteArray}
    (h : nativeVerify crypto_sign_open smAllocated mAllocated pk msg sig = true) :
    pk.size = 32 ∧ sig.size = 64 ∧ leValue (sigS sig) < groupOrder := by
  unfold nativeVerify lean_seal_ed25519_verify at h
  split at h
  · contradiction
  · rename_i hwidth
    split at h
    · contradiction
    · rename_i hrange
      rw [not_or, not_not, not_not] at hwidth
      exact ⟨hwidth.1, hwidth.2, (compareS_lt_iff _).mp hrange⟩

theorem signature_of_authorizes {config : ApprovalState} {rawRequest : String}
    {clock : UnixSeconds} {approval : Approval}
    (h : Authorizes (nativeVerify crypto_sign_open smAllocated mAllocated) config
      rawRequest clock approval) :
    (∃ hcanonical : IsCanonical (signedMessageAst (signedMessage approval)),
      approval.signedMessageRaw = serializeAst ⟨_, hcanonical⟩) ∧
    ∃ pk sig, hexDecode? config.publicKey = some pk ∧
      hexDecode? approval.signature = some sig ∧
      pk.size = 32 ∧ sig.size = 64 ∧ leValue (sigS sig) < groupOrder := by
  obtain ⟨hraw, _, pk, sig, hpk, hsig, hleaf⟩ := verifySignature_eq_true.mp h.signed
  exact ⟨hraw, pk, sig, hpk, hsig, inRange_of_nativeVerify hleaf⟩

/-- **No malleable grant.**  Whatever the vendored verifier answers and whatever the
calls are, an approval that a run grants is signed over the canonical text of its
own message, by a signature whose scalar half is below the group order. -/
theorem no_malleable_grant (calls : List Call) {st : ApprovalState} {d : Decision}
    (hmem : d ∈ decisions (nativeVerify crypto_sign_open smAllocated mAllocated) calls (some st))
    {approval : Approval} (hgranted : d.granted = some approval) :
    (∃ hcanonical : IsCanonical (signedMessageAst (signedMessage approval)),
      approval.signedMessageRaw = serializeAst ⟨_, hcanonical⟩) ∧
    ∃ pk sig, hexDecode? st.publicKey = some pk ∧ hexDecode? approval.signature = some sig ∧
      pk.size = 32 ∧ sig.size = 64 ∧ leValue (sigS sig) < groupOrder := by
  obtain ⟨rawRequest, hauthorizes⟩ :=
    authorizes_of_decision _ calls (SameConfig.refl st) hmem hgranted
  exact signature_of_authorizes hauthorizes

/-- The verifier on one message: it opens the signature of the approval for `users`. -/
def sampleOpen (sm pk : ByteArray) : CInt :=
  if vectorVerify pk (sm.extract 64 sm.size) (sm.extract 0 64) then 0 else -1

theorem nativeVerify_sampleOpen {pk msg sig : ByteArray} (hpk : pk.size = 32)
    (hsig : sig.size = 64) (hrange : leValue (sigS sig) < groupOrder)
    (h : vectorVerify pk msg sig = true) :
    nativeVerify sampleOpen (fun _ _ _ => true) (fun _ _ _ => true) pk msg sig = true := by
  have hfront : (sig ++ msg).extract 0 64 = sig := by
    rw [← hsig, ByteArray.extract_append_eq_left rfl]
  have hback : (sig ++ msg).extract 64 (sig ++ msg).size = msg := by
    rw [ByteArray.extract_append_eq_right hsig.symm ByteArray.size_append]
  have hlt : ¬ (compareS (sigS sig)).lt = 0 := (compareS_lt_iff _).mpr hrange
  simp only [nativeVerify, lean_seal_ed25519_verify, hpk, hsig, hlt, openDetached, sampleOpen,
    hfront, hback, h]
  decide

theorem verifySignature_sampleOpen :
    verifySignature (nativeVerify sampleOpen (fun _ _ _ => true) (fun _ _ _ => true)) pubkey
      usersApproval = true := by
  obtain ⟨hraw, hmessage, pk, sig, hpk, hsig, hleaf⟩ :=
    verifySignature_eq_true.mp (verify_vector (Or.inl rfl))
  have hwidths : (hexDecode? pubkey).all (·.size == 32) ∧
      (hexDecode? usersApproval.signature).all
        (fun sig => sig.size == 64 && leValue (sigS sig) < groupOrder) := by
    decide +kernel
  rw [hpk, hsig] at hwidths
  simp only [Option.all_some, beq_iff_eq, Bool.and_eq_true, decide_eq_true_eq] at hwidths
  exact verifySignature_eq_true.mpr ⟨hraw, hmessage, pk, sig, hpk, hsig,
    nativeVerify_sampleOpen hwidths.1 hwidths.2.1 hwidths.2.2 hleaf⟩

theorem no_malleable_grant_sample :
    ∃ d ∈ decisions (nativeVerify sampleOpen (fun _ _ _ => true) (fun _ _ _ => true))
        [decideOn "users" "10"] (some (sessionAt 0 [])),
      ∃ approval sig, d.granted = some approval ∧ hexDecode? approval.signature = some sig ∧
        leValue (sigS sig) < groupOrder := by
  have hauthorizes : Authorizes (nativeVerify sampleOpen (fun _ _ _ => true) (fun _ _ _ => true))
      (sessionAt 0 []) (serializeAstValue (writeRequest "users"))
      (effectiveClock (sessionAt 0 []) "10") usersApproval := by
    have hsame : SameConfig configured (sessionAt 0 []) := ⟨rfl, rfl, rfl, rfl, rfl, rfl⟩
    exact (Authorizes.of_sameConfig hsame).mpr
      (authorizes_users verifySignature_sampleOpen (by decide))
  have hunspent : ¬ Spent (sessionAt 0 []) (effectiveClock (sessionAt 0 []) "10") usersApproval :=
    fun ⟨e, he, _⟩ => absurd he List.not_mem_nil
  obtain ⟨approval, hgranted⟩ := Option.ne_none_iff_exists'.mp
    (granted_of_authorizes List.mem_cons_self rfl hauthorizes hunspent)
  have hmem : ⟨effectiveClock (sessionAt 0 []) "10", some approval⟩ ∈ decisions
      (nativeVerify sampleOpen (fun _ _ _ => true) (fun _ _ _ => true))
      [decideOn "users" "10"] (some (sessionAt 0 [])) := by
    rw [decideOn, decisions_grant hgranted]
    exact List.mem_cons_self
  obtain ⟨-, pk, sig, -, hsig, -, -, hrange⟩ := no_malleable_grant _ hmem rfl
  exact ⟨_, hmem, approval, sig, rfl, hsig, hrange⟩

end Native

end McpSeal.Host
