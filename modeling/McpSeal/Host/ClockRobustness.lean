import McpSeal.Host.Clocks
import McpSeal.SealV2.SignedMessage
set_option autoImplicit false

/-!
# Host: what clocks that go back can reopen (`Ffi.lean`)

The host owns the clock, and the core trusts it: a spent nonce is forgotten once
its approval has expired at the clock of a later grant, a `Block` leaves no
trace of its clock, and an unreadable clock text stands for the stored one.

`ClockRobust` is the law one would like for arbitrary clock texts.  A clock that
goes back breaks both halves of it, and the runs at the end show how.  What
holds of every run says how far it can be broken: an approval comes back only
when the effective clock has crossed its expiry and gone back over it, and a
spent one only if a grant was made while it was past.
-/

namespace McpSeal.Host

open McpSeal.Data (Json toNat?)
open McpSeal.Foundation
open McpSeal.SealV2

variable {ed25519Verify : Ed25519Verify}

/-! ## The law -/

/-- No signed message is granted twice. -/
def ConsumedOnce (ds : List Decision) : Prop :=
  ds.Pairwise fun e f => ∀ a a' : Approval,
    e.granted = some a → f.granted = some a' → signedMessage a ≠ signedMessage a'

/-- No approval is granted after a decision that was past its expiry. -/
def ExpiredForGood (ds : List Decision) : Prop :=
  ds.Pairwise fun e f => ∀ a : Approval, a.expiresAt < e.clock → f.granted ≠ some a

/-- The law for a run: what is spent stays spent, what is expired stays expired. -/
structure ClockRobust (ds : List Decision) : Prop where
  consumed_once : ConsumedOnce ds
  expired_for_good : ExpiredForGood ds

/-! ## What reopens an approval -/

/-- Approvals of one signed message leave the same record. -/
theorem entryFor_congr {st : ApprovalState} {a a' : Approval}
    (h : signedMessage a = signedMessage a') : entryFor st a = entryFor st a' := by
  simp only [signedMessage, SignedMessage.mk.injEq] at h
  obtain ⟨htarget, _, _, hexpiry, hnonce⟩ := h
  simp only [entryFor, htarget, hexpiry, hnonce]

/-- A second grant of a spent approval comes after a grant past its expiry. -/
theorem exists_grant_past_expiry {calls : List Call} {stateRef : StateRef}
    {before between after : List Decision} {e f : Decision} {a a' : Approval}
    (hsplit : decisions ed25519Verify calls stateRef = before ++ e :: (between ++ f :: after))
    (he : e.granted = some a) (hf : f.granted = some a')
    (hsame : signedMessage a = signedMessage a') :
    ∃ g ∈ between, g.granted ≠ none ∧ a.expiresAt < g.clock := by
  cases stateRef with
  | none => simp [decisions_none] at hsplit
  | some st =>
      have hexpiry : a.expiresAt = a'.expiresAt := congrArg SignedMessage.expiry hsame
      have hlive : f.clock ≤ a.expiresAt := by
        rw [hexpiry]
        exact clock_le_of_granted (by rw [hsplit]; simp) hf
      have haccepted := accepted_spendsOf ed25519Verify calls (SameConfig.refl st)
      rw [hsplit] at haccepted
      simp only [spendsOf, List.filterMap_append, List.filterMap_cons, he, hf,
        Option.map_some, ← entryFor_congr hsame] at haccepted
      obtain ⟨m, hm, hlate⟩ := Ledger.exists_later_clock haccepted rfl hlive
      obtain ⟨g, hg, hspend⟩ := List.mem_filterMap.mp hm
      obtain ⟨b, hb, rfl⟩ := Option.map_eq_some_iff.mp hspend
      exact ⟨g, hg, by simp [hb], hlate⟩

/-- Grants in order never repeat a signed message. -/
theorem consumedOnce_of_grants {calls : List Call} {stateRef : StateRef}
    (hordered : GrantsOrdered (decisions ed25519Verify calls stateRef)) :
    ConsumedOnce (decisions ed25519Verify calls stateRef) := by
  cases stateRef with
  | none =>
      rw [decisions_none]
      exact List.Pairwise.nil
  | some st =>
      obtain ⟨history, hgrants⟩ := exists_history hordered
      have honce := history.once
      rw [hgrants, spendsOf, List.pairwise_filterMap] at honce
      refine honce.imp fun hne a a' he hf hsame => ?_
      refine hne _ (by rw [he]; rfl) _ (by rw [hf]; rfl) ?_
      have hentry : entryFor st a = entryFor st a' := entryFor_congr hsame
      exact ⟨congrArg Expiring.key hentry, congrArg Expiring.expiry hentry⟩

/-- Decisions in order never come back to an expired approval. -/
theorem expiredForGood_of_ordered {calls : List Call} {stateRef : StateRef}
    (hordered : ClocksOrdered (decisions ed25519Verify calls stateRef)) :
    ExpiredForGood (decisions ed25519Verify calls stateRef) := by
  refine List.Pairwise.imp_of_mem ?_ hordered
  intro e f _ hf hle a hexpired hgranted
  have hlive := clock_le_of_granted hf hgranted
  exact absurd (lt_of_lt_of_le hexpired (hle.trans hlive)) (lt_irrefl _)

/-- The clock of a fresh session is before every readable text, so these alone
keep its grants in order. -/
theorem consumedOnce_of_readable (configText : String) {calls : List Call}
    (hordered : ReadableClocksOrdered calls) :
    ConsumedOnce (decisions ed25519Verify calls (initImpl configText none).1) := by
  refine consumedOnce_of_grants ?_
  rcases initImpl_none configText with hempty | ⟨st, hstarted, hfresh⟩
  · rw [hempty, decisions_none]
    exact List.Pairwise.nil
  · rw [hstarted]
    refine (grants_of_readable calls hordered ?_).2
    intro c _
    rw [hfresh.now]
    exact Nat.zero_le c

/-- What they keep of the other half: a request with a readable text is not
granted on an approval that was past its expiry at an earlier decision, whatever
session the decisions have left. -/
theorem expired_of_readable (configText : String) {calls : List Call}
    {rawRequest nowText : String} {now : UnixSeconds} (hread : toNat? nowText = some now)
    (hordered : ReadableClocksOrdered (calls ++ [.decide rawRequest nowText]))
    {d : Decision} (hd : d ∈ decisions ed25519Verify calls (initImpl configText none).1)
    {a : Approval} (hexpired : a.expiresAt < d.clock) (st : ApprovalState) :
    grantedOn? ed25519Verify st rawRequest nowText ≠ some a := by
  intro hgranted
  have hclock : effectiveClock st nowText = now := by rw [effectiveClock, hread, Option.getD_some]
  have hlast : (⟨effectiveClock st nowText,
      grantedOn? ed25519Verify st rawRequest nowText⟩ : Decision) ∈
      decisions ed25519Verify [.decide rawRequest nowText] (some st) :=
    List.mem_singleton.mpr rfl
  have hlive : effectiveClock st nowText ≤ a.expiresAt := clock_le_of_granted hlast hgranted
  have hbefore : d.clock ≤ now := by
    rcases initImpl_none configText with hempty | ⟨st', hstarted, hfresh⟩
    · rw [hempty, decisions_none] at hd
      contradiction
    · rw [hstarted] at hd
      rw [ReadableClocksOrdered, List.filterMap_append] at hordered
      have hnow : now ∈ [Call.decide rawRequest nowText].filterMap Call.readableClock? :=
        List.mem_filterMap.mpr ⟨_, List.mem_singleton.mpr rfl, hread⟩
      refine clock_le_of_readable calls ?_ ?_ d hd
      · rw [hfresh.now]
        exact Nat.zero_le now
      · intro c hc
        exact (List.pairwise_append.mp hordered).2.2 c hc now hnow
  rw [hclock] at hlive
  exact absurd (lt_of_lt_of_le hexpired (hbefore.trans hlive)) (lt_irrefl _)

variable (ed25519Verify) in
/-- **What a clock that goes back can reopen.**  In every run after `init`, an
approval is granted again only when the effective clock has crossed its expiry
and gone back over it: if it had been spent, past a grant in between, and if it
had expired, past the clock it had expired at.  Unreadable clock texts alone
reopen no spent approval, and with effective clocks that do not go back the law
holds. -/
theorem reopened_only_by_rollback (configText : String) (calls : List Call) :
    (∀ (before between after : List Decision) (e f : Decision) (a a' : Approval),
      decisions ed25519Verify calls (initImpl configText none).1 =
          before ++ e :: (between ++ f :: after) →
      f.granted = some a' → signedMessage a = signedMessage a' →
        (e.granted = some a →
          ∃ g ∈ between, g.granted ≠ none ∧ a.expiresAt < g.clock ∧ f.clock ≤ a.expiresAt) ∧
        (a.expiresAt < e.clock → f.clock ≤ a.expiresAt)) ∧
    (ReadableClocksOrdered calls →
      ConsumedOnce (decisions ed25519Verify calls (initImpl configText none).1)) ∧
    (ClocksOrdered (decisions ed25519Verify calls (initImpl configText none).1) →
      ClockRobust (decisions ed25519Verify calls (initImpl configText none).1)) := by
  refine ⟨?_, consumedOnce_of_readable configText, ?_⟩
  · intro before between after e f a a' hsplit hf hsame
    have hexpiry : a.expiresAt = a'.expiresAt := congrArg SignedMessage.expiry hsame
    have hlive : f.clock ≤ a.expiresAt := by
      rw [hexpiry]
      exact clock_le_of_granted (by rw [hsplit]; simp) hf
    refine ⟨fun he => ?_, fun _ => hlive⟩
    obtain ⟨g, hg, hgranted, hlate⟩ := exists_grant_past_expiry hsplit he hf hsame
    exact ⟨g, hg, hgranted, hlate, hlive⟩
  · intro hordered
    exact ⟨consumedOnce_of_grants hordered.grants, expiredForGood_of_ordered hordered⟩

/-! ## A clock that goes back

The session, the request and the first approval are those of the host's self
test (`rust/src/main.rs`).  The second approval is for another table, and is
still live when the first has expired. -/

/-- The key the session checks approvals against. -/
def pubkey : PublicKey :=
  "03a107bff3ce10be1d70dd18e74bc09967e4d6309ba50d5f1ddc8664125531b8"

/-- The configuration text the host passes to `init`. -/
def configJson : String :=
  String.join ["\x7b\"session\":\"session-1\",\"publicKey\":\"", pubkey,
    "\",\"manifestDigest\":\"manifest-001\",\"policyVersion\":\"policy-1\",",
    "\"maxApprovalTtl\":300,\"tools\":[\x7b\"tool\":\"db.execute\",",
    "\"version\":\"v1\",\"actions\":[\"write\"]\x7d]\x7d"]

/-- The session that text starts. -/
def configured : ApprovalState :=
  { session := "session-1", now := 0, publicKey := pubkey, manifestDigest := "manifest-001",
    tools := [{ tool := "db.execute", version := "v1", actions := ["write"] }],
    approvals := [], policyVersion := "policy-1", maxApprovalTtl := 300 }

/-- The write to a table, bound to the tool and the manifest of the session. -/
def writeTarget (table : String) : Target :=
  { tool := "db.execute", action := "write", toolVersion := "v1",
    manifestDigest := "manifest-001",
    arguments := .object [("database", .string "prod"), ("table", .string table),
      ("amount", .number { negative := false, intDigits := "12", fracDigits := some "34" })],
    metadata := .absent }

/-- The request to write to a table. -/
def writeRequest (table : String) : AST :=
  .object [("method", .string "tools/call"),
    ("params", .object [("name", .string "db.execute"), ("action", .string "write"),
      ("arguments", (writeTarget table).arguments)])]

/-- An approval of the write, with the text its signature is over. -/
def writeApproval (table : String) (expiry : UnixSeconds) (nonce : Nonce)
    (signature : Signature) : Approval :=
  { target := writeTarget table, session := "session-1", issuedAt := 0, expiresAt := expiry,
    consumed := false,
    signedMessageRaw := signedMessageRawFor
      { target := writeTarget table, session := "session-1", issuedAt := 0, expiry, nonce },
    signature, nonce }

/-- The approval of the write to `users`, with its Ed25519 signature under `pubkey`.
-/
def usersApproval : Approval :=
  writeApproval "users" 120
    { value := "aaaaaaaaaaaaaaaaaaaaaaaaaaaaaaaaaaaaaaaaaaaaaaaaaaaaaaaaaaaaaaaa"
      canonical := by decide +kernel }
    ("3a288732067e139854af6462daa1dce0265bdff175dba2e7e9e0eea70a1de36b" ++
      "00760ce4fb9fb55a0f6228f12ca64ecee920bbe76db6392556225c5269ea3b0f")

/-- The approval of the write to `orders`, which expires later. -/
def ordersApproval : Approval :=
  writeApproval "orders" 300
    { value := "bbbbbbbbbbbbbbbbbbbbbbbbbbbbbbbbbbbbbbbbbbbbbbbbbbbbbbbbbbbbbbbb"
      canonical := by decide +kernel }
    ("6cc612263f526263bc3380aa36722f811012a320d5a1098938681ad22a49db3d" ++
      "e0045d449b8e03bd9d1bd9595261e288de73fbeeb581511b5886d726d52e3a0f")

/-- The leaf on these two approvals: it accepts their signatures, which are the
key's Ed25519 signatures of their texts, and no others. -/
def vectorVerify : Ed25519Verify := fun pkBytes message sigBytes =>
  [usersApproval, ordersApproval].any fun approval =>
    (hexDecode? pubkey).map (·.data) = some pkBytes.data ∧
      approval.signedMessageRaw.toUTF8.data = message.data ∧
      (hexDecode? approval.signature).map (·.data) = some sigBytes.data

theorem initImpl_configJson : (initImpl configJson none).1 = some configured := by
  have hchars : configJson.toList = List.flatMap _ _ := String.toList_join
  rw [initImpl, Json.parse, hchars]
  decide +kernel

theorem canonical_writeRequest (table : String) : IsCanonical (writeRequest table) := by
  rfl

theorem requestFromAst_writeRequest (table : String) :
    requestFromAst (writeRequest table) =
      some { tool := "db.execute", action := "write",
             arguments := (writeTarget table).arguments, metadata := .absent } := by
  rfl

theorem readable_writeApproval (table : String) (expiry : UnixSeconds) (nonce : Nonce)
    (signature : Signature) :
    (signedMessage (writeApproval table expiry nonce signature)).Readable where
  arguments := by rfl
  metadata := by rfl
  mrtr := by rfl

/-- Each of the two approvals verifies under the key of the session. -/
theorem verify_vector {approval : Approval}
    (h : approval = usersApproval ∨ approval = ordersApproval) :
    verifySignature vectorVerify pubkey approval = true := by
  have hpk : (hexDecode? pubkey).isSome = true := by decide +kernel
  have husers : (hexDecode? usersApproval.signature).isSome = true := by decide +kernel
  have horders : (hexDecode? ordersApproval.signature).isSome = true := by decide +kernel
  obtain ⟨pkBytes, hpk⟩ := Option.isSome_iff_exists.mp hpk
  obtain ⟨sigBytes, hsig⟩ : ∃ sigBytes, hexDecode? approval.signature = some sigBytes := by
    rcases h with rfl | rfl
    · exact Option.isSome_iff_exists.mp husers
    · exact Option.isSome_iff_exists.mp horders
  have hreadable : (signedMessage approval).Readable := by
    rcases h with rfl | rfl <;> exact readable_writeApproval _ _ _ _
  have hcanonical := isCanonical_signedMessageAst hreadable.arguments
  have hraw : approval.signedMessageRaw = signedMessageRawFor (signedMessage approval) := by
    rcases h with rfl | rfl <;> rfl
  rw [signedMessageRawFor, signedMessageCanonical?, dif_pos hcanonical] at hraw
  refine verifySignature_eq_true.mpr ⟨⟨hcanonical, hraw⟩,
    signedMessageFromAst?_signedMessageAst hreadable, pkBytes, sigBytes, hpk, hsig, ?_⟩
  rw [vectorVerify, List.any_eq_true]
  refine ⟨approval, by simpa using h, ?_⟩
  simp [hpk, hsig]

/-- The session with both approvals, at a clock and with spent nonces. -/
def sessionAt (now : UnixSeconds) (consumedNonces : List ConsumedNonce) : ApprovalState :=
  { configured with now, approvals := [usersApproval, ordersApproval], consumedNonces }

/-- A request for a table is granted on the first live approval for the write. -/
theorem grantedOn_writeRequest (now : UnixSeconds) (consumed : List ConsumedNonce)
    (table nowText : String) :
    grantedOn? vectorVerify (sessionAt now consumed) (serializeAstValue (writeRequest table))
        nowText =
      findApproval vectorVerify
        (sessionAt (effectiveClock (sessionAt now consumed) nowText) consumed)
        (writeTarget table) := by
  have hparse : parse (serializeAstValue (writeRequest table)) = some (writeRequest table) :=
    parse_serializeAst ⟨_, canonical_writeRequest table⟩
  rw [grantedOn?_eq, hparse, Option.bind_some, approvalFor?,
    if_pos (canonical_writeRequest table), requestFromAst_writeRequest, Option.bind_some]
  rfl

/-- An approval of the two is live for its own write until it expires, if its
nonce is not spent. -/
theorem live_writeApproval {approval : Approval} {now : UnixSeconds}
    {consumed : List ConsumedNonce}
    (h : approval = usersApproval ∨ approval = ordersApproval)
    (hnow : now ≤ approval.expiresAt)
    (hfresh : ∀ e ∈ consumed, now ≤ e.expiresAt → e.nonce ≠ approval.nonce) :
    approvalLiveFor vectorVerify (sessionAt now consumed) approval.target approval = true := by
  have hnonce : nonceConsumed (sessionAt now consumed) approval.target approval = false := by
    rw [nonceConsumed, List.any_eq_false]
    intro e he hspent
    obtain ⟨hmem, hlive⟩ := List.mem_filter.mp he
    rw [Bool.and_eq_true, beq_iff_eq, beq_iff_eq] at hspent
    exact hfresh e hmem (of_decide_eq_true hlive) hspent.2
  refine approvalLiveFor_eq_true.mpr ⟨rfl, ?_, ?_, hnow, ?_, hnonce, verify_vector h⟩
  all_goals rcases h with rfl | rfl <;> rfl

theorem not_live_of_target {state : ApprovalState} {target : Target} {approval : Approval}
    (h : approval.target ≠ target) :
    approvalLiveFor vectorVerify state target approval = false := by
  rw [← Bool.not_eq_true, approvalLiveFor_eq_true]
  exact fun hlive => h hlive.1

theorem not_live_of_expired {state : ApprovalState} {target : Target} {approval : Approval}
    (h : approval.expiresAt < state.now) :
    approvalLiveFor vectorVerify state target approval = false := by
  rw [← Bool.not_eq_true, approvalLiveFor_eq_true]
  exact fun hlive => absurd hlive.2.2.2.1 (Nat.not_le.mpr h)

theorem writeTarget_ne : writeTarget "users" ≠ writeTarget "orders" := by
  decide

/-- The first approval is granted for the write to `users`. -/
theorem grantedOn_users {now clock : UnixSeconds} {consumed : List ConsumedNonce}
    {nowText : String} (hclock : effectiveClock (sessionAt now consumed) nowText = clock)
    (hlive : clock ≤ 120)
    (hfresh : ∀ e ∈ consumed, clock ≤ e.expiresAt → e.nonce ≠ usersApproval.nonce) :
    grantedOn? vectorVerify (sessionAt now consumed)
      (serializeAstValue (writeRequest "users")) nowText = some usersApproval := by
  rw [grantedOn_writeRequest, hclock]
  exact List.find?_cons_of_pos (live_writeApproval (Or.inl rfl) hlive hfresh)

/-- The second approval is granted for the write to `orders`. -/
theorem grantedOn_orders {now clock : UnixSeconds} {consumed : List ConsumedNonce}
    {nowText : String} (hclock : effectiveClock (sessionAt now consumed) nowText = clock)
    (hlive : clock ≤ 300)
    (hfresh : ∀ e ∈ consumed, clock ≤ e.expiresAt → e.nonce ≠ ordersApproval.nonce) :
    grantedOn? vectorVerify (sessionAt now consumed)
      (serializeAstValue (writeRequest "orders")) nowText = some ordersApproval := by
  have husers : approvalLiveFor vectorVerify (sessionAt clock consumed)
      (writeTarget "orders") usersApproval = false := not_live_of_target writeTarget_ne
  rw [grantedOn_writeRequest, hclock, findApproval]
  refine (List.find?_cons_of_neg ?_).trans (List.find?_cons_of_pos ?_)
  · rw [husers]
    decide
  · exact live_writeApproval (Or.inr rfl) hlive hfresh

/-- Past the second approval's expiry the write to `orders` is refused. -/
theorem grantedOn_orders_expired {now clock : UnixSeconds} {consumed : List ConsumedNonce}
    {nowText : String} (hclock : effectiveClock (sessionAt now consumed) nowText = clock)
    (hexpired : 300 < clock) :
    grantedOn? vectorVerify (sessionAt now consumed)
      (serializeAstValue (writeRequest "orders")) nowText = none := by
  rw [grantedOn_writeRequest, hclock, findApproval, List.find?_eq_none]
  intro approval hmem
  rcases List.mem_pair.mp hmem with rfl | rfl
  · rw [not_live_of_target writeTarget_ne]
    decide
  · rw [not_live_of_expired hexpired]
    decide

theorem approvalOf?_writeApproval (table : String) (expiry : UnixSeconds) (nonce : Nonce)
    (signature : Signature) :
    approvalOf? (writeApproval table expiry nonce signature).signedMessageRaw signature =
      some (writeApproval table expiry nonce signature) := by
  obtain ⟨ast, hparse, hmessage⟩ := signedParse_signedMessageRawFor
    (readable_writeApproval table expiry nonce signature)
  have hraw : (writeApproval table expiry nonce signature).signedMessageRaw =
    signedMessageRawFor (signedMessage (writeApproval table expiry nonce signature)) := rfl
  rw [approvalOf?, hraw, hparse, Option.bind_some, hmessage]
  rfl

/-- Both approvals are added before any decision. -/
def addBoth : List Call :=
  [.addApproval usersApproval.signedMessageRaw usersApproval.signature,
    .addApproval ordersApproval.signedMessageRaw ordersApproval.signature]

/-- Ask for the write to a table, with a clock text. -/
def decideOn (table nowText : String) : Call :=
  .decide (serializeAstValue (writeRequest table)) nowText

theorem decisions_addBoth (rest : List Call) :
    decisions vectorVerify (addBoth ++ rest) (initImpl configJson none).1 =
      decisions vectorVerify rest (some (sessionAt 0 [])) := by
  have husers : approvalOf? usersApproval.signedMessageRaw usersApproval.signature =
    some usersApproval := approvalOf?_writeApproval _ _ _ _
  have horders : approvalOf? ordersApproval.signedMessageRaw ordersApproval.signature =
    some ordersApproval := approvalOf?_writeApproval _ _ _ _
  rw [initImpl_configJson, addBoth, List.cons_append, List.cons_append, List.nil_append,
    decisions_approve husers, decisions_approve horders]
  rfl

theorem consume_sessionAt {now clock : UnixSeconds} {consumed : List ConsumedNonce}
    {nowText : String} (hclock : effectiveClock (sessionAt now consumed) nowText = clock)
    (approval : Approval) :
    consume (atClock (sessionAt now consumed) nowText) approval =
      sessionAt clock
        (entryFor configured approval :: pruneConsumedNonces clock consumed) := by
  subst hclock
  rfl

theorem effectiveClock_sessionAt {nowText : String} {clock : UnixSeconds}
    (h : toNat? nowText = some clock) (now : UnixSeconds) (consumed : List ConsumedNonce) :
    effectiveClock (sessionAt now consumed) nowText = clock := by
  rw [effectiveClock, h]
  rfl

/-- The clock goes back twice: the refused second approval is granted, which
forgets the first, and the first is granted again. -/
def rollbackCalls : List Call :=
  addBoth ++ [decideOn "users" "10", decideOn "orders" "400", decideOn "orders" "200",
    decideOn "users" "10"]

theorem decisions_rollback :
    decisions vectorVerify rollbackCalls (initImpl configJson none).1 =
      [{ clock := 10, granted := some usersApproval }, { clock := 400, granted := none },
        { clock := 200, granted := some ordersApproval },
        { clock := 10, granted := some usersApproval }] := by
  have hearly := effectiveClock_sessionAt (show toNat? "10" = some 10 by decide)
  have hmiddle := effectiveClock_sessionAt (show toNat? "200" = some 200 by decide)
  have hlate := effectiveClock_sessionAt (show toNat? "400" = some 400 by decide)
  rw [rollbackCalls, decisions_addBoth, decideOn, decideOn, decideOn,
    decisions_grant (grantedOn_users (hearly 0 []) (by decide) (by decide)),
    consume_sessionAt (hearly 0 []),
    decisions_block (grantedOn_orders_expired (hlate _ _) (by decide)),
    decisions_grant (grantedOn_orders (hmiddle _ _) (by decide) (by decide)),
    consume_sessionAt (hmiddle _ _),
    decisions_grant (grantedOn_users (hearly _ _) (by decide) (by decide))]
  rfl

/-- The clock cannot be read: a refused approval is granted at the stored clock,
which the refusal did not advance. -/
def fallbackCalls : List Call :=
  addBoth ++ [decideOn "orders" "400", decideOn "orders" "later"]

theorem decisions_fallback :
    decisions vectorVerify fallbackCalls (initImpl configJson none).1 =
      [{ clock := 400, granted := none }, { clock := 0, granted := some ordersApproval }] := by
  have hlate := effectiveClock_sessionAt (show toNat? "400" = some 400 by decide)
  have hclock : effectiveClock (sessionAt 0 []) "later" = 0 := by decide
  rw [fallbackCalls, decisions_addBoth, decideOn, decideOn,
    decisions_block (grantedOn_orders_expired (hlate 0 []) (by decide)),
    decisions_grant (grantedOn_orders hclock (by decide) (by decide))]
  rfl

theorem decisions_ordered :
    decisions vectorVerify (addBoth ++ [decideOn "users" "10", decideOn "orders" "400"])
        (initImpl configJson none).1 =
      [{ clock := 10, granted := some usersApproval }, { clock := 400, granted := none }] := by
  have hearly := effectiveClock_sessionAt (show toNat? "10" = some 10 by decide)
  have hlate := effectiveClock_sessionAt (show toNat? "400" = some 400 by decide)
  rw [decisions_addBoth, decideOn, decideOn,
    decisions_grant (grantedOn_users (hearly 0 []) (by decide) (by decide)),
    consume_sessionAt (hearly 0 []),
    decisions_block (grantedOn_orders_expired (hlate _ _) (by decide))]
  rfl

/-- **Both halves of the law fail.**  A clock that goes back makes a spent
approval good again, and a refused one; for the latter an unreadable clock text
is enough. -/
theorem rollback_reopens :
    ¬ ConsumedOnce (decisions vectorVerify rollbackCalls (initImpl configJson none).1) ∧
      ¬ ExpiredForGood (decisions vectorVerify rollbackCalls (initImpl configJson none).1) ∧
      ¬ ExpiredForGood (decisions vectorVerify fallbackCalls (initImpl configJson none).1) := by
  rw [decisions_rollback, decisions_fallback]
  refine ⟨?_, ?_, ?_⟩
  · intro h
    have hfirst := (List.pairwise_cons.mp h).1 { clock := 10, granted := some usersApproval }
      (by simp)
    exact hfirst usersApproval usersApproval rfl rfl rfl
  · intro h
    have hrest := (List.pairwise_cons.mp h).2
    have hsecond := (List.pairwise_cons.mp hrest).1
      { clock := 200, granted := some ordersApproval } (by simp)
    exact hsecond ordersApproval (by decide) rfl
  · intro h
    have hfirst := (List.pairwise_cons.mp h).1 { clock := 0, granted := some ordersApproval }
      (by simp)
    exact hfirst ordersApproval (by decide) rfl

/-- The run above, seen by the theorem: the first approval comes back after the
grant at 200, and the second after the clock 400 has gone back to 200. -/
theorem reopened_only_by_rollback_vector :
    (∃ g ∈ [(⟨400, none⟩ : Decision), ⟨200, some ordersApproval⟩],
        g.granted ≠ none ∧ 120 < g.clock ∧ (10 : UnixSeconds) ≤ 120) ∧
      (200 : UnixSeconds) ≤ ordersApproval.expiresAt ∧
      ConsumedOnce (decisions vectorVerify (addBoth ++ [decideOn "users" "10",
        decideOn "orders" "400", decideOn "users" "later"]) (initImpl configJson none).1) ∧
      ClockRobust (decisions vectorVerify (addBoth ++ [decideOn "users" "10",
        decideOn "orders" "400"]) (initImpl configJson none).1) := by
  obtain ⟨hreopened, _⟩ := reopened_only_by_rollback vectorVerify configJson rollbackCalls
  refine ⟨?_, ?_, ?_, ?_⟩
  · exact (hreopened [] [⟨400, none⟩, ⟨200, some ordersApproval⟩] [] _ _ usersApproval
      usersApproval decisions_rollback rfl rfl).1 rfl
  · exact (hreopened [⟨10, some usersApproval⟩] [] [⟨10, some usersApproval⟩] ⟨400, none⟩ _
      ordersApproval ordersApproval decisions_rollback rfl rfl).2 (by decide)
  · refine (reopened_only_by_rollback vectorVerify configJson _).2.1 ?_
    show List.Pairwise _ _
    decide
  · refine (reopened_only_by_rollback vectorVerify configJson _).2.2 ?_
    rw [decisions_ordered]
    simp [ClocksOrdered]

end McpSeal.Host
