import McpSeal.Host.Ffi
set_option autoImplicit false

/-!
# Host: runs of a session (`Ffi.lean`)

A run is the list of calls the host makes on the cell, in the order its lock
admits them.  Of each `decide` a run keeps two things: the clock it was made
at, and the approval it was granted on.

What one call does to a started session is said once, as an `Effect`: nothing,
one approval more, or one approval spent at a clock.  Everything about runs is
derived from that, and the spent nonces of a run are shown to be a run of the
expiring ledger in `Foundation.Ledger`.
-/

namespace McpSeal.Host

open McpSeal.Data (Json)
open McpSeal.Foundation
open McpSeal.Foundation.Ledger (spend?)
open McpSeal.SealV2

variable (ed25519Verify : Ed25519Verify)

/-! ## Runs -/

/-- Run calls in order: the final cell and the replies. -/
def runCalls : List Call → StateRef → StateRef × List String
  | [], stateRef => (stateRef, [])
  | call :: rest, stateRef =>
      let (stateRef, reply) := call.exec ed25519Verify stateRef
      let (stateRef, replies) := runCalls rest stateRef
      (stateRef, reply :: replies)

/-- The approval a `decide` on this session consumes, if it grants. -/
def grantedOn? (st0 : ApprovalState) (rawRequest nowText : String) : Option Approval :=
  let st := atClock st0 nowText
  (parse rawRequest).bind fun ast =>
    (validateAndConsumeWithStore ed25519Verify listReplayStore st.consumedNonces ast st).map
      fun granted => granted.2.snd.approval

/-- One `decide` on a started session: its effective clock and what it granted. -/
structure Decision where
  clock : UnixSeconds
  granted : Option Approval

/-- The decision a call makes on a started session; the other calls make none. -/
def Call.decision? : Call → StateRef → Option Decision
  | .decide rawRequest nowText, some st0 =>
      some { clock := effectiveClock st0 nowText,
             granted := grantedOn? ed25519Verify st0 rawRequest nowText }
  | _, _ => none

/-- The decisions of a run, in order. -/
def decisions : List Call → StateRef → List Decision
  | [], _ => []
  | call :: rest, stateRef =>
      (call.decision? ed25519Verify stateRef).toList ++
        decisions rest (call.exec ed25519Verify stateRef).1

/-! ## Starting a session -/

/-- A session as `init` leaves it. -/
structure Fresh (st : ApprovalState) : Prop where
  now : st.now = 0
  approvals : st.approvals = []
  consumedNonces : st.consumedNonces = []

theorem fresh_of_parseConfig {j : Json} {st : ApprovalState} (h : parseConfig j = .ok st) :
    Fresh st := by
  unfold parseConfig at h
  simp only [bind, Except.bind, pure, Except.pure] at h
  -- every member is read or the configuration is refused
  repeat' (split at h; · contradiction)
  obtain rfl := Except.ok.inj h
  exact ⟨rfl, rfl, rfl⟩

/-- The first `init` leaves the cell empty or starts a fresh session. -/
theorem initImpl_none (configText : String) :
    (initImpl configText none).1 = none ∨
      ∃ st, (initImpl configText none).1 = some st ∧ Fresh st := by
  unfold initImpl
  cases Json.parse configText with
  | error e => exact Or.inl rfl
  | ok j =>
      cases hconfig : parseConfig j with
      | error e => exact Or.inl (by simp only [hconfig])
      | ok st => exact Or.inr ⟨st, by simp only [hconfig], fresh_of_parseConfig hconfig⟩

theorem fresh_of_init {configText : String} {st : ApprovalState}
    (h : (initImpl configText none).1 = some st) : Fresh st := by
  rcases initImpl_none configText with hempty | ⟨st', hstarted, hfresh⟩
  · rw [hempty] at h
    contradiction
  · obtain rfl := Option.some.inj (hstarted.symm.trans h)
    exact hfresh

/-! ## What one call does -/

/-- The approval an `add_approval` appends, when its text is well formed. -/
def approvalOf? (rawSigned sigHex : String) : Option Approval :=
  (signedParse rawSigned).bind fun ast =>
    (signedMessageFromAst? ast.val).map fun sm =>
      { target := sm.target, session := sm.session, issuedAt := sm.issuedAt,
        expiresAt := sm.expiry, consumed := false, signedMessageRaw := rawSigned,
        signature := sigHex, nonce := sm.nonce }

/-- The effect of a call on a started session. -/
inductive Effect where
  | idle
  | approve (approval : Approval)
  | grant (now : UnixSeconds) (approval : Approval)

/-- The session after an effect. -/
def Effect.apply (st : ApprovalState) : Effect → ApprovalState
  | .idle => st
  | .approve approval => { st with approvals := st.approvals ++ [approval] }
  | .grant now approval => consume { st with now := now } approval

/-- The effect a call has, read off its arguments and the session. -/
def Call.effect (st : ApprovalState) : Call → Effect
  | .addApproval rawSigned sigHex =>
      match approvalOf? rawSigned sigHex with
      | none => .idle
      | some approval => .approve approval
  | .decide rawRequest nowText =>
      match grantedOn? ed25519Verify st rawRequest nowText with
      | none => .idle
      | some approval => .grant (effectiveClock st nowText) approval
  | .challenge _ _ _ _ => .idle

variable {ed25519Verify}

theorem addApprovalImpl_fst (rawSigned sigHex : String) (st : ApprovalState) :
    (addApprovalImpl rawSigned sigHex (some st)).1 =
      some (match approvalOf? rawSigned sigHex with
        | none => st
        | some approval => { st with approvals := st.approvals ++ [approval] }) := by
  unfold addApprovalImpl approvalOf?
  cases signedParse rawSigned with
  | none => rfl
  | some ast =>
      rw [Option.bind_some]
      dsimp only
      cases signedMessageFromAst? ast.val <;> rfl

theorem challengeImpl_fst (rawRequest issuedAtText expiryText nonceHex : String)
    (stateRef : StateRef) :
    (challengeImpl rawRequest issuedAtText expiryText nonceHex stateRef).1 = stateRef := by
  unfold challengeImpl
  repeat' (first | rfl | split)

variable (ed25519Verify) in
/-- A `decide` answers `Block` and leaves the cell alone, or spends the approval
it is granted on and releases the canonical request. -/
theorem decideImpl_some (rawRequest nowText : String) (st0 : ApprovalState) :
    decideImpl ed25519Verify rawRequest nowText (some st0) =
      match grantedOn? ed25519Verify st0 rawRequest nowText with
      | none => (some st0, decisionJson "Block" none)
      | some approval =>
          (some (consume (atClock st0 nowText) approval),
            decisionJson "Allow" ((parse rawRequest).map serializeAstValue)) := by
  unfold decideImpl grantedOn?
  cases hparse : parse rawRequest with
  | none => rfl
  | some ast =>
      have hsession := validateAndConsume_session ed25519Verify ast (atClock st0 nowText)
      simp only [Option.bind_some, hsession]
      cases hvalid : validate ed25519Verify ast (atClock st0 nowText) with
      | none => rfl
      | some checked =>
          have hout : serialize ed25519Verify checked = serializeAstValue ast := by
            rw [← validate_fst hvalid]
            rfl
          simp only [Option.map_some, hout]
          rfl

/-- The decision stands at the front of its reply. -/
theorem toList_decisionJson (decision : String) (out : Option String) : ∃ rest,
    (decisionJson decision out).toList = ['\x7b', '"', 'd', 'e', 'c', 'i', 's', 'i', 'o', 'n',
      '"', ':'] ++ ((Json.renderString decision).toList ++ rest) := by
  have hok : compare "decision" "ok" = .lt := by decide
  have hout : compare "out" "decision" = .gt := by decide
  have hlast : compare "out" "ok" = .gt := by decide
  have hopen : ("\x7b" ++ (Json.renderString "decision" ++ ":")).toList = ['\x7b', '"', 'd', 'e',
    'c', 'i', 's', 'i', 'o', 'n', '"', ':'] := by decide
  rw [← hopen]
  cases out with
  | none =>
      simp only [decisionJson, Json.mkObj, List.foldl_cons, List.foldl_nil, Json.insert, hok,
        Json.compress, Json.compressFields, String.toList_append, List.append_assoc]
      exact ⟨_, rfl⟩
  | some o =>
      simp only [decisionJson, Json.mkObj, List.foldl_cons, List.foldl_nil, List.cons_append,
        List.nil_append, Json.insert, hok, hout, hlast, Json.compress, Json.compressFields,
        String.toList_append, List.append_assoc]
      exact ⟨_, rfl⟩

theorem allow_ne_block (out out' : Option String) :
    decisionJson "Allow" out ≠ decisionJson "Block" out' := by
  intro h
  obtain ⟨rest, hallow⟩ := toList_decisionJson "Allow" out
  obtain ⟨rest', hblock⟩ := toList_decisionJson "Block" out'
  rw [h, hblock, List.append_cancel_left_eq, Json.toList_renderString,
    Json.toList_renderString] at hallow
  have hletter : some 'B' = some 'A' := congrArg (fun chars => chars[1]?) hallow
  exact absurd hletter (by decide)

variable (ed25519Verify) in
/-- What a decision records is what the host is told: the reply is `Allow` exactly
if there is a grant. -/
theorem decideImpl_allow_iff (rawRequest nowText : String) (st0 : ApprovalState) :
    (∃ out, (decideImpl ed25519Verify rawRequest nowText (some st0)).2 =
        decisionJson "Allow" out) ↔
      ∃ approval, grantedOn? ed25519Verify st0 rawRequest nowText = some approval := by
  rw [decideImpl_some]
  cases grantedOn? ed25519Verify st0 rawRequest nowText with
  | none =>
      constructor
      · rintro ⟨out, hreply⟩
        exact absurd hreply.symm (allow_ne_block out none)
      · rintro ⟨approval, hgranted⟩
        contradiction
  | some approval => exact ⟨fun _ => ⟨approval, rfl⟩, fun _ => ⟨_, rfl⟩⟩

/-- A call on a started session is its effect. -/
theorem exec_fst (call : Call) (st : ApprovalState) :
    (call.exec ed25519Verify (some st)).1 =
      some ((call.effect ed25519Verify st).apply st) := by
  cases call with
  | addApproval rawSigned sigHex =>
      have h := addApprovalImpl_fst rawSigned sigHex st
      simp only [Call.exec, Call.effect, h]
      cases approvalOf? rawSigned sigHex <;> rfl
  | decide rawRequest nowText =>
      have h := decideImpl_some ed25519Verify rawRequest nowText st
      simp only [Call.exec, Call.effect, h]
      cases grantedOn? ed25519Verify st rawRequest nowText <;> rfl
  | challenge rawRequest issuedAtText expiryText nonceHex =>
      exact challengeImpl_fst rawRequest issuedAtText expiryText nonceHex (some st)

theorem decisions_approve {rawSigned sigHex : String} {approval : Approval}
    (h : approvalOf? rawSigned sigHex = some approval) (rest : List Call)
    (st : ApprovalState) :
    decisions ed25519Verify (.addApproval rawSigned sigHex :: rest) (some st) =
      decisions ed25519Verify rest
        (some { st with approvals := st.approvals ++ [approval] }) := by
  rw [decisions, exec_fst]
  simp only [Call.decision?, Call.effect, h, Option.toList_none, List.nil_append, Effect.apply]

theorem decisions_block {rawRequest nowText : String} {st : ApprovalState}
    (h : grantedOn? ed25519Verify st rawRequest nowText = none) (rest : List Call) :
    decisions ed25519Verify (.decide rawRequest nowText :: rest) (some st) =
      { clock := effectiveClock st nowText, granted := none } ::
        decisions ed25519Verify rest (some st) := by
  rw [decisions, exec_fst]
  simp only [Call.decision?, Call.effect, h, Option.toList_some, List.singleton_append,
    Effect.apply]

theorem decisions_grant {rawRequest nowText : String} {st : ApprovalState}
    {approval : Approval}
    (h : grantedOn? ed25519Verify st rawRequest nowText = some approval) (rest : List Call) :
    decisions ed25519Verify (.decide rawRequest nowText :: rest) (some st) =
      { clock := effectiveClock st nowText, granted := some approval } ::
        decisions ed25519Verify rest (some (consume (atClock st nowText) approval)) := by
  rw [decisions, exec_fst]
  simp only [Call.decision?, Call.effect, h, Option.toList_some, List.singleton_append]
  rfl

/-! ## What every call leaves alone -/

/-- Two states of one session: they agree on the configuration. -/
structure SameConfig (st st' : ApprovalState) : Prop where
  session : st'.session = st.session
  publicKey : st'.publicKey = st.publicKey
  manifestDigest : st'.manifestDigest = st.manifestDigest
  tools : st'.tools = st.tools
  policyVersion : st'.policyVersion = st.policyVersion
  maxApprovalTtl : st'.maxApprovalTtl = st.maxApprovalTtl

theorem SameConfig.refl (st : ApprovalState) : SameConfig st st :=
  ⟨rfl, rfl, rfl, rfl, rfl, rfl⟩

/-- No effect touches the configuration. -/
theorem SameConfig.apply {st st' : ApprovalState} (h : SameConfig st st')
    (effect : Effect) : SameConfig st (effect.apply st') := by
  cases effect <;>
    exact ⟨h.session, h.publicKey, h.manifestDigest, h.tools, h.policyVersion,
      h.maxApprovalTtl⟩

/-- The record of a spent nonce depends on the configuration only. -/
theorem SameConfig.entryFor_eq {st st' : ApprovalState} (h : SameConfig st st')
    (approval : Approval) : entryFor st' approval = entryFor st approval := by
  simp only [entryFor, replayNamespace, h.session, h.publicKey, h.policyVersion]

/-- A run goes on with the outcome of its first effect. -/
theorem runCalls_cons (call : Call) (rest : List Call) (st : ApprovalState) :
    (runCalls ed25519Verify (call :: rest) (some st)).1 =
      (runCalls ed25519Verify rest (some ((call.effect ed25519Verify st).apply st))).1 := by
  simp only [runCalls, exec_fst]

/-- A property every effect keeps holds after every run. -/
theorem run_invariant {P : ApprovalState → Prop}
    (hstep : ∀ (call : Call) (st : ApprovalState),
      P st → P ((call.effect ed25519Verify st).apply st))
    (calls : List Call) {st st' : ApprovalState} (h : P st)
    (hrun : (runCalls ed25519Verify calls (some st)).1 = some st') : P st' := by
  induction calls generalizing st with
  | nil =>
      obtain rfl := Option.some.inj hrun
      exact h
  | cons call rest ih =>
      rw [runCalls_cons] at hrun
      exact ih (hstep call st h) hrun

/-- A run keeps the configuration. -/
theorem sameConfig_run (calls : List Call) {st st' : ApprovalState}
    (hrun : (runCalls ed25519Verify calls (some st)).1 = some st') : SameConfig st st' := by
  refine run_invariant ?_ calls (SameConfig.refl st) hrun
  intro call st'' hsame
  exact hsame.apply (call.effect ed25519Verify st'')

/-! ## The spent nonces are an expiring ledger -/

theorem grantedOn?_eq (st0 : ApprovalState) (rawRequest nowText : String) :
    grantedOn? ed25519Verify st0 rawRequest nowText =
      (parse rawRequest).bind fun ast =>
        approvalFor? ed25519Verify ast (atClock st0 nowText) := by
  unfold grantedOn?
  refine Option.bind_congr fun ast _ => ?_
  have hsession := validateAndConsume_session ed25519Verify ast (atClock st0 nowText)
  rw [hsession, Option.map_map, ← validate_approval]
  rfl

theorem effect_eq_grant {call : Call} {st : ApprovalState} {now : UnixSeconds}
    {approval : Approval} (h : call.effect ed25519Verify st = .grant now approval) :
    ∃ rawRequest nowText, call = .decide rawRequest nowText ∧
      now = effectiveClock st nowText ∧
      grantedOn? ed25519Verify st rawRequest nowText = some approval := by
  cases call with
  | addApproval rawSigned sigHex =>
      simp only [Call.effect] at h
      split at h <;> contradiction
  | challenge rawRequest issuedAtText expiryText nonceHex => contradiction
  | decide rawRequest nowText =>
      simp only [Call.effect] at h
      split at h
      · contradiction
      · rename_i hgranted
        obtain ⟨rfl, rfl⟩ := Effect.grant.inj h
        exact ⟨rawRequest, nowText, rfl, rfl, hgranted⟩

/-- A grant is a spend of the ledger at the effective clock of its call. -/
theorem spend?_of_effect {call : Call} {st : ApprovalState} {now : UnixSeconds}
    {approval : Approval} (h : call.effect ed25519Verify st = .grant now approval) :
    spend? now (entryFor st approval) st.consumedNonces =
      some ((Effect.grant now approval).apply st).consumedNonces := by
  obtain ⟨rawRequest, nowText, _, rfl, hgranted⟩ := effect_eq_grant h
  rw [grantedOn?_eq] at hgranted
  obtain ⟨_, _, hfor⟩ := Option.bind_eq_some_iff.mp hgranted
  exact spend?_of_approvalFor hfor

/-- The spends a list of decisions makes. -/
def spendsOf (st : ApprovalState) (ds : List Decision) :
    List (Ledger.Attempt ConsumedNonce UnixSeconds) :=
  ds.filterMap fun d =>
    d.granted.map fun approval => { clock := d.clock, entry := entryFor st approval }

/-- The spend an effect makes, if it is a grant. -/
def Effect.spends (st : ApprovalState) : Effect →
    List (Ledger.Attempt ConsumedNonce UnixSeconds)
  | .grant now approval => [{ clock := now, entry := entryFor st approval }]
  | _ => []

theorem spendsOf_decision (call : Call) (st st' : ApprovalState) :
    spendsOf st (call.decision? ed25519Verify (some st')).toList =
      (call.effect ed25519Verify st').spends st := by
  cases call with
  | addApproval rawSigned sigHex =>
      simp only [Call.effect]
      cases approvalOf? rawSigned sigHex <;> rfl
  | challenge rawRequest issuedAtText expiryText nonceHex => rfl
  | decide rawRequest nowText =>
      simp only [Call.effect, Call.decision?, spendsOf, Option.toList_some]
      cases grantedOn? ed25519Verify st' rawRequest nowText <;> rfl

/-- The spends of a run are those of its first call, then those of the rest. -/
theorem spendsOf_cons (call : Call) (rest : List Call) (st st' : ApprovalState) :
    spendsOf st (decisions ed25519Verify (call :: rest) (some st')) =
      (call.effect ed25519Verify st').spends st ++
        spendsOf st (decisions ed25519Verify rest
          (some ((call.effect ed25519Verify st').apply st'))) := by
  rw [decisions, exec_fst, ← spendsOf_decision]
  exact List.filterMap_append

/-- One call of the simulation: the ledger accepts the spend of a grant, and
goes on with the nonces the session then holds. -/
theorem accepted_effect (call : Call) {st st' : ApprovalState} (hsame : SameConfig st st')
    (rest : List (Ledger.Attempt ConsumedNonce UnixSeconds)) :
    Ledger.accepted st'.consumedNonces
        ((call.effect ed25519Verify st').spends st ++ rest) =
      (call.effect ed25519Verify st').spends st ++
        Ledger.accepted ((call.effect ed25519Verify st').apply st').consumedNonces rest := by
  cases heffect : call.effect ed25519Verify st' with
  | idle => rfl
  | approve approval => rfl
  | grant now approval =>
      have hspend := spend?_of_effect heffect
      rw [hsame.entryFor_eq] at hspend
      simp only [Effect.spends, List.singleton_append, Ledger.accepted, hspend]

variable (ed25519Verify) in
/-- **Simulation.**  From any state of the session, the spends of a run are all
accepted by the ledger of spent nonces. -/
theorem accepted_spendsOf (calls : List Call) {st st' : ApprovalState}
    (hsame : SameConfig st st') :
    Ledger.accepted st'.consumedNonces
        (spendsOf st (decisions ed25519Verify calls (some st'))) =
      spendsOf st (decisions ed25519Verify calls (some st')) := by
  induction calls generalizing st' with
  | nil => rfl
  | cons call rest ih =>
      rw [spendsOf_cons, accepted_effect call hsame]
      rw [ih (hsame.apply (call.effect ed25519Verify st'))]

variable (ed25519Verify) in
/-- The nonces a session holds after a run are those of its ledger. -/
theorem consumedNonces_run (calls : List Call) {st st' st'' : ApprovalState}
    (hsame : SameConfig st st')
    (hrun : (runCalls ed25519Verify calls (some st')).1 = some st'') :
    st''.consumedNonces =
      Ledger.run st'.consumedNonces (spendsOf st (decisions ed25519Verify calls (some st'))) := by
  induction calls generalizing st' with
  | nil =>
      obtain rfl := Option.some.inj hrun
      rfl
  | cons call rest ih =>
      rw [runCalls_cons] at hrun
      rw [ih (hsame.apply _) hrun, spendsOf_cons]
      cases heffect : call.effect ed25519Verify st' with
      | idle => rfl
      | approve approval => rfl
      | grant now approval =>
          have hspend := spend?_of_effect heffect
          rw [hsame.entryFor_eq] at hspend
          rw [← Ledger.attempt_of_spend (a := ⟨now, entryFor st approval⟩) hspend]
          rfl

/-- The spent nonces of a session: each key once, and all of them live at the
stored clock. -/
structure LedgerInv (st : ApprovalState) : Prop where
  distinct : Ledger.DistinctKeys st.consumedNonces
  live : ∀ e ∈ st.consumedNonces, st.now ≤ e.expiresAt

theorem Fresh.ledgerInv {st : ApprovalState} (h : Fresh st) : LedgerInv st where
  distinct := by rw [h.consumedNonces]; exact List.Pairwise.nil
  live := by rw [h.consumedNonces]; exact List.forall_mem_nil _

theorem LedgerInv.apply {st : ApprovalState} (h : LedgerInv st) (call : Call) :
    LedgerInv ((call.effect ed25519Verify st).apply st) := by
  cases heffect : call.effect ed25519Verify st with
  | idle => exact h
  | approve approval => exact ⟨h.distinct, h.live⟩
  | grant now approval =>
      have hspend := spend?_of_effect heffect
      refine ⟨Ledger.distinctKeys_of_spend h.distinct hspend, ?_⟩
      intro e he
      rcases (Ledger.mem_of_spend hspend).mp he with rfl | ⟨_, hlive⟩
      · exact Ledger.live_of_spend hspend
      · exact hlive

/-- Every session reached from a fresh one keeps its ledger in order, whatever
clock texts the host passes. -/
theorem ledgerInv_run (calls : List Call) {st st' : ApprovalState} (hfresh : Fresh st)
    (hrun : (runCalls ed25519Verify calls (some st)).1 = some st') : LedgerInv st' :=
  run_invariant (fun call _ h => h.apply call) calls hfresh.ledgerInv hrun

end McpSeal.Host
