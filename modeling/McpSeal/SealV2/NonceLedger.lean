import McpSeal.Foundation.PruningLedger
import McpSeal.SealV2.EffectStep
set_option autoImplicit false

/-!
# SealV2: the nonce ledger of effect envelopes (`SealV2/NonceLedger.lean`)

A store remembers which envelopes were let through, under the generation the signed
configuration names.  It is pruned by a step of its own, so what a run of it lets
through is what the pruned ledger in `Foundation.PruningLedger` lets be recorded.
-/

namespace McpSeal.SealV2.Effect.Ledger

open McpSeal.Foundation
open McpSeal.Foundation.Ledger (Change Kept change changes record? spent mem_changes exists_prune)

/-! ## The store -/

/-- What a store says of itself. -/
structure LedgerAttestation where
  storeId : String
  generation : Nat
  createdAt : Nat
  deriving DecidableEq

/-- The first bytes of every attestation, the zero byte included. -/
def ledgerTag : String := "seal.ledger/v1\x00"

/-- The bytes of an attestation. -/
def ledgerAttestationMessage (att : LedgerAttestation) : ByteArray :=
  ledgerTag.toUTF8 ++ frame att.storeId ++ u64be att.generation ++ u64be att.createdAt

/-- An envelope that was let through. -/
structure LedgerEntry where
  authority : ByteArray
  keyId : String
  nonce : ByteArray
  expiresAt : Nat
  deriving DecidableEq

/-- A store: its attestation and what it has recorded, the latest first. -/
structure LedgerView where
  att : LedgerAttestation
  entries : List LedgerEntry

/-- The store is of the generation the configuration names, and that is not the
unconfigured one. -/
def generationGate (state : ApprovalState) (v : LedgerView) : Bool :=
  state.ledgerGeneration != 0 && v.att.generation == state.ledgerGeneration

/-- The entry records this nonce for this key and authority. -/
def entryMatches (auth : ByteArray) (keyId : String) (nonce : ByteArray) (en : LedgerEntry) : Bool :=
  Decidable.decide (en.authority = auth) && Decidable.decide (en.keyId = keyId) &&
    Decidable.decide (en.nonce = nonce)

/-- The entry an envelope leaves. -/
def mintedEntry (auth : ByteArray) (e : EffectEnvelope) : LedgerEntry where
  authority := auth
  keyId := e.keyId
  nonce := e.nonce
  expiresAt := e.expiresAt

/-- Record an envelope, refused when its nonce is recorded for its key and authority. -/
def consumeNonce (v : LedgerView) (auth : ByteArray) (e : EffectEnvelope) : Option LedgerView :=
  if v.entries.any (entryMatches auth e.keyId e.nonce) then none
  else some { v with entries := mintedEntry auth e :: v.entries }

/-- Drop the entries whose envelope has expired. -/
def pruneLedger (now : Nat) (v : LedgerView) : LedgerView :=
  { v with entries := v.entries.filter fun en => Decidable.decide (now ≤ en.expiresAt) }

/-- A decision with the generation it was made under. -/
structure FencedDecision where
  decision : Decision
  generation : Nat
  deriving DecidableEq

/-- An executor takes decisions of the generation that is configured. -/
def executorAccepts (state : ApprovalState) (fd : FencedDecision) : Bool :=
  fd.generation != 0 && fd.generation == state.ledgerGeneration

section Step

variable (ed25519Verify : Ed25519Verify)

/-- Judge an envelope with a store: it is let through only together with its record. -/
def effectStepLedgered (authority : ByteArray) (reg : PrincipalRegistry) (mediator : AdapterId)
    (e : EffectEnvelope) (sigHex : String) (state : ApprovalState)
    (ledger? : Option LedgerView) : FencedDecision × Option LedgerView :=
  match ledger? with
  | none => (⟨.block, 0⟩, none)
  | some v =>
      if generationGate state v then
        match effectStep ed25519Verify authority reg mediator e sigHex state with
        | .block => (⟨.block, state.ledgerGeneration⟩, some v)
        | .allow out =>
            match consumeNonce v authority e with
            | none => (⟨.block, state.ledgerGeneration⟩, some v)
            | some v' => (⟨.allow out, state.ledgerGeneration⟩, some v')
      else (⟨.block, 0⟩, some v)

end Step

/-- **Attestations.**  The bytes of an attestation have one reading. -/
theorem ledgerAttestationMessage_inj {att att' : LedgerAttestation}
    (hid : wireText att.storeId = true) (hid' : wireText att'.storeId = true)
    (hgeneration : att.generation < 2 ^ 64) (hgeneration' : att'.generation < 2 ^ 64)
    (hcreated : att.createdAt < 2 ^ 64) (hcreated' : att'.createdAt < 2 ^ 64)
    (h : ledgerAttestationMessage att = ledgerAttestationMessage att') : att = att' := by
  obtain ⟨storeId, generation, createdAt⟩ := att
  obtain ⟨storeId', generation', createdAt'⟩ := att'
  have hbytes := congrArg bytes h
  simp only [ledgerAttestationMessage, bytes_append, List.append_assoc,
    List.append_cancel_left_eq] at hbytes
  have hframe := selfDelimiting_frame.append (selfDelimiting_u64be.append selfDelimiting_u64be)
  obtain ⟨hsame, -⟩ := hframe (storeId, generation, createdAt) (storeId', generation', createdAt')
    ⟨hid, hgeneration, hcreated⟩ ⟨hid', hgeneration', hcreated'⟩ [] []
    (by simpa only [List.append_nil, List.append_assoc] using hbytes)
  simp only [Prod.mk.injEq] at hsame
  obtain ⟨rfl, rfl, rfl⟩ := hsame
  rfl

/-! ## Runs -/

/-- An envelope handed in, with what the host judges it by. -/
structure Submission where
  authority : ByteArray
  reg : PrincipalRegistry
  mediator : AdapterId
  e : EffectEnvelope
  sigHex : String
  state : ApprovalState

/-- What happens to a store. -/
inductive Op where
  | submit (s : Submission)
  | prune (now : UnixSeconds)

section Runs

variable (ed25519Verify : Ed25519Verify)

/-- Decide a submission on a store. -/
def Submission.step (s : Submission) (v : LedgerView) : FencedDecision × Option LedgerView :=
  effectStepLedgered ed25519Verify s.authority s.reg s.mediator s.e s.sigHex s.state (some v)

/-- The store after an operation; a blocked submission leaves it alone. -/
def Op.exec (v : LedgerView) : Op → LedgerView
  | .submit s => (s.step ed25519Verify v).2.getD v
  | .prune now => pruneLedger now v

/-- The store after a list of operations. -/
def run (v : LedgerView) (ops : List Op) : LedgerView :=
  ops.foldl (Op.exec ed25519Verify) v

/-- The store lets the envelope through. -/
def Submission.Allowed (s : Submission) (v : LedgerView) : Prop :=
  ∃ out, (s.step ed25519Verify v).1.decision = .allow out

end Runs

/-! ## A store is a pruned ledger -/

instance : Expiring LedgerEntry (ByteArray × String × ByteArray) UnixSeconds where
  key en := (en.authority, en.keyId, en.nonce)
  expiry en := en.expiresAt

/-- The entry a submission leaves if it is let through. -/
def Submission.entry (s : Submission) : LedgerEntry :=
  mintedEntry s.authority s.e

variable (ed25519Verify : Ed25519Verify) in
/-- The checks that do not look at what the store has recorded. -/
def Submission.passes (s : Submission) (att : LedgerAttestation) : Bool :=
  s.state.ledgerGeneration != 0 && att.generation == s.state.ledgerGeneration &&
    effectStep ed25519Verify s.authority s.reg s.mediator s.e s.sigHex s.state != .block

variable (ed25519Verify : Ed25519Verify) in
/-- What an operation does to the recorded envelopes. -/
def Op.change? (att : LedgerAttestation) : Op → Option (Change LedgerEntry UnixSeconds)
  | .submit s => if s.passes ed25519Verify att then some (.record s.entry) else none
  | .prune now => some (.prune now)

variable {ed25519Verify : Ed25519Verify}

theorem any_entryMatches (entries : List LedgerEntry) (s : Submission) :
    entries.any (entryMatches s.authority s.e.keyId s.e.nonce) =
      spent entries (Expiring.key s.entry) := by
  unfold spent
  congr 1
  funext en
  rw [Bool.eq_iff_iff]
  simp [entryMatches, Expiring.key, Submission.entry, mintedEntry, and_assoc]

variable (ed25519Verify) in
/-- One submission: it passes and is recorded, or it is blocked and leaves the store
as it is. -/
theorem step_cases (s : Submission) (v : LedgerView) :
    (s.passes ed25519Verify v.att = true ∧ spent v.entries (Expiring.key s.entry) = false ∧
      ∃ out, s.step ed25519Verify v = (⟨.allow out, v.att.generation⟩,
        some { v with entries := s.entry :: v.entries })) ∨
    ((s.passes ed25519Verify v.att = false ∨ spent v.entries (Expiring.key s.entry) = true) ∧
      (s.step ed25519Verify v).1.decision = .block ∧ (s.step ed25519Verify v).2 = some v) := by
  unfold Submission.step effectStepLedgered
  have hpasses : s.passes ed25519Verify v.att = (generationGate s.state v &&
      effectStep ed25519Verify s.authority s.reg s.mediator s.e s.sigHex s.state != .block) := rfl
  dsimp only
  cases hgate : generationGate s.state v with
  | false =>
      rw [hgate, Bool.false_and] at hpasses
      exact Or.inr ⟨Or.inl hpasses, rfl, rfl⟩
  | true =>
      rw [hgate, Bool.true_and] at hpasses
      rw [if_pos rfl]
      cases hstep : effectStep ed25519Verify s.authority s.reg s.mediator s.e s.sigHex s.state with
      | block =>
          rw [hstep] at hpasses
          exact Or.inr ⟨Or.inl hpasses, rfl, rfl⟩
      | allow out =>
          rw [hstep] at hpasses
          dsimp only
          rw [consumeNonce, any_entryMatches]
          cases hspent : spent v.entries (Expiring.key s.entry) with
          | true => exact Or.inr ⟨Or.inr rfl, rfl, rfl⟩
          | false =>
              simp only [generationGate, Bool.and_eq_true, beq_iff_eq] at hgate
              exact Or.inl ⟨hpasses, rfl, out, by rw [hgate.2]; rfl⟩

theorem allowed_iff {s : Submission} {v : LedgerView} :
    s.Allowed ed25519Verify v ↔
      s.passes ed25519Verify v.att = true ∧ spent v.entries (Expiring.key s.entry) = false := by
  unfold Submission.Allowed
  rcases step_cases ed25519Verify s v with
    ⟨hpasses, hfree, out, hstep⟩ | ⟨hrefused, hblock, -⟩
  · rw [hstep]
    exact ⟨fun _ => ⟨hpasses, hfree⟩, fun _ => ⟨out, rfl⟩⟩
  · constructor
    · rintro ⟨out, hallow⟩
      exact Decision.noConfusion (hblock.symm.trans hallow)
    · rintro ⟨hpasses, hfree⟩
      rcases hrefused with hno | hspent
      · exact absurd (hpasses.symm.trans hno) (by simp)
      · exact absurd (hspent.symm.trans hfree) (by simp)

/-- **Fences.**  What a store has let through is executed exactly while its generation is
the configured one. -/
theorem executorAccepts_iff {s : Submission} {v : LedgerView}
    (h : s.Allowed ed25519Verify v) (live : ApprovalState) :
    executorAccepts live (s.step ed25519Verify v).1 = true ↔
      live.ledgerGeneration = v.att.generation := by
  rcases step_cases ed25519Verify s v with
    ⟨hpasses, -, out, hstep⟩ | ⟨-, hblock, -⟩
  · simp only [Submission.passes, Bool.and_eq_true, bne_iff_ne, beq_iff_eq] at hpasses
    obtain ⟨⟨hzero, hsame⟩, -⟩ := hpasses
    rw [hstep, executorAccepts]
    simp only [Bool.and_eq_true, bne_iff_ne, beq_iff_eq]
    exact ⟨fun hlive => hlive.2.symm, fun hlive => ⟨hsame ▸ hzero, hlive.symm⟩⟩
  · obtain ⟨out, hallow⟩ := h
    exact Decision.noConfusion (hblock.symm.trans hallow)

theorem exec_eq (op : Op) (v : LedgerView) :
    op.exec ed25519Verify v = { v with
      entries := changes v.entries (op.change? ed25519Verify v.att).toList } := by
  cases op with
  | prune now => rfl
  | submit s =>
      rw [Op.exec, Op.change?]
      rcases step_cases ed25519Verify s v with
        ⟨hpasses, hfree, out, hstep⟩ | ⟨hrefused, -, hsame⟩
      · rw [hstep, if_pos hpasses]
        simp [changes, change, record?, hfree]
      · rw [hsame, Option.getD_some]
        rcases hrefused with hno | hspent
        · rw [if_neg (by rw [hno]; simp)]
          rfl
        · split <;> simp [changes, change, record?, hspent]

/-- What a run leaves recorded. -/
theorem run_eq (ops : List Op) (v : LedgerView) :
    run ed25519Verify v ops = { v with
      entries := changes v.entries (ops.filterMap (Op.change? ed25519Verify v.att)) } := by
  induction ops generalizing v with
  | nil => rfl
  | cons op rest ih =>
      have hstep : run ed25519Verify v (op :: rest) =
          run ed25519Verify (op.exec ed25519Verify v) rest := rfl
      rw [hstep, ih, exec_eq]
      cases hchange : op.change? ed25519Verify v.att with
      | none => simp [hchange, changes]
      | some c => simp [hchange, changes]

theorem att_run (ops : List Op) (v : LedgerView) : (run ed25519Verify v ops).att = v.att := by
  rw [run_eq]

theorem prune_mem_filterMap {att : LedgerAttestation} {ops : List Op} {now : UnixSeconds} :
    .prune now ∈ ops.filterMap (Op.change? ed25519Verify att) ↔ .prune now ∈ ops := by
  rw [List.mem_filterMap]
  constructor
  · rintro ⟨op, hmem, hchange⟩
    cases op with
    | prune now' =>
        obtain rfl := Change.prune.inj (Option.some.inj hchange)
        exact hmem
    | submit s =>
        rw [Op.change?] at hchange
        split at hchange
        · simp at hchange
        · exact absurd hchange.symm (Option.some_ne_none _)
  · exact fun hmem => ⟨.prune now, hmem, rfl⟩

theorem change?_submit {att : LedgerAttestation} {op : Op} {en : LedgerEntry} :
    op.change? ed25519Verify att = some (.record en) ↔
      ∃ s, op = .submit s ∧ s.passes ed25519Verify att = true ∧ s.entry = en := by
  cases op with
  | prune now => simp [Op.change?]
  | submit s => simp [Op.change?]

/-! ## What a run lets through -/

/-- An earlier submission has used the nonce, and no pruning since then was past the
expiry of its envelope. -/
def UsedIn (ed25519Verify : Ed25519Verify) (v : LedgerView) (ops : List Op) (s : Submission) : Prop :=
  ∃ before s' after, ops = before ++ .submit s' :: after ∧
    s'.Allowed ed25519Verify (run ed25519Verify v before) ∧
    Expiring.key s'.entry = Expiring.key s.entry ∧
    ∀ now, .prune now ∈ after → now ≤ s'.e.expiresAt

theorem spent_run_iff {v : LedgerView} (hempty : v.entries = []) {ops : List Op} {s : Submission} :
    spent (run ed25519Verify v ops).entries (Expiring.key s.entry) = true ↔
      UsedIn ed25519Verify v ops s := by
  rw [Ledger.spent_iff, run_eq, hempty]
  constructor
  · rintro ⟨en, hmem, hkey⟩
    rcases mem_changes.mp hmem with ⟨hnil, -⟩ | ⟨front, back, hsplit, hfree, hkept⟩
    · exact absurd hnil List.not_mem_nil
    · obtain ⟨before, tail, rfl, rfl, htail⟩ := List.filterMap_eq_append_iff.mp hsplit
      obtain ⟨skipped, op, after, rfl, hskipped, hop, rfl⟩ := List.filterMap_eq_cons_iff.mp htail
      obtain ⟨s', rfl, hpasses, rfl⟩ := change?_submit.mp hop
      have hnone : skipped.filterMap (Op.change? ed25519Verify v.att) = [] :=
        List.filterMap_eq_nil_iff.mpr hskipped
      refine ⟨before ++ skipped, s', after, by rw [List.append_assoc], ?_, hkey, ?_⟩
      · rw [allowed_iff, att_run, run_eq, hempty, List.filterMap_append, hnone, List.append_nil]
        exact ⟨hpasses, hfree⟩
      · exact fun now hnow => hkept now (prune_mem_filterMap.mpr hnow)
  · rintro ⟨before, s', after, rfl, hallowed, hkey, hkept⟩
    rw [allowed_iff, att_run, run_eq, hempty] at hallowed
    refine ⟨s'.entry, mem_changes.mpr (Or.inr ⟨before.filterMap _,
      after.filterMap (Op.change? ed25519Verify v.att), ?_, hallowed.2, ?_⟩), hkey⟩
    · rw [List.filterMap_append, List.filterMap_cons,
        change?_submit.mpr ⟨s', rfl, hallowed.1, rfl⟩]
    · exact fun now hnow => hkept now (prune_mem_filterMap.mp hnow)

/-- **What a store lets through.**  In every run of a store that starts empty, an envelope
is let through exactly if the store is of the configured generation, the judge lets it
through, and no earlier one has used its nonce, unless the store was pruned past the
expiry of that one. -/
theorem allowed_run_iff {v : LedgerView} (hempty : v.entries = []) (ops : List Op)
    (s : Submission) :
    s.Allowed ed25519Verify (run ed25519Verify v ops) ↔
      s.state.ledgerGeneration ≠ 0 ∧ v.att.generation = s.state.ledgerGeneration ∧
      (∃ out, effectStep ed25519Verify s.authority s.reg s.mediator s.e s.sigHex s.state =
        .allow out) ∧
      ¬ UsedIn ed25519Verify v ops s := by
  rw [allowed_iff, att_run, ← spent_run_iff hempty, Bool.not_eq_true]
  simp only [Submission.passes, Bool.and_eq_true, bne_iff_ne, beq_iff_eq, and_assoc]
  cases effectStep ed25519Verify s.authority s.reg s.mediator s.e s.sigHex s.state with
  | block => simp
  | allow out => simp

/-- The signed sample, handed in at a clock. -/
def sampleSubmission (now : UnixSeconds) : Submission :=
  { authority := sampleAuthority, reg := [sampleKey], mediator := sampleMediator,
    e := sampleEnvelope, sigHex := sampleSignature, state := sampleState now }

/-- An empty store of the configured generation. -/
def sampleView : LedgerView :=
  ⟨⟨"store-1", 1, 0⟩, []⟩

theorem allowed_run_iff_sample :
    (sampleSubmission 10).Allowed sampleVerify (run sampleVerify sampleView []) ∧
      ¬ (sampleSubmission 20).Allowed sampleVerify
        (run sampleVerify sampleView [.submit (sampleSubmission 10), .prune 15]) := by
  have hfirst : (sampleSubmission 10).Allowed sampleVerify (run sampleVerify sampleView []) :=
    (allowed_run_iff rfl [] (sampleSubmission 10)).mpr ⟨by decide, rfl,
      ⟨_, step_sample (by decide) (by decide)⟩, by
        rintro ⟨before, s', after, hsplit, -⟩
        exact absurd hsplit (by simp)⟩
  refine ⟨hfirst, fun hsecond => ?_⟩
  obtain ⟨-, -, -, hunused⟩ := (allowed_run_iff rfl _ (sampleSubmission 20)).mp hsecond
  refine hunused ⟨[], sampleSubmission 10, [.prune 15], rfl, hfirst, rfl, ?_⟩
  intro now hmem
  obtain rfl := Op.prune.inj (List.mem_singleton.mp hmem)
  decide

theorem admitted_of_passes {s : Submission} {att : LedgerAttestation}
    (h : s.passes ed25519Verify att = true) :
    Admitted ed25519Verify s.authority s.reg s.mediator s.e s.sigHex s.state := by
  simp only [Submission.passes, Bool.and_eq_true, bne_iff_ne] at h
  cases hstep : effectStep ed25519Verify s.authority s.reg s.mediator s.e s.sigHex s.state with
  | block => exact absurd hstep h.2
  | allow out => exact (effectStep_eq_allow.mp hstep).1

theorem sized_of_admitted {authority : ByteArray} {reg : PrincipalRegistry} {mediator : AdapterId}
    {e : EffectEnvelope} {sigHex : String} {state : ApprovalState}
    (h : Admitted ed25519Verify authority reg mediator e sigHex state) :
    authority.size = 32 ∧ wireSizedB e = true := by
  obtain ⟨id, hid⟩ := h.verified
  obtain ⟨_, _, _, _, _, _, hauthority, _, hsized, _⟩ := verifyEffect_eq_some.mp hid
  exact ⟨hauthority, hsized⟩

/-- **One message, once.**  If one signed message is let through twice, the store was
pruned in between, at a clock later than the one the second was judged at. -/
theorem allowed_twice {v : LedgerView} {before between : List Op} {s s' : Submission}
    (hmessage : effectMessage s.authority s.e = effectMessage s'.authority s'.e)
    (hfirst : s.Allowed ed25519Verify (run ed25519Verify v before))
    (hsecond : s'.Allowed ed25519Verify
      (run ed25519Verify v (before ++ .submit s :: between))) :
    ∃ now, .prune now ∈ between ∧ s'.state.now < now := by
  rw [allowed_iff, att_run] at hfirst hsecond
  have hadmitted := admitted_of_passes hfirst.1
  have hadmitted' := admitted_of_passes hsecond.1
  obtain ⟨hauthority, henvelope⟩ := effectMessage_inj (sized_of_admitted hadmitted).1
    (sized_of_admitted hadmitted').1 (sized_of_admitted hadmitted).2
    (sized_of_admitted hadmitted').2 hmessage
  have hentry : s'.entry = s.entry := by
    rw [Submission.entry, Submission.entry, hauthority, henvelope]
  have hops : (before ++ .submit s :: between).filterMap (Op.change? ed25519Verify v.att) =
      before.filterMap (Op.change? ed25519Verify v.att) ++
        .record s.entry :: between.filterMap (Op.change? ed25519Verify v.att) := by
    rw [List.filterMap_append, List.filterMap_cons,
      change?_submit.mpr ⟨s, rfl, hfirst.1, rfl⟩]
  have hfree := hfirst.2
  have hfree' := hsecond.2
  rw [run_eq] at hfree
  rw [run_eq, hops, hentry] at hfree'
  obtain ⟨now, hpruned, hlate⟩ := exists_prune hfree hfree'
  have hlive : s'.state.now ≤ s.e.expiresAt := by
    rw [henvelope]
    exact hadmitted'.expires.2
  exact ⟨now, prune_mem_filterMap.mp hpruned, lt_of_le_of_lt hlive hlate⟩

theorem allowed_twice_sample :
    ∃ now, Op.prune now ∈ [Op.prune 61] ∧ (sampleSubmission 10).state.now < now := by
  have hpass : (sampleSubmission 10).passes sampleVerify sampleView.att = true := by
    have hstep := step_sample (show 5 ≤ 10 by decide) (by decide)
    simp only [Submission.passes, sampleSubmission, hstep]
    rfl
  have hfirst : (sampleSubmission 10).Allowed sampleVerify (run sampleVerify sampleView []) :=
    allowed_iff.mpr ⟨hpass, rfl⟩
  -- the pruning at 61 forgets the envelope, which expires at 60
  have hrun : run sampleVerify sampleView ([] ++ [.submit (sampleSubmission 10), .prune 61]) =
      sampleView := by
    have hchange : Op.change? sampleVerify sampleView.att (.submit (sampleSubmission 10)) =
        some (.record (sampleSubmission 10).entry) := by
      rw [Op.change?, if_pos hpass]
    rw [run_eq, List.nil_append, List.filterMap_cons_some hchange]
    rfl
  have hsecond : (sampleSubmission 10).Allowed sampleVerify
      (run sampleVerify sampleView ([] ++ [.submit (sampleSubmission 10), .prune 61])) := by
    rw [hrun]
    exact allowed_iff.mpr ⟨hpass, rfl⟩
  exact allowed_twice rfl hfirst hsecond

end McpSeal.SealV2.Effect.Ledger
