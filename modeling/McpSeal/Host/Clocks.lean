import McpSeal.Host.Session
set_option autoImplicit false

/-!
# Host: the clocks of a run (`Ffi.lean`)

Nothing orders the clock texts of a run.  Three conditions on them matter: the
effective clocks of all decisions do not go back, the readable clock texts do not
go back, or only the clocks of the grants do not.  In a started session the first
implies the second, and from a clock no text is before, the second implies the
third.  The last is enough for the spends of a run to be a history of the ledger
that never forgets, so that no signed message is granted twice.
-/

namespace McpSeal.Host

open McpSeal.Data (toNat?)
open McpSeal.Foundation
open McpSeal.SealV2

variable {ed25519Verify : Ed25519Verify}

/-! ## The clock of one decision -/

/-- The clock a call's text denotes, if it can be read. -/
def Call.readableClock? : Call → Option UnixSeconds
  | .decide _ nowText => toNat? nowText
  | _ => none

/-- The clock of a `decide` is the one its text denotes, or the stored one. -/
theorem effectiveClock_cases (st : ApprovalState) (nowText : String) :
    toNat? nowText = some (effectiveClock st nowText) ∨
      (toNat? nowText = none ∧ effectiveClock st nowText = st.now) := by
  unfold effectiveClock
  cases toNat? nowText with
  | none => exact Or.inr ⟨rfl, rfl⟩
  | some now => exact Or.inl rfl

/-- No decision is made before a session is started. -/
theorem decisions_none (calls : List Call) : decisions ed25519Verify calls none = [] := by
  induction calls with
  | nil => rfl
  | cons call rest ih => cases call <;> exact ih

/-- Every grant is made at a clock up to the expiry of its approval. -/
theorem clock_le_of_granted {calls : List Call} {stateRef : StateRef} {d : Decision}
    {approval : Approval} (hmem : d ∈ decisions ed25519Verify calls stateRef)
    (hgranted : d.granted = some approval) : d.clock ≤ approval.expiresAt := by
  cases stateRef with
  | none => simp [decisions_none] at hmem
  | some st =>
      let spend : Ledger.Attempt ConsumedNonce UnixSeconds :=
        { clock := d.clock, entry := entryFor st approval }
      have hspend : spend ∈ spendsOf st (decisions ed25519Verify calls (some st)) :=
        List.mem_filterMap.mpr ⟨d, hmem, by rw [hgranted]; rfl⟩
      rw [← accepted_spendsOf ed25519Verify calls (SameConfig.refl st)] at hspend
      exact Ledger.live_of_mem_accepted hspend

/-! ## Orders of clocks -/

/-- The effective clocks of the decisions never go back. -/
def ClocksOrdered (ds : List Decision) : Prop :=
  ds.Pairwise fun e f => e.clock ≤ f.clock

/-- The readable clock texts of the calls never go back; the others are free. -/
def ReadableClocksOrdered (calls : List Call) : Prop :=
  (calls.filterMap Call.readableClock?).Pairwise (· ≤ ·)

/-- The effective clocks of the grants never go back. -/
def GrantsOrdered (ds : List Decision) : Prop :=
  ds.Pairwise fun e f => e.granted ≠ none → f.granted ≠ none → e.clock ≤ f.clock

/-- Grants are decisions. -/
theorem ClocksOrdered.grants {ds : List Decision} (h : ClocksOrdered ds) :
    GrantsOrdered ds :=
  h.imp fun hle _ _ => hle

variable (ed25519Verify) in
/-- What a call does to the clocks: a `decide` is made at the clock its text
denotes or at the stored one, and its clock is stored if it is granted. -/
theorem clock_cases (call : Call) (st : ApprovalState) :
    (call.readableClock? = none ∧ call.decision? ed25519Verify (some st) = none ∧
      ((call.effect ed25519Verify st).apply st).now = st.now) ∨
    ∃ d, call.decision? ed25519Verify (some st) = some d ∧
      (call.readableClock? = some d.clock ∨
        (call.readableClock? = none ∧ d.clock = st.now)) ∧
      ((d.granted = none ∧ ((call.effect ed25519Verify st).apply st).now = st.now) ∨
        ((call.effect ed25519Verify st).apply st).now = d.clock) := by
  cases call with
  | addApproval rawSigned sigHex =>
      refine Or.inl ⟨rfl, rfl, ?_⟩
      simp only [Call.effect]
      cases approvalOf? rawSigned sigHex <;> rfl
  | challenge rawRequest issuedAtText expiryText nonceHex => exact Or.inl ⟨rfl, rfl, rfl⟩
  | decide rawRequest nowText =>
      refine Or.inr ⟨_, rfl, effectiveClock_cases st nowText, ?_⟩
      simp only [Call.effect]
      cases grantedOn? ed25519Verify st rawRequest nowText with
      | none => exact Or.inl ⟨rfl, rfl⟩
      | some approval => exact Or.inr rfl

/-- The readable texts of a started session are the clocks of their decisions. -/
theorem readable_sublist (calls : List Call) (st : ApprovalState) :
    (calls.filterMap Call.readableClock?).Sublist
      ((decisions ed25519Verify calls (some st)).map Decision.clock) := by
  induction calls generalizing st with
  | nil => exact List.Sublist.refl []
  | cons call rest ih =>
      rw [decisions, exec_fst]
      have hrest := ih ((call.effect ed25519Verify st).apply st)
      rcases clock_cases ed25519Verify call st with
        ⟨hread, hdecision, _⟩ | ⟨d, hdecision, hclock, _⟩
      · rw [List.filterMap_cons_none hread, hdecision]
        exact hrest
      · rw [hdecision, Option.toList_some, List.singleton_append, List.map_cons]
        rcases hclock with hread | ⟨hread, _⟩
        · rw [List.filterMap_cons_some hread]
          exact hrest.cons_cons d.clock
        · rw [List.filterMap_cons_none hread]
          exact hrest.cons d.clock

theorem ClocksOrdered.readable {calls : List Call} {st : ApprovalState}
    (h : ClocksOrdered (decisions ed25519Verify calls (some st))) :
    ReadableClocksOrdered calls :=
  (List.pairwise_map.mpr h).sublist (readable_sublist calls st)

/-- No decision, nor the session it leaves, is past a clock that the session and
every readable text are up to. -/
theorem clock_le_of_readable (calls : List Call) {st : ApprovalState} {now : UnixSeconds}
    (hnow : st.now ≤ now) (hreadable : ∀ c ∈ calls.filterMap Call.readableClock?, c ≤ now) :
    ∀ d ∈ decisions ed25519Verify calls (some st), d.clock ≤ now := by
  induction calls generalizing st with
  | nil => exact List.forall_mem_nil _
  | cons call rest ih =>
      rw [decisions, exec_fst]
      rcases clock_cases ed25519Verify call st with
        ⟨hread, hdecision, hkeep⟩ | ⟨d, hdecision, hclock, hstored⟩
      · rw [List.filterMap_cons_none hread] at hreadable
        rw [hdecision]
        exact ih (hkeep ▸ hnow) hreadable
      · have hle : d.clock ≤ now ∧ ∀ c ∈ rest.filterMap Call.readableClock?, c ≤ now := by
          rcases hclock with hread | ⟨hread, hfallback⟩
          · rw [List.filterMap_cons_some hread] at hreadable
            exact List.forall_mem_cons.mp hreadable
          · rw [List.filterMap_cons_none hread] at hreadable
            exact ⟨hfallback ▸ hnow, hreadable⟩
        rw [hdecision, Option.toList_some, List.singleton_append]
        refine List.forall_mem_cons.mpr ⟨hle.1, ih ?_ hle.2⟩
        rcases hstored with ⟨_, hkeep⟩ | hstore
        · exact hkeep ▸ hnow
        · exact hstore ▸ hle.1

/-- Readable texts that do not go back keep the grants in order: an unreadable
text stands for the stored clock, which is that of the last grant. -/
theorem grants_of_readable (calls : List Call) {st : ApprovalState}
    (hordered : ReadableClocksOrdered calls)
    (hnow : ∀ c ∈ calls.filterMap Call.readableClock?, st.now ≤ c) :
    (∀ d ∈ decisions ed25519Verify calls (some st), d.granted ≠ none → st.now ≤ d.clock) ∧
      GrantsOrdered (decisions ed25519Verify calls (some st)) := by
  induction calls generalizing st with
  | nil => exact ⟨by simp [decisions], List.Pairwise.nil⟩
  | cons call rest ih =>
      rw [decisions, exec_fst]
      rcases clock_cases ed25519Verify call st with
        ⟨hread, hdecision, hkeep⟩ | ⟨d, hdecision, hclock, hstored⟩
      · rw [ReadableClocksOrdered, List.filterMap_cons_none hread] at hordered
        rw [List.filterMap_cons_none hread] at hnow
        have hrest := ih hordered (by rw [hkeep]; exact hnow)
        rw [hkeep] at hrest
        rw [hdecision]
        exact hrest
      · -- the decision is made at the stored clock or later, and not after any text to come
        have hrest : ReadableClocksOrdered rest ∧ st.now ≤ d.clock ∧
            ∀ c ∈ rest.filterMap Call.readableClock?, d.clock ≤ c := by
          rcases hclock with hread | ⟨hread, hfallback⟩
          · rw [ReadableClocksOrdered, List.filterMap_cons_some hread] at hordered
            rw [List.filterMap_cons_some hread] at hnow
            obtain ⟨hle, hrest⟩ := List.pairwise_cons.mp hordered
            exact ⟨hrest, hnow d.clock List.mem_cons_self, hle⟩
          · rw [ReadableClocksOrdered, List.filterMap_cons_none hread] at hordered
            rw [List.filterMap_cons_none hread] at hnow
            exact ⟨hordered, hfallback.ge, hfallback ▸ hnow⟩
        obtain ⟨hordered, hle, hlater⟩ := hrest
        rw [hdecision, Option.toList_some, List.singleton_append]
        rcases hstored with ⟨hblocked, hkeep⟩ | hstore
        · obtain ⟨hfrom, hgrants⟩ := ih hordered fun c hc => hkeep ▸ hle.trans (hlater c hc)
          rw [hkeep] at hfrom
          refine ⟨?_, List.pairwise_cons.mpr ⟨?_, hgrants⟩⟩
          · intro f hf hgranted
            rcases List.mem_cons.mp hf with rfl | hf
            · exact hle
            · exact hfrom f hf hgranted
          · intro f _ hgranted
            exact absurd hblocked hgranted
        · obtain ⟨hfrom, hgrants⟩ := ih hordered (by rw [hstore]; exact hlater)
          rw [hstore] at hfrom
          refine ⟨?_, List.pairwise_cons.mpr ⟨?_, hgrants⟩⟩
          · intro f hf hgranted
            rcases List.mem_cons.mp hf with rfl | hf
            · exact hle
            · exact hle.trans (hfrom f hf hgranted)
          · intro f hf _ hgranted
            exact hfrom f hf hgranted

/-! ## Grants in order -/

/-- The spends of grants in order are a history of the ledger that never
forgets. -/
theorem exists_history {calls : List Call} {st : ApprovalState}
    (hordered : GrantsOrdered (decisions ed25519Verify calls (some st))) :
    ∃ history : Ledger.History ConsumedNonce,
      history.grants = spendsOf st (decisions ed25519Verify calls (some st)) := by
  have haccepted := accepted_spendsOf ed25519Verify calls (SameConfig.refl st)
  rw [← haccepted]
  refine Ledger.exists_history ?_
  rw [haccepted, spendsOf, List.pairwise_filterMap]
  refine hordered.imp fun hle x hx y hy => ?_
  obtain ⟨a, ha, rfl⟩ := Option.map_eq_some_iff.mp hx
  obtain ⟨b, hb, rfl⟩ := Option.map_eq_some_iff.mp hy
  exact hle (by simp [ha]) (by simp [hb])

end McpSeal.Host
