import McpSeal.Seal.Main
set_option autoImplicit false

/-!
# Seal: what the gate lets through

What a tool call does to the open approvals is said once, as operations on the store
of one-shot grants.  From it follows, for every run of the gate, that a guarded call
is forwarded only on an approval that was made for this very call, has not run out
and has not been used, and that no approval is used twice.
-/

namespace McpSeal.Seal

open McpSeal.Foundation
open McpSeal.SealCore

/-! ## One tool call -/

/-- The engine lets the event through. -/
def allows (now : Nat) (store : Grants.Store TargetHash) : Event → Bool
  | .approval _ _ => true
  | .guarded target => Grants.live store target now
  | .benign => true
  | .defaultDeny => false

theorem step_isAllow (now : Nat) (s : State) (e : Event) :
    (step now s e).1.isAllow = allows now s.grants e := by
  cases e with
  | guarded target =>
      rw [step, allows, live_grants]
      cases live s target now <;> rfl
  | _ => rfl

/-- New approvals come first, then the call itself. -/
def callOps (now : Nat) (approvals : List Event) (event : Event) : List (Grants.Op TargetHash) :=
  approvals.filterMap (Event.op? now) ++ (event.op? now).toList

/-- The event a call is to the automaton. -/
def ToolCall.event (call : ToolCall) (policy : Policy) : Event :=
  (call.classify policy).toEvent

/-- What becomes of a call, given the approvals open when it is judged. -/
def ToolCall.action (call : ToolCall) (policy : Policy) (turn : Turn)
    (store : Grants.Store TargetHash) : Action :=
  if allows turn.now store (call.event policy) then .forward turn.hostLine
  else .reply (blockResponseLine (jsonId call.json) (call.classify policy).targetText)

/-- Read the policy's control file from where the gate has stopped reading it. -/
def readApprovals (policy : Policy) (turn : Turn) (seen : Nat) : Except String (Nat × List Event) :=
  readApprovalsFrom policy.approvalFile turn.controlFile seen turn.now policy.approvalTtlMs

/-- What a call does: it takes in the new approvals, is judged by what is then open,
and purges what has run out. -/
theorem ToolCall.process_eq (call : ToolCall) (policy : Policy) (memory : Memory) (turn : Turn)
    {seen : Nat} {approvals : List Event}
    (hread : readApprovals policy turn memory.approvalSeen = .ok (seen, approvals)) :
    ∃ memory', call.process policy memory turn = .ok (memory', call.action policy turn
        (Grants.run memory.state.grants (approvals.filterMap (Event.op? turn.now)))) ∧
      memory'.approvalSeen = seen ∧
      memory'.state.grants = Grants.step (Grants.run memory.state.grants
        (callOps turn.now approvals (call.event policy))) (.purge turn.now) := by
  have hgrants := grants_run turn.now memory.state approvals
  have hstep := grants_step turn.now (run turn.now memory.state approvals) (call.event policy)
  have hallow := step_isAllow turn.now (run turn.now memory.state approvals) (call.event policy)
  rw [hgrants] at hstep hallow
  rw [← Grants.run_append, ← callOps] at hstep
  have hread : readApprovalsFrom policy.approvalFile turn.controlFile memory.approvalSeen turn.now
      policy.approvalTtlMs = .ok (seen, approvals) := hread
  rw [ToolCall.process, processToolCall, hread, ToolCall.action, ← hallow]
  rcases hout : step turn.now (run turn.now memory.state approvals) (call.event policy) with
    ⟨decision, st2⟩
  rw [hout] at hstep
  rw [ToolCall.event, ToolCall.classify] at hout
  dsimp only [bind, Except.bind]
  rw [hout]
  have hprune := grants_prune turn.now st2.approved
  rw [← hstep]
  let memory' : Memory := { state := { approved := prune turn.now st2.approved }, approvalSeen := seen }
  cases decision with
  | allow => exact ⟨memory', rfl, rfl, hprune⟩
  | block => exact ⟨memory', rfl, rfl, hprune⟩

section Line

variable {policy : Policy} {memory memory' : Memory} {turn : Turn} {action : Action}
  {call : ToolCall}

/-- What has become of a line that is handled as a tool call. -/
theorem processHostLine_toolCall (hcall : toolCall? turn.hostLine = some call)
    (hline : processHostLine policy memory turn = .ok (memory', action)) :
    ∃ approvals, readApprovals policy turn memory.approvalSeen =
        .ok (memory'.approvalSeen, approvals) ∧
      action = call.action policy turn
        (Grants.run memory.state.grants (approvals.filterMap (Event.op? turn.now))) ∧
      memory'.state.grants = Grants.step (Grants.run memory.state.grants
        (callOps turn.now approvals (call.event policy))) (.purge turn.now) := by
  rw [processHostLine_of_toolCall hcall] at hline
  cases hread : readApprovals policy turn memory.approvalSeen with
  | error err =>
      have hread : readApprovalsFrom policy.approvalFile turn.controlFile memory.approvalSeen
          turn.now policy.approvalTtlMs = .error err := hread
      rw [ToolCall.process, processToolCall, hread] at hline
      have herror : (Except.error err : Except String (Memory × Action)) = .ok (memory', action) :=
        hline
      exact Except.noConfusion rfl rfl (heq_of_eq herror)
  | ok found =>
      obtain ⟨memory'', hprocess, hseen, hgrants⟩ := call.process_eq policy memory turn hread
      rw [hprocess] at hline
      obtain ⟨rfl, rfl⟩ := Prod.mk.inj (Except.ok.inj hline)
      exact ⟨found.2, by rw [hseen], rfl, hgrants⟩

/-- Any other line leaves the memory alone. -/
theorem processHostLine_no_toolCall (hcall : toolCall? turn.hostLine = none)
    (hline : processHostLine policy memory turn = .ok (memory', action)) : memory' = memory := by
  obtain ⟨reply, hreply⟩ := processHostLine_of_no_toolCall hcall policy
  rw [hreply] at hline
  exact (Prod.mk.inj (Except.ok.inj hline)).1.symm

end Line

/-- A policy never makes a call an approval. -/
theorem event_ne_approval (call : ToolCall) (policy : Policy) (target : TargetHash)
    (deadline : Nat) : call.event policy ≠ .approval target deadline := by
  rw [ToolCall.event, ToolCall.classify, classifyToolCallWithContext]
  unfold resolveRuleDecisions
  repeat' split
  all_goals exact fun h => Event.noConfusion h

/-! ## Runs -/

/-- The lines handled so far, with what became of them, and the memory they leave. -/
inductive Reaches (policy : Policy) : List (Turn × Action) → Memory → Prop where
  | start : Reaches policy [] {}
  | next {entries : List (Turn × Action)} {memory memory' : Memory} {turn : Turn} {action : Action}
      (h : Reaches policy entries memory)
      (hline : processHostLine policy memory turn = .ok (memory', action)) :
      Reaches policy (entries ++ [(turn, action)]) memory'

/-- The line is passed on to the server. -/
def Action.isForward : Action → Bool
  | .forward _ => true
  | .reply _ => false

/-- The entry is a guarded call for this target that was let through. -/
def spends (policy : Policy) (target : TargetHash) (entry : Turn × Action) : Bool :=
  entry.2.isForward &&
    (toolCall? entry.1.hostLine).any fun call => call.event policy = .guarded target

theorem spends_of_toolCall {policy : Policy} {turn : Turn} {call : ToolCall}
    (hcall : toolCall? turn.hostLine = some call) (target : TargetHash) (action : Action) :
    spends policy target (turn, action) = true ↔
      action.isForward = true ∧ call.event policy = .guarded target := by
  rw [spends, hcall, Option.any_some, Bool.and_eq_true, decide_eq_true_iff]

theorem spends_of_no_toolCall {policy : Policy} {turn : Turn}
    (hcall : toolCall? turn.hostLine = none) (target : TargetHash) (action : Action) :
    spends policy target (turn, action) = false := by
  rw [spends, hcall, Option.any_none, Bool.and_false]

/-- A reading of the control file holds a record for this approval. -/
def Approves (policy : Policy) (target : TargetHash) (deadline : Nat) (turn : Turn) : Prop :=
  ∃ contents, turn.controlFile = .text contents ∧ ∃ record ∈ records contents,
    parseApprovalRecord turn.now policy.approvalTtlMs record = some (.approval target deadline)

/-- What a reading that succeeds has found. -/
theorem readApprovals_ok {policy : Policy} {turn : Turn} {seen seen' : Nat}
    {approvals : List Event} (h : readApprovals policy turn seen = .ok (seen', approvals)) :
    (turn.controlFile = .missing ∧ seen' = seen ∧ approvals = []) ∨
      ∃ contents, turn.controlFile = .text contents ∧ seen' = (records contents).length ∧
        approvals = ((records contents).drop seen).filterMap
          (parseApprovalRecord turn.now policy.approvalTtlMs) := by
  unfold readApprovals readApprovalsFrom at h
  cases hfile : turn.controlFile with
  | missing =>
      simp only [hfile] at h
      obtain ⟨rfl, rfl⟩ := Prod.mk.inj (Except.ok.inj h)
      exact Or.inl ⟨rfl, rfl, rfl⟩
  | symlink =>
      simp only [hfile] at h
      contradiction
  | unreadable err =>
      simp only [hfile] at h
      contradiction
  | text contents =>
      simp only [hfile] at h
      obtain ⟨rfl, rfl⟩ := Prod.mk.inj (Except.ok.inj h)
      exact Or.inr ⟨contents, rfl, rfl, rfl⟩

theorem approves_of_mem {policy : Policy} {turn : Turn} {seen seen' : Nat}
    {approvals : List Event} (hread : readApprovals policy turn seen = .ok (seen', approvals))
    {target : TargetHash} {deadline : Nat} (hmem : .approval target deadline ∈ approvals) :
    Approves policy target deadline turn := by
  rcases readApprovals_ok hread with ⟨-, -, rfl⟩ | ⟨contents, hfile, -, rfl⟩
  · exact absurd hmem List.not_mem_nil
  · obtain ⟨record, hrecord, hparse⟩ := List.mem_filterMap.mp hmem
    exact ⟨contents, hfile, record, List.mem_of_mem_drop hrecord, hparse⟩

theorem issue_mem_callOps {now : Nat} {approvals : List Event} {call : ToolCall} {policy : Policy}
    {target : TargetHash} {deadline : Nat}
    (h : .issue target deadline ∈ callOps now approvals (call.event policy)) :
    .approval target deadline ∈ approvals := by
  have hop : ∀ e : Event, e.op? now = some (.issue target deadline) → e = .approval target deadline := by
    intro e he
    cases e with
    | approval t d =>
        injection he with he
        injection he with ht hd
        rw [ht, hd]
    | guarded t => injection he; contradiction
    | benign => contradiction
    | defaultDeny => contradiction
  rcases List.mem_append.mp h with hmem | hmem
  · obtain ⟨e, he, hissue⟩ := List.mem_filterMap.mp hmem
    exact hop e hissue ▸ he
  · exact absurd (hop _ (Option.mem_toList.mp hmem)) (event_ne_approval call policy target deadline)

/-- A guarded call is let through on a live approval, and uses it up. -/
theorem live_of_spends {policy : Policy} {target : TargetHash} {turn : Turn} {call : ToolCall}
    (hcall : toolCall? turn.hostLine = some call) {store : Grants.Store TargetHash}
    (hspends : spends policy target (turn, call.action policy turn store) = true) :
    call.event policy = .guarded target ∧ Grants.live store target turn.now = true := by
  obtain ⟨hforward, hguarded⟩ := (spends_of_toolCall hcall target _).mp hspends
  refine ⟨hguarded, ?_⟩
  by_contra hdead
  rw [ToolCall.action, hguarded, allows, if_neg hdead] at hforward
  exact Bool.noConfusion hforward

/-- An approval that is open after a line was open before it or is new, and the line has
not used it. -/
theorem open_after_line {policy : Policy} {memory memory' : Memory} {turn : Turn}
    {action : Action} (hline : processHostLine policy memory turn = .ok (memory', action))
    {target : TargetHash} {deadline : Nat} (hopen : memory'.state.grants target = some deadline) :
    (memory.state.grants target = some deadline ∨ Approves policy target deadline turn) ∧
      spends policy target (turn, action) = false := by
  cases hcall : toolCall? turn.hostLine with
  | none =>
      obtain rfl := processHostLine_no_toolCall hcall hline
      exact ⟨Or.inl hopen, spends_of_no_toolCall hcall target action⟩
  | some call =>
    obtain ⟨approvals, hread, rfl, hgrants⟩ := processHostLine_toolCall hcall hline
    rw [hgrants] at hopen
    have hrun : Grants.run memory.state.grants (callOps turn.now approvals (call.event policy))
        target = some deadline := (Grants.open_of_step hopen).resolve_right (by simp)
    constructor
    · rcases Grants.open_of_run hrun with hbefore | hissue
      · exact Or.inl hbefore
      · exact Or.inr (approves_of_mem hread (issue_mem_callOps hissue))
    · rw [← Bool.not_eq_true]
      intro hspends
      obtain ⟨hguarded, hlive⟩ := live_of_spends hcall hspends
      rw [callOps, hguarded, Grants.run_append] at hrun
      have hused : Grants.step (Grants.run memory.state.grants
          (approvals.filterMap (Event.op? turn.now))) (.redeem target turn.now) target =
            some deadline := hrun
      rw [Grants.step, if_pos hlive, Function.update_self] at hused
      exact absurd hused.symm (Option.some_ne_none deadline)

/-- The turn was handled before, and none of the lines since then, itself included, has
used an approval of the target. -/
def UnspentSince (policy : Policy) (target : TargetHash) (origin : Turn)
    (entries : List (Turn × Action)) : Prop :=
  ∃ before action after, entries = before ++ (origin, action) :: after ∧
    ∀ e ∈ (origin, action) :: after, spends policy target e = false

theorem UnspentSince.snoc {policy : Policy} {target : TargetHash} {origin : Turn}
    {entries : List (Turn × Action)} (h : UnspentSince policy target origin entries)
    {entry : Turn × Action} (hentry : spends policy target entry = false) :
    UnspentSince policy target origin (entries ++ [entry]) := by
  obtain ⟨before, action, after, rfl, hsince⟩ := h
  refine ⟨before, action, after ++ [entry], by simp, ?_⟩
  intro e he
  rcases List.mem_append.mp (List.cons_append ▸ he) with hmem | hmem
  · exact hsince e hmem
  · rw [List.mem_singleton.mp hmem]
    exact hentry

/-- In every run an open approval was made for its target and has not been used since. -/
theorem origin_of_open {policy : Policy} {entries : List (Turn × Action)} {memory : Memory}
    (h : Reaches policy entries memory) {target : TargetHash} {deadline : Nat}
    (hopen : memory.state.grants target = some deadline) :
    ∃ origin, Approves policy target deadline origin ∧
      UnspentSince policy target origin entries := by
  induction h with
  | start =>
      have hempty := congrFun grants_empty target
      exact absurd (hempty.symm.trans hopen) (by simp [Grants.empty])
  | @next entries memory memory' turn action _ hline ih =>
      obtain ⟨hbefore, hunspent⟩ := open_after_line hline hopen
      rcases hbefore with hbefore | happroves
      · obtain ⟨origin, happroves, hsince⟩ := ih hbefore
        exact ⟨origin, happroves, hsince.snoc hunspent⟩
      · refine ⟨turn, happroves, entries, action, [], rfl, ?_⟩
        intro e he
        rw [List.mem_singleton.mp he]
        exact hunspent

theorem deadline_le_of_approves {policy : Policy} {target : TargetHash} {deadline : Nat}
    {turn : Turn} (h : Approves policy target deadline turn) :
    deadline ≤ turn.now + policy.approvalTtlMs := by
  obtain ⟨contents, -, record, -, hparse⟩ := h
  rcases parseApprovalRecord_cases turn.now policy.approvalTtlMs record with
    ⟨-, hnone⟩ | ⟨target', deadline', -, hsome, hle⟩
  · exact absurd (hparse.symm.trans hnone) (Option.some_ne_none _)
  · obtain ⟨-, rfl⟩ := Event.approval.inj (Option.some.inj (hsome.symm.trans hparse))
    exact hle

/-- What a guarded call needs to be let through. -/
theorem approved_of_forward {policy : Policy} {entries : List (Turn × Action)} {memory memory' : Memory}
    (hreach : Reaches policy entries memory) {turn : Turn} {call : ToolCall} {target : TargetHash}
    {line : String} (hcall : toolCall? turn.hostLine = some call)
    (hguarded : call.event policy = .guarded target)
    (hline : processHostLine policy memory turn = .ok (memory', .forward line)) :
    ∃ origin deadline, Approves policy target deadline origin ∧ turn.now < deadline ∧
      (origin = turn ∨ UnspentSince policy target origin entries) := by
  obtain ⟨approvals, hread, haction, -⟩ := processHostLine_toolCall hcall hline
  have hspends : spends policy target (turn, call.action policy turn (Grants.run
      memory.state.grants (approvals.filterMap (Event.op? turn.now)))) = true :=
    (spends_of_toolCall hcall target _).mpr ⟨by rw [← haction]; rfl, hguarded⟩
  obtain ⟨-, hlive⟩ := live_of_spends hcall hspends
  obtain ⟨deadline, hopen, hnow⟩ := Grants.live_eq_true.mp hlive
  rcases Grants.open_of_run hopen with hbefore | hissue
  · obtain ⟨origin, happroves, hsince⟩ := origin_of_open hreach hbefore
    exact ⟨origin, deadline, happroves, hnow, Or.inr hsince⟩
  · have hmem : .issue target deadline ∈ callOps turn.now approvals (call.event policy) :=
      List.mem_append_left _ hissue
    exact ⟨turn, deadline, approves_of_mem hread (issue_mem_callOps hmem), hnow, Or.inl rfl⟩

/-- The target an accepted policy holds the call to. -/
def ToolCall.target (call : ToolCall) (policy : Policy) : TargetHash :=
  callTarget policy call.toolName call.toolArgs call.metadata call.requestState
    call.inputResponses

/-- The modes of the rules that match a call. -/
def ToolCall.modes (call : ToolCall) (policy : Policy) : List ToolMode :=
  matchingModes policy call.toolName call.toolArgs

/-- **Mediation.**  Whatever the host has sent before, a tool call is forwarded only if
some rule of the accepted policy matches it and none denies it; and if one guards it,
only on a record that names the target of this very call, was read at most the capped
lifetime ago, and has not been used since. -/
theorem mediation {policy : Policy} (haccepted : policy.Accepted)
    {entries : List (Turn × Action)} {memory memory' : Memory}
    (hreach : Reaches policy entries memory) {turn : Turn} {call : ToolCall} {line : String}
    (hcall : toolCall? turn.hostLine = some call)
    (hline : processHostLine policy memory turn = .ok (memory', .forward line)) :
    ToolMode.deny ∉ call.modes policy ∧ call.modes policy ≠ [] ∧
      (ToolMode.guarded ∈ call.modes policy → ∃ origin deadline,
        Approves policy (call.target policy) deadline origin ∧
        turn.now < deadline ∧ deadline ≤ origin.now + maxApprovalTtlSeconds * 1000 ∧
        (origin = turn ∨ UnspentSince policy (call.target policy) origin entries)) := by
  have hevent : call.event policy = modesEvent (call.target policy) (call.modes policy) :=
    classify_of_accepted _ _ _ _ _ haccepted
  have hallowed : call.event policy ≠ .defaultDeny := by
    intro hdeny
    obtain ⟨approvals, -, haction, -⟩ := processHostLine_toolCall hcall hline
    rw [ToolCall.action, hdeny, allows, if_neg (by decide)] at haction
    exact Action.noConfusion haction
  rw [hevent] at hallowed
  have hdeny : ToolMode.deny ∉ call.modes policy := by
    intro hmem
    rw [modesEvent, if_pos hmem] at hallowed
    exact hallowed rfl
  refine ⟨hdeny, ?_, ?_⟩
  · intro hnil
    rw [hnil] at hallowed
    exact hallowed rfl
  · intro hmem
    rw [modesEvent, if_neg hdeny, if_pos hmem] at hevent
    obtain ⟨origin, deadline, happroves, hnow, horigin⟩ := approved_of_forward hreach hcall hevent hline
    exact ⟨origin, deadline, happroves, hnow,
      (deadline_le_of_approves happroves).trans (Nat.add_le_add_left haccepted.lifetime _), horigin⟩

/-! ## Counting -/

/-- The records of a control file that can be read. -/
def ControlFile.records? : ControlFile → Option (List String)
  | .text contents => some (records contents)
  | _ => none

/-- The records a line finds, if it reads the control file. -/
def reading? (turn : Turn) : Option (List String) :=
  (toolCall? turn.hostLine).bind fun _ => turn.controlFile.records?

/-- The contents the control file had at the calls of a run. -/
def readings (entries : List (Turn × Action)) : List (List String) :=
  entries.filterMap fun entry => reading? entry.1

/-- The last of them. -/
def lastReading (entries : List (Turn × Action)) : List String :=
  (readings entries).getLastD []

/-- Every reading of the control file extends the readings before it. -/
def AppendOnly (entries : List (Turn × Action)) : Prop :=
  (readings entries).Pairwise (· <+: ·)

/-- How many of the records approve the target. -/
def approving (target : TargetHash) (rs : List String) : Nat :=
  (rs.filterMap recordTarget?).count target

theorem approving_append (target : TargetHash) (rs more : List String) :
    approving target (rs ++ more) = approving target rs + approving target more := by
  rw [approving, List.filterMap_append, List.count_append]
  rfl

/-- New records issue as many grants of a target as there are records that approve it. -/
theorem issued_records (now ttlMs : Nat) (target : TargetHash) (rs : List String) :
    Grants.issued target
        ((rs.filterMap (parseApprovalRecord now ttlMs)).filterMap (Event.op? now)) =
      approving target rs := by
  induction rs with
  | nil => rfl
  | cons record rest ih =>
      rw [approving, List.filterMap_cons, List.filterMap_cons]
      rcases parseApprovalRecord_cases now ttlMs record with
        ⟨hnone, hparse⟩ | ⟨target', deadline, htarget, hparse, -⟩
      · rw [hnone, hparse]
        exact ih
      · rw [htarget, hparse]
        simp only [List.filterMap_cons, Event.op?, Grants.issued, List.map_cons, List.sum_cons,
          Grants.issues, List.count_cons, beq_iff_eq] at ih ⊢
        rw [ih, approving, Nat.add_comm]

theorem issued_event (now : Nat) (target : TargetHash) (call : ToolCall) (policy : Policy) :
    Grants.issued target ((call.event policy).op? now).toList = 0 := by
  have hne := event_ne_approval call policy
  cases hevent : call.event policy with
  | approval t deadline => exact absurd hevent (hne t deadline)
  | guarded t => rfl
  | benign => rfl
  | defaultDeny => rfl

theorem issued_append (target : TargetHash) (front back : List (Grants.Op TargetHash)) :
    Grants.issued target (front ++ back) =
      Grants.issued target front + Grants.issued target back := by
  rw [Grants.issued, List.map_append, List.sum_append]
  rfl

/-- A line that spends redeems a grant. -/
theorem spends_le_redeemed (policy : Policy) {turn : Turn} {call : ToolCall}
    (hcall : toolCall? turn.hostLine = some call) (store : Grants.Store TargetHash)
    (approvals : List Event) (target : TargetHash) :
    (spends policy target (turn, call.action policy turn
        (Grants.run store (approvals.filterMap (Event.op? turn.now))))).toNat ≤
      Grants.redeemed store target (callOps turn.now approvals (call.event policy)) := by
  cases hspends : spends policy target (turn, call.action policy turn
      (Grants.run store (approvals.filterMap (Event.op? turn.now)))) with
  | false => exact Nat.zero_le _
  | true =>
      obtain ⟨hguarded, hlive⟩ := live_of_spends hcall hspends
      have hone : Grants.redeems (Grants.run store (approvals.filterMap (Event.op? turn.now)))
          target (.redeem target turn.now) = 1 := if_pos ⟨rfl, hlive⟩
      rw [callOps, hguarded, Grants.redeemed_append]
      refine Nat.le_trans (Nat.le_of_eq hone.symm) (Nat.le_trans ?_ (Nat.le_add_left _ _))
      exact Nat.le_add_right _ _

theorem lastReading_none {turn : Turn} (h : reading? turn = none) (entries : List (Turn × Action))
    (action : Action) : lastReading (entries ++ [(turn, action)]) = lastReading entries := by
  simp only [lastReading, readings, List.filterMap_append, List.filterMap_cons, h,
    List.filterMap_nil, List.append_nil]

theorem readings_some {turn : Turn} {rs : List String} (h : reading? turn = some rs)
    (entries : List (Turn × Action)) (action : Action) :
    readings (entries ++ [(turn, action)]) = readings entries ++ [rs] := by
  simp only [readings, List.filterMap_append, List.filterMap_cons, h, List.filterMap_nil]

theorem lastReading_some {turn : Turn} {rs : List String} (h : reading? turn = some rs)
    (entries : List (Turn × Action)) (action : Action) :
    lastReading (entries ++ [(turn, action)]) = rs := by
  rw [lastReading, readings_some h, List.getLastD_concat]

theorem AppendOnly.front {entries : List (Turn × Action)} {entry : Turn × Action}
    (h : AppendOnly (entries ++ [entry])) : AppendOnly entries := by
  rw [AppendOnly, readings, List.filterMap_append] at h
  exact (List.pairwise_append.mp h).1

/-- A reading starts with the last one before it. -/
theorem AppendOnly.starts_with_last {entries : List (Turn × Action)} {turn : Turn}
    {action : Action} (h : AppendOnly (entries ++ [(turn, action)])) {rs : List String}
    (hreading : reading? turn = some rs) : lastReading entries <+: rs := by
  rw [AppendOnly, readings_some hreading] at h
  have hlast := (List.pairwise_append.mp h).2.2
  rw [lastReading]
  cases hreadings : (readings entries).getLast? with
  | none =>
      rw [List.getLastD_eq_getLast?, hreadings]
      exact List.nil_prefix
  | some last =>
      rw [List.getLastD_eq_getLast?, hreadings]
      exact hlast last (List.mem_of_getLast? hreadings) rs List.mem_cons_self

/-- What one line adds to the count. -/
theorem count_line {policy : Policy} {entries : List (Turn × Action)} {memory memory' : Memory}
    {turn : Turn} {action : Action} (happend : AppendOnly (entries ++ [(turn, action)]))
    (hseen : memory.approvalSeen = (lastReading entries).length)
    (hline : processHostLine policy memory turn = .ok (memory', action)) (target : TargetHash) :
    memory'.approvalSeen = (lastReading (entries ++ [(turn, action)])).length ∧
      (spends policy target (turn, action)).toNat +
          Grants.openGrants memory'.state.grants target + approving target (lastReading entries) ≤
        Grants.openGrants memory.state.grants target +
          approving target (lastReading (entries ++ [(turn, action)])) := by
  cases hcall : toolCall? turn.hostLine with
  | none =>
      obtain rfl := processHostLine_no_toolCall hcall hline
      have hreading : reading? turn = none := by rw [reading?, hcall]; rfl
      rw [lastReading_none hreading, spends_of_no_toolCall hcall]
      exact ⟨hseen, by simp⟩
  | some call =>
      obtain ⟨approvals, hread, rfl, hgrants⟩ := processHostLine_toolCall hcall hline
      have hspent := spends_le_redeemed policy hcall memory.state.grants approvals target
      have hops := Grants.redeemed_add_open_le memory.state.grants target
        (callOps turn.now approvals (call.event policy))
      have hpurge := Grants.redeems_add_open_le (Grants.run memory.state.grants
        (callOps turn.now approvals (call.event policy))) target (.purge turn.now)
      rw [← hgrants] at hpurge
      simp only [Grants.redeems, Grants.issues] at hpurge
      rw [callOps, issued_append, issued_event] at hops
      rcases readApprovals_ok hread with ⟨hfile, hsame, rfl⟩ | ⟨contents, hfile, hlength, rfl⟩
      · have hreading : reading? turn = none := by rw [reading?, hcall, hfile]; rfl
        rw [lastReading_none hreading]
        have hnone : Grants.issued target (([] : List Event).filterMap (Event.op? turn.now)) = 0 := rfl
        rw [hnone, ← callOps] at hops
        exact ⟨hsame.trans hseen, by omega⟩
      · have hreading : reading? turn = some (records contents) := by rw [reading?, hcall, hfile]; rfl
        obtain ⟨fresh, hfresh⟩ := happend.starts_with_last hreading
        rw [lastReading_some hreading]
        rw [← hfresh] at hlength hspent hpurge hops ⊢
        rw [hseen, List.drop_left] at hspent hpurge hops ⊢
        rw [issued_records, ← callOps] at hops
        rw [approving_append]
        exact ⟨hlength, by omega⟩

theorem count_run {policy : Policy} {entries : List (Turn × Action)} {memory : Memory}
    (hreach : Reaches policy entries memory) (happend : AppendOnly entries)
    (target : TargetHash) :
    memory.approvalSeen = (lastReading entries).length ∧
      entries.countP (spends policy target) + Grants.openGrants memory.state.grants target ≤
        approving target (lastReading entries) := by
  induction hreach with
  | start =>
      refine ⟨rfl, ?_⟩
      rw [show ({} : Memory).state.grants = Grants.empty from grants_empty]
      exact Nat.le_refl 0
  | @next entries memory memory' turn action _ hline ih =>
      obtain ⟨hseen, hcount⟩ := ih happend.front
      obtain ⟨hseen', hadd⟩ := count_line happend hseen hline target
      have hsingle : [(turn, action)].countP (spends policy target) =
          (spends policy target (turn, action)).toNat := by
        cases hspends : spends policy target (turn, action) <;> simp [hspends]
      rw [List.countP_append, hsingle]
      exact ⟨hseen', by omega⟩

/-- **One call a record.**  In every run over an append-only control file, the calls let
through for a target are no more than the records that approve it. -/
theorem forwards_le_records {policy : Policy} {entries : List (Turn × Action)} {memory : Memory}
    (hreach : Reaches policy entries memory) (happend : AppendOnly entries)
    (target : TargetHash) :
    entries.countP (spends policy target) ≤ approving target (lastReading entries) :=
  Nat.le_trans (Nat.le_add_right _ _) (count_run hreach happend target).2

/-! ## A sample run -/

theorem accepted_samplePolicy : samplePolicy.Accepted where
  lifetime := by decide
  guarded := by
    intro rule hrule _
    rw [List.mem_singleton.mp hrule]

theorem modes_sampleCall : sampleCall.modes samplePolicy = [.guarded] := by
  simp [ToolCall.modes, matchingModes, samplePolicy, sampleCall, matchRule, matchSpec]

theorem event_sampleCall :
    sampleCall.event samplePolicy = .guarded (sampleCall.target samplePolicy) := by
  rw [ToolCall.event, ToolCall.classify, classify_of_accepted _ _ _ _ _ accepted_samplePolicy,
    ← ToolCall.modes, modes_sampleCall]
  rfl

/-- The control file holds one record. -/
def recordTurn (target : TargetHash) : Turn where
  hostLine := sampleLine
  now := 0
  controlFile := .text (targetRecord target).compress

theorem forward_recordTurn {target : TargetHash}
    (hguarded : sampleCall.event samplePolicy = .guarded target) : ∃ memory,
      processHostLine samplePolicy {} (recordTurn target) = .ok (memory, .forward sampleLine) := by
  have hread : readApprovals samplePolicy (recordTurn target) 0 =
      .ok (1, [.approval target 1000]) := by
    rw [readApprovals, recordTurn, readApprovalsFrom, records_targetRecord]
    simp only [List.drop_zero, List.filterMap_cons, parseApprovalRecord_targetRecord]
    rfl
  have hopen : Grants.run ({} : Memory).state.grants [.issue target 1000] target = some 1000 := by
    rw [show ({} : Memory).state.grants = Grants.empty from grants_empty]
    exact Function.update_self target (some 1000) Grants.empty
  have hlive : Grants.live (Grants.run ({} : Memory).state.grants [.issue target 1000]) target
      0 = true := Grants.live_eq_true.mpr ⟨1000, hopen, Nat.succ_pos 999⟩
  have hops : [Event.approval target 1000].filterMap (Event.op? (recordTurn target).now) =
    [.issue target 1000] := rfl
  obtain ⟨memory, hprocess, -, -⟩ := sampleCall.process_eq samplePolicy {} (recordTurn target) hread
  refine ⟨memory, (processHostLine_of_toolCall toolCall?_sampleLine _ _).trans ?_⟩
  rw [hprocess, ToolCall.action, hguarded, allows, hops, recordTurn, if_pos hlive]

/-- The record approves the call. -/
def sampleTurn : Turn := recordTurn (sampleCall.target samplePolicy)

theorem forward_sampleTurn :
    ∃ memory, processHostLine samplePolicy {} sampleTurn = .ok (memory, .forward sampleLine) :=
  forward_recordTurn event_sampleCall

theorem forwards_le_records_sample :
    ∃ memory, Reaches samplePolicy [(sampleTurn, .forward sampleLine)] memory ∧
      [(sampleTurn, Action.forward sampleLine)].countP
        (spends samplePolicy (sampleCall.target samplePolicy)) ≤
      approving (sampleCall.target samplePolicy)
        (lastReading [(sampleTurn, .forward sampleLine)]) := by
  obtain ⟨memory, hline⟩ := forward_sampleTurn
  have hreach : Reaches samplePolicy [(sampleTurn, .forward sampleLine)] memory :=
    .next .start hline
  refine ⟨memory, hreach, forwards_le_records hreach ?_ _⟩
  have hreading : reading? sampleTurn =
      some (records (targetRecord (sampleCall.target samplePolicy)).compress) := by
    have hcall : toolCall? sampleTurn.hostLine = some sampleCall := toolCall?_sampleLine
    rw [reading?, hcall]
    rfl
  exact (congrArg (List.Pairwise (· <+: ·)) (readings_some hreading [] _)).mpr
    (List.pairwise_singleton _ _)

end McpSeal.Seal
