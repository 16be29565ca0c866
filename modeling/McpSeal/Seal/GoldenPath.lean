import McpSeal.Seal.Mediation
set_option autoImplicit false

/-!
# Seal: the way to an approved call

A guarded call is blocked, its target is shown, the record made of what was shown is
appended to the control file, and the call goes through: once.
-/

namespace McpSeal.Seal

open McpSeal.Data (Json)
open McpSeal.Foundation
open McpSeal.SealCore

section Line

variable {policy : Policy} (memory : Memory) (turn : Turn) {call : ToolCall}
  {target : TargetHash}

/-- What a guarded call finds in a control file that can be read. -/
theorem guarded_line (hcall : toolCall? turn.hostLine = some call)
    (hguarded : call.event policy = .guarded target) {contents : String}
    (hfile : turn.controlFile = .text contents) {ops : List (Grants.Op TargetHash)}
    (hops : (((records contents).drop memory.approvalSeen).filterMap
      (parseApprovalRecord turn.now policy.approvalTtlMs)).filterMap (Event.op? turn.now) = ops) :
    ∃ memory', processHostLine policy memory turn =
        .ok (memory', call.action policy turn (Grants.run memory.state.grants ops)) ∧
      memory'.approvalSeen = (records contents).length ∧
      memory'.state.grants = Grants.step (Grants.step (Grants.run memory.state.grants ops)
        (.redeem target turn.now)) (.purge turn.now) := by
  have hread : readApprovals policy turn memory.approvalSeen = .ok ((records contents).length,
      ((records contents).drop memory.approvalSeen).filterMap
        (parseApprovalRecord turn.now policy.approvalTtlMs)) := by
    rw [readApprovals, hfile]
    rfl
  obtain ⟨memory', hprocess, hseen, hgrants⟩ := call.process_eq policy memory turn hread
  rw [hops] at hprocess
  rw [callOps, hops, hguarded, Grants.run_append] at hgrants
  exact ⟨memory', (processHostLine_of_toolCall hcall policy memory).trans hprocess, hseen, hgrants⟩

/-- A call whose target no open or new approval names is blocked and shown its target. -/
theorem blocked_line (hcall : toolCall? turn.hostLine = some call)
    (hguarded : call.event policy = .guarded target) {contents : String}
    (hfile : turn.controlFile = .text contents) (hclosed : memory.state.grants target = none)
    (hfresh : ∀ record ∈ (records contents).drop memory.approvalSeen,
      recordTarget? record ≠ some target) :
    ∃ memory', processHostLine policy memory turn = .ok (memory',
        .reply (blockResponseLine (jsonId call.json) target.toHex)) ∧
      memory'.approvalSeen = (records contents).length ∧
      memory'.state.grants target = none := by
  obtain ⟨memory', hline, hseen, hgrants⟩ :=
    guarded_line memory turn hcall hguarded hfile rfl
  have hnone : Grants.run memory.state.grants ((((records contents).drop
      memory.approvalSeen).filterMap (parseApprovalRecord turn.now policy.approvalTtlMs)).filterMap
        (Event.op? turn.now)) target = none := by
    refine Option.eq_none_iff_forall_ne_some.mpr fun deadline hopen => ?_
    rcases Grants.open_of_run hopen with hbefore | hissue
    · exact absurd (hclosed.symm.trans hbefore) (Option.some_ne_none deadline).symm
    · have hmem : .issue target deadline ∈ callOps turn.now (((records contents).drop
          memory.approvalSeen).filterMap (parseApprovalRecord turn.now policy.approvalTtlMs))
            (call.event policy) := List.mem_append_left _ hissue
      obtain ⟨record, hrecord, hparse⟩ := List.mem_filterMap.mp (issue_mem_callOps hmem)
      rcases parseApprovalRecord_cases turn.now policy.approvalTtlMs record with
        ⟨-, hno⟩ | ⟨target', deadline', htarget, hsome, -⟩
      · exact absurd (hno.symm.trans hparse) (Option.some_ne_none _).symm
      · obtain ⟨rfl, -⟩ := Event.approval.inj (Option.some.inj (hsome.symm.trans hparse))
        exact hfresh record hrecord htarget
  have hdead : Grants.live (Grants.run memory.state.grants ((((records contents).drop
      memory.approvalSeen).filterMap (parseApprovalRecord turn.now policy.approvalTtlMs)).filterMap
        (Event.op? turn.now))) target turn.now = false := by
    rw [Grants.live, hnone]
  refine ⟨memory', ?_, hseen, ?_⟩
  · rw [hline, ToolCall.action, hguarded, allows, hdead]
    have htext : (call.classify policy).targetText = target.toHex :=
      targetText_of_guarded policy _ _ _ _ _ hguarded
    rw [htext]
    rfl
  · rw [hgrants]
    exact Grants.none_of_step (Grants.none_of_step hnone (by simp)) (by simp)

/-- A call whose target the last new record approves is forwarded, and uses it up. -/
theorem approved_line (hcall : toolCall? turn.hostLine = some call)
    (hguarded : call.event policy = .guarded target) {contents : String}
    (hfile : turn.controlFile = .text (contents ++ "\n" ++ (targetRecord target).compress))
    (hseen : memory.approvalSeen ≤ (records contents).length) (httl : 0 < policy.approvalTtlMs) :
    ∃ memory', processHostLine policy memory turn = .ok (memory', .forward turn.hostLine) ∧
      memory'.approvalSeen = (records (contents ++ "\n" ++ (targetRecord target).compress)).length ∧
      memory'.state.grants target = none := by
  have hops : (((records (contents ++ "\n" ++ (targetRecord target).compress)).drop
      memory.approvalSeen).filterMap (parseApprovalRecord turn.now policy.approvalTtlMs)).filterMap
        (Event.op? turn.now) =
      (((records contents).drop memory.approvalSeen).filterMap
        (parseApprovalRecord turn.now policy.approvalTtlMs)).filterMap (Event.op? turn.now) ++
        [.issue target (turn.now + policy.approvalTtlMs)] := by
    rw [records_append, records_targetRecord, List.drop_append_of_le_length hseen,
      List.filterMap_append, List.filterMap_append, List.filterMap_cons_some
        (parseApprovalRecord_targetRecord turn.now policy.approvalTtlMs target)]
    rfl
  obtain ⟨memory', hline, hseen', hgrants⟩ :=
    guarded_line memory turn hcall hguarded hfile hops
  rw [Grants.run_append] at hline hgrants
  have hlive (s : Grants.Store TargetHash) : Grants.live (Grants.run s
      [.issue target (turn.now + policy.approvalTtlMs)]) target turn.now = true := by
    refine Grants.live_eq_true.mpr ⟨turn.now + policy.approvalTtlMs, ?_, by omega⟩
    exact Function.update_self target _ s
  refine ⟨memory', ?_, hseen', ?_⟩
  · rw [hline, ToolCall.action, hguarded, allows, if_pos (hlive _)]
  · rw [hgrants]
    exact Grants.none_of_step (Grants.step_redeem_self (hlive _)) (by simp)

end Line

theorem toolCall?_empty : toolCall? "" = none := by
  rw [toolCall?]
  decide

/-- **The golden path.**  A guarded call that nothing approves is blocked and shown a
text.  After the record with that text is appended the same call is forwarded, and the
one after it is blocked again. -/
theorem golden_path {policy : Policy} {hostLine : String} {call : ToolCall} {target : TargetHash}
    (hcall : toolCall? hostLine = some call) (hguarded : call.event policy = .guarded target)
    {contents : String} (hfresh : ∀ record ∈ records contents, recordTarget? record ≠ some target)
    (httl : 0 < policy.approvalTtlMs) (now₁ now₂ now₃ : Nat) :
    let blocked := Action.reply (blockResponseLine (jsonId call.json) target.toHex)
    let approved := contents ++ "\n" ++ (targetRecord target).compress
    hostLoop policy {} [⟨hostLine, now₁, .text contents⟩, ⟨hostLine, now₂, .text approved⟩,
      ⟨hostLine, now₃, .text approved⟩] = [blocked, .forward hostLine, blocked] := by
  intro blocked approved
  have hline : hostLine.isEmpty = false := by
    rw [← Bool.not_eq_true, String.isEmpty_iff]
    rintro rfl
    exact absurd (toolCall?_empty.symm.trans hcall) (Option.some_ne_none call).symm
  have hempty : ({} : Memory).state.grants target = none := congrFun grants_empty target
  obtain ⟨m₁, h₁, hseen₁, hclosed₁⟩ := blocked_line {}
    ⟨hostLine, now₁, .text contents⟩ hcall hguarded rfl hempty hfresh
  obtain ⟨m₂, h₂, hseen₂, hclosed₂⟩ := approved_line m₁
    ⟨hostLine, now₂, .text approved⟩ hcall hguarded rfl (Nat.le_of_eq hseen₁) httl
  obtain ⟨m₃, h₃, -, -⟩ := blocked_line m₂
    ⟨hostLine, now₃, .text approved⟩ hcall hguarded rfl hclosed₂ (by
      rw [hseen₂, List.drop_length]
      exact fun _ hrecord => absurd hrecord List.not_mem_nil)
  simp only [hostLoop, hline, h₁, h₂, h₃, Bool.false_eq_true, if_false]
  rfl

theorem golden_path_sample :
    let target := sampleCall.target samplePolicy
    let blocked := Action.reply (blockResponseLine (jsonId sampleJson) target.toHex)
    let approved := "" ++ "\n" ++ (targetRecord target).compress
    hostLoop samplePolicy {} [⟨sampleLine, 1, .text ""⟩, ⟨sampleLine, 2, .text approved⟩,
      ⟨sampleLine, 3, .text approved⟩] = [blocked, .forward sampleLine, blocked] := by
  refine golden_path toolCall?_sampleLine event_sampleCall ?_ (by decide) 1 2 3
  have hnone : records "" = [] := by decide
  rw [hnone]
  exact fun _ hrecord => absurd hrecord List.not_mem_nil

end McpSeal.Seal
