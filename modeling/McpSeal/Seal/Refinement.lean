import McpSeal.Seal.Mediation
set_option autoImplicit false

/-!
# Seal: the gate against the gate that forgets nothing

The plain gate keeps a store of one-shot grants and never purges it.  The gate of the
source is compared with it line by line.  At any clocks it forwards no call that the
plain gate would refuse; at clocks that do not go back the two cannot be told apart.
-/

namespace McpSeal.Seal

open McpSeal.Foundation
open McpSeal.SealCore

/-- The gate with its automaton replaced by a store of grants. -/
structure PlainGate where
  store : Grants.Store TargetHash := Grants.empty
  seen : Nat := 0

/-- One line, as the plain gate handles it. -/
def plainLine (policy : Policy) (gate : PlainGate) (turn : Turn) :
    Except String (PlainGate × Action) :=
  match toolCall? turn.hostLine with
  | none => (processHostLine policy {} turn).map fun out => (gate, out.2)
  | some call => do
      let (seen, approvals) ← readApprovals policy turn gate.seen
      let ops := approvals.filterMap (Event.op? turn.now)
      pure ({ store := Grants.run gate.store (callOps turn.now approvals (call.event policy)), seen },
        call.action policy turn (Grants.run gate.store ops))

/-- The loop over the host's lines; an empty line or an error ends it. -/
def plainLoop (policy : Policy) (gate : PlainGate) : List Turn → List Action
  | [] => []
  | turn :: rest =>
      if turn.hostLine.isEmpty then []
      else match plainLine policy gate turn with
      | .error _ => []
      | .ok (gate, action) => action :: plainLoop policy gate rest

/-- One line before both gates, when they have seen equally many records. -/
theorem line_cases (policy : Policy) {memory : Memory} {gate : PlainGate}
    (hseen : memory.approvalSeen = gate.seen) (turn : Turn) :
    (toolCall? turn.hostLine = none ∧ ∃ action, processHostLine policy memory turn =
        .ok (memory, action) ∧ plainLine policy gate turn = .ok (gate, action)) ∨
    (∃ err, processHostLine policy memory turn = .error err ∧
      plainLine policy gate turn = .error err) ∨
    ∃ call approvals memory', toolCall? turn.hostLine = some call ∧
      processHostLine policy memory turn = .ok (memory', call.action policy turn
        (Grants.run memory.state.grants (approvals.filterMap (Event.op? turn.now)))) ∧
      memory'.state.grants = Grants.step (Grants.run memory.state.grants
        (callOps turn.now approvals (call.event policy))) (.purge turn.now) ∧
      plainLine policy gate turn = .ok ({
        store := Grants.run gate.store (callOps turn.now approvals (call.event policy)),
        seen := memory'.approvalSeen }, call.action policy turn
        (Grants.run gate.store (approvals.filterMap (Event.op? turn.now)))) := by
  cases hcall : toolCall? turn.hostLine with
  | none =>
      obtain ⟨action, haction⟩ := processHostLine_of_no_toolCall hcall policy
      refine Or.inl ⟨rfl, action, haction memory, ?_⟩
      rw [plainLine, hcall, haction]
      rfl
  | some call =>
      rw [processHostLine_of_toolCall hcall]
      cases hread : readApprovals policy turn memory.approvalSeen with
      | error err =>
          refine Or.inr (Or.inl ⟨err, ?_, ?_⟩)
          · have hread : readApprovalsFrom policy.approvalFile turn.controlFile memory.approvalSeen
                turn.now policy.approvalTtlMs = .error err := hread
            rw [ToolCall.process, processToolCall, hread]
            rfl
          · rw [plainLine, hcall, ← hseen, hread]
            rfl
      | ok found =>
          obtain ⟨memory', hprocess, hseen', hgrants⟩ := call.process_eq policy memory turn hread
          refine Or.inr (Or.inr ⟨call, found.2, memory', rfl, hprocess, hgrants, ?_⟩)
          rw [plainLine, hcall, ← hseen, hread, hseen']
          rfl

/-- The operations purge nothing and read no other clock. -/
def At (now : Nat) (ops : List (Grants.Op TargetHash)) : Prop :=
  ∀ op ∈ ops, op.isPurge = false ∧ ∀ time ∈ op.now?, time = now

theorem At.sub {now : Nat} {ops : List (Grants.Op TargetHash)} (h : At now ops)
    {s t : Grants.Store TargetHash} (hsub : Grants.Sub s t) :
    Grants.Sub (Grants.run s ops) (Grants.run t ops) :=
  hsub.run fun op hop => (h op hop).1

theorem At.agree {now : Nat} {ops : List (Grants.Op TargetHash)} (h : At now ops)
    {s t : Grants.Store TargetHash} (hagree : Grants.AgreeFrom now s t) :
    Grants.AgreeFrom now (Grants.run s ops) (Grants.run t ops) :=
  hagree.run (fun op hop time htime => Nat.le_of_eq ((h op hop).2 time htime).symm)
    fun op hop => (h op hop).1

theorem op?_at {now : Nat} {e : Event} {op : Grants.Op TargetHash} (h : e.op? now = some op) :
    op.isPurge = false ∧ ∀ time ∈ op.now?, time = now := by
  cases e with
  | approval target deadline =>
      obtain rfl := Option.some.inj h
      exact ⟨rfl, fun time htime => absurd htime (Option.not_mem_none time)⟩
  | guarded target =>
      obtain rfl := Option.some.inj h
      exact ⟨rfl, fun _ htime => (Option.some.inj htime).symm⟩
  | benign => contradiction
  | defaultDeny => contradiction

theorem approvalOps_at (now : Nat) (approvals : List Event) :
    At now (approvals.filterMap (Event.op? now)) := by
  intro op hop
  obtain ⟨e, _, he⟩ := List.mem_filterMap.mp hop
  exact op?_at he

theorem callOps_at (now : Nat) (approvals : List Event) (event : Event) :
    At now (callOps now approvals event) := by
  intro op hop
  rcases List.mem_append.mp hop with hmem | hmem
  · exact approvalOps_at now approvals op hmem
  · exact op?_at (Option.mem_toList.mp hmem)

/-! ## Any clocks -/

/-- The plain gate forwards whatever the gate forwards. -/
def NoLaxer (action plain : Action) : Prop :=
  action.isForward = true → plain = action

theorem allows_of_sub {now : Nat} {s t : Grants.Store TargetHash} (h : Grants.Sub s t) {e : Event}
    (hallows : allows now s e = true) : allows now t e = true := by
  cases e with
  | approval target deadline => rfl
  | guarded target => exact h.live hallows
  | benign => rfl
  | defaultDeny => exact hallows

theorem noLaxer_of_sub {s t : Grants.Store TargetHash} (h : Grants.Sub s t) (call : ToolCall)
    (policy : Policy) (turn : Turn) :
    NoLaxer (call.action policy turn s) (call.action policy turn t) := by
  intro hforward
  have hallows : allows turn.now s (call.event policy) = true := by
    by_contra hnot
    rw [ToolCall.action, if_neg hnot] at hforward
    exact Bool.noConfusion hforward
  rw [ToolCall.action, ToolCall.action, if_pos hallows, if_pos (allows_of_sub h hallows)]

theorem noLaxer_loop (policy : Policy) {memory : Memory} {gate : PlainGate}
    (hseen : memory.approvalSeen = gate.seen) (hsub : Grants.Sub memory.state.grants gate.store)
    (turns : List Turn) :
    List.Forall₂ NoLaxer (hostLoop policy memory turns) (plainLoop policy gate turns) := by
  induction turns generalizing memory gate with
  | nil => exact .nil
  | cons turn rest ih =>
      rw [hostLoop, plainLoop]
      split
      · exact .nil
      rcases line_cases policy hseen turn with ⟨-, action, hline, hplain⟩ | ⟨err, hline, hplain⟩ |
        ⟨call, approvals, memory', -, hline, hgrants, hplain⟩
      · rw [hline, hplain]
        exact .cons (fun _ => rfl) (ih hseen hsub)
      · rw [hline, hplain]
        exact .nil
      · rw [hline, hplain]
        have hjudged := (approvalOps_at turn.now approvals).sub hsub
        have hafter := (callOps_at turn.now approvals (call.event policy)).sub hsub
        refine .cons (noLaxer_of_sub hjudged call policy turn) (ih rfl ?_)
        rw [hgrants]
        exact hafter.purge rfl

/-- **Purging is safe.**  Whatever the clocks, every line the gate forwards is forwarded
by the gate that never purges. -/
theorem hostLoop_noLaxer (policy : Policy) (turns : List Turn) :
    List.Forall₂ NoLaxer (hostLoop policy {} turns) (plainLoop policy {} turns) := by
  refine noLaxer_loop policy rfl ?_ turns
  rw [show ({} : Memory).state.grants = Grants.empty from grants_empty]
  exact Grants.Sub.refl _

/-! ## Clocks that do not go back -/

/-- The clocks the gate reads, one for each tool call. -/
def callClocks (turns : List Turn) : List Nat :=
  turns.filterMap fun turn => (toolCall? turn.hostLine).map fun _ => turn.now

theorem action_of_agree {s t : Grants.Store TargetHash} {turn : Turn}
    (h : Grants.AgreeFrom turn.now s t) (call : ToolCall) (policy : Policy) :
    call.action policy turn s = call.action policy turn t := by
  have hallows : allows turn.now s (call.event policy) = allows turn.now t (call.event policy) := by
    cases call.event policy with
    | guarded target => exact h target turn.now (Nat.le_refl _)
    | _ => rfl
  rw [ToolCall.action, ToolCall.action, hallows]

theorem hostLoop_eq_of_agree (policy : Policy) {memory : Memory} {gate : PlainGate} {now : Nat}
    (hseen : memory.approvalSeen = gate.seen)
    (hagree : Grants.AgreeFrom now memory.state.grants gate.store) {turns : List Turn}
    (hordered : (callClocks turns).Pairwise (· ≤ ·)) (hnow : ∀ time ∈ callClocks turns, now ≤ time) :
    hostLoop policy memory turns = plainLoop policy gate turns := by
  induction turns generalizing memory gate now with
  | nil => rfl
  | cons turn rest ih =>
      rw [hostLoop, plainLoop]
      split
      · rfl
      rcases line_cases policy hseen turn with ⟨hcall, action, hline, hplain⟩ | ⟨err, hline, hplain⟩ |
        ⟨call, approvals, memory', hcall, hline, hgrants, hplain⟩
      · simp only [callClocks, List.filterMap_cons, hcall, Option.map_none] at hordered hnow
        rw [hline, hplain]
        exact congrArg _ (ih hseen hagree hordered hnow)
      · rw [hline, hplain]
      · simp only [callClocks, List.filterMap_cons, hcall, Option.map_some] at hordered hnow
        obtain ⟨hlater, hordered⟩ := List.pairwise_cons.mp hordered
        have hturn := hagree.mono (hnow turn.now List.mem_cons_self)
        have hjudged := (approvalOps_at turn.now approvals).agree hturn
        have hafter := (callOps_at turn.now approvals (call.event policy)).agree hturn
        rw [hline, hplain, action_of_agree hjudged call policy]
        refine congrArg _ (ih rfl ?_ hordered hlater)
        rw [hgrants]
        exact hafter.purge

/-- **Purging is invisible.**  As long as the clock does not go back between tool calls,
the gate answers as the gate that never purges. -/
theorem hostLoop_eq_plainLoop (policy : Policy) {turns : List Turn}
    (hordered : (callClocks turns).Pairwise (· ≤ ·)) :
    hostLoop policy {} turns = plainLoop policy {} turns := by
  refine hostLoop_eq_of_agree policy rfl ?_ hordered fun time _ => Nat.zero_le time
  rw [show ({} : Memory).state.grants = Grants.empty from grants_empty]
  exact fun _ _ _ => rfl

theorem hostLoop_eq_plainLoop_sample :
    hostLoop samplePolicy {} [sampleTurn, sampleTurn] =
      plainLoop samplePolicy {} [sampleTurn, sampleTurn] := by
  refine hostLoop_eq_plainLoop samplePolicy ?_
  have hcall : toolCall? sampleTurn.hostLine = some sampleCall := toolCall?_sampleLine
  simp [callClocks, hcall]

end McpSeal.Seal
