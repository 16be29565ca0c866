import McpSeal.Seal.Channel
import McpSeal.Seal.Classify
import McpSeal.Seal.NumberAgreement
set_option autoImplicit false

/-!
# Seal: the stdio gate (`Seal/Main.lean`, `Seal/Block.lean`)

The gate stands between a host and a server.  Each line of the host is forwarded to
the server or answered by the gate.  Between lines the gate keeps the open approvals
and the number of records it has seen.  What a line finds when it is handled, the
clock and the control file, is part of the turn.
-/

namespace McpSeal.Seal

open McpSeal.Data (Json)
open McpSeal.SealCore
open McpSeal.Seal.JsonUtil

/-! ## Replies -/

/-- The reply the host gets in place of the server's: a tool error that names the
target to approve. -/
def blockResponseLine (id : Json) (targetText : String) : String :=
  let response := Json.mkObj [
    ("jsonrpc", .str "2.0"),
    ("id", id),
    ("result", Json.mkObj [
      ("content", .arr [
        Json.mkObj [
          ("type", .str "text"),
          ("text", .str ("approval required: " ++ targetText))
        ]
      ]),
      ("isError", .bool true)
    ])
  ]
  response.compress ++ "\n"

/-- A refusal that is no offer of an approval. -/
def errorResponseLine (id : Json) (message : String) : String :=
  let response := Json.mkObj [
    ("jsonrpc", .str "2.0"),
    ("id", id),
    ("result", Json.mkObj [
      ("content", .arr [
        Json.mkObj [
          ("type", .str "text"),
          ("text", .str message)
        ]
      ]),
      ("isError", .bool true)
    ])
  ]
  response.compress ++ "\n"

/-- The id a reply has to carry, null if the request has none. -/
def jsonId (json : Json) : Json :=
  (json.getObjVal? "id").toOption.getD Json.null

/-! ## The loop -/

/-- A line of the host, and what it finds when it is handled. -/
structure Turn where
  hostLine : String
  /-- Milliseconds since the Unix epoch. -/
  now : Nat
  controlFile : ControlFile

/-- What becomes of a line. -/
inductive Action where
  /-- The line is written to the server. -/
  | forward (line : String)
  /-- The gate answers the host. -/
  | reply (line : String)

/-- The references of the loop. -/
structure Memory where
  state : State := .empty
  approvalSeen : Nat := 0

/-- The part of `processHostLine` that handles a tool call. -/
def processToolCall (policy : Policy) (memory : Memory) (turn : Turn) (json : Json)
    (toolName : String) (toolArgs : Json) (metadata : ValidatedMeta)
    (requestState : RequestState) (inputResponses : InputResponses) :
    Except String (Memory × Action) := do
  let (newSeen, approvals) ←
    readApprovalsFrom policy.approvalFile turn.controlFile memory.approvalSeen turn.now
      policy.approvalTtlMs
  let st1 := run turn.now memory.state approvals
  let hostEvent :=
    classifyToolCallWithContext policy toolName toolArgs metadata requestState inputResponses
  let (decision, st2) := step turn.now st1 hostEvent.toEvent
  let memory := { state := { approved := prune turn.now st2.approved }, approvalSeen := newSeen }
  match decision with
  | .allow => pure (memory, .forward turn.hostLine)
  | .block => pure (memory, .reply (blockResponseLine (jsonId json) hostEvent.targetText))

/-- Handle one line.  An error ends the loop. -/
def processHostLine (policy : Policy) (memory : Memory) (turn : Turn) :
    Except String (Memory × Action) :=
  let trimmed := trimAscii turn.hostLine
  if !wireNumbersSafe trimmed then
    pure (memory, .reply (blockResponseLine Json.null "unsafe numeric literal"))
  else match firstAgreementUnsafeNumber? trimmed with
  | some literal =>
      pure (memory, .reply (errorResponseLine Json.null
        ("numeric literal is not IEEE-754 agreement-safe: " ++ literal)))
  | none =>
    -- refused before parsing, which would keep one of the bindings of a repeated key
    if !wireKeysSafe trimmed then
      pure (memory, .reply (blockResponseLine Json.null "duplicate or escaped object key"))
    else if !wireDigitsSafe trimmed then
      pure (memory, .reply (blockResponseLine Json.null "number exceeds significant-digit bound"))
    else match Json.parse trimmed with
    | .error _ => pure (memory, .forward turn.hostLine)
    | .ok json =>
        match toolsCallWithContext? json with
        | .error reason =>
            pure (memory, .reply (blockResponseLine (jsonId json)
              ("invalid tools/call metadata: " ++ reason)))
        | .ok none => pure (memory, .forward turn.hostLine)
        | .ok (some (toolName, toolArgs, metadata, requestState, inputResponses)) =>
            processToolCall policy memory turn json toolName toolArgs metadata requestState
              inputResponses

/-- What becomes of the lines of the host, up to the end of its input or an error. -/
def hostLoop (policy : Policy) (memory : Memory) : List Turn → List Action
  | [] => []
  | turn :: rest =>
      if turn.hostLine.isEmpty then []
      else match processHostLine policy memory turn with
      | .error _ => []
      | .ok (memory, action) => action :: hostLoop policy memory rest

/-! ## What a line does -/

/-- The tool call of a line that is handled as one. -/
structure ToolCall where
  json : Json
  toolName : String
  toolArgs : Json
  metadata : ValidatedMeta
  requestState : RequestState
  inputResponses : InputResponses

/-- The checks a line passes before it is parsed. -/
def wireSafe (trimmed : String) : Bool :=
  wireNumbersSafe trimmed && (firstAgreementUnsafeNumber? trimmed).isNone &&
    wireKeysSafe trimmed && wireDigitsSafe trimmed

/-- The tool call a line is handled as, if it is. -/
def toolCall? (hostLine : String) : Option ToolCall :=
  if wireSafe (trimAscii hostLine) then
    match Json.parse (trimAscii hostLine) with
    | .error _ => none
    | .ok json =>
        match toolsCallWithContext? json with
        | .ok (some (toolName, toolArgs, metadata, requestState, inputResponses)) =>
            some { json, toolName, toolArgs, metadata, requestState, inputResponses }
        | _ => none
  else none

/-- What the policy makes of a call. -/
def ToolCall.classify (call : ToolCall) (policy : Policy) : HostEvent :=
  classifyToolCallWithContext policy call.toolName call.toolArgs call.metadata call.requestState
    call.inputResponses

/-- `processToolCall` on the parts of the call. -/
def ToolCall.process (call : ToolCall) (policy : Policy) (memory : Memory) (turn : Turn) :
    Except String (Memory × Action) :=
  processToolCall policy memory turn call.json call.toolName call.toolArgs call.metadata
    call.requestState call.inputResponses

/-- A line that fails a check is answered without being looked at further. -/
theorem processHostLine_of_unsafe {turn : Turn} (h : wireSafe (trimAscii turn.hostLine) = false)
    (policy : Policy) :
    ∃ text, ∀ memory, processHostLine policy memory turn = .ok (memory, .reply text) := by
  unfold wireSafe at h
  cases hnumbers : wireNumbersSafe (trimAscii turn.hostLine) with
  | false => exact ⟨_, fun memory => by simp [processHostLine, hnumbers]; rfl⟩
  | true =>
      cases hagree : firstAgreementUnsafeNumber? (trimAscii turn.hostLine) with
      | some literal => exact ⟨_, fun memory => by simp [processHostLine, hnumbers, hagree]; rfl⟩
      | none =>
          cases hkeys : wireKeysSafe (trimAscii turn.hostLine) with
          | false =>
              exact ⟨_, fun memory => by simp [processHostLine, hnumbers, hagree, hkeys]; rfl⟩
          | true =>
              have hdigits : wireDigitsSafe (trimAscii turn.hostLine) = false := by
                simpa [hnumbers, hagree, hkeys] using h
              exact ⟨_, fun memory => by
                simp [processHostLine, hnumbers, hagree, hkeys, hdigits]; rfl⟩

/-- What becomes of a line that passes the checks. -/
theorem processHostLine_of_safe {turn : Turn} (h : wireSafe (trimAscii turn.hostLine) = true)
    (policy : Policy) (memory : Memory) :
    processHostLine policy memory turn =
      match Json.parse (trimAscii turn.hostLine) with
      | .error _ => pure (memory, .forward turn.hostLine)
      | .ok json =>
          match toolsCallWithContext? json with
          | .error reason =>
              pure (memory, .reply (blockResponseLine (jsonId json)
                ("invalid tools/call metadata: " ++ reason)))
          | .ok none => pure (memory, .forward turn.hostLine)
          | .ok (some (toolName, toolArgs, metadata, requestState, inputResponses)) =>
              processToolCall policy memory turn json toolName toolArgs metadata requestState
                inputResponses := by
  simp only [wireSafe, Bool.and_eq_true, Option.isNone_iff_eq_none] at h
  obtain ⟨⟨⟨hnumbers, hagree⟩, hkeys⟩, hdigits⟩ := h
  simp only [processHostLine, hnumbers, hagree, hkeys, hdigits, Bool.not_true,
    Bool.false_eq_true, if_false]

theorem processHostLine_of_toolCall {turn : Turn} {call : ToolCall}
    (h : toolCall? turn.hostLine = some call) (policy : Policy) (memory : Memory) :
    processHostLine policy memory turn = call.process policy memory turn := by
  cases hsafe : wireSafe (trimAscii turn.hostLine) with
  | false => simp [toolCall?, hsafe] at h
  | true =>
      rw [processHostLine_of_safe hsafe]
      rw [toolCall?, if_pos hsafe] at h
      cases hparse : Json.parse (trimAscii turn.hostLine) with
      | error err => simp [hparse] at h
      | ok json =>
          simp only [hparse] at h ⊢
          cases hcall : toolsCallWithContext? json with
          | error reason => simp [hcall] at h
          | ok found =>
              cases found with
              | none => simp [hcall] at h
              | some found =>
                  obtain ⟨toolName, toolArgs, metadata, requestState, inputResponses⟩ := found
                  simp only [hcall, Option.some.injEq] at h ⊢
                  subst h
                  rfl

/-- A line that is not handled as a tool call neither reads nor changes the memory. -/
theorem processHostLine_of_no_toolCall {turn : Turn} (h : toolCall? turn.hostLine = none)
    (policy : Policy) :
    ∃ action, ∀ memory, processHostLine policy memory turn = .ok (memory, action) := by
  cases hsafe : wireSafe (trimAscii turn.hostLine) with
  | false =>
      obtain ⟨text, htext⟩ := processHostLine_of_unsafe hsafe policy
      exact ⟨_, htext⟩
  | true =>
      simp only [processHostLine_of_safe hsafe]
      rw [toolCall?, if_pos hsafe] at h
      cases hparse : Json.parse (trimAscii turn.hostLine) with
      | error err => exact ⟨_, fun _ => rfl⟩
      | ok json =>
          simp only [hparse] at h ⊢
          cases hcall : toolsCallWithContext? json with
          | error reason => exact ⟨_, fun _ => rfl⟩
          | ok found =>
              cases found with
              | none => exact ⟨_, fun _ => rfl⟩
              | some found => simp [hcall] at h

-- from here on a line is taken through the lemmas above
attribute [irreducible] processHostLine toolCall?

/-! ## The commitment of a call -/

/-- The effect a call has on the server of the policy. -/
def ToolCall.effect (call : ToolCall) (policy : Policy) : Effect :=
  callEffect policy call.toolName call.toolArgs call.metadata call.requestState
    call.inputResponses

theorem ordered_effect {hostLine : String} {call : ToolCall} (h : toolCall? hostLine = some call)
    (policy : Policy) : (call.effect policy).Ordered := by
  rw [toolCall?] at h
  split at h
  · cases hparse : Json.parse (trimAscii hostLine) with
    | error err => simp [hparse] at h
    | ok json =>
        simp only [hparse] at h
        cases hcall : toolsCallWithContext? json with
        | error reason => simp [hcall] at h
        | ok found =>
            cases found with
            | none => simp [hcall] at h
            | some found =>
                simp only [hcall, Option.some.injEq] at h
                subst h
                exact ordered_of_toolsCall (Json.keysSorted_of_parse hparse) policy hcall
  · exact absurd h (Option.some_ne_none call).symm

/-- **Deriving a commitment again.**  For every call the gate handles, a host that reads
the compact texts of its effect derives the same commitment, of an effect that says the
same. -/
theorem rederived_commitment {hostLine : String} {call : ToolCall}
    (hcall : toolCall? hostLine = some call) {policy : Policy} {e : Effect}
    (h : (call.effect policy).Rederived e) :
    e.commitment = (call.effect policy).commitment ∧
      e.meaning = (call.effect policy).meaning :=
  commitment_rederivation_stable (ordered_effect hcall policy) h

/-! ## A sample call -/

/-- A policy of one guarded tool. -/
def samplePolicy : Policy where
  approvalTtlMs := 1000
  approvalFile := "approvals.jsonl"
  tools := [{ name := "pay", mode := .guarded, target := [.fullArguments] }]

/-- The arguments of a call to it. -/
def sampleArgs : Json := .obj [("amount", .num ⟨5, 0⟩)]

/-- The request, in key order. -/
def sampleJson : Json :=
  .obj [("method", .str "tools/call"),
    ("params", .obj [("arguments", sampleArgs), ("name", .str "pay")])]

/-- The request as the host sends it. -/
def sampleLine : String := sampleJson.compress

/-- The call the line makes. -/
def sampleCall : ToolCall where
  json := sampleJson
  toolName := "pay"
  toolArgs := sampleArgs
  metadata := .absent
  requestState := .absent
  inputResponses := .absent

theorem normal_sampleJson : Json.Normal sampleJson := by
  have hsorted : Json.SortedKeys [("method", Json.str "tools/call"),
        ("params", Json.obj [("arguments", sampleArgs), ("name", Json.str "pay")])] ∧
      Json.SortedKeys [("arguments", sampleArgs), ("name", Json.str "pay")] := by
    unfold Json.SortedKeys
    decide
  have hamount : Json.NormalNumber ⟨5, 0⟩ :=
    ⟨fun h => absurd h (Nat.lt_irrefl 0), Nat.zero_le _⟩
  simp only [sampleJson, sampleArgs, Json.Normal, Json.NormalFields] at hsorted ⊢
  exact ⟨hsorted.1, trivial,
    ⟨hsorted.2, ⟨List.pairwise_singleton _ _, hamount, trivial⟩, trivial, trivial⟩, trivial⟩

theorem wireSafe_sampleLine : wireSafe (trimAscii sampleLine) = true := by
  decide +kernel

theorem trimAscii_sampleLine : trimAscii sampleLine = sampleLine := by
  decide +kernel

theorem parse_sampleLine : Json.parse (trimAscii sampleLine) = .ok sampleJson := by
  rw [trimAscii_sampleLine, sampleLine, Json.parse_compress normal_sampleJson]

theorem toolCall?_sampleLine : toolCall? sampleLine = some sampleCall := by
  rw [toolCall?, if_pos wireSafe_sampleLine, parse_sampleLine]
  rfl

theorem rederived_commitment_sample :
    (sampleCall.effect samplePolicy).commitment = (sampleCall.effect samplePolicy).commitment ∧
      (sampleCall.effect samplePolicy).meaning = (sampleCall.effect samplePolicy).meaning :=
  rederived_commitment toolCall?_sampleLine {
    server := rfl
    tool := rfl
    arguments := Json.parse_compress normal_sampleJson.2.2.1.2.1
    metadata := trivial
    requestState := trivial
    inputResponses := trivial }

end McpSeal.Seal
