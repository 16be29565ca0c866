import McpSeal.Seal.KeySafety
import McpSeal.Seal.Mediation
import McpSeal.Seal.NumberRounding
set_option autoImplicit false

/-!
# Seal: what the server sees of a line the gate lets through

The gate judges the value its own parser reads and forwards the bytes.  The
server reads the bytes again, with a parser of its own that may keep the first
of two members with one key and keeps its numbers in binary64.  On a forwarded
line that makes no difference: the calls the server can see are the calls the
gate has judged, and its numbers are the numbers of the line.
-/

namespace McpSeal.Seal

open McpSeal.Data (Json jsonRat)
open McpSeal.Data.Json (Raw)
open McpSeal.Seal.JsonUtil

/-- The tool call a server finds on a line, given what it does with a repeated key. -/
def readCall? (binder : Raw.Binder) (line : String) : Option ToolCall :=
  match (Json.parseRaw (trimAscii line)).bind (Raw.read binder) with
  | .error _ => none
  | .ok json =>
      match toolsCallWithContext? json with
      | .ok (some (toolName, toolArgs, metadata, requestState, inputResponses)) =>
          some { json, toolName, toolArgs, metadata, requestState, inputResponses }
      | _ => none

section Line

variable {policy : Policy} {memory memory' : Memory} {turn : Turn} {line : String}

/-- A line is forwarded as it came, and only if it passes the checks on its text. -/
theorem wireSafe_of_forward
    (hline : processHostLine policy memory turn = .ok (memory', .forward line)) :
    line = turn.hostLine ∧ wireSafe (trimAscii turn.hostLine) = true := by
  have hsafe : wireSafe (trimAscii turn.hostLine) = true := by
    cases hsafe : wireSafe (trimAscii turn.hostLine) with
    | true => rfl
    | false =>
        obtain ⟨text, htext⟩ := processHostLine_of_unsafe hsafe policy
        rw [htext memory] at hline
        exact Action.noConfusion (Prod.mk.inj (Except.ok.inj hline)).2
  refine ⟨?_, hsafe⟩
  cases hcall : toolCall? turn.hostLine with
  | some call =>
      obtain ⟨approvals, -, haction, -⟩ := processHostLine_toolCall hcall hline
      rw [ToolCall.action] at haction
      split at haction
      · exact Action.forward.inj haction
      · exact Action.noConfusion haction
  | none =>
      rw [processHostLine_of_safe hsafe] at hline
      rw [toolCall?, if_pos hsafe] at hcall
      cases hparse : Json.parse (trimAscii turn.hostLine) with
      | error err =>
          simp only [hparse] at hline
          exact (Action.forward.inj (Prod.mk.inj (Except.ok.inj hline)).2).symm
      | ok json =>
          simp only [hparse] at hline hcall
          cases hfound : toolsCallWithContext? json with
          | error reason =>
              simp only [hfound] at hline
              exact Action.noConfusion (Prod.mk.inj (Except.ok.inj hline)).2
          | ok found =>
              cases found with
              | none =>
                  simp only [hfound] at hline
                  exact (Action.forward.inj (Prod.mk.inj (Except.ok.inj hline)).2).symm
              | some found => simp [hfound] at hcall

/-- On a line that passes the checks the server sees the call the gate sees. -/
theorem readCall?_eq_toolCall? {binder : Raw.Binder} (hbinder : Raw.Standard binder)
    (hsafe : wireSafe (trimAscii line) = true) : readCall? binder line = toolCall? line := by
  have hkeys : wireKeysSafe (trimAscii line) = true := by
    simp only [wireSafe, Bool.and_eq_true] at hsafe
    exact hsafe.1.2
  delta readCall?
  rw [readers_agree hbinder hkeys]
  cases hparse : Json.parse (trimAscii line) with
  | error err => simp [toolCall?, hsafe, hparse]
  | ok json =>
      cases hfound : toolsCallWithContext? json with
      | error reason => simp [toolCall?, hsafe, hparse, hfound]
      | ok found =>
          cases found with
          | none => simp [toolCall?, hsafe, hparse, hfound]
          | some found => simp [toolCall?, hsafe, hparse, hfound]

end Line

/-- **Mediation as the server sees it.**  Take any server that differs from the
gate's parser only in what it does with a repeated key, and any line the gate has
forwarded to it at any point of a run.  If the server finds a tool call there,
some rule of the policy matches that call and none denies it, and if one guards
it, the gate held a live, unused approval of that very call. -/
theorem server_mediation {policy : Policy} (haccepted : policy.Accepted) {binder : Raw.Binder}
    (hbinder : Raw.Standard binder) {entries : List (Turn × Action)} {memory memory' : Memory}
    (hreach : Reaches policy entries memory) {turn : Turn} {line : String}
    (hline : processHostLine policy memory turn = .ok (memory', .forward line))
    {call : ToolCall} (hcall : readCall? binder line = some call) :
    ToolMode.deny ∉ call.modes policy ∧ call.modes policy ≠ [] ∧
      (ToolMode.guarded ∈ call.modes policy → ∃ origin deadline,
        Approves policy (call.target policy) deadline origin ∧
        turn.now < deadline ∧ deadline ≤ origin.now + maxApprovalTtlSeconds * 1000 ∧
        (origin = turn ∨ UnspentSince policy (call.target policy) origin entries)) := by
  obtain ⟨rfl, hsafe⟩ := wireSafe_of_forward hline
  rw [readCall?_eq_toolCall? hbinder hsafe] at hcall
  exact mediation haccepted hreach hcall hline

theorem server_mediation_sample :
    ToolMode.deny ∉ sampleCall.modes samplePolicy ∧ sampleCall.modes samplePolicy ≠ [] ∧
      (ToolMode.guarded ∈ sampleCall.modes samplePolicy → ∃ origin deadline,
        Approves samplePolicy (sampleCall.target samplePolicy) deadline origin ∧
        sampleTurn.now < deadline ∧ deadline ≤ origin.now + maxApprovalTtlSeconds * 1000 ∧
        (origin = sampleTurn ∨
          UnspentSince samplePolicy (sampleCall.target samplePolicy) origin [])) := by
  obtain ⟨memory, hline⟩ := forward_sampleTurn
  refine server_mediation accepted_samplePolicy Raw.standard_firstWins .start hline ?_
  rw [readCall?_eq_toolCall? Raw.standard_firstWins wireSafe_sampleLine, toolCall?_sampleLine]

/-- **Numbers as the server sees them.**  Every number on a forwarded line is
bounded, and a reader that keeps binary64 values either keeps it exactly or has
it as the shortest decimal of what it keeps. -/
theorem forwarded_numbers {policy : Policy} {memory memory' : Memory} {turn : Turn}
    {line : String} (hline : processHostLine policy memory turn = .ok (memory', .forward line))
    {json : Json} (hparse : Json.parse (trimAscii line) = .ok json) :
    ∀ n ∈ json.numbers, Bounded n ∧ ∃ b, AgreesAs |jsonRat n| b := by
  obtain ⟨rfl, hsafe⟩ := wireSafe_of_forward hline
  simp only [wireSafe, Bool.and_eq_true] at hsafe
  obtain ⟨⟨⟨hnumbers, hagree⟩, _⟩, hdigits⟩ := hsafe
  exact fun n hn => ⟨numbers_bounded hnumbers hdigits hparse n hn,
    numbers_agree hnumbers hagree hparse n hn⟩

theorem forwarded_numbers_sample :
    ∀ n ∈ sampleJson.numbers, Bounded n ∧ ∃ b, AgreesAs |jsonRat n| b := by
  obtain ⟨memory, hline⟩ := forward_sampleTurn
  exact forwarded_numbers hline parse_sampleLine

end McpSeal.Seal
