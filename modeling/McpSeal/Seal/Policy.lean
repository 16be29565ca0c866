import McpSeal.Seal.JsonUtil
set_option autoImplicit false

/-!
# Seal: policies (`Seal/Policy.lean`, `Seal/PolicyWire.lean`)

A policy says which tools may be called, which need an approval and which are
refused.  Only the parsing half of the source's codecs is kept; the schema half
is not read by the gate.  What a parsed policy is guaranteed to be: approvals
live for at most the cap, and a guarded rule commits the whole arguments.
-/

namespace McpSeal.Seal

open McpSeal.Data (Json)
open McpSeal.Seal.JsonUtil

/-- A condition on the arguments of a call.  Only `containsAnyCi` ignores ASCII case.
-/
inductive MatchSpec where
  | always
  | equals (argPath : List String) (value : String)
  | startsWith (argPath : List String) (prefixValue : String)
  | containsAnyCi (argPath : List String) (needles : List String)
  | all (specs : List MatchSpec)
  | any (specs : List MatchSpec)

/-- A part of the target a guarded call is approved under. -/
inductive TargetPart where
  | literal (value : String)
  | argPath (path : List String)
  | fullArguments
  deriving DecidableEq

/-- What a rule does with the calls it matches. -/
inductive ToolMode where
  | allow
  | guarded
  | deny
  deriving DecidableEq

/-- One rule of a policy. -/
structure ToolRule where
  name : String
  mode : ToolMode
  matcher : MatchSpec := .always
  target : List TargetPart := []

/-- What the gate is configured with. -/
structure Policy where
  /-- Lifetime of an approval, in milliseconds. -/
  approvalTtlMs : Nat
  approvalFile : String
  serverIdentity : String := ""
  tools : List ToolRule

/-- An ASCII capital in lower case; other characters stay. -/
def asciiLowerChar (c : Char) : Char :=
  if 'A' ≤ c ∧ c ≤ 'Z' then
    Char.ofNat (c.val.toNat + 32)
  else
    c

/-- A text with its ASCII capitals in lower case. -/
def asciiLower (s : String) : String :=
  s.map asciiLowerChar

/-- Whether a text contains one of the needles, up to ASCII case. -/
def containsAnyCi (haystack : String) (needles : List String) : Bool :=
  let h := asciiLower haystack
  needles.any fun needle => h.contains (asciiLower needle)

/-! ## Codecs -/

/-- The reading half of a codec. -/
structure WireCodec (α : Type) where
  parse : Json → Except String α

/-- A string. -/
def strCodec : WireCodec String := ⟨fun j => j.getStr?⟩

/-- A natural number. -/
def natCodec : WireCodec Nat := ⟨fun j => j.getNat?⟩

/-- An array, read item by item; the first bad item fails it. -/
def arrCodec {α : Type} (item : WireCodec α) : WireCodec (List α) :=
  ⟨fun j => do (← j.getArr?).mapM item.parse⟩

/-- The members of an object, read from left to right. -/
structure ObjSpec (γ : Type) where
  parse : Json → Except String γ

namespace ObjSpec

variable {α β γ : Type}

/-- An object of which nothing has been read. -/
def start : ObjSpec Unit := ⟨fun _ => pure ()⟩

/-- A member that has to be there. -/
def field (s : ObjSpec γ) (key : String) (vc : WireCodec β) : ObjSpec (γ × β) :=
  { parse := fun j => do
      let g ← s.parse j
      let b ← vc.parse (← j.getObjVal? key)
      pure (g, b) }

/-- A member with a default. -/
def fieldD (s : ObjSpec γ) (key : String) (vc : WireCodec β) (d : β) : ObjSpec (γ × β) :=
  { parse := fun j => do
      let g ← s.parse j
      let b ← match ← getObjValOpt j key with
        | some v => vc.parse v
        | none => pure d
      pure (g, b) }

/-- A condition on the members read so far. -/
def check (s : ObjSpec γ) (f : γ → Except String Unit) : ObjSpec γ :=
  { parse := fun j => do
      let g ← s.parse j
      f g
      pure g }

/-- The value the members make. -/
def emit (s : ObjSpec γ) (f : γ → α) : ObjSpec α :=
  { parse := fun j => do pure (f (← s.parse j)) }

end ObjSpec

/-- Unknown keys are tolerated. -/
def WireCodec.openObj {α : Type} (s : ObjSpec α) : WireCodec α := ⟨s.parse⟩

/-! ## Matchers -/

/-- The conditions a compound condition is made of. -/
def matchesOf (json : Json) : Except String (List Json) := do
  (← json.getObjVal? "matches").getArr?

theorem sizeOf_get? {kvs : List (String × Json)} {k : String} {v : Json}
    (h : Json.get? kvs k = some v) : sizeOf v < sizeOf kvs := by
  obtain ⟨kv, hfind, rfl⟩ := Option.map_eq_some_iff.mp h
  have hmem := List.sizeOf_lt_of_mem (List.mem_of_find?_eq_some hfind)
  obtain ⟨k', v⟩ := kv
  simp only [Prod.mk.sizeOf_spec] at hmem
  show sizeOf v < _
  omega

/-- The nested matchers are smaller than the matcher they stand in. -/
theorem sizeOf_matchesOf {json spec : Json} {specs : List Json} (h : matchesOf json = .ok specs)
    (hspec : spec ∈ specs) : sizeOf spec < sizeOf json := by
  cases json with
  | obj kvs =>
      unfold matchesOf at h
      simp only [Json.getObjVal?] at h
      cases hget : Json.get? kvs "matches" with
      | none =>
          rw [hget] at h
          contradiction
      | some found =>
          rw [hget] at h
          cases found with
          | arr elems =>
              obtain rfl := Except.ok.inj h
              have hfound := sizeOf_get? hget
              have helem := List.sizeOf_lt_of_mem hspec
              simp only [Json.arr.sizeOf_spec, Json.obj.sizeOf_spec] at hfound ⊢
              omega
          | _ => contradiction
  | _ => contradiction

/-- A matcher.  The source's recursion is on nested values, which are smaller. -/
def parseMatch (json : Json) : Except String MatchSpec := do
  let kind ← getObjString json "type"
  match kind with
  | "always" => pure .always
  | "equals" =>
      pure (.equals (splitPath (← getObjString json "arg")) (← getObjString json "value"))
  | "starts_with" =>
      pure (.startsWith (splitPath (← getObjString json "arg")) (← getObjString json "value"))
  | "contains_any_ci" =>
      let argPath ← getObjString json "arg"
      let needlesJson ← (← json.getObjVal? "needles").getArr?
      let needles ← needlesJson.mapM (fun j => j.getStr?)
      pure (.containsAnyCi (splitPath argPath) needles)
  | "all" =>
      match _h : matchesOf json with
      | .error err => .error err
      | .ok specs => pure (.all (← specs.attach.mapM fun spec => parseMatch spec.val))
  | "any" =>
      match _h : matchesOf json with
      | .error err => .error err
      | .ok specs => pure (.any (← specs.attach.mapM fun spec => parseMatch spec.val))
  | other => throw ("unsupported match type: " ++ other)
termination_by sizeOf json
decreasing_by
  all_goals exact sizeOf_matchesOf _h spec.property

/-- A condition. -/
def matchCodec : WireCodec MatchSpec := ⟨parseMatch⟩

/-! ## Rules -/

/-- A literal if there is one, else exactly one of the other two. -/
def parseTargetPart (json : Json) : Except String TargetPart := do
  match ← getObjValOpt json "literal" with
  | some value => pure (.literal (← value.getStr?))
  | none =>
      match ← getObjValOpt json "arg", ← getObjValOpt json "full_arguments" with
      | some value, none => pure (.argPath (splitPath (← value.getStr?)))
      | none, some value =>
          if ← value.getBool? then pure .fullArguments
          else throw "full_arguments must be true"
      | _, _ => throw "target part must contain exactly one of literal, arg, full_arguments"

/-- Longest lifetime of an approval. -/
def maxApprovalTtlSeconds : Nat := 300

/-- The target is the whole arguments. -/
def isFullArgumentsTarget : List TargetPart → Bool
  | [.fullArguments] => true
  | _ => false

/-- The error for a guarded rule with any other target. -/
def guardTargetErrorText : String :=
  "guard mode requires target [\x7b\"full_arguments\": true\x7d]"

/-- A guarded rule is refused unless its target is the whole arguments. -/
def guardCheck (mode : ToolMode) (target : List TargetPart) : Except String Unit :=
  if mode == ToolMode.guarded && !isFullArgumentsTarget target then
    throw guardTargetErrorText
  else pure ()

/-- A target: the list of its parts. -/
def targetListCodec : WireCodec (List TargetPart) :=
  ⟨fun j => match j with
    | .arr parts => parts.mapM parseTargetPart
    | _ => throw "target must be an array"⟩

/-- A mode; `guard` and `guarded` are the same. -/
def modeCodec : WireCodec ToolMode :=
  ⟨fun j => do
    let modeText ← j.getStr?
    match modeText with
    | "allow" => pure ToolMode.allow
    | "guard" => pure ToolMode.guarded
    | "guarded" => pure ToolMode.guarded
    | "deny" => pure ToolMode.deny
    | other => throw ("unsupported tool mode: " ++ other)⟩

/-- The members of a rule, and the check on its target. -/
def toolRuleSpec : ObjSpec ToolRule :=
  ObjSpec.start
    |>.field "name" strCodec
    |>.field "mode" modeCodec
    |>.fieldD "match" matchCodec .always
    |>.fieldD "target" targetListCodec []
    |>.check (fun ((((_, _name), mode), _matcher), target) => guardCheck mode target)
    |>.emit fun ((((_, name), mode), matcher), target) => { name, mode, matcher, target }

/-- A rule; members it does not know are ignored. -/
def toolRuleCodec : WireCodec ToolRule := .openObj toolRuleSpec

/-! ## Policies -/

/-- The lifetime, in milliseconds, and the control file. -/
def approvalSpec : ObjSpec (Nat × String) :=
  ObjSpec.start
    |>.fieldD "ttl_seconds" natCodec 120
    |>.field "control_file" strCodec
    |>.emit fun ((_, ttlSeconds), controlFile) =>
        ((min ttlSeconds maxApprovalTtlSeconds) * 1000, controlFile)

/-- The members of a policy, given how its approval section is read. -/
def policySpecWith (approvalC : WireCodec (Nat × String)) : ObjSpec Policy :=
  ObjSpec.start
    |>.field "approval" approvalC
    |>.fieldD "server" strCodec ""
    |>.field "tools" (arrCodec toolRuleCodec)
    |>.emit fun (((_, (approvalTtlMs, approvalFile)), serverIdentity), tools) =>
        { approvalTtlMs, approvalFile, serverIdentity, tools }

/-- A policy; members it does not know are ignored. -/
def policyCodec : WireCodec Policy :=
  .openObj (policySpecWith (.openObj approvalSpec))

/-- The policy a JSON value stands for. -/
def parsePolicyJson : Json → Except String Policy :=
  policyCodec.parse

/-! ## What is accepted -/

theorem bind_ok {α β : Type} {m : Except String α} {f : α → Except String β} {b : β}
    (h : m >>= f = .ok b) : ∃ a, m = .ok a ∧ f a = .ok b := by
  cases m with
  | error err => contradiction
  | ok a => exact ⟨a, rfl, h⟩

namespace ObjSpec

variable {α β γ : Type}

theorem field_ok {s : ObjSpec γ} {key : String} {vc : WireCodec β} {j : Json} {out : γ × β}
    (h : (s.field key vc).parse j = .ok out) :
    s.parse j = .ok out.1 ∧ ∃ v, j.getObjVal? key = .ok v ∧ vc.parse v = .ok out.2 := by
  obtain ⟨g, hg, h⟩ := bind_ok h
  obtain ⟨v, hv, h⟩ := bind_ok h
  obtain ⟨b, hb, h⟩ := bind_ok h
  obtain rfl := Except.ok.inj h
  exact ⟨hg, v, hv, hb⟩

theorem fieldD_ok {s : ObjSpec γ} {key : String} {vc : WireCodec β} {d : β} {j : Json}
    {out : γ × β} (h : (s.fieldD key vc d).parse j = .ok out) :
    s.parse j = .ok out.1 ∧ (out.2 = d ∨ ∃ v, vc.parse v = .ok out.2) := by
  obtain ⟨g, hg, h⟩ := bind_ok h
  obtain ⟨found, _, h⟩ := bind_ok h
  cases found with
  | none =>
      obtain rfl := Except.ok.inj h
      exact ⟨hg, Or.inl rfl⟩
  | some v =>
      obtain ⟨b, hb, h⟩ := bind_ok h
      obtain rfl := Except.ok.inj h
      exact ⟨hg, Or.inr ⟨v, hb⟩⟩

theorem check_ok {s : ObjSpec γ} {f : γ → Except String Unit} {j : Json} {out : γ}
    (h : (s.check f).parse j = .ok out) : s.parse j = .ok out ∧ f out = .ok () := by
  obtain ⟨g, hg, h⟩ := bind_ok h
  obtain ⟨_, hcheck, h⟩ := bind_ok h
  obtain rfl := Except.ok.inj h
  exact ⟨hg, hcheck⟩

theorem emit_ok {s : ObjSpec γ} {f : γ → α} {j : Json} {out : α}
    (h : (s.emit f).parse j = .ok out) : ∃ g, s.parse j = .ok g ∧ out = f g := by
  obtain ⟨g, hg, h⟩ := bind_ok h
  exact ⟨g, hg, (Except.ok.inj h).symm⟩

end ObjSpec

theorem mapM_ok {α β : Type} {f : α → Except String β} {xs : List α} {ys : List β}
    (h : xs.mapM f = .ok ys) : ∀ y ∈ ys, ∃ x ∈ xs, f x = .ok y := by
  induction xs generalizing ys with
  | nil =>
      obtain rfl := Except.ok.inj h
      exact fun _ hy => absurd hy List.not_mem_nil
  | cons x rest ih =>
      rw [List.mapM_cons] at h
      obtain ⟨y, hy, h⟩ := bind_ok h
      obtain ⟨others, hothers, h⟩ := bind_ok h
      obtain rfl := Except.ok.inj h
      refine List.forall_mem_cons.mpr ⟨⟨x, List.mem_cons_self, hy⟩, ?_⟩
      intro z hz
      obtain ⟨x', hx', hfx⟩ := ih hothers z hz
      exact ⟨x', List.mem_cons_of_mem x hx', hfx⟩

theorem arrCodec_ok {α : Type} {item : WireCodec α} {j : Json} {items : List α}
    (h : (arrCodec item).parse j = .ok items) : ∀ x ∈ items, ∃ v, item.parse v = .ok x := by
  obtain ⟨elems, _, h⟩ := bind_ok h
  intro x hx
  obtain ⟨v, _, hv⟩ := mapM_ok h x hx
  exact ⟨v, hv⟩

theorem guardCheck_ok {target : List TargetPart} (h : guardCheck .guarded target = .ok ()) :
    target = [.fullArguments] := by
  unfold guardCheck isFullArgumentsTarget at h
  split at h
  · rfl
  · contradiction

/-- A guarded rule that is accepted commits the whole arguments. -/
theorem toolRule_guarded {j : Json} {rule : ToolRule} (h : toolRuleCodec.parse j = .ok rule)
    (hmode : rule.mode = .guarded) : rule.target = [.fullArguments] := by
  obtain ⟨⟨⟨⟨⟨_, name⟩, mode⟩, matcher⟩, target⟩, hchecked, rfl⟩ := ObjSpec.emit_ok h
  obtain ⟨_, hguard⟩ := ObjSpec.check_ok hchecked
  obtain rfl : mode = .guarded := hmode
  exact guardCheck_ok hguard

/-- What the gate relies on of an accepted policy. -/
structure Policy.Accepted (policy : Policy) : Prop where
  lifetime : policy.approvalTtlMs ≤ maxApprovalTtlSeconds * 1000
  guarded : ∀ rule ∈ policy.tools, rule.mode = .guarded → rule.target = [.fullArguments]

theorem approvalSpec_ok {j : Json} {out : Nat × String}
    (h : (WireCodec.openObj approvalSpec).parse j = .ok out) :
    out.1 ≤ maxApprovalTtlSeconds * 1000 := by
  obtain ⟨⟨⟨_, ttlSeconds⟩, controlFile⟩, _, rfl⟩ := ObjSpec.emit_ok h
  exact Nat.mul_le_mul_right 1000 (Nat.min_le_right ttlSeconds maxApprovalTtlSeconds)

/-- **Policies.**  A parsed policy keeps the cap on lifetimes and commits the whole
arguments of guarded calls. -/
theorem accepted_of_parsePolicyJson {j : Json} {policy : Policy}
    (h : parsePolicyJson j = .ok policy) : policy.Accepted := by
  obtain ⟨⟨⟨⟨_, approval⟩, server⟩, tools⟩, htools, rfl⟩ := ObjSpec.emit_ok h
  obtain ⟨hserver, _, _, harray⟩ := ObjSpec.field_ok htools
  obtain ⟨happroval, _⟩ := ObjSpec.fieldD_ok hserver
  obtain ⟨_, _, _, hlifetime⟩ := ObjSpec.field_ok happroval
  refine { lifetime := approvalSpec_ok hlifetime, guarded := ?_ }
  intro rule hrule hmode
  obtain ⟨v, hv⟩ := arrCodec_ok harray rule hrule
  exact toolRule_guarded hv hmode

/-- A lifetime past the cap, and one guarded rule. -/
def samplePolicyJson : Json :=
  .obj [
    ("approval", .obj [("control_file", .str "approvals.jsonl"), ("ttl_seconds", .num ⟨900, 0⟩)]),
    ("tools", .arr [.obj [
      ("mode", .str "guard"),
      ("name", .str "pay"),
      ("target", .arr [.obj [("full_arguments", .bool true)]])]])]

theorem accepted_of_parsePolicyJson_sample :
    ∃ policy, parsePolicyJson samplePolicyJson = .ok policy ∧ policy.Accepted := by
  have hparse : ∃ policy, parsePolicyJson samplePolicyJson = .ok policy := ⟨_, rfl⟩
  obtain ⟨policy, hparse⟩ := hparse
  exact ⟨policy, hparse, accepted_of_parsePolicyJson hparse⟩

end McpSeal.Seal
