import McpSeal.Seal.EffectCommitment
import McpSeal.Seal.Policy
import McpSeal.SealCore.Automaton
set_option autoImplicit false

/-!
# Seal: classification of tool calls (`Seal/Classify.lean`)

Every rule of the policy that matches a call gives a decision, and the decisions
are resolved into one event for the automaton.  Which event that is depends on
the set of decisions only: a refusal beats everything, a guard beats an allow,
and two guards with different targets refuse each other.  The target of a guarded
call commits the whole call.
-/

namespace McpSeal.Seal

open McpSeal.Data (Json)
open McpSeal.SealCore
open McpSeal.Seal.JsonUtil

/-! ## Matching -/

/-- An event for the automaton, with the text a block reports. -/
inductive HostEvent where
  | event (event : Event) (targetText : String)

/-- The event the automaton is told. -/
def HostEvent.toEvent : HostEvent → Event
  | .event e _ => e

/-- The text a block reports. -/
def HostEvent.targetText : HostEvent → String
  | .event _ targetText => targetText

/-- Whether the arguments of a call match: a path that leads nowhere, or to an array
or an object, matches no text. -/
def matchSpec (spec : MatchSpec) (args : Json) : Bool :=
  match spec with
  | .always => true
  | .equals path expected =>
      (atPath args path >>= jsonScalarToString).any (· == expected)
  | .startsWith path prefixValue =>
      (atPath args path >>= jsonScalarToString).any (·.startsWith prefixValue)
  | .containsAnyCi path needles =>
      match atPath args path >>= jsonScalarToString with
      | some value => containsAnyCi value needles
      | none => false
  | .all specs => specs.attach.all fun child => matchSpec child.val args
  | .any specs => specs.attach.any fun child => matchSpec child.val args
termination_by sizeOf spec
decreasing_by
  all_goals
    have := List.sizeOf_lt_of_mem child.property
    simp only [MatchSpec.all.sizeOf_spec, MatchSpec.any.sizeOf_spec]
    omega

/-- The rule's matcher on the arguments; the tool's name is compared by the caller. -/
def matchRule (rule : ToolRule) (args : Json) : Bool :=
  matchSpec rule.matcher args

/-- The texts the parts of a target stand for.  A path without a scalar at its end
makes the whole target invalid. -/
def evalTargetParts (parts : List TargetPart) (args : Json) : Option (List String) :=
  parts.mapM fun part =>
    match part with
    | .literal value => some value
    | .argPath path => atPath args path >>= jsonScalarToString
    | .fullArguments => some args.compress

/-! ## Targets -/

/-- What a target starts with: the server, if the policy names one, and the tool. -/
def targetPrefix (policy : Policy) (toolName : String) : List String :=
  if policy.serverIdentity.isEmpty then [toolName]
  else [policy.serverIdentity, toolName]

/-- The first part of every target, which keeps targets apart from other hashes. -/
def guardTargetDomainTag : String := "seal.guard-target/v2-proposed-meta-all"

/-- The parts that are hashed: the resolved target between its prefix and the three
optional members of the request, each marked absent or present. -/
def guardTargetPartsWithContext (policy : Policy) (toolName : String)
    (resolvedParts : List String) (metadata : ValidatedMeta) (requestState : RequestState)
    (inputResponses : InputResponses) : List String :=
  [guardTargetDomainTag] ++ targetPrefix policy toolName ++ resolvedParts ++
    metadata.preimageParts ++ requestState.preimageParts ++ inputResponses.preimageParts

/-- The target of a guarded call. -/
def guardTargetWithContext (policy : Policy) (toolName : String) (resolvedParts : List String)
    (metadata : ValidatedMeta) (requestState : RequestState)
    (inputResponses : InputResponses) : TargetHash :=
  stableHashParts
    (guardTargetPartsWithContext policy toolName resolvedParts metadata requestState
      inputResponses)

/-! ## Decisions -/

/-- What one matching rule says of a call. -/
inductive RuleDecision where
  | allow
  | guard (target : TargetHash) (targetText : String)
  | deny (reason : String)
  | invalid (reason : String)
  deriving DecidableEq

/-- The decision of one rule, or none if it is about another tool or its matcher
fails. -/
def evaluateRuleWithContext (policy : Policy) (toolName : String) (args : Json)
    (metadata : ValidatedMeta) (requestState : RequestState) (inputResponses : InputResponses)
    (rule : ToolRule) : Option RuleDecision :=
  if rule.name != toolName || !matchRule rule args then none
  else match rule.mode with
    | .allow => some .allow
    | .deny => some (.deny ("flat deny: " ++ toolName))
    | .guarded =>
        match evalTargetParts rule.target args with
        | some parts =>
            let target :=
              guardTargetWithContext policy toolName parts metadata requestState inputResponses
            some (.guard target target.toHex)
        | none => some (.invalid ("missing target field: " ++ toolName))

/-- The reason of the first rule that denies the call or cannot be evaluated. -/
def firstBlocking? : List RuleDecision → Option String
  | [] => none
  | .deny reason :: _ => some reason
  | .invalid reason :: _ => some reason
  | _ :: rest => firstBlocking? rest

/-- The targets of the guarding rules. -/
def guardDecisions (decisions : List RuleDecision) : List (TargetHash × String) :=
  decisions.filterMap fun decision => match decision with
    | .guard target text => some (target, text)
    | _ => none

/-- Some rule lets the call through unguarded. -/
def hasExplicitAllow (decisions : List RuleDecision) : Bool :=
  decisions.any (· == .allow)

/-- All guarding rules ask for the same target. -/
def sameGuardTarget (first : TargetHash × String) (rest : List (TargetHash × String)) : Bool :=
  rest.all fun next => next.1 == first.1

/-- One event for all decisions: a block wins over guards, guards win over an allow,
guards that differ are a block, and without any decision the call is blocked. -/
def resolveRuleDecisions (decisions : List RuleDecision) : HostEvent :=
  match firstBlocking? decisions with
  | some reason => .event .defaultDeny reason
  | none =>
      match guardDecisions decisions with
      | first :: rest =>
          if sameGuardTarget first rest then .event (.guarded first.1) first.2
          else .event .defaultDeny "ambiguous guard target"
      | [] =>
          if hasExplicitAllow decisions then .event .benign "explicit policy allow"
          else .event .defaultDeny "no matching policy rule"

/-- The event of a call: the decisions of the rules that match it, in the order of the
policy, resolved. -/
def classifyToolCallWithContext (policy : Policy) (toolName : String) (args : Json)
    (metadata : ValidatedMeta) (requestState : RequestState)
    (inputResponses : InputResponses) : HostEvent :=
  resolveRuleDecisions
    (policy.tools.filterMap
      (evaluateRuleWithContext policy toolName args metadata requestState inputResponses))

/-! ## Tool calls in a message -/

/-- The tool and the arguments, if the line is a `tools/call`. -/
def toolsCall? (json : Json) : Option (String × Json) := do
  let methodJson ← (json.getObjVal? "method").toOption
  let method ← methodJson.getStr?.toOption
  if method != "tools/call" then
    none
  else
    let params ← (json.getObjVal? "params").toOption
    let nameJson ← (params.getObjVal? "name").toOption
    let name ← nameJson.getStr?.toOption
    let args := (params.getObjVal? "arguments").toOption.getD Json.null
    some (name, args)

/-- The request's `_meta`, which has to be an object. -/
def validatedMetaFromParams (params : Json) : Except String ValidatedMeta := do
  let object ← params.getObj?
  match Json.get? object "_meta" with
  | none => pure .absent
  | some (.obj metaObject) => pure (.present metaObject)
  | some _ => throw "`params._meta` must be an object"

/-- The request's `requestState`, any value. -/
def requestStateFromParams (params : Json) : Except String RequestState := do
  let object ← params.getObj?
  match Json.get? object "requestState" with
  | none => pure .absent
  | some value => pure (.present value)

/-- The request's `inputResponses`, any value. -/
def inputResponsesFromParams (params : Json) : Except String InputResponses := do
  let object ← params.getObj?
  match Json.get? object "inputResponses" with
  | none => pure .absent
  | some value => pure (.present value)

/-- The tool call a message is; none if it is not one. -/
def toolsCallWithContext? (json : Json) :
    Except String
      (Option (String × Json × ValidatedMeta × RequestState × InputResponses)) := do
  match toolsCall? json with
  | none => pure none
  | some (name, args) =>
      let params ← json.getObjVal? "params"
      let metadata ← validatedMetaFromParams params
      let requestState ← requestStateFromParams params
      let inputResponses ← inputResponsesFromParams params
      pure (some (name, args, metadata, requestState, inputResponses))

/-! ## Resolving decisions -/

/-- The decision blocks the call whatever the others say. -/
def RuleDecision.blocks : RuleDecision → Bool
  | .deny _ => true
  | .invalid _ => true
  | _ => false

theorem isSome_firstBlocking? (decisions : List RuleDecision) :
    (firstBlocking? decisions).isSome = decisions.any RuleDecision.blocks := by
  induction decisions with
  | nil => rfl
  | cons d rest ih => cases d <;> simp [firstBlocking?, RuleDecision.blocks, ih]

theorem firstBlocking?_eq_none {decisions : List RuleDecision}
    (hfree : ∀ d ∈ decisions, d.blocks = false) : firstBlocking? decisions = none := by
  rw [← Option.not_isSome_iff_eq_none, isSome_firstBlocking?, List.any_eq_true]
  rintro ⟨d, hd, hblocks⟩
  exact absurd (hfree d hd) (by simp [hblocks])

theorem mem_guardDecisions {decisions : List RuleDecision} {target : TargetHash} {text : String} :
    (target, text) ∈ guardDecisions decisions ↔ .guard target text ∈ decisions := by
  rw [guardDecisions, List.mem_filterMap]
  constructor
  · rintro ⟨d, hd, heq⟩
    cases d <;> simp_all
  · exact fun h => ⟨_, h, rfl⟩

theorem sameGuardTarget_eq_true {first : TargetHash × String}
    {rest : List (TargetHash × String)} :
    sameGuardTarget first rest = true ↔ ∀ next ∈ first :: rest, next.1 = first.1 := by
  simp [sameGuardTarget]

/-- A refusal beats everything. -/
theorem resolve_of_blocks {decisions : List RuleDecision} {d : RuleDecision}
    (hd : d ∈ decisions) (hblocks : d.blocks = true) :
    (resolveRuleDecisions decisions).toEvent = .defaultDeny := by
  have hsome : (firstBlocking? decisions).isSome = true := by
    rw [isSome_firstBlocking?]
    exact List.any_eq_true.mpr ⟨d, hd, hblocks⟩
  obtain ⟨reason, hreason⟩ := Option.isSome_iff_exists.mp hsome
  rw [resolveRuleDecisions, hreason]
  rfl

section Free

variable {decisions : List RuleDecision} (hfree : ∀ d ∈ decisions, d.blocks = false)
include hfree

/-- A guard beats an allow. -/
theorem resolve_of_guards {target : TargetHash} {text : String}
    (hmem : .guard target text ∈ decisions)
    (hsame : ∀ target' text', .guard target' text' ∈ decisions → target' = target) :
    ∃ text', .guard target text' ∈ decisions ∧
      resolveRuleDecisions decisions = .event (.guarded target) text' := by
  rw [resolveRuleDecisions, firstBlocking?_eq_none hfree]
  cases hguards : guardDecisions decisions with
  | nil => exact absurd (mem_guardDecisions.mpr hmem) (by simp [hguards])
  | cons first rest =>
      have htargets : ∀ next ∈ first :: rest, next.1 = target := by
        intro next hnext
        exact hsame next.1 next.2 (mem_guardDecisions.mp (hguards ▸ hnext))
      have hfirst : first.1 = target := htargets first List.mem_cons_self
      have hall : sameGuardTarget first rest = true :=
        sameGuardTarget_eq_true.mpr fun next hnext => (htargets next hnext).trans hfirst.symm
      have hfirstmem : .guard first.1 first.2 ∈ decisions :=
        mem_guardDecisions.mp (hguards ▸ List.mem_cons_self)
      subst hfirst
      exact ⟨first.2, hfirstmem, by simp [hall]⟩

/-- Guards with different targets refuse each other. -/
theorem resolve_of_ambiguous {target target' : TargetHash} {text text' : String}
    (hmem : .guard target text ∈ decisions) (hmem' : .guard target' text' ∈ decisions)
    (hne : target ≠ target') : (resolveRuleDecisions decisions).toEvent = .defaultDeny := by
  rw [resolveRuleDecisions, firstBlocking?_eq_none hfree]
  cases hguards : guardDecisions decisions with
  | nil => exact absurd (mem_guardDecisions.mpr hmem) (by simp [hguards])
  | cons first rest =>
      have hdiffer : sameGuardTarget first rest = false := by
        rw [← Bool.not_eq_true]
        intro hsame
        have htargets := sameGuardTarget_eq_true.mp hsame
        have hleft := htargets _ (hguards ▸ mem_guardDecisions.mpr hmem)
        have hright := htargets _ (hguards ▸ mem_guardDecisions.mpr hmem')
        exact hne (hleft.trans hright.symm)
      simp [hdiffer, HostEvent.toEvent]

/-- Without guards an allow lets the call through. -/
theorem resolve_of_allows (hallow : .allow ∈ decisions)
    (hguards : ∀ target text, .guard target text ∉ decisions) :
    (resolveRuleDecisions decisions).toEvent = .benign := by
  have hnil : guardDecisions decisions = [] :=
    List.eq_nil_iff_forall_not_mem.mpr fun next hnext =>
      hguards next.1 next.2 (mem_guardDecisions.mp hnext)
  have hexplicit : hasExplicitAllow decisions = true := by simpa [hasExplicitAllow] using hallow
  rw [resolveRuleDecisions, firstBlocking?_eq_none hfree, hnil]
  simp [hexplicit, HostEvent.toEvent]

end Free

theorem guard_mem_of_resolve {decisions : List RuleDecision} {target : TargetHash}
    (h : (resolveRuleDecisions decisions).toEvent = .guarded target) :
    .guard target (resolveRuleDecisions decisions).targetText ∈ decisions := by
  unfold resolveRuleDecisions at h ⊢
  cases hblocking : firstBlocking? decisions with
  | some reason => simp [hblocking, HostEvent.toEvent] at h
  | none =>
      cases hguards : guardDecisions decisions with
      | nil =>
          rw [hblocking, hguards] at h
          cases hexplicit : hasExplicitAllow decisions <;>
            simp [hexplicit, HostEvent.toEvent] at h
      | cons first rest =>
          rw [hblocking, hguards] at h
          cases hsame : sameGuardTarget first rest with
          | false => simp [hsame, HostEvent.toEvent] at h
          | true =>
              have hfirst : first.1 = target := by simpa [hsame, HostEvent.toEvent] using h
              subst hfirst
              simp only [hsame, if_true]
              exact mem_guardDecisions.mp (hguards ▸ List.mem_cons_self)

/-- **Resolution.**  The event depends on the set of decisions only, not on the
order of the rules or on repetitions. -/
theorem resolve_ext {decisions decisions' : List RuleDecision}
    (h : ∀ d, d ∈ decisions ↔ d ∈ decisions') :
    (resolveRuleDecisions decisions).toEvent = (resolveRuleDecisions decisions').toEvent := by
  by_cases hfree : ∀ d ∈ decisions, d.blocks = false
  · have hfree' : ∀ d ∈ decisions', d.blocks = false := fun d hd => hfree d ((h d).mpr hd)
    by_cases hguards : ∀ target text, .guard target text ∉ decisions
    · have hguards' : ∀ target text, .guard target text ∉ decisions' :=
        fun target text hmem => hguards target text ((h _).mpr hmem)
      by_cases hallow : .allow ∈ decisions
      · rw [resolve_of_allows hfree hallow hguards,
          resolve_of_allows hfree' ((h _).mp hallow) hguards']
      · -- nothing is left that a decision could be
        have hnil : decisions = [] := by
          refine List.eq_nil_iff_forall_not_mem.mpr fun d hd => ?_
          cases d with
          | allow => exact hallow hd
          | guard target text => exact hguards target text hd
          | deny reason => exact absurd (hfree _ hd) (by simp [RuleDecision.blocks])
          | invalid reason => exact absurd (hfree _ hd) (by simp [RuleDecision.blocks])
        subst hnil
        rw [List.eq_nil_iff_forall_not_mem.mpr fun d hd => List.not_mem_nil ((h d).mpr hd)]
    · push Not at hguards
      obtain ⟨target, text, hmem⟩ := hguards
      by_cases hsame : ∀ target' text', .guard target' text' ∈ decisions → target' = target
      · obtain ⟨_, -, hleft⟩ := resolve_of_guards hfree hmem hsame
        obtain ⟨_, -, hright⟩ := resolve_of_guards hfree' ((h _).mp hmem)
          fun target' text' hmem' => hsame target' text' ((h _).mpr hmem')
        rw [hleft, hright]
        rfl
      · push Not at hsame
        obtain ⟨target', text', hmem', hne⟩ := hsame
        rw [resolve_of_ambiguous hfree hmem' hmem hne,
          resolve_of_ambiguous hfree' ((h _).mp hmem') ((h _).mp hmem) hne]
  · push Not at hfree
    obtain ⟨d, hd, hblocks⟩ := hfree
    have hblocks : d.blocks = true := by simpa using hblocks
    rw [resolve_of_blocks hd hblocks, resolve_of_blocks ((h d).mp hd) hblocks]

theorem resolve_ext_sample :
    (resolveRuleDecisions [.allow, .deny "flat deny: pay", .allow]).toEvent =
      (resolveRuleDecisions [.deny "flat deny: pay", .allow]).toEvent :=
  resolve_ext (by simp)

/-! ## Accepted policies -/

/-- What the modes of the matching rules amount to, the strictest deciding. -/
def modesEvent (target : TargetHash) (modes : List ToolMode) : Event :=
  if .deny ∈ modes then .defaultDeny
  else if .guarded ∈ modes then .guarded target
  else if .allow ∈ modes then .benign
  else .defaultDeny

section Call

variable (policy : Policy) (toolName : String) (args : Json) (metadata : ValidatedMeta)
  (requestState : RequestState) (inputResponses : InputResponses)

/-- The modes of the rules that match a call, in policy order. -/
def matchingModes : List ToolMode :=
  (policy.tools.filter fun rule => rule.name == toolName && matchRule rule args).map (·.mode)

/-- The parts of a call whose whole arguments are committed. -/
def callParts : List String :=
  guardTargetPartsWithContext policy toolName [args.compress] metadata requestState inputResponses

/-- The target of a call whose whole arguments are hashed. -/
def callTarget : TargetHash :=
  stableHashParts (callParts policy toolName args metadata requestState inputResponses)

/-- The decision of a matching rule with this mode. -/
def modeDecision (target : TargetHash) : ToolMode → RuleDecision
  | .allow => .allow
  | .guarded => .guard target target.toHex
  | .deny => .deny ("flat deny: " ++ toolName)

variable {policy}

theorem evaluateRule_of_accepted (haccepted : policy.Accepted) {rule : ToolRule}
    (hrule : rule ∈ policy.tools) :
    evaluateRuleWithContext policy toolName args metadata requestState inputResponses rule =
      if rule.name == toolName && matchRule rule args then
        some (modeDecision toolName
          (callTarget policy toolName args metadata requestState inputResponses) rule.mode)
      else none := by
  have hcond : (rule.name != toolName || !matchRule rule args) =
      !(rule.name == toolName && matchRule rule args) := by
    rw [Bool.not_and]
    rfl
  rw [evaluateRuleWithContext, hcond]
  cases rule.name == toolName && matchRule rule args with
  | false => rfl
  | true =>
      cases hmode : rule.mode with
      | allow => rfl
      | deny => rfl
      | guarded =>
          rw [haccepted.guarded rule hrule hmode]
          rfl

/-- The decisions of an accepted policy are those of its matching modes. -/
theorem decisions_of_accepted (haccepted : policy.Accepted) :
    policy.tools.filterMap
        (evaluateRuleWithContext policy toolName args metadata requestState inputResponses) =
      (matchingModes policy toolName args).map (modeDecision toolName
        (callTarget policy toolName args metadata requestState inputResponses)) := by
  rw [matchingModes, List.map_map, ← List.filterMap_eq_map, List.filterMap_filter]
  refine List.filterMap_congr fun rule hrule => ?_
  rw [evaluateRule_of_accepted toolName args metadata requestState inputResponses haccepted hrule]
  rfl

theorem blocks_modeDecision (target : TargetHash) (mode : ToolMode) :
    (modeDecision toolName target mode).blocks = decide (mode = .deny) := by
  cases mode <;> rfl

theorem guard_mem_modeDecisions {modes : List ToolMode} {target target' : TargetHash}
    {text : String} (h : .guard target' text ∈ modes.map (modeDecision toolName target)) :
    .guarded ∈ modes ∧ target' = target := by
  obtain ⟨mode, hmode, heq⟩ := List.mem_map.mp h
  cases mode with
  | allow => contradiction
  | deny => contradiction
  | guarded => exact ⟨hmode, (RuleDecision.guard.inj heq).1.symm⟩

theorem resolve_modeDecisions (target : TargetHash) (modes : List ToolMode) :
    (resolveRuleDecisions (modes.map (modeDecision toolName target))).toEvent =
      modesEvent target modes := by
  unfold modesEvent
  by_cases hdeny : ToolMode.deny ∈ modes
  · rw [if_pos hdeny]
    exact resolve_of_blocks (List.mem_map_of_mem hdeny) rfl
  rw [if_neg hdeny]
  have hfree : ∀ d ∈ modes.map (modeDecision toolName target), d.blocks = false := by
    refine List.forall_mem_map.mpr fun mode hmode => ?_
    rw [blocks_modeDecision, decide_eq_false]
    rintro rfl
    exact hdeny hmode
  by_cases hguarded : ToolMode.guarded ∈ modes
  · rw [if_pos hguarded]
    obtain ⟨_, -, hevent⟩ := resolve_of_guards hfree (List.mem_map_of_mem hguarded)
      fun target' text' hmem => (guard_mem_modeDecisions toolName hmem).2
    rw [hevent]
    rfl
  rw [if_neg hguarded]
  by_cases hallow : ToolMode.allow ∈ modes
  · rw [if_pos hallow]
    exact resolve_of_allows hfree (List.mem_map_of_mem hallow)
      fun target' text' hmem => hguarded (guard_mem_modeDecisions toolName hmem).1
  · rw [if_neg hallow]
    have hnil : modes = [] := by
      refine List.eq_nil_iff_forall_not_mem.mpr fun mode hmode => ?_
      cases mode <;> contradiction
    subst hnil
    rfl

/-- **Classification.**  Under an accepted policy the strictest matching rule decides,
and a guarded call is held to the target of the whole call. -/
theorem classify_of_accepted (haccepted : policy.Accepted) :
    (classifyToolCallWithContext policy toolName args metadata requestState
        inputResponses).toEvent =
      modesEvent (callTarget policy toolName args metadata requestState inputResponses)
        (matchingModes policy toolName args) := by
  rw [classifyToolCallWithContext, decisions_of_accepted _ _ _ _ _ haccepted]
  exact resolve_modeDecisions toolName _ _

variable (policy)

theorem text_of_evaluateRule {rule : ToolRule} {target : TargetHash} {text : String}
    (h : evaluateRuleWithContext policy toolName args metadata requestState inputResponses rule =
      some (.guard target text)) : text = target.toHex := by
  unfold evaluateRuleWithContext at h
  split at h
  · contradiction
  · cases hmode : rule.mode with
    | allow => simp [hmode] at h
    | deny => simp [hmode] at h
    | guarded =>
        cases hparts : evalTargetParts rule.target args with
        | none => simp [hmode, hparts] at h
        | some parts =>
            simp only [hmode, hparts, Option.some.injEq, RuleDecision.guard.injEq] at h
            rw [← h.2, h.1]

/-- The target a blocked caller is shown is the text of the guarded target. -/
theorem targetText_of_guarded {target : TargetHash}
    (h : (classifyToolCallWithContext policy toolName args metadata requestState
      inputResponses).toEvent = .guarded target) :
    (classifyToolCallWithContext policy toolName args metadata requestState
      inputResponses).targetText = target.toHex := by
  obtain ⟨rule, _, hdecision⟩ := List.mem_filterMap.mp (guard_mem_of_resolve h)
  exact text_of_evaluateRule policy toolName args metadata requestState inputResponses hdecision

end Call

/-! ## What a target commits -/

theorem targetPrefix_inj {policy policy' : Policy} {toolName toolName' : String}
    {rest rest' : List String} (hlength : rest.length = rest'.length)
    (h : targetPrefix policy toolName ++ rest = targetPrefix policy' toolName' ++ rest') :
    policy.serverIdentity = policy'.serverIdentity ∧ toolName = toolName' ∧ rest = rest' := by
  obtain ⟨hserver_tool, hrest⟩ := List.append_inj' h hlength
  unfold targetPrefix at hserver_tool
  by_cases hserver : policy.serverIdentity = ""
  · by_cases hserver' : policy'.serverIdentity = ""
    · simp only [String.isEmpty_iff, if_pos hserver, if_pos hserver'] at hserver_tool
      exact ⟨hserver.trans hserver'.symm, List.head_eq_of_cons_eq hserver_tool, hrest⟩
    · simp [hserver, hserver'] at hserver_tool
  · by_cases hserver' : policy'.serverIdentity = ""
    · simp [hserver, hserver'] at hserver_tool
    · simp only [String.isEmpty_iff, if_neg hserver, if_neg hserver', List.cons.injEq] at hserver_tool
      exact ⟨hserver_tool.1, hserver_tool.2.1, hrest⟩

/-- The effect of a call on the server of a policy. -/
def callEffect (policy : Policy) (toolName : String) (args : Json) (metadata : ValidatedMeta)
    (requestState : RequestState) (inputResponses : InputResponses) : Effect where
  server := policy.serverIdentity
  tool := toolName
  arguments := args
  metadata := metadata
  requestState := requestState
  inputResponses := inputResponses

/-- **One target, one call.**  Calls with one target, whatever the policies, have the same
server and tool and say the same in their arguments and in all they carry besides, or
their framed parts collide. -/
theorem callTarget_binds {policy policy' : Policy} {toolName toolName' : String} {args args' : Json}
    {metadata metadata' : ValidatedMeta} {requestState requestState' : RequestState}
    {inputResponses inputResponses' : InputResponses}
    (h : callTarget policy toolName args metadata requestState inputResponses =
      callTarget policy' toolName' args' metadata' requestState' inputResponses') :
    (callEffect policy toolName args metadata requestState inputResponses).meaning =
      (callEffect policy' toolName' args' metadata' requestState' inputResponses').meaning ∨
    Collision
      (encodeParts (callParts policy toolName args metadata requestState inputResponses)).toUTF8
      (encodeParts
        (callParts policy' toolName' args' metadata' requestState' inputResponses')).toUTF8 := by
  refine (stableHashParts_inj h).imp_left fun hparts => ?_
  have htail : targetPrefix policy toolName ++ (args.compress :: (metadata.preimageParts ++
        (requestState.preimageParts ++ inputResponses.preimageParts))) =
      targetPrefix policy' toolName' ++ (args'.compress :: (metadata'.preimageParts ++
        (requestState'.preimageParts ++ inputResponses'.preimageParts))) := by
    simpa [callParts, guardTargetPartsWithContext] using hparts
  have hlength : (args.compress :: (metadata.preimageParts ++
        (requestState.preimageParts ++ inputResponses.preimageParts))).length =
      (args'.compress :: (metadata'.preimageParts ++
        (requestState'.preimageParts ++ inputResponses'.preimageParts))).length := by
    rw [List.length_cons, List.length_cons, length_contextParts, length_contextParts]
  obtain ⟨hserver, htool, hrest⟩ := targetPrefix_inj hlength htail
  obtain ⟨hargs, hcontext⟩ := List.cons.inj hrest
  obtain ⟨hmeta, hstate, hresponses⟩ := contextParts_inj hcontext
  refine Effect.meaning_of_preimageParts ?_
  simp only [Effect.preimageParts, callEffect, hserver, htool, hargs, hmeta, hstate, hresponses]

/-- Amounts that are printed alike are held to one target. -/
theorem callTarget_binds_sample :
    let policy : Policy := { approvalTtlMs := 1000, approvalFile := "approvals.jsonl", tools := [] }
    (callEffect policy "pay" (.num ⟨10, 1⟩) .absent .absent .absent).meaning =
      (callEffect policy "pay" (.num ⟨1, 0⟩) .absent .absent .absent).meaning ∨
    Collision
      (encodeParts (callParts policy "pay" (.num ⟨10, 1⟩) .absent .absent .absent)).toUTF8
      (encodeParts (callParts policy "pay" (.num ⟨1, 0⟩) .absent .absent .absent)).toUTF8 := by
  intro policy
  have htext : Json.compress (.num ⟨10, 1⟩) = Json.compress (.num ⟨1, 0⟩) := by decide
  refine callTarget_binds ?_
  rw [callTarget, callTarget, callParts, callParts, htext]

/-! ## The values of a call are ordered -/

theorem keysSorted_get? {kvs : List (String × Json)} (h : Json.KeysSortedFields kvs) {k : String}
    {v : Json} (hget : Json.get? kvs k = some v) : Json.KeysSorted v := by
  obtain ⟨kv, hfind, rfl⟩ := Option.map_eq_some_iff.mp hget
  have hmem := List.mem_of_find?_eq_some hfind
  clear hget hfind
  induction kvs with
  | nil => exact absurd hmem List.not_mem_nil
  | cons head rest ih =>
      rcases List.mem_cons.mp hmem with rfl | htail
      · exact h.1
      · exact ih h.2 htail

theorem keysSorted_getObjVal? {json : Json} (h : Json.KeysSorted json) {k : String} {v : Json}
    (hget : json.getObjVal? k = .ok v) : Json.KeysSorted v := by
  cases json with
  | obj kvs =>
      rw [Json.getObjVal?] at hget
      cases hfound : Json.get? kvs k with
      | none =>
          rw [hfound] at hget
          contradiction
      | some found =>
          rw [hfound] at hget
          obtain rfl := Except.ok.inj hget
          exact keysSorted_get? h.2 hfound
  | _ => contradiction

theorem keysSorted_of_toolsCall? {json : Json} (h : Json.KeysSorted json) {name : String}
    {args : Json} (hcall : toolsCall? json = some (name, args)) : Json.KeysSorted args := by
  obtain ⟨methodJson, -, hcall⟩ := Option.bind_eq_some_iff.mp hcall
  obtain ⟨method, -, hcall⟩ := Option.bind_eq_some_iff.mp hcall
  split at hcall
  · contradiction
  · obtain ⟨params, hparams, hcall⟩ := Option.bind_eq_some_iff.mp hcall
    obtain ⟨nameJson, -, hcall⟩ := Option.bind_eq_some_iff.mp hcall
    obtain ⟨name', -, hcall⟩ := Option.bind_eq_some_iff.mp hcall
    obtain ⟨-, rfl⟩ := Prod.mk.inj (Option.some.inj hcall)
    cases hget : json.getObjVal? "params" with
    | error err =>
        rw [hget] at hparams
        contradiction
    | ok value =>
        rw [hget] at hparams
        obtain rfl := Option.some.inj hparams
        have hsorted := keysSorted_getObjVal? h hget
        cases hargs : value.getObjVal? "arguments" with
        | error err => trivial
        | ok args => exact keysSorted_getObjVal? hsorted hargs

/-! What is committed of a message is what the message carries. -/

section Params

variable {params : Json}

theorem getObj?_ok {object : List (String × Json)} (h : params.getObj? = .ok object) :
    params = .obj object := by
  cases params with
  | obj kvs => rw [Except.ok.inj h]
  | _ => contradiction

theorem toJson?_meta {metadata : ValidatedMeta} (h : validatedMetaFromParams params = .ok metadata) :
    ∃ object, params = .obj object ∧ metadata.toJson? = Json.get? object "_meta" := by
  obtain ⟨object, hobject, h⟩ := bind_ok h
  refine ⟨object, getObj?_ok hobject, ?_⟩
  cases hget : Json.get? object "_meta" with
  | none =>
      rw [hget] at h
      rw [← Except.ok.inj h, ValidatedMeta.toJson?]
  | some found =>
      rw [hget] at h
      cases found with
      | obj metaObject => rw [← Except.ok.inj h, ValidatedMeta.toJson?]
      | _ => contradiction

theorem toJson?_requestState {requestState : RequestState}
    (h : requestStateFromParams params = .ok requestState) :
    ∃ object, params = .obj object ∧ requestState.toJson? = Json.get? object "requestState" := by
  obtain ⟨object, hobject, h⟩ := bind_ok h
  refine ⟨object, getObj?_ok hobject, ?_⟩
  cases hget : Json.get? object "requestState" with
  | none | some value =>
      rw [hget] at h
      rw [← Except.ok.inj h, RequestState.toJson?]

theorem toJson?_inputResponses {inputResponses : InputResponses}
    (h : inputResponsesFromParams params = .ok inputResponses) :
    ∃ object, params = .obj object ∧
      inputResponses.toJson? = Json.get? object "inputResponses" := by
  obtain ⟨object, hobject, h⟩ := bind_ok h
  refine ⟨object, getObj?_ok hobject, ?_⟩
  cases hget : Json.get? object "inputResponses" with
  | none | some value =>
      rw [hget] at h
      rw [← Except.ok.inj h, InputResponses.toJson?]

theorem keysSorted_found {object : List (String × Json)} (h : Json.KeysSorted (.obj object))
    {k : String} {found : Option Json} (hfound : found = Json.get? object k) :
    ∀ value ∈ found, Json.KeysSorted value :=
  fun _ hvalue => keysSorted_get? h.2 (hfound.symm.trans hvalue)

end Params

/-- The effect of a call in a parsed message holds ordered maps only. -/
theorem ordered_of_toolsCall {json : Json} (h : Json.KeysSorted json) (policy : Policy)
    {name : String} {args : Json}
    {metadata : ValidatedMeta} {requestState : RequestState} {inputResponses : InputResponses}
    (hcall : toolsCallWithContext? json =
      .ok (some (name, args, metadata, requestState, inputResponses))) :
    (callEffect policy name args metadata requestState inputResponses).Ordered := by
  rw [toolsCallWithContext?] at hcall
  cases hfound : toolsCall? json with
  | none =>
      rw [hfound] at hcall
      exact absurd (Except.ok.inj hcall) (Option.some_ne_none _).symm
  | some found =>
      obtain ⟨name', args'⟩ := found
      rw [hfound] at hcall
      obtain ⟨params, hparams, hcall⟩ := bind_ok hcall
      obtain ⟨metadata', hmeta, hcall⟩ := bind_ok hcall
      obtain ⟨state', hstate, hcall⟩ := bind_ok hcall
      obtain ⟨responses', hresponses, hcall⟩ := bind_ok hcall
      have hparts := Option.some.inj (Except.ok.inj hcall)
      simp only [Prod.mk.injEq] at hparts
      obtain ⟨rfl, rfl, rfl, rfl, rfl⟩ := hparts
      have hsorted := keysSorted_getObjVal? h hparams
      obtain ⟨object, rfl, hmeta'⟩ := toJson?_meta hmeta
      obtain ⟨_, hstateObject, hstate'⟩ := toJson?_requestState hstate
      obtain ⟨_, hresponsesObject, hresponses'⟩ := toJson?_inputResponses hresponses
      obtain rfl := Json.obj.inj hstateObject
      obtain rfl := Json.obj.inj hresponsesObject
      exact {
        arguments := keysSorted_of_toolsCall? h hfound
        metadata := keysSorted_found hsorted hmeta'
        requestState := keysSorted_found hsorted hstate'
        inputResponses := keysSorted_found hsorted hresponses' }

end McpSeal.Seal
