import McpSeal.Data.JsonParser
import McpSeal.SealV2.Serialization
set_option autoImplicit false

/-!
# SealV2: requests and their optional values (`SealV2/Validation.lean`)

A request carries three optional values, `_meta`, `requestState` and
`inputResponses`.  Each is kept as the canonical JSON text of its complete
value, or as an explicit absence.
-/

namespace McpSeal.SealV2

open McpSeal.Data (Json)

/-- The name of an action. -/
abbrev Action := String
/-- The name of a tool. -/
abbrev ToolName := String

/-! ## `_meta` -/

/-- The optional `_meta` of a request, as the library prints it. -/
inductive MetaValue where
  | absent
  | present (canonicalObject : CanonicalBytes)
  deriving DecidableEq

namespace MetaValue

/-- The parts the value contributes to a hash. -/
def preimageParts : MetaValue → List String
  | .absent => ["meta.absent", ""]
  | .present canonicalObject => ["meta.present", canonicalObject]

/-- A present value must be an object; it is normalised through the JSON
library so that member order does not matter. -/
def fromAst? : Option AST → Option MetaValue
  | none => some .absent
  | some (.object fields) =>
      match Json.parse (serializeAstValue (.object fields)) with
      | .ok (.obj object) => some (.present (Json.obj object).compress)
      | _ => none
  | some _ => none

/-- The tree an approver signs for it. -/
def signedAst : MetaValue → AST
  | .absent => .object [("presence", .string "absent")]
  | .present canonicalObject =>
      .object [
        ("presence", .string "present"),
        ("canonicalObject", .string canonicalObject)
      ]

/-- The value from such a tree, if its text is one the library prints. -/
def fromSignedAst? : AST → Option MetaValue
  | .object [("presence", .string "absent")] => some .absent
  | .object [
      ("presence", .string "present"),
      ("canonicalObject", .string canonicalObject)] =>
      match Json.parse canonicalObject with
      | .ok (.obj object) =>
          let normalized := (Json.obj object).compress
          if normalized == canonicalObject then some (.present normalized) else none
      | _ => none
  | _ => none

end MetaValue

/-! ## The opaque multi-round-trip values

`requestState` and `inputResponses` go through the same code under two names. -/

/-- Canonical text of an optional JSON value, absent allowed. -/
def canonicalValue? : Option AST → Option (Option CanonicalBytes)
  | none => some none
  | some value =>
      match Json.parse (serializeAstValue value) with
      | .ok parsed => some (some parsed.compress)
      | .error _ => none

/-- The tree an approver signs for a value that is there. -/
def signedCanonicalValue (canonicalValue : CanonicalBytes) : AST :=
  .object [("canonicalValue", .string canonicalValue)]

/-- A signed canonical text is accepted only if it is its own normal form. -/
def canonicalValueFromSigned? : AST → Option CanonicalBytes
  | .object [("canonicalValue", .string canonicalValue)] =>
      match Json.parse canonicalValue with
      | .ok parsed =>
          let normalized := parsed.compress
          if normalized == canonicalValue then some normalized else none
      | .error _ => none
  | _ => none

/-- The optional `requestState` of a request, as the library prints it. -/
inductive RequestState where
  | absent
  | present (canonicalValue : CanonicalBytes)
  deriving DecidableEq

namespace RequestState

/-- The parts the value contributes to a hash. -/
def preimageParts : RequestState → List String
  | .absent => ["requestState.absent", ""]
  | .present canonicalValue => ["requestState.present", canonicalValue]

/-- The value that is there or not. -/
def ofOption : Option CanonicalBytes → RequestState
  | none => .absent
  | some canonicalValue => .present canonicalValue

/-- The value from the request's member, normalised. -/
def fromAst? (ast : Option AST) : Option RequestState :=
  (canonicalValue? ast).map ofOption

/-- The tree an approver signs for it. -/
def signedAst : CanonicalBytes → AST := signedCanonicalValue

/-- The value from such a tree. -/
def fromSignedAst? (ast : AST) : Option RequestState :=
  (canonicalValueFromSigned? ast).map .present

end RequestState

/-- The optional `inputResponses` of a request, as the library prints them. -/
inductive InputResponses where
  | absent
  | present (canonicalValue : CanonicalBytes)
  deriving DecidableEq

namespace InputResponses

/-- The parts the value contributes to a hash. -/
def preimageParts : InputResponses → List String
  | .absent => ["inputResponses.absent", ""]
  | .present canonicalValue => ["inputResponses.present", canonicalValue]

/-- The value that is there or not. -/
def ofOption : Option CanonicalBytes → InputResponses
  | none => .absent
  | some canonicalValue => .present canonicalValue

/-- The value from the request's member, normalised. -/
def fromAst? (ast : Option AST) : Option InputResponses :=
  (canonicalValue? ast).map ofOption

/-- The tree an approver signs for it. -/
def signedAst : CanonicalBytes → AST := signedCanonicalValue

/-- The value from such a tree. -/
def fromSignedAst? (ast : AST) : Option InputResponses :=
  (canonicalValueFromSigned? ast).map .present

end InputResponses

/-! ## Requests -/

/-- What a `tools/call` asks for. -/
structure CapabilityRequest where
  tool : ToolName
  action : Action
  arguments : AST
  metadata : MetaValue
  requestState : RequestState := .absent
  inputResponses : InputResponses := .absent
  deriving DecidableEq

/-- The value of the first member with a key. -/
def lookupObj (key : String) (fields : List (String × AST)) : Option AST :=
  match fields with
  | [] => none
  | (k, v) :: rest => if k == key then some v else lookupObj key rest

/-- The text of a string. -/
def astString? : AST → Option String
  | .string value => some value
  | _ => none

/-- A `tools/call` request with all its members. -/
def requestFromAst (ast : AST) : Option CapabilityRequest :=
  match ast with
  | .object fields => do
      let method ← lookupObj "method" fields >>= astString?
      if method != "tools/call" then
        none
      else
        match lookupObj "params" fields with
        | some (.object params) =>
            let tool ← lookupObj "name" params >>= astString?
            let action ← lookupObj "action" params >>= astString?
            let arguments ← lookupObj "arguments" params
            let metadata ← MetaValue.fromAst? (lookupObj "_meta" params)
            let requestState ← RequestState.fromAst? (lookupObj "requestState" params)
            let inputResponses ←
              InputResponses.fromAst? (lookupObj "inputResponses" params)
            some {
              tool, action, arguments, metadata, requestState, inputResponses
            }
        | _ => none
  | _ => none

end McpSeal.SealV2
