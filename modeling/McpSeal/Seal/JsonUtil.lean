import McpSeal.Data.Json
set_option autoImplicit false

/-!
# Seal: access to JSON values (`Seal/JsonUtil.lean`)
-/

namespace McpSeal.Seal.JsonUtil

open McpSeal.Data (Json)

/-- The value bound to a key of an object, if there is one. -/
def getObjValOpt (json : Json) (key : String) : Except String (Option Json) := do
  let obj ← json.getObj?
  pure (Json.get? obj key)

/-- The text bound to a key. -/
def getObjString (json : Json) (key : String) : Except String String := do
  (← json.getObjVal? key).getStr?

/-- The value at the end of a path of object keys. -/
def atPath (json : Json) (path : List String) : Option Json :=
  match path with
  | [] => some json
  | key :: rest =>
      match json with
      | .obj obj =>
          match Json.get? obj key with
          | some child => atPath child rest
          | none => none
      | _ => none

/-- The text of a scalar.  An array or an object has none. -/
def jsonScalarToString : Json → Option String
  | .str s => some s
  | .num n => some n.toText
  | .bool b => some (if b then "true" else "false")
  | .null => some "null"
  | _ => none

/-- A dotted path; empty components are dropped. -/
def splitPath (s : String) : List String :=
  s.splitOn "." |>.filter (fun part => part ≠ "")

end McpSeal.Seal.JsonUtil
