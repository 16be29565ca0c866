import McpSeal.SealV2.Parser
set_option autoImplicit false

/-!
# SealV2: the canonical serializer (`SealV2/Serialization.lean`)
-/

namespace McpSeal.SealV2

/-- The digits as they stand, with sign and point. -/
def serializeDecimal (decimal : Decimal) : String :=
  (if decimal.negative then "-" else "") ++
    decimal.intDigits ++
    match decimal.fracDigits with
    | none => ""
    | some digits => "." ++ digits

mutual

/-- The one text form of a tree. -/
def serializeAstValue : AST → CanonicalBytes
  | .null => "null"
  | .bool true => "true"
  | .bool false => "false"
  | .number value => serializeDecimal value
  | .string value => "\"" ++ escapeString value ++ "\""
  | .array items => "[" ++ serializeArrayValue items ++ "]"
  | .object fields => "\x7b" ++ serializeObjectValue fields ++ "\x7d"

/-- The items of an array, separated by commas. -/
def serializeArrayValue : List AST → String
  | [] => ""
  | [item] => serializeAstValue item
  | item :: rest => serializeAstValue item ++ "," ++ serializeArrayValue rest

/-- The members of an object, separated by commas, in the order of the tree. -/
def serializeObjectValue : List (String × AST) → String
  | [] => ""
  | [(key, value)] => "\"" ++ escapeString key ++ "\":" ++ serializeAstValue value
  | (key, value) :: rest =>
      "\"" ++ escapeString key ++ "\":" ++ serializeAstValue value ++ ","
        ++ serializeObjectValue rest

end

/-- Serialization is only offered for canonical trees. -/
def serializeAst (ast : {ast // IsCanonical ast}) : CanonicalBytes :=
  serializeAstValue ast.val

end McpSeal.SealV2
