import McpSeal.SealV2.Ast
import McpSeal.SealV2.Escape
set_option autoImplicit false

/-!
# SealV2: the canonical parser (`SealV2/Parser.lean`)

`parse` is a fuelled recursive descent over a character list.  The fuel is the
source's own: one more than the length of the input, one unit spent per call.
-/

namespace McpSeal.SealV2

/-! ## Canonicality guards -/

/-- Reject a parsed tree that is not canonical. -/
def guardCanonicalResult (result : Option (AST × List Char)) :
    Option (AST × List Char) :=
  match result with
  | some (ast, rest) =>
      if IsCanonical ast then
        some (ast, rest)
      else
        none
  | none => none

/-- Reject a parsed string that is not canonical. -/
def guardCanonicalStringResult (result : Option (String × List Char)) :
    Option (String × List Char) :=
  match result with
  | some (value, rest) =>
      if isCanonicalString value then
        some (value, rest)
      else
        none
  | none => none

/-! ## Lexical pieces -/

/-- The blanks of JSON. -/
def isWs : Char → Bool
  | ' ' | '\n' | '\r' | '\t' => true
  | _ => false

/-- A decimal digit. -/
def isDigit (c : Char) : Bool :=
  '0'.toNat ≤ c.toNat && c.toNat ≤ '9'.toNat

/-- A decimal digit that is not zero. -/
def isNonZeroDigit (c : Char) : Bool :=
  '1'.toNat ≤ c.toNat && c.toNat ≤ '9'.toNat

/-- A character a string may hold unescaped: printable ASCII, neither quote nor
backslash. -/
def isAsciiStringChar (c : Char) : Bool :=
  0x20 ≤ c.toNat && c.toNat ≤ 0x7e && c != '"' && c != '\\'

/-- Drop the blanks in front. -/
def skipWs : List Char → List Char
  | c :: rest => if isWs c then skipWs rest else c :: rest
  | [] => []

/-- The digits in front, and what follows them. -/
def takeDigits (chars : List Char) : String × List Char :=
  match chars with
  | c :: rest =>
      if isDigit c then
        let (digits, tail) := takeDigits rest
        (String.singleton c ++ digits, tail)
      else
        ("", chars)
  | [] => ("", [])

/-- A keyword; nothing has to separate it from what follows. -/
def parseLiteral (literal : List Char) (value : AST) (chars : List Char) :
    Option (AST × List Char) :=
  if chars.take literal.length == literal then
    some (value, chars.drop literal.length)
  else
    none

/-! ## Strings -/

/-- String content up to the closing quote.  The accepted texts are the outputs
of `escapeList`: a long escape is accepted only where it is the canonical form,
and a high surrogate only when a low surrogate follows. -/
def parseStringCharsUnchecked (acc : String) (chars : List Char) :
    Option (String × List Char) :=
  match chars with
  | '"' :: rest => some (acc, rest)
  | '\\' :: 'u' :: h1 :: h2 :: h3 :: h4 :: rest =>
      match fromHex4? h1 h2 h3 h4 with
      | none => none
      | some n =>
          if uEscapeScalarOk n then
            parseStringCharsUnchecked (acc ++ String.singleton (Char.ofNat n)) rest
          else if 0xd800 ≤ n ∧ n ≤ 0xdbff then
            match rest with
            | '\\' :: 'u' :: k1 :: k2 :: k3 :: k4 :: rest2 =>
                match fromHex4? k1 k2 k3 k4 with
                | none => none
                | some m =>
                    if 0xdc00 ≤ m ∧ m ≤ 0xdfff then
                      parseStringCharsUnchecked
                        (acc ++ String.singleton
                          (Char.ofNat (0x10000 + (n - 0xd800) * 1024 + (m - 0xdc00))))
                        rest2
                    else none
            | _ => none
          else none
  | '\\' :: c :: rest =>
      match unescapeShort? c with
      | some d => parseStringCharsUnchecked (acc ++ String.singleton d) rest
      | none => none
  | c :: rest =>
      if isAsciiStringChar c then
        parseStringCharsUnchecked (acc ++ String.singleton c) rest
      else
        none
  | [] => none

/-- The content of a string, checked. -/
def parseStringChars (acc : String) (chars : List Char) :
    Option (String × List Char) :=
  guardCanonicalStringResult (parseStringCharsUnchecked acc chars)

/-- A string, from its opening quote on. -/
def parseString (chars : List Char) : Option (String × List Char) :=
  match chars with
  | '"' :: rest => parseStringChars "" rest
  | _ => none

/-! ## Numbers -/

/-- The digits in front of the point: 0 alone, or digits that do not start with 0. -/
def parseIntegerDigits (chars : List Char) : Option (String × List Char) :=
  match chars with
  | '0' :: rest =>
      match rest with
      | c :: _ => if isDigit c then none else some ("0", rest)
      | [] => some ("0", [])
  | c :: rest =>
      if isNonZeroDigit c then
        let (digits, tail) := takeDigits rest
        some (String.singleton c ++ digits, tail)
      else
        none
  | [] => none

/-- The digits after the point, the last of which is not 0; without a point there are
none. -/
def parseFraction (chars : List Char) : Option (Option String × List Char) :=
  match chars with
  | '.' :: rest =>
      let (digits, tail) := takeDigits rest
      match digits.toList.reverse with
      | last :: _ =>
          if last == '0' then none else some (some digits, tail)
      | [] => none
  | _ => some (none, chars)

/-- An exponent follows, which no canonical number has. -/
def startsExponent : List Char → Bool
  | 'e' :: _ | 'E' :: _ => true
  | _ => false

/-- A number: sign, digits and fraction, and no exponent after them. -/
def parseNumberUnchecked (chars : List Char) : Option (AST × List Char) :=
  let (negative, rest) :=
    match chars with
    | '-' :: rest => (true, rest)
    | _ => (false, chars)
  match parseIntegerDigits rest with
  | none => none
  | some (intDigits, afterInt) =>
      match parseFraction afterInt with
      | none => none
      | some (fracDigits, tail) =>
          if startsExponent tail then
            none
          else
            let ast : AST := .number { negative, intDigits, fracDigits }
            some (ast, tail)

/-- A number, checked: negative zero is rejected here. -/
def parseNumber (chars : List Char) : Option (AST × List Char) :=
  guardCanonicalResult (parseNumberUnchecked chars)

/-- The key is among those already parsed. -/
def duplicateKey (key : String) (fields : List (String × AST)) : Bool :=
  fields.any (fun field => field.fst == key)

/-! ## Values, arrays and objects -/

mutual

/-- A value behind blanks.  Each value, item and member costs one unit of fuel. -/
def parseValueFuelUnchecked (fuel : Nat) (chars : List Char) :
    Option (AST × List Char) :=
  match fuel with
  | 0 => none
  | Nat.succ fuel' =>
      match skipWs chars with
      | [] => none
      | 'n' :: _ => parseLiteral ['n', 'u', 'l', 'l'] .null (skipWs chars)
      | 't' :: _ => parseLiteral ['t', 'r', 'u', 'e'] (.bool true) (skipWs chars)
      | 'f' :: _ =>
          parseLiteral ['f', 'a', 'l', 's', 'e'] (.bool false) (skipWs chars)
      | '"' :: _ =>
          match parseString (skipWs chars) with
          | some (s, rest) => some (.string s, rest)
          | none => none
      | '[' :: rest => parseArrayFuelUnchecked fuel' [] (skipWs rest)
      | '{' :: rest => parseObjectFuelUnchecked fuel' [] (skipWs rest)
      | '-' :: _ => parseNumber (skipWs chars)
      | c :: _ => if isDigit c then parseNumber (skipWs chars) else none

/-- The items of an open array, up to its end; `acc` holds those before, reversed. -/
def parseArrayFuelUnchecked (fuel : Nat) (acc : List AST) (chars : List Char) :
    Option (AST × List Char) :=
  match fuel with
  | 0 => none
  | Nat.succ fuel' =>
      match skipWs chars with
      | ']' :: rest =>
          let ast : AST := .array acc.reverse
          if IsCanonical ast then
            some (ast, rest)
          else
            none
      | rest =>
          match parseValueFuelUnchecked fuel' rest with
          | none => none
          | some (value, afterValue) =>
              match skipWs afterValue with
              | ',' :: afterComma =>
                  match skipWs afterComma with
                  | ']' :: _ => none
                  | checkedAfterComma =>
                      if isCanonicalArray (value :: acc) then
                        parseArrayFuelUnchecked fuel' (value :: acc) checkedAfterComma
                      else
                        none
              | ']' :: afterClose =>
                  let ast : AST := .array (value :: acc).reverse
                  if IsCanonical ast then
                    some (ast, afterClose)
                  else
                    none
              | _ => none

/-- The members of an open object, up to its end; a key among those before is
rejected. -/
def parseObjectFuelUnchecked (fuel : Nat) (acc : List (String × AST))
    (chars : List Char) : Option (AST × List Char) :=
  match fuel with
  | 0 => none
  | Nat.succ fuel' =>
      match skipWs chars with
      | '}' :: rest =>
          let ast : AST := .object acc.reverse
          if IsCanonical ast then
            some (ast, rest)
          else
            none
      | rest =>
          match parseString rest with
          | none => none
          | some (key, afterKey) =>
              if duplicateKey key acc then
                none
              else
                match skipWs afterKey with
                | ':' :: afterColon =>
                    match parseValueFuelUnchecked fuel' afterColon with
                    | none => none
                    | some (value, afterValue) =>
                        match skipWs afterValue with
                        | ',' :: afterComma =>
                            match skipWs afterComma with
                            | '}' :: _ => none
                            | checkedAfterComma =>
                                if isCanonicalObject ((key, value) :: acc) then
                                  parseObjectFuelUnchecked fuel' ((key, value) :: acc)
                                    checkedAfterComma
                                else
                                  none
                        | '}' :: afterClose =>
                            let ast : AST := .object ((key, value) :: acc).reverse
                            if IsCanonical ast then
                              some (ast, afterClose)
                            else
                              none
                        | _ => none
                | _ => none

end

/-- A value, checked as a whole. -/
def parseValueFuel (fuel : Nat) (chars : List Char) : Option (AST × List Char) :=
  guardCanonicalResult (parseValueFuelUnchecked fuel chars)

/-- Parse one canonical tree; trailing whitespace is the only thing allowed
after it. -/
def parse (raw : RawBytes) : Option AST :=
  let chars := raw.toList
  match parseValueFuel (chars.length + 1) chars with
  | some (ast, rest) =>
      match skipWs rest with
      | [] =>
          if IsCanonical ast then
            some ast
          else
            none
      | _ => none
  | none => none

theorem guardCanonicalResult_eq_some {result : Option (AST × List Char)}
    {ast : AST} {rest : List Char} :
    guardCanonicalResult result = some (ast, rest) ↔
      result = some (ast, rest) ∧ IsCanonical ast := by
  unfold guardCanonicalResult
  split
  · rename_i found foundRest
    split
    · rename_i hcanonical
      constructor
      · intro h
        obtain ⟨rfl, rfl⟩ := Prod.mk.inj (Option.some.inj h)
        exact ⟨rfl, hcanonical⟩
      · exact fun h => h.1
    · rename_i hcanonical
      constructor
      · simp
      · rintro ⟨h, hast⟩
        obtain ⟨rfl, rfl⟩ := Prod.mk.inj (Option.some.inj h)
        exact absurd hast hcanonical
  · simp

/-- Every tree the parser returns is canonical. -/
theorem parse_canonical {raw : RawBytes} {ast : AST}
    (h : parse raw = some ast) : IsCanonical ast := by
  unfold parse at h
  simp only at h
  split at h
  · rename_i found rest hfound
    split at h
    · split at h
      · rename_i hcanonical
        obtain rfl := Option.some.inj h
        exact hcanonical
      · simp at h
    · simp at h
  · simp at h

end McpSeal.SealV2
