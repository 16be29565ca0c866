import McpSeal.Data.Json
set_option autoImplicit false

/-!
# Data: the JSON parser (`Lean.Data.Json.Parser`)

The library's recursive descent over a character position.  A position is
represented by the characters that remain, so an error carries the rest of the
input and `Json.parse` turns it back into the byte offset the library reports.

The library's mutually recursive parsers are `partial`.  Here they take a fuel
that `Json.parse` fixes at twice the length of the input plus two; a call that
consumes nothing is always followed by one that does, so the fuel outlasts the
input.
-/

namespace McpSeal.Data

namespace Json

/-- Outcome of one parser: the characters left, and a value or a message. -/
inductive ParseResult (α : Type) where
  | success (rest : List Char) (res : α)
  | error (rest : List Char) (err : String)

/-- A parser over the characters that remain. -/
def Parser (α : Type) : Type := List Char → ParseResult α

namespace Parser

instance : Monad Parser where
  pure a := fun it => .success it a
  bind f g := fun it =>
    match f it with
    | .success rest a => g a rest
    | .error rest err => .error rest err

/-- Fail where it stands. -/
def fail {α : Type} (msg : String) : Parser α := fun it => .error it msg

/-- Run `p`; where it fails, give `value` without having consumed anything. -/
def attemptOr {α : Type} (p : Parser α) (value : α) : Parser α := fun it =>
  match p it with
  | .success rest res => .success rest res
  | .error _ _ => .success it value

/-- Accept the end of the input only. -/
def eof : Parser Unit := fun it =>
  match it with
  | [] => .success it ()
  | _ => .error it "expected end of input"

/-- Whether the input has ended. -/
def isEof : Parser Bool := fun it => .success it it.isEmpty

/-- Take the next character. -/
def any : Parser Char := fun it =>
  match it with
  | c :: rest => .success rest c
  | [] => .error it "unexpected end of input"

/-- Look at the next character without taking it. -/
def peek! : Parser Char := fun it =>
  match it with
  | c :: _ => .success it c
  | [] => .error it "unexpected end of input"

/-- Drop the next character. -/
def skip : Parser Unit := fun it =>
  match it with
  | _ :: rest => .success rest ()
  | [] => .error it "unexpected end of input"

/-- Take a keyword. -/
def skipString (s : String) : Parser Unit := fun it =>
  if s.toList.isPrefixOf it then .success (it.drop s.length) ()
  else .error it ("expected: " ++ s)

/-- Drop blanks: tab, newline, carriage return and space. -/
def ws : Parser Unit := fun it =>
  .success (it.dropWhile fun c => c = '\t' || c = '\n' || c = '\r' || c = ' ') ()

/-- Demand a property of the next character without taking it. -/
def lookahead (p : Char → Bool) (desc : String) : Parser Unit := do
  let c ← peek!
  if p c then pure () else fail ("expected " ++ desc)

/-! ## Strings -/

/-- Value of one hex digit of either case. -/
def hexChar : Parser Nat := do
  let c ← any
  if '0' ≤ c ∧ c ≤ '9' then pure (c.toNat - '0'.toNat)
  else if 'a' ≤ c ∧ c ≤ 'f' then pure (c.toNat - 'a'.toNat + 10)
  else if 'A' ≤ c ∧ c ≤ 'F' then pure (c.toNat - 'A'.toNat + 10)
  else fail "invalid hex character"

/-- The second half of a surrogate pair.  The library reads the digits after
the leading `d`, so the range test is against `0xC00`. -/
def finishSurrogatePair (low : Nat) : Parser Char := do
  let c ← any
  if c ≠ '\\' then fail "" else
  let c ← any
  if c ≠ 'u' then fail "" else
  let c ← any
  if c ≠ 'd' ∧ c ≠ 'D' then fail "" else
  let u2 ← hexChar
  let u3 ← hexChar
  let u4 ← hexChar
  let val := u2 * 256 + u3 * 16 + u4
  if val < 0xC00 then fail "" else
  pure (Char.ofNat (low % 1024 * 1024 + val % 1024 + 0x10000))

/-- The character an escape stands for, its backslash already taken. -/
def escapedChar : Parser Char := do
  let c ← any
  match c with
  | '\\' => pure '\\'
  | '"' => pure '"'
  | '/' => pure '/'
  | 'b' => pure '\x08'
  | 'f' => pure '\x0c'
  | 'n' => pure '\n'
  | 'r' => pure '\x0d'
  | 't' => pure '\t'
  | 'u' =>
      let u1 ← hexChar
      let u2 ← hexChar
      let u3 ← hexChar
      let u4 ← hexChar
      let val := u1 * 4096 + u2 * 256 + u3 * 16 + u4
      if val < 0xD800 then pure (Char.ofNat val)
      else if val < 0xE000 then
        if val < 0xDC00 then attemptOr (finishSurrogatePair val) '\ufffd'
        else pure '\ufffd'
      else pure (Char.ofNat val)
  | _ => fail "illegal \\u escape"

/-- The rest of a string, up to and with the closing quote. -/
def strCore : Nat → String → Parser String
  | 0, _ => fail "out of fuel"
  | fuel + 1, acc => do
      let c ← peek!
      if c = '"' then
        skip
        pure acc
      else
        let c ← any
        if c = '\\' then
          let d ← escapedChar
          strCore fuel (acc.push d)
        else if 0x0020 ≤ c.toNat ∧ c.toNat ≤ 0x10ffff then
          strCore fuel (acc.push c)
        else
          fail "unexpected character in string"

/-- String content after the opening quote; each step consumes a character. -/
def str : Parser String := fun it => strCore (it.length + 1) "" it

/-! ## Numbers -/

/-- Decimal digits, accumulated, with their number. -/
def natCoreNumDigits (acc digits : Nat) : Parser (Nat × Nat) := fun it =>
  match it with
  | c :: rest =>
      if '0' ≤ c ∧ c ≤ '9' then
        natCoreNumDigits (10 * acc + (c.toNat - '0'.toNat)) (digits + 1) rest
      else .success it (acc, digits)
  | [] => .success it (acc, digits)

/-- The digits that follow, added to those already read. -/
def natCore (acc : Nat) : Parser Nat := do
  let (n, _) ← natCoreNumDigits acc 0
  pure n

/-- A number without leading zero. -/
def natNonZero : Parser Nat := do
  lookahead (fun c => '1' ≤ c && c ≤ '9') "1-9"
  natCore 0

/-- The digits of a fraction and how many there are; leading zeroes count. -/
def natNumDigits : Parser (Nat × Nat) := do
  lookahead (fun c => '0' ≤ c && c ≤ '9') "digit"
  natCoreNumDigits 0 0

/-- The digits of an exponent, leading zeroes allowed. -/
def natMaybeZero : Parser Nat := do
  lookahead (fun c => '0' ≤ c && c ≤ '9') "0-9"
  natCore 0

/-- A minus sign or nothing. -/
def numSign : Parser Int := do
  let c ← peek!
  if c = '-' then
    skip
    pure (-1)
  else
    pure 1

/-- The whole part: 0 alone, or digits that do not start with 0. -/
def nat : Parser Nat := do
  let c ← peek!
  if c = '0' then
    skip
    pure 0
  else
    natNonZero

/-- A number up to its exponent. -/
def numWithDecimals : Parser JsonNumber := do
  let sign ← numSign
  let whole ← nat
  if ← isEof then
    pure (JsonNumber.fromInt (sign * whole))
  else
    let c ← peek!
    if c = '.' then
      skip
      let (n, d) ← natNumDigits
      if d > 2 ^ 64 then fail "too many decimals" else
      pure ⟨sign * (whole * (10 ^ d : Nat) + n), d⟩
    else
      pure (JsonNumber.fromInt (sign * whole))

/-- Shift the number read so far by the exponent that follows, if there is one. -/
def exponent (value : JsonNumber) : Parser JsonNumber := do
  if ← isEof then
    pure value
  else
    let c ← peek!
    if c = 'e' ∨ c = 'E' then
      skip
      let c ← peek!
      if c = '-' then
        skip
        let n ← natMaybeZero
        pure (value.shiftr n)
      else
        if c = '+' then skip
        let n ← natMaybeZero
        if n > 2 ^ 64 then fail "exp too large" else
        pure (value.shiftl n)
    else
      pure value

/-- A number. -/
def num : Parser JsonNumber := do
  let res ← numWithDecimals
  exponent res

/-! ## Values -/

mutual

/-- The elements of an array that is open and not empty, up to its end. -/
def arrayCore : Nat → List Json → Parser (List Json)
  | 0, _ => fail "out of fuel"
  | fuel + 1, acc => do
      let hd ← anyCore fuel
      let acc' := acc ++ [hd]
      let c ← any
      if c = ']' then
        ws
        pure acc'
      else if c = ',' then
        ws
        arrayCore fuel acc'
      else
        fail "unexpected character in array"

/-- The members of an object that is open and not empty.  A repeated key replaces the
value it had. -/
def objectCore : Nat → List (String × Json) → Parser (List (String × Json))
  | 0, _ => fail "out of fuel"
  | fuel + 1, kvs => do
      lookahead (fun c => c = '"') "\""
      skip
      let k ← str
      ws
      lookahead (fun c => c = ':') ":"
      skip
      ws
      let v ← anyCore fuel
      let c ← any
      if c = '}' then
        ws
        pure (insert kvs k v)
      else if c = ',' then
        ws
        objectCore fuel (insert kvs k v)
      else
        fail "unexpected character in object"

/-- A value, with the blanks after it. -/
def anyCore : Nat → Parser Json
  | 0 => fail "out of fuel"
  | fuel + 1 => do
      let c ← peek!
      if c = '[' then
        skip
        ws
        let c ← peek!
        if c = ']' then
          skip
          ws
          pure (.arr [])
        else
          let a ← arrayCore fuel []
          pure (.arr a)
      else if c = '{' then
        skip
        ws
        let c ← peek!
        if c = '}' then
          skip
          ws
          pure (.obj [])
        else
          let kvs ← objectCore fuel []
          pure (.obj kvs)
      else if c = '"' then
        skip
        let s ← str
        ws
        pure (.str s)
      else if c = 'f' then
        skipString "false"
        ws
        pure (.bool false)
      else if c = 't' then
        skipString "true"
        ws
        pure (.bool true)
      else if c = 'n' then
        skipString "null"
        ws
        pure .null
      else if c = '-' ∨ ('0' ≤ c ∧ c ≤ '9') then
        let n ← num
        ws
        pure (.num n)
      else
        fail "unexpected input"

end

/-- A whole document. -/
def document (fuel : Nat) : Parser Json := do
  ws
  let res ← anyCore fuel
  eof
  pure res

end Parser

/-- Parse a JSON text; an error names the byte offset it occurred at. -/
def parse (s : String) : Except String Json :=
  let chars := s.toList
  match Parser.document (2 * chars.length + 2) chars with
  | .success _ res => .ok res
  | .error rest err =>
      .error ("offset " ++ toString (s.utf8ByteSize - (String.ofList rest).utf8ByteSize)
        ++ ": " ++ err)

end Json

end McpSeal.Data
