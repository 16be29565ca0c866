import Mathlib.Tactic.Common
set_option autoImplicit false

/-!
# Seal: scans over the raw line (`Seal/JsonUtil.lean`)

Three checks the gate makes on a line before it is parsed, each one pass over
the characters with a small state: no number with a long exponent, no object
with a repeated or escaped key, no number with too many digits.
-/

namespace McpSeal.Seal.JsonUtil

/-! ## Exponents -/

/-- Longest exponent a number may carry, in digits. -/
def maxExponentDigits : Nat := 6

/-- The state of the scan: in a string, in an exponent of so many digits, and the
longest exponent so far. -/
structure NumberScan where
  inString : Bool := false
  escaped : Bool := false
  inExp : Bool := false
  expLen : Nat := 0
  worst : Nat := 0

/-- One character of the scan. -/
def numberScanStep (st : NumberScan) (c : Char) : NumberScan :=
  if st.inString then
    if st.escaped then { st with escaped := false }
    else if c == '\\' then { st with escaped := true }
    else if c == '"' then { st with inString := false }
    else st
  else if c == '"' then
    { st with inString := true, inExp := false, expLen := 0 }
  else if st.inExp then
    if c.isDigit then
      let l := st.expLen + 1
      { st with expLen := l, worst := Nat.max st.worst l }
    else if c == '+' || c == '-' then
      -- optional sign after `e`; still in the exponent
      st
    else
      { st with inExp := false, expLen := 0 }
  else if c == 'e' || c == 'E' then
    { st with inExp := true, expLen := 0 }
  else
    st

/-- No number outside a string has an exponent longer than the bound. -/
def wireNumbersSafe (s : String) : Bool :=
  (s.toList.foldl numberScanStep {}).worst ≤ maxExponentDigits

/-! ## Keys -/

/-- A container the scan is inside: of an object, the keys seen so far and
whether the next string is one. -/
inductive KeyFrame where
  | obj (seen : List String) (expectKey : Bool)
  | arr

/-- The state of the scan: the open containers, the innermost first, and the string
being read. -/
structure KeyScan where
  stack : List KeyFrame := []
  inString : Bool := false
  escaped : Bool := false
  /-- The string being read is an object key. -/
  isKey : Bool := false
  /-- Characters of the key, reversed. -/
  buf : List Char := []
  bad : Bool := false

/-- One character of the scan; once something is wrong it stays so. -/
def keyScanStep (st : KeyScan) (c : Char) : KeyScan :=
  if st.bad then st
  else if st.inString then
    if st.escaped then { st with escaped := false }
    else if c == '\\' then
      if st.isKey then { st with bad := true }
      else { st with escaped := true }
    else if c == '"' then
      if st.isKey then
        let key := String.ofList st.buf.reverse
        match st.stack with
        | .obj seen _ :: rest =>
            if seen.contains key then { st with bad := true }
            else { st with inString := false, isKey := false, buf := [],
                           stack := .obj (key :: seen) false :: rest }
        | _ => { st with bad := true }
      else { st with inString := false }
    else if st.isKey then { st with buf := c :: st.buf }
    else st
  else if c == '"' then
    let isKey := match st.stack with
      | .obj _ expectKey :: _ => expectKey
      | _ => false
    { st with inString := true, isKey, buf := [] }
  else if c == '\x7b' then { st with stack := .obj [] true :: st.stack }
  else if c == '[' then { st with stack := .arr :: st.stack }
  else if c == '\x7d' then
    match st.stack with
    | .obj _ _ :: rest => { st with stack := rest }
    | _ => { st with bad := true }
  else if c == ']' then
    match st.stack with
    | .arr :: rest => { st with stack := rest }
    | _ => { st with bad := true }
  else if c == ',' then
    match st.stack with
    | .obj seen _ :: rest => { st with stack := .obj seen true :: rest }
    | _ => st
  else
    st

/-- No object on the line repeats a key or escapes a character of one. -/
def wireKeysSafe (s : String) : Bool :=
  !(s.toList.foldl keyScanStep {}).bad

/-! ## Digits -/

/-- Most digits a number may carry in front of its exponent. -/
def maxSignificantDigits : Nat := 18

/-- The state of the scan: in a string, in an exponent, after so many digits, and the
most digits so far. -/
structure DigitScan where
  inString : Bool := false
  escaped : Bool := false
  inExp : Bool := false
  run : Nat := 0
  worst : Nat := 0

/-- One character of the scan. -/
def digitScanStep (st : DigitScan) (c : Char) : DigitScan :=
  if st.inString then
    if st.escaped then { st with escaped := false }
    else if c == '\\' then { st with escaped := true }
    else if c == '"' then { st with inString := false }
    else st
  else if c == '"' then
    { st with inString := true, inExp := false, run := 0 }
  else if c == 'e' || c == 'E' then
    { st with inExp := true }
  else if c == '+' || c == '-' then
    -- the sign of an exponent keeps `inExp`; the sign of a value is inert
    st
  else if c.isDigit then
    if st.inExp then st
    else
      let r := st.run + 1
      { st with run := r, worst := Nat.max st.worst r }
  else if c == '.' then
    st
  else
    { st with inExp := false, run := 0 }

/-- No number outside a string has more digits than the bound. -/
def wireDigitsSafe (s : String) : Bool :=
  (s.toList.foldl digitScanStep {}).worst ≤ maxSignificantDigits

end McpSeal.Seal.JsonUtil
