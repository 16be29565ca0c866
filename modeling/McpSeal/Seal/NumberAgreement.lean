import McpSeal.Data.NatText
import McpSeal.Seal.WireGuards
set_option autoImplicit false

/-!
# Seal: numbers two readers agree on (`Seal/JsonUtil.lean`)

A number is refused if a reader that keeps binary64 values would not see the
number that was written.  One numeric token of the raw line is read as an exact
decimal, rounded to binary64 with natural numbers, and compared: an integer must
be represented exactly, any other form must be the shortest decimal of its
binary64 value.
-/

namespace McpSeal.Seal.JsonUtil

open McpSeal.Data (toNat?)

/-- A number of the line, read as a decimal. -/
structure ParsedWireDecimal where
  negative : Bool
  /-- Significant digits, without zeros at either end. -/
  digits : List Char
  /-- The value is `digits * 10 ^ exp10`. -/
  exp10 : Int
  /-- There is neither a decimal point nor an exponent. -/
  integerSyntax : Bool

/-- The decimal `coeff * 10 ^ exp10`. -/
structure DecimalValue where
  coeff : Nat
  exp10 : Int
  deriving DecidableEq

/-- A finite binary64 number, `significand * 2 ^ exp2`; zero is `(0, 0)`. -/
structure Binary64Value where
  significand : Nat
  exp2 : Int
  deriving DecidableEq

/-! ## Reading a token -/

/-- A decimal digit. -/
def charIsDigit (c : Char) : Bool :=
  '0' ≤ c && c ≤ '9'

/-- One digit or more, and nothing else. -/
def allDigits (cs : List Char) : Bool :=
  !cs.isEmpty && cs.all charIsDigit

/-- A whole part without leading zero, or 0 alone. -/
def validIntegerPart : List Char → Bool
  | ['0'] => true
  | c :: cs => c != '0' && charIsDigit c && cs.all charIsDigit
  | [] => false

/-- Drop the zeroes in front. -/
def stripLeadingZeroes (cs : List Char) : List Char :=
  cs.dropWhile (· == '0')

/-- The digits without zeroes at either end, and how many were dropped at the back. -/
def normalizeDigits (cs : List Char) : List Char × Nat :=
  let noLeading := stripLeadingZeroes cs
  let trailing := noLeading.reverse.takeWhile (· == '0') |>.length
  (noLeading.take (noLeading.length - trailing), trailing)

/-- The sign of a literal and what is behind it. -/
def literalSign : List Char → Bool × List Char
  | '-' :: rest => (true, rest)
  | chars => (false, chars)

/-- The sign of an exponent and what is behind it. -/
def exponentSign : List Char → Bool × List Char
  | '+' :: ds => (false, ds)
  | '-' :: ds => (true, ds)
  | rest => (false, rest)

/-- The part of `parseWireDecimal?` that reads the exponent with its marker. -/
def wireExponent? : List Char → Option Int
  | [] => some 0
  | _marker :: rest =>
      let (expNegative, expDigits) := exponentSign rest
      if !allDigits expDigits then none
      else
        let significantExpDigits := stripLeadingZeroes expDigits
        let magnitude : Option Nat :=
          if significantExpDigits.length > maxExponentDigits then
            -- far outside the range of binary64 in any case
            some 1000000
          else if significantExpDigits.isEmpty then some 0
          else toNat? (String.ofList significantExpDigits)
        magnitude.map fun (magnitude : Nat) =>
          if expNegative then -(magnitude : Int) else (magnitude : Int)

/-- The digits behind the decimal point. -/
def fractionDigits : List Char → List Char
  | [] => []
  | _dot :: ds => ds

/-- One JSON number; anything else is left to the JSON parser. -/
def parseWireDecimal? (literal : String) : Option ParsedWireDecimal := do
  let (negative, body) := literalSign literal.toList
  let (mantissa, exponentPart) := body.span (fun c => c != 'e' && c != 'E')
  let hasExponent := !exponentPart.isEmpty
  let exponent ← wireExponent? exponentPart
  let (integerPart, fractionPart) := mantissa.span (· != '.')
  let hasFraction := !fractionPart.isEmpty
  if !validIntegerPart integerPart then none
  else if hasFraction && !allDigits (fractionDigits fractionPart) then none
  else
    let rawDigits := integerPart ++ fractionDigits fractionPart
    let (digits, trailing) := normalizeDigits rawDigits
    let exp10 := exponent - ((fractionDigits fractionPart).length : Int) + (trailing : Int)
    some {
      negative
      digits
      exp10 := if digits.isEmpty then 0 else exp10
      integerSyntax := !hasFraction && !hasExponent
    }

/-- The number some digits denote; without digits it is zero. -/
def coefficient? (digits : List Char) : Option Nat :=
  if digits.isEmpty then some 0
  else toNat? (String.ofList digits)

/-- The value of a parsed number of at most 17 significant digits. -/
def parsedValue? (p : ParsedWireDecimal) : Option DecimalValue := do
  if p.digits.length > 17 then none
  else
    let coeff ← coefficient? p.digits
    some { coeff, exp10 := if coeff == 0 then 0 else p.exp10 }

/-! ## Rounding to binary64 -/

/-- The quotient, rounded to nearest with ties to even. -/
def roundDivEven (numerator denominator : Nat) : Nat :=
  let q := numerator / denominator
  let twiceRemainder := 2 * (numerator % denominator)
  if twiceRemainder < denominator then q
  else if denominator < twiceRemainder then q + 1
  else if q % 2 == 0 then q
  else q + 1

/-- Compare a fraction with a power of two. -/
def compareRatioPow2 (numerator denominator : Nat) (exponent : Int) : Ordering :=
  if exponent ≥ 0 then
    compare numerator (denominator * 2 ^ exponent.toNat)
  else
    compare (numerator * 2 ^ (-exponent).toNat) denominator

/-- Scale a fraction by a power of two and round it. -/
def roundRatioScale2 (numerator denominator : Nat) (shift : Int) : Nat :=
  if shift ≥ 0 then
    roundDivEven (numerator * 2 ^ shift.toNat) denominator
  else
    roundDivEven numerator (denominator * 2 ^ (-shift).toNat)

/-- A positive ratio rounded to the nearest binary64 number, ties to even;
`none` where it is too large. -/
def rationalToBinary64? (numerator denominator : Nat) : Option Binary64Value :=
  if numerator == 0 then
    some { significand := 0, exp2 := 0 }
  else
    let guess : Int := (numerator.log2 : Int) - (denominator.log2 : Int)
    let exponent :=
      if compareRatioPow2 numerator denominator guess == .lt then guess - 1 else guess
    if exponent > 1023 then none
    else if exponent ≥ -1022 then
      let significand := roundRatioScale2 numerator denominator (52 - exponent)
      if significand == 2 ^ 53 then
        let carriedExponent := exponent + 1
        if carriedExponent > 1023 then none
        else some { significand := 2 ^ 52, exp2 := carriedExponent - 52 }
      else
        some { significand, exp2 := exponent - 52 }
    else
      let significand := roundRatioScale2 numerator denominator 1074
      if significand == 0 then
        some { significand := 0, exp2 := 0 }
      else
        some { significand, exp2 := -1074 }

/-- The binary64 value next to a decimal, or nothing if it overflows. -/
def decimalToBinary64? (d : DecimalValue) : Option Binary64Value :=
  if d.coeff == 0 then
    some { significand := 0, exp2 := 0 }
  else if d.exp10 > 400 then
    none
  else if d.exp10 < -400 then
    some { significand := 0, exp2 := 0 }
  else if d.exp10 ≥ 0 then
    rationalToBinary64? (d.coeff * 10 ^ d.exp10.toNat) 1
  else
    rationalToBinary64? d.coeff (10 ^ (-d.exp10).toNat)

/-! ## The shortest decimal -/

/-- Move the zeroes at the back of a coefficient into its exponent. -/
def stripTrailingZeroes (n : Nat) (e : Int) (fuel : Nat) : Nat × Int :=
  match fuel with
  | 0 => (n, e)
  | fuel + 1 =>
      if n % 10 == 0 then stripTrailingZeroes (n / 10) (e + 1) fuel else (n, e)

/-- The decimal without zeroes at the back of its coefficient; 0 has the exponent 0.
-/
def normalizeDecimalValue (coeff : Nat) (exp10 : Int) : DecimalValue :=
  if coeff == 0 then { coeff := 0, exp10 := 0 }
  else
    let (n, e) := stripTrailingZeroes coeff exp10 (Nat.repr coeff).length
    { coeff := n, exp10 := e }

/-- A binary64 value as a fraction. -/
def binaryRatio (b : Binary64Value) : Nat × Nat :=
  if b.exp2 ≥ 0 then
    (b.significand * 2 ^ b.exp2.toNat, 1)
  else
    (b.significand, 2 ^ (-b.exp2).toNat)

/-- A decimal and a binary64 value are one number. -/
def decimalEqualsBinary64 (d : DecimalValue) (b : Binary64Value) : Bool :=
  let (binaryNumerator, binaryDenominator) := binaryRatio b
  if d.exp10 ≥ 0 then
    d.coeff * 10 ^ d.exp10.toNat * binaryDenominator == binaryNumerator
  else
    d.coeff * binaryDenominator == binaryNumerator * 10 ^ (-d.exp10).toNat

/-- The decimal exponent of a fraction below 1, if it is not below -400. -/
def negativeDecimalExponent? (numerator denominator : Nat) : Option Int :=
  (List.range 401).drop 1 |>.findSome? fun (k : Nat) =>
    if numerator * 10 ^ k ≥ denominator then some (-(k : Int)) else none

/-- `floor (log10 b)` of a positive binary64 value. -/
def binaryDecimalExponent? (b : Binary64Value) : Option Int :=
  let (numerator, denominator) := binaryRatio b
  if numerator ≥ denominator then
    let integerPart := numerator / denominator
    some ((Nat.repr integerPart).length - 1 : Nat)
  else
    negativeDecimalExponent? numerator denominator

/-- The multiple of a power of ten next to a binary64 value. -/
def nearestDecimalCoeff (b : Binary64Value) (exp10 : Int) : Nat :=
  let (n0, d0) := binaryRatio b
  if exp10 ≥ 0 then
    roundDivEven n0 (d0 * 10 ^ exp10.toNat)
  else
    roundDivEven (n0 * 10 ^ (-exp10).toNat) d0

/-- Try one digit more until the decimal is read back as the value. -/
def shortestDecimalAux (b : Binary64Value) (decimalExponent : Int) :
    Nat → Nat → Option DecimalValue
  | 0, _ => none
  | fuel + 1, digits =>
      let candidateExponent := decimalExponent - (digits - 1 : Nat)
      let candidate :=
        normalizeDecimalValue (nearestDecimalCoeff b candidateExponent) candidateExponent
      if decimalToBinary64? candidate == some b then some candidate
      else shortestDecimalAux b decimalExponent fuel (digits + 1)

/-- The shortest decimal that is read back as the value, which is what most printers
write. -/
def shortestDecimal? (b : Binary64Value) : Option DecimalValue :=
  if b.significand == 0 then some { coeff := 0, exp10 := 0 }
  else do
    let decimalExponent ← binaryDecimalExponent? b
    shortestDecimalAux b decimalExponent 17 1

/-- Both readers see the number that is written; `none` if it is not one. -/
def numberLiteralAgreementSafe? (literal : String) : Option Bool := do
  let parsed ← parseWireDecimal? literal
  if parsed.integerSyntax then
    if parsed.digits.length > 16 then some false
    else
      let coefficient ← coefficient? parsed.digits
      let value : DecimalValue := { coeff := coefficient, exp10 := parsed.exp10 }
      match decimalToBinary64? value with
      | none => some false
      | some binary => some (decimalEqualsBinary64 value binary)
  else
    match parsedValue? parsed with
    | none => some false
    | some value =>
        match decimalToBinary64? value with
        | none => some false
        | some binary =>
            match shortestDecimal? binary with
            | none => some false
            | some shortest => some (shortest == value)

/-! ## The scan -/

/-- A character that belongs to the number being read. -/
def numericTokenChar (c : Char) : Bool :=
  charIsDigit c || c == '-' || c == '+' || c == '.' || c == 'e' || c == 'E'

/-- The state of the scan: inside a string, inside a number, or between them. -/
structure AgreementScan where
  inString : Bool := false
  escaped : Bool := false
  inNumber : Bool := false
  /-- Characters of the number, reversed. -/
  buf : List Char := []
  offending : Option String := none

/-- The number that was being read is over: check it. -/
def finishAgreementNumber (st : AgreementScan) : AgreementScan :=
  if !st.inNumber then st
  else
    let literal := String.ofList st.buf.reverse
    match numberLiteralAgreementSafe? literal with
    | some false =>
        { st with inNumber := false, buf := [], offending := some literal }
    | _ =>
        { st with inNumber := false, buf := [] }

/-- A character between the numbers may open a string or a number. -/
def agreementScanOutside (st : AgreementScan) (c : Char) : AgreementScan :=
  if c == '"' then { st with inString := true }
  else if c == '-' || charIsDigit c then
    { st with inNumber := true, buf := [c] }
  else st

/-- One character of the scan, which stops at the first offending number. -/
def agreementScanStep (st : AgreementScan) (c : Char) : AgreementScan :=
  if st.offending.isSome then st
  else if st.inString then
    if st.escaped then { st with escaped := false }
    else if c == '\\' then { st with escaped := true }
    else if c == '"' then { st with inString := false }
    else st
  else if st.inNumber then
    if numericTokenChar c then { st with buf := c :: st.buf }
    else agreementScanOutside (finishAgreementNumber st) c
  else
    agreementScanOutside st c

/-- The first number outside a string on which the readers disagree. -/
def firstAgreementUnsafeNumber? (s : String) : Option String :=
  finishAgreementNumber (s.toList.foldl agreementScanStep {}) |>.offending

/-- All numbers of the line read alike. -/
def wireNumbersAgreementSafe (s : String) : Bool :=
  (firstAgreementUnsafeNumber? s).isNone

end McpSeal.Seal.JsonUtil
