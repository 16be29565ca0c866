import Mathlib.Tactic.Common
set_option autoImplicit false

/-!
# SealV2: hex text and the signature leaf (`SealV2/Crypto.lean`)

The Ed25519 check is foreign to the core, which consumes its answer as a
Boolean and never computes with it.  The model takes the leaf as a parameter of
every function that reaches it; `McpSeal.C.SealEd25519` models the shim behind
it.
-/

namespace McpSeal.SealV2

/-- The signature leaf: public key, message and signature bytes to a verdict. -/
abbrev Ed25519Verify := ByteArray → ByteArray → ByteArray → Bool

/-- Value of a hex digit of either case. -/
def hexDigit? (c : Char) : Option UInt8 :=
  if '0' ≤ c ∧ c ≤ '9' then some (UInt8.ofNat (c.toNat - '0'.toNat))
  else if 'a' ≤ c ∧ c ≤ 'f' then some (UInt8.ofNat (c.toNat - 'a'.toNat + 10))
  else if 'A' ≤ c ∧ c ≤ 'F' then some (UInt8.ofNat (c.toNat - 'A'.toNat + 10))
  else none

/-- Pairs of hex digits, high nibble first. -/
def hexBytes? : List Char → Option (List UInt8)
  | [] => some []
  | [_] => none
  | hi :: lo :: rest => do
      let h ← hexDigit? hi
      let l ← hexDigit? lo
      let tail ← hexBytes? rest
      some ((h * 16 + l) :: tail)

/-- Bytes of a hex text; odd length and foreign characters are rejected. -/
def hexDecode? (s : String) : Option ByteArray :=
  (hexBytes? s.toList).map (fun bytes => ⟨bytes.toArray⟩)

end McpSeal.SealV2
