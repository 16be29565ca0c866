import McpSeal.Foundation.Radix
set_option autoImplicit false

/-!
# C: the Ed25519 shim (`c/seal_ed25519.c`)

The shim rejects a signature whose scalar half `S` is not below the group order
before it hands the message to the vendored verifier.  The test is a loop over
the bytes from the most significant one down, with two sticky flags that block
each other through a bitwise complement.

`int` is a 32-bit two's complement word.  The vendored `crypto_sign_open` and
the outcome of the two allocations are parameters: nothing below depends on
what they answer.
-/

namespace McpSeal.C

open McpSeal.Foundation.Radix

/-- C `int`. -/
abbrev CInt := BitVec 32

/-- The value of a C comparison. -/
def cBool (p : Bool) : CInt := if p then 1 else 0

/-- `int s = S[i]`: integer promotion of a byte. -/
def promote (byte : UInt8) : CInt := byte.toBitVec.setWidth 32

/-- The group order, little-endian. -/
def ED25519_L : Vector UInt8 32 := #v[
  0xed, 0xd3, 0xf5, 0x5c, 0x1a, 0x63, 0x12, 0x58,
  0xd6, 0x9c, 0xf7, 0xa2, 0xde, 0xf9, 0xde, 0x14,
  0x00, 0x00, 0x00, 0x00, 0x00, 0x00, 0x00, 0x00,
  0x00, 0x00, 0x00, 0x00, 0x00, 0x00, 0x00, 0x10]

/-- The two sticky flags of the loop. -/
structure Flags where
  lt : CInt
  gt : CInt
  deriving DecidableEq

/-- The loop body.  The second assignment reads the `lt` the first has just
written. -/
def compareByte (flags : Flags) (s l : CInt) : Flags :=
  let lt := flags.lt ||| (~~~flags.gt &&& cBool (s.slt l))
  let gt := flags.gt ||| (~~~lt &&& cBool (l.slt s))
  { lt, gt }

/-- `for (int i = n - 1; i >= 0; i--)` over the low `n` bytes. -/
def compareLoop (S L : Vector UInt8 32) : (n : Nat) → n ≤ 32 → Flags → Flags
  | 0, _, flags => flags
  | i + 1, h, flags =>
      compareLoop S L i (Nat.le_of_succ_le h)
        (compareByte flags (promote S[i]) (promote L[i]))

/-- The flags after the loop over all 32 bytes, `lt` and `gt` starting at 0. -/
def compareS (S : Vector UInt8 32) : Flags :=
  compareLoop S ED25519_L 32 (Nat.le_refl 32) { lt := 0, gt := 0 }

/-- `sig + 32`, the scalar half. -/
def sigS (sig : ByteArray) : Vector UInt8 32 :=
  Vector.ofFn fun i => sig.data.getD (32 + i.val) 0

section Shim

variable (crypto_sign_open : (sm pk : ByteArray) → CInt) (smAllocated mAllocated : Bool)

/-- The rest of the shim, after the range check: rebuild the attached message
`sig ‖ msg` and open it. -/
def openDetached (pk msg sig : ByteArray) : UInt8 :=
  if !smAllocated || !mAllocated then 0
  else
    let sm := sig ++ msg
    let rc := crypto_sign_open sm pk
    if rc = 0 then 1 else 0

/-- The shim: width check, range check on `S`, then the vendored verifier. -/
def lean_seal_ed25519_verify (pk msg sig : ByteArray) : UInt8 :=
  if pk.size ≠ 32 ∨ sig.size ≠ 64 then 0
  else if (compareS (sigS sig)).lt = 0 then 0
  else openDetached crypto_sign_open smAllocated mAllocated pk msg sig

end Shim

/-! ## The flags are an ordering

`lt` and `gt` hold the comparison of the bytes seen so far.  A decided
comparison is never changed: the complement of a set flag has bit 0 clear. -/

/-- The flags that stand for a comparison result. -/
def encode : Ordering → Flags
  | .lt => { lt := 1, gt := 0 }
  | .eq => { lt := 0, gt := 0 }
  | .gt => { lt := 0, gt := 1 }

theorem toInt_promote (byte : UInt8) : (promote byte).toInt = (byte.toNat : Int) := by
  have hbyte := byte.toNat_lt
  unfold promote
  rw [BitVec.toInt_eq_toNat_of_lt]
  · simp
  · simp
    omega

theorem slt_promote (s l : UInt8) :
    (promote s).slt (promote l) = decide (s.toNat < l.toNat) := by
  unfold BitVec.slt
  rw [toInt_promote, toInt_promote]
  simp

/-- Step lemma: the loop body refines an undecided comparison by one byte. -/
theorem compareByte_encode (o : Ordering) (s l : UInt8) :
    compareByte (encode o) (promote s) (promote l) =
      encode (o.then (compare s.toNat l.toNat)) := by
  unfold compareByte
  rw [slt_promote, slt_promote]
  rcases lt_trichotomy s.toNat l.toNat with h | h | h
  · have hnot : ¬ l.toNat < s.toNat := by omega
    rw [Nat.compare_eq_lt.mpr h, decide_eq_true h, decide_eq_false hnot]
    cases o <;> decide
  · have hnot : ¬ l.toNat < s.toNat := by omega
    have hnot' : ¬ s.toNat < l.toNat := by omega
    rw [Nat.compare_eq_eq.mpr h, decide_eq_false hnot', decide_eq_false hnot]
    cases o <;> decide
  · have hnot : ¬ s.toNat < l.toNat := by omega
    rw [Nat.compare_eq_gt.mpr h, decide_eq_false hnot, decide_eq_true h]
    cases o <;> decide

/-! ## The loop compares the numbers -/

/-- The bytes as digits, least significant first. -/
def digits (S : Vector UInt8 32) : List Nat := S.toList.map UInt8.toNat

/-- The little-endian value of 32 bytes. -/
def leValue (S : Vector UInt8 32) : Nat := Nat.ofDigits 256 (digits S)

/-- The Ed25519 group order. -/
def groupOrder : Nat := 2 ^ 252 + 27742317777372353535851937790883648493

theorem length_digits (S : Vector UInt8 32) : (digits S).length = 32 := by
  simp [digits]

theorem digits_lt (S : Vector UInt8 32) : ∀ d ∈ digits S, d < 256 := by
  intro d hd
  obtain ⟨byte, _, rfl⟩ := List.mem_map.mp hd
  exact byte.toNat_lt

theorem drop_digits (S : Vector UInt8 32) {i : Nat} (h : i < 32) :
    (digits S).drop i = S[i].toNat :: (digits S).drop (i + 1) := by
  have hlength : i < (digits S).length := by rw [length_digits]; exact h
  rw [List.drop_eq_getElem_cons hlength]
  simp [digits]

/-- Run lemma: from the comparison of the bytes above `n`, the loop over the
low `n` bytes reaches the comparison of all of them. -/
theorem compareLoop_encode (S L : Vector UInt8 32) (n : Nat) (h : n ≤ 32) :
    compareLoop S L n h
        (encode (compareDigits ((digits S).drop n) ((digits L).drop n))) =
      encode (compareDigits (digits S) (digits L)) := by
  induction n with
  | zero => rfl
  | succ i ih =>
      have hi : i < 32 := h
      have hstep : compareDigits ((digits S).drop i) ((digits L).drop i) =
          (compareDigits ((digits S).drop (i + 1)) ((digits L).drop (i + 1))).then
            (compare S[i].toNat L[i].toNat) := by
        rw [drop_digits S hi, drop_digits L hi]
        rfl
      rw [compareLoop, compareByte_encode, ← hstep]
      exact ih (Nat.le_of_succ_le h)

/-- The loop's flags encode the comparison of the two values. -/
theorem compareLoop_eq (S L : Vector UInt8 32) :
    compareLoop S L 32 (Nat.le_refl 32) { lt := 0, gt := 0 } =
      encode (compare (leValue S) (leValue L)) := by
  have hdigits : compareDigits (digits S) (digits L) = compare (leValue S) (leValue L) :=
    compareDigits_eq (by rw [length_digits, length_digits]) (digits_lt S) (digits_lt L)
  have hstart : ({ lt := 0, gt := 0 } : Flags) =
      encode (compareDigits ((digits S).drop 32) ((digits L).drop 32)) := by
    rw [List.drop_of_length_le (by rw [length_digits])]
    rfl
  rw [hstart, compareLoop_encode, hdigits]

theorem leValue_ED25519_L : leValue ED25519_L = groupOrder := by
  decide +kernel

theorem encode_lt_ne_zero (o : Ordering) : (encode o).lt ≠ 0 ↔ o = .lt := by
  cases o <;> decide

/-- The range flag of the shim is set exactly below the group order. -/
theorem compareS_lt_iff (S : Vector UInt8 32) :
    (compareS S).lt ≠ 0 ↔ leValue S < groupOrder := by
  unfold compareS
  rw [compareLoop_eq, encode_lt_ne_zero, leValue_ED25519_L, Nat.compare_eq_lt]

/-- **The malleability check is exact.**  For every 32-byte `S` the loop leaves
`lt` set exactly when the little-endian value of `S` is below the group order;
so, on inputs of the right widths, the shim rejects every signature whose bytes
32 to 63 stand for the order or more, and below it answers whatever opening the
attached message does. -/
theorem s_range_check_exact :
    (∀ S : Vector UInt8 32, (compareS S).lt ≠ 0 ↔ leValue S < groupOrder) ∧
    ∀ (crypto_sign_open : (sm pk : ByteArray) → CInt) (smAllocated mAllocated : Bool)
      (pk msg sig : ByteArray),
      lean_seal_ed25519_verify crypto_sign_open smAllocated mAllocated pk msg sig =
        if pk.size ≠ 32 ∨ sig.size ≠ 64 then 0
        else if groupOrder ≤ leValue (Vector.ofFn fun i => sig.data.getD (32 + i.val) 0) then 0
        else openDetached crypto_sign_open smAllocated mAllocated pk msg sig := by
  refine ⟨compareS_lt_iff, ?_⟩
  intro crypto_sign_open smAllocated mAllocated pk msg sig
  have hrange : (compareS (sigS sig)).lt = 0 ↔ groupOrder ≤ leValue (sigS sig) := by
    rw [← not_lt, ← compareS_lt_iff, not_not]
  unfold lean_seal_ed25519_verify
  simp only [hrange]
  rfl

end McpSeal.C
