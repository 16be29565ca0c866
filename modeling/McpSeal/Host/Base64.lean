import Mathlib.Data.String.Basic
import Mathlib.Tactic.IntervalCases
set_option autoImplicit false

/-!
# Host: base64 payloads (`rust/src/main.rs`)

The payloads of the command lines are base64, so that the core sees the exact
bytes of a request.  The decoder keeps the bits it has not yet written at the
low end of a 32-bit accumulator and lets the written ones run off its high end.
It skips every `=`, and drops the bits left over at the end.

`b64Encode` is the standard encoding, three bytes to four digits.  The decoder
takes every such text back to its bytes.
-/

namespace McpSeal.Host

/-! ## The decoder -/

/-- Value of a digit of the standard alphabet. -/
def b64Val (c : UInt8) : Option UInt32 :=
  if 'A'.toUInt8 ≤ c ∧ c ≤ 'Z'.toUInt8 then some (c - 'A'.toUInt8).toUInt32
  else if 'a'.toUInt8 ≤ c ∧ c ≤ 'z'.toUInt8 then some (c - 'a'.toUInt8 + 26).toUInt32
  else if '0'.toUInt8 ≤ c ∧ c ≤ '9'.toUInt8 then some (c - '0'.toUInt8 + 52).toUInt32
  else if c = '+'.toUInt8 then some 62
  else if c = '/'.toUInt8 then some 63
  else none

/-- The loop over the bytes of the text. -/
def b64Loop : List UInt8 → (acc nbits : UInt32) → (out : Array UInt8) → Option (Array UInt8)
  | [], _, _, out => some out
  | c :: rest, acc, nbits, out =>
      if c = '='.toUInt8 then b64Loop rest acc nbits out
      else
        match b64Val c with
        | none => none
        | some v =>
            let acc := acc <<< 6 ||| v
            let nbits := nbits + 6
            if 8 ≤ nbits then
              let nbits := nbits - 8
              b64Loop rest acc nbits (out.push (acc >>> nbits).toUInt8)
            else b64Loop rest acc nbits out

/-- The bytes of a base64 text, or nothing if a character is not of the alphabet. -/
def b64Decode (s : String) : Option ByteArray :=
  (b64Loop s.toUTF8.data.toList 0 0 #[]).map ByteArray.mk

/-! ## The standard encoding -/

/-- The digit of a six-bit value. -/
def b64Digit (n : Nat) : Char :=
  if n < 26 then Char.ofNat ('A'.toNat + n)
  else if n < 52 then Char.ofNat ('a'.toNat + (n - 26))
  else if n < 62 then Char.ofNat ('0'.toNat + (n - 52))
  else if n = 62 then '+'
  else '/'

/-- Three bytes to four digits, the last group filled up with `=`. -/
def b64EncodeBytes : List UInt8 → List Char
  | [] => []
  | [a] =>
      [b64Digit (a.toNat / 4), b64Digit (a.toNat % 4 * 16), '=', '=']
  | [a, b] =>
      [b64Digit (a.toNat / 4), b64Digit (a.toNat % 4 * 16 + b.toNat / 16),
        b64Digit (b.toNat % 16 * 4), '=']
  | a :: b :: c :: rest =>
      b64Digit (a.toNat / 4) :: b64Digit (a.toNat % 4 * 16 + b.toNat / 16) ::
        b64Digit (b.toNat % 16 * 4 + c.toNat / 64) :: b64Digit (c.toNat % 64) ::
        b64EncodeBytes rest

/-- The base64 text of some bytes. -/
def b64Encode (bytes : ByteArray) : String :=
  String.ofList (b64EncodeBytes bytes.data.toList)

/-! ## One digit -/

theorem b64Val_digit {n : Nat} (h : n < 64) :
    (b64Digit n).toUInt8 ≠ '='.toUInt8 ∧
      b64Val (b64Digit n).toUInt8 = some (UInt32.ofNat n) := by
  have hall : ∀ m : Fin 64, (b64Digit m.val).toUInt8 ≠ '='.toUInt8 ∧
      b64Val (b64Digit m.val).toUInt8 = some (UInt32.ofNat m.val) := by
    decide
  exact hall ⟨n, h⟩

/-- The accumulator after a digit: the old value six bits up, modulo the word. -/
theorem toNat_shift_or (acc : UInt32) {n : Nat} (h : n < 64) :
    (acc <<< 6 ||| UInt32.ofNat n).toNat = acc.toNat * 64 % 2 ^ 32 + n := by
  have hshift : (acc <<< 6).toNat = 2 ^ 6 * (acc.toNat % 2 ^ 26) := by
    rw [UInt32.toNat_shiftLeft, Nat.shiftLeft_eq]
    show acc.toNat * 64 % 2 ^ 32 = _
    omega
  have hdigit : (UInt32.ofNat n).toNat = n := by
    rw [UInt32.toNat_ofNat']
    omega
  rw [UInt32.toNat_or, hshift, hdigit, ← Nat.two_pow_add_eq_or_of_lt h]
  omega

/-- A digit that does not complete a byte. -/
theorem b64Loop_more {n : Nat} (h : n < 64) (rest : List UInt8) (acc : UInt32)
    (out : Array UInt8) :
    b64Loop ((b64Digit n).toUInt8 :: rest) acc 0 out =
      b64Loop rest (acc <<< 6 ||| UInt32.ofNat n) 6 out := by
  obtain ⟨hpad, hval⟩ := b64Val_digit h
  simp only [b64Loop, if_neg hpad, hval]
  rfl

/-- A digit that completes a byte. -/
theorem b64Loop_push {n : Nat} (h : n < 64) (rest : List UInt8) (acc nbits : UInt32)
    (hbits : 8 ≤ nbits + 6) (out : Array UInt8) :
    b64Loop ((b64Digit n).toUInt8 :: rest) acc nbits out =
      b64Loop rest (acc <<< 6 ||| UInt32.ofNat n) (nbits + 6 - 8)
        (out.push ((acc <<< 6 ||| UInt32.ofNat n) >>> (nbits + 6 - 8)).toUInt8) := by
  obtain ⟨hpad, hval⟩ := b64Val_digit h
  simp only [b64Loop, if_neg hpad, hval, if_pos hbits]

theorem b64Loop_pad (rest : List UInt8) (acc nbits : UInt32) (out : Array UInt8) :
    b64Loop ('='.toUInt8 :: rest) acc nbits out = b64Loop rest acc nbits out := by
  rw [b64Loop, if_pos rfl]

/-- A digit read with `k` bits pending, which with it make up a byte and `k - 2`
bits more.  The bits above the pending ones are those already written. -/
theorem b64Loop_byte (k r : Nat) {n : Nat} (acc : UInt32) (byte : UInt8) (hk : 2 ≤ k)
    (hk' : k ≤ 6) (hn : n < 64) (hr : r < 2 ^ (k - 2))
    (hbits : acc.toNat % 2 ^ k * 64 + n = byte.toNat * 2 ^ (k - 2) + r)
    (rest : List UInt8) (out : Array UInt8) :
    ∃ acc' : UInt32, acc'.toNat % 2 ^ (k - 2) = r ∧
      b64Loop ((b64Digit n).toUInt8 :: rest) acc (UInt32.ofNat k) out =
        b64Loop rest acc' (UInt32.ofNat (k - 2)) (out.push byte) := by
  have hacc := toNat_shift_or acc hn
  have hfits : 8 ≤ UInt32.ofNat k + 6 := by
    interval_cases k <;> decide
  have hleft : UInt32.ofNat k + 6 - 8 = UInt32.ofNat (k - 2) := by
    interval_cases k <;> decide
  have hshift : (UInt32.ofNat (k - 2)).toNat % 32 = k - 2 := by
    interval_cases k <;> decide
  have hbyte : ((acc <<< 6 ||| UInt32.ofNat n) >>> UInt32.ofNat (k - 2)).toUInt8 = byte := by
    apply UInt8.toNat.inj
    rw [UInt32.toNat_toUInt8, UInt32.toNat_shiftRight, hshift, hacc, Nat.shiftRight_eq_div_pow]
    have hlt := byte.toNat_lt
    interval_cases k <;> omega
  refine ⟨acc <<< 6 ||| UInt32.ofNat n, ?_, ?_⟩
  · rw [hacc]
    interval_cases k <;> omega
  · rw [b64Loop_push hn rest acc _ hfits, hleft, hbyte]

/-! ## The round trip -/

/-- Two digits that hold a byte, and four bits of the next. -/
theorem b64Loop_first {v : Nat} (byte : UInt8) (hv : v < 16) (acc : UInt32)
    (rest : List UInt8) (out : Array UInt8) :
    ∃ acc' : UInt32, acc'.toNat % 2 ^ 4 = v ∧
      b64Loop ((b64Digit (byte.toNat / 4)).toUInt8 ::
          (b64Digit (byte.toNat % 4 * 16 + v)).toUInt8 :: rest) acc 0 out =
        b64Loop rest acc' 4 (out.push byte) := by
  have hlt := byte.toNat_lt
  have hdigit : byte.toNat / 4 < 64 := by omega
  have hacc := toNat_shift_or acc hdigit
  rw [b64Loop_more hdigit]
  refine b64Loop_byte 6 v _ byte (by decide) (by decide) (by omega) (by omega) ?_ rest out
  rw [hacc]
  omega

/-- Every encoded byte string is decoded to itself. -/
theorem b64Loop_encodeBytes (bytes : List UInt8) (acc : UInt32) (out : Array UInt8) :
    b64Loop ((b64EncodeBytes bytes).map Char.toUInt8) acc 0 out =
      some (out ++ bytes.toArray) := by
  induction bytes using b64EncodeBytes.induct generalizing acc out with
  | case1 => simp [b64EncodeBytes, b64Loop]
  | case2 a =>
      obtain ⟨acc', _, hfirst⟩ := b64Loop_first a (v := 0) (by decide) acc
        ['='.toUInt8, '='.toUInt8] out
      rw [Nat.add_zero] at hfirst
      simp only [b64EncodeBytes, List.map_cons, List.map_nil, hfirst, b64Loop]
      simp
  | case3 a b =>
      have hb := b.toNat_lt
      obtain ⟨acc₁, hacc₁, hfirst⟩ := b64Loop_first a (v := b.toNat / 16) (by omega) acc
        [(b64Digit (b.toNat % 16 * 4)).toUInt8, '='.toUInt8] out
      obtain ⟨acc₂, _, hsecond⟩ := b64Loop_byte 4 0 (n := b.toNat % 16 * 4) acc₁ b
        (by decide) (by decide) (by omega) (by decide) (by rw [hacc₁]; omega)
        ['='.toUInt8] (out.push a)
      simp only [b64EncodeBytes, List.map_cons, List.map_nil, hfirst]
      rw [show (4 : UInt32) = UInt32.ofNat 4 from rfl, hsecond, b64Loop_pad, b64Loop]
      exact congrArg some (Array.toList_inj.mp (by simp))
  | case4 a b c rest ih =>
      have hb := b.toNat_lt
      have hc := c.toNat_lt
      obtain ⟨acc₁, hacc₁, hfirst⟩ := b64Loop_first a (v := b.toNat / 16) (by omega) acc
        ((b64Digit (b.toNat % 16 * 4 + c.toNat / 64)).toUInt8 ::
          (b64Digit (c.toNat % 64)).toUInt8 :: (b64EncodeBytes rest).map Char.toUInt8) out
      obtain ⟨acc₂, hacc₂, hsecond⟩ := b64Loop_byte 4 (c.toNat / 64)
        (n := b.toNat % 16 * 4 + c.toNat / 64) acc₁ b
        (by decide) (by decide) (by omega) (by omega) (by rw [hacc₁]; omega)
        ((b64Digit (c.toNat % 64)).toUInt8 :: (b64EncodeBytes rest).map Char.toUInt8)
        (out.push a)
      obtain ⟨acc₃, _, hthird⟩ := b64Loop_byte 2 0 (n := c.toNat % 64) acc₂ c
        (by decide) (by decide) (by omega) (by decide) (by rw [hacc₂]; omega)
        ((b64EncodeBytes rest).map Char.toUInt8)
        ((out.push a).push b)
      simp only [b64EncodeBytes, List.map_cons, hfirst]
      rw [show (4 : UInt32) = UInt32.ofNat 4 from rfl, hsecond]
      rw [show UInt32.ofNat (4 - 2) = UInt32.ofNat 2 from rfl, hthird]
      rw [show UInt32.ofNat (2 - 2) = 0 from rfl, ih]
      simp

/-- One-byte characters are their own encoding. -/
theorem toUTF8_ofList {chars : List Char} (h : ∀ c ∈ chars, c.utf8Size = 1) :
    (String.ofList chars).toUTF8.data.toList = chars.map Char.toUInt8 := by
  have hbytes : (String.ofList chars).toUTF8.data.toList =
      chars.flatMap String.utf8EncodeChar := by
    show (String.ofList chars).toByteArray.data.toList = _
    rw [String.toByteArray_ofList, List.utf8Encode]
    simp
  rw [hbytes]
  clear hbytes
  induction chars with
  | nil => rfl
  | cons c rest ih =>
      obtain ⟨hc, hrest⟩ := List.forall_mem_cons.mp h
      rw [List.flatMap_cons, String.utf8EncodeChar_eq_singleton hc, ih hrest]
      rfl

/-- What holds of the digits and of the padding holds of the text. -/
theorem forall_b64EncodeBytes {P : Char → Prop} (hdigit : ∀ n, n < 64 → P (b64Digit n))
    (hpad : P '=') (bytes : List UInt8) : ∀ c ∈ b64EncodeBytes bytes, P c := by
  induction bytes using b64EncodeBytes.induct with
  | case1 => simp [b64EncodeBytes]
  | case2 a =>
      have ha := a.toNat_lt
      simp only [b64EncodeBytes, List.forall_mem_cons]
      refine ⟨hdigit _ (by omega), hdigit _ (by omega), hpad, hpad, ?_⟩
      exact List.forall_mem_nil _
  | case3 a b =>
      have ha := a.toNat_lt
      have hb := b.toNat_lt
      simp only [b64EncodeBytes, List.forall_mem_cons]
      refine ⟨hdigit _ (by omega), hdigit _ (by omega), hdigit _ (by omega), hpad, ?_⟩
      exact List.forall_mem_nil _
  | case4 a b c rest ih =>
      have ha := a.toNat_lt
      have hb := b.toNat_lt
      have hc := c.toNat_lt
      simp only [b64EncodeBytes, List.forall_mem_cons]
      exact ⟨hdigit _ (by omega), hdigit _ (by omega), hdigit _ (by omega),
        hdigit _ (by omega), ih⟩

theorem utf8Size_b64EncodeBytes (bytes : List UInt8) :
    ∀ c ∈ b64EncodeBytes bytes, c.utf8Size = 1 :=
  forall_b64EncodeBytes (P := fun c => c.utf8Size = 1) (by decide) (by decide) bytes

theorem b64EncodeBytes_ne_nil {bytes : List UInt8} (h : bytes ≠ []) : b64EncodeBytes bytes ≠ [] := by
  induction bytes using b64EncodeBytes.induct with
  | case1 => contradiction
  | case2 a => exact List.cons_ne_nil _ _
  | case3 a b => exact List.cons_ne_nil _ _
  | case4 a b c rest => exact List.cons_ne_nil _ _

/-- **Payloads.**  Every byte string has a base64 text, which decodes to it. -/
theorem b64Decode_b64Encode (bytes : ByteArray) : b64Decode (b64Encode bytes) = some bytes := by
  rw [b64Decode, b64Encode, toUTF8_ofList (utf8Size_b64EncodeBytes _), b64Loop_encodeBytes]
  simp

end McpSeal.Host
