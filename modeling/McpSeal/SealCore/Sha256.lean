import Mathlib.Algebra.Ring.Nat
import Mathlib.Tactic.Common
set_option autoImplicit false

/-!
# SealCore: SHA-256 target commitments (`SealCore/Sha256.lean`)

The hash as the source computes it, in 32-bit words, and the hex text of a
digest.  A target is named by that text: it is what a blocked caller is shown
and what an approval record repeats, so reading it back must give the digest.
-/

namespace McpSeal.SealCore.Sha256

/-- A digest as the eight output words. -/
structure Digest256 where
  w0 : UInt32
  w1 : UInt32
  w2 : UInt32
  w3 : UInt32
  w4 : UInt32
  w5 : UInt32
  w6 : UInt32
  w7 : UInt32
  deriving DecidableEq, Hashable, Inhabited

/-- A target is named by its digest. -/
abbrev TargetHash := Digest256

/-! ## The hash -/

/-- Round constants. -/
def k : Array UInt32 := #[
  0x428a2f98, 0x71374491, 0xb5c0fbcf, 0xe9b5dba5,
  0x3956c25b, 0x59f111f1, 0x923f82a4, 0xab1c5ed5,
  0xd807aa98, 0x12835b01, 0x243185be, 0x550c7dc3,
  0x72be5d74, 0x80deb1fe, 0x9bdc06a7, 0xc19bf174,
  0xe49b69c1, 0xefbe4786, 0x0fc19dc6, 0x240ca1cc,
  0x2de92c6f, 0x4a7484aa, 0x5cb0a9dc, 0x76f988da,
  0x983e5152, 0xa831c66d, 0xb00327c8, 0xbf597fc7,
  0xc6e00bf3, 0xd5a79147, 0x06ca6351, 0x14292967,
  0x27b70a85, 0x2e1b2138, 0x4d2c6dfc, 0x53380d13,
  0x650a7354, 0x766a0abb, 0x81c2c92e, 0x92722c85,
  0xa2bfe8a1, 0xa81a664b, 0xc24b8b70, 0xc76c51a3,
  0xd192e819, 0xd6990624, 0xf40e3585, 0x106aa070,
  0x19a4c116, 0x1e376c08, 0x2748774c, 0x34b0bcb5,
  0x391c0cb3, 0x4ed8aa4a, 0x5b9cca4f, 0x682e6ff3,
  0x748f82ee, 0x78a5636f, 0x84c87814, 0x8cc70208,
  0x90befffa, 0xa4506ceb, 0xbef9a3f7, 0xc67178f2]

/-- Initial state. -/
def h0 : Array UInt32 := #[
  0x6a09e667, 0xbb67ae85, 0x3c6ef372, 0xa54ff53a,
  0x510e527f, 0x9b05688c, 0x1f83d9ab, 0x5be0cd19]

/-- Right rotation. -/
def rotr (x : UInt32) (n : UInt32) : UInt32 :=
  (x >>> n) ||| (x <<< (32 - n))

/-- The message, a one bit, zeros, and the length of the message in bits. -/
def pad (msg : ByteArray) : ByteArray := Id.run do
  let len := msg.size
  let bitLen : UInt64 := (UInt64.ofNat len) * 8
  let zeros := (119 - (len % 64)) % 64
  let mut out := msg
  out := out.push 0x80
  out := out ++ ByteArray.mk (Array.replicate zeros 0x00)
  for i in [0:8] do
    out := out.push (UInt8.ofNat (((bitLen >>> (UInt64.ofNat ((7 - i) * 8))).toNat) % 256))
  return out

/-- One block: the word schedule and the rounds, added into the state. -/
def compress (state : Array UInt32) (block : ByteArray) (off : Nat) : Array UInt32 := Id.run do
  let mut w : Array UInt32 := Array.replicate 64 0
  for t in [0:16] do
    let b0 := (block[off + 4*t]!).toUInt32
    let b1 := (block[off + 4*t + 1]!).toUInt32
    let b2 := (block[off + 4*t + 2]!).toUInt32
    let b3 := (block[off + 4*t + 3]!).toUInt32
    w := w.set! t ((b0 <<< 24) ||| (b1 <<< 16) ||| (b2 <<< 8) ||| b3)
  for t in [16:64] do
    let s0 := rotr (w[t-15]!) 7 ^^^ rotr (w[t-15]!) 18 ^^^ (w[t-15]! >>> 3)
    let s1 := rotr (w[t-2]!) 17 ^^^ rotr (w[t-2]!) 19 ^^^ (w[t-2]! >>> 10)
    w := w.set! t (w[t-16]! + s0 + w[t-7]! + s1)
  let mut a := state[0]!
  let mut b := state[1]!
  let mut c := state[2]!
  let mut d := state[3]!
  let mut e := state[4]!
  let mut f := state[5]!
  let mut g := state[6]!
  let mut h := state[7]!
  for t in [0:64] do
    let bigS1 := rotr e 6 ^^^ rotr e 11 ^^^ rotr e 25
    let ch := (e &&& f) ^^^ ((~~~e) &&& g)
    let t1 := h + bigS1 + ch + k[t]! + w[t]!
    let bigS0 := rotr a 2 ^^^ rotr a 13 ^^^ rotr a 22
    let maj := (a &&& b) ^^^ (a &&& c) ^^^ (b &&& c)
    let t2 := bigS0 + maj
    h := g
    g := f
    f := e
    e := d + t1
    d := c
    c := b
    b := a
    a := t1 + t2
  return #[state[0]! + a, state[1]! + b, state[2]! + c, state[3]! + d,
    state[4]! + e, state[5]! + f, state[6]! + g, state[7]! + h]

/-- The state after all blocks of the padded message. -/
def sha256State (input : ByteArray) : Array UInt32 := Id.run do
  let padded := pad input
  let mut state := h0
  for b in [0:padded.size / 64] do
    state := compress state padded (b * 64)
  return state

/-- The digest: the eight words of that state. -/
def sha256Digest (input : ByteArray) : Digest256 :=
  let state := sha256State input
  { w0 := state[0]!, w1 := state[1]!, w2 := state[2]!, w3 := state[3]!,
    w4 := state[4]!, w5 := state[5]!, w6 := state[6]!, w7 := state[7]! }

/-! ## Hex texts -/

/-- The lowercase hexadecimal digit of a value below 16. -/
def hexDigit (n : Nat) : Char :=
  if n < 10 then Char.ofNat (48 + n) else Char.ofNat (87 + n)

/-- The eight digits of a word, the most significant first. -/
def wordHex (word : UInt32) : String := Id.run do
  let mut s := ""
  for shift in [0:8] do
    let n := ((word >>> (UInt32.ofNat ((7 - shift) * 4))).toNat) % 16
    s := s.push (hexDigit n)
  return s

/-- 64 lowercase hex digits. -/
def Digest256.toHex (digest : Digest256) : String :=
  wordHex digest.w0 ++ wordHex digest.w1 ++ wordHex digest.w2 ++ wordHex digest.w3 ++
  wordHex digest.w4 ++ wordHex digest.w5 ++ wordHex digest.w6 ++ wordHex digest.w7

/-- The value of a lowercase hexadecimal digit; capitals are none. -/
def hexVal? (c : Char) : Option Nat :=
  if '0'.toNat ≤ c.toNat && c.toNat ≤ '9'.toNat then
    some (c.toNat - '0'.toNat)
  else if 'a'.toNat ≤ c.toNat && c.toNat ≤ 'f'.toNat then
    some (c.toNat - 'a'.toNat + 10)
  else
    none

/-- The word of the eight digits from an offset on. -/
def wordOfDigits (digits : List Nat) (off : Nat) : UInt32 :=
  UInt32.ofNat <| (digits.drop off |>.take 8).foldl (fun acc d => acc * 16 + d) 0

/-- Read 64 lowercase hex digits. -/
def Digest256.parseHex? (s : String) : Option Digest256 := do
  let chars := s.toList
  if chars.length != 64 then none else
    let digits ← chars.mapM hexVal?
    some {
      w0 := wordOfDigits digits 0, w1 := wordOfDigits digits 8,
      w2 := wordOfDigits digits 16, w3 := wordOfDigits digits 24,
      w4 := wordOfDigits digits 32, w5 := wordOfDigits digits 40,
      w6 := wordOfDigits digits 48, w7 := wordOfDigits digits 56
    }

/-! ## A digest is read back from its text -/

/-- The hex digits of a word, most significant first. -/
def wordDigits (word : UInt32) : List Nat :=
  [word.toNat / 16 ^ 7 % 16, word.toNat / 16 ^ 6 % 16, word.toNat / 16 ^ 5 % 16,
    word.toNat / 16 ^ 4 % 16, word.toNat / 16 ^ 3 % 16, word.toNat / 16 ^ 2 % 16,
    word.toNat / 16 % 16, word.toNat % 16]

theorem toList_wordHex (word : UInt32) :
    (wordHex word).toList = (wordDigits word).map hexDigit := by
  simp only [wordHex]
  simp [List.range', wordDigits, Nat.shiftRight_eq_div_pow]

/-- The digits of a word denote it. -/
theorem ofNat_wordDigits (word : UInt32) :
    UInt32.ofNat ((wordDigits word).foldl (fun acc d => acc * 16 + d) 0) = word := by
  have hlt : word.toNat < 2 ^ 32 := word.toNat_lt
  have hvalue : (wordDigits word).foldl (fun acc d => acc * 16 + d) 0 = word.toNat := by
    simp only [wordDigits, List.foldl_cons, List.foldl_nil]
    omega
  rw [hvalue, UInt32.ofNat_toNat]

theorem lt_of_mem_wordDigits {word : UInt32} {d : Nat} (h : d ∈ wordDigits word) : d < 16 := by
  simp only [wordDigits, List.mem_cons, List.not_mem_nil, or_false] at h
  omega

theorem hexVal?_hexDigit {d : Nat} (h : d < 16) : hexVal? (hexDigit d) = some d := by
  have hall : ∀ d : Fin 16, hexVal? (hexDigit d.val) = some d.val := by decide
  exact hall ⟨d, h⟩

theorem mapM_hexVal? {ds : List Nat} (h : ∀ d ∈ ds, d < 16) :
    (ds.map hexDigit).mapM hexVal? = some ds := by
  induction ds with
  | nil => rfl
  | cons d rest ih =>
      obtain ⟨hd, hrest⟩ := List.forall_mem_cons.mp h
      rw [List.map_cons, List.mapM_cons, hexVal?_hexDigit hd, ih hrest]
      rfl

/-- The 64 digits of a digest. -/
def Digest256.digits (digest : Digest256) : List Nat :=
  wordDigits digest.w0 ++ wordDigits digest.w1 ++ wordDigits digest.w2 ++ wordDigits digest.w3 ++
  wordDigits digest.w4 ++ wordDigits digest.w5 ++ wordDigits digest.w6 ++ wordDigits digest.w7

theorem Digest256.toList_toHex (digest : Digest256) :
    digest.toHex.toList = digest.digits.map hexDigit := by
  simp only [toHex, digits, String.toList_append, toList_wordHex, List.map_append]

theorem Digest256.lt_of_mem_digits {digest : Digest256} {d : Nat} (h : d ∈ digest.digits) :
    d < 16 := by
  simp only [digits, List.mem_append] at h
  rcases h with ((((((h | h) | h) | h) | h) | h) | h) | h
  all_goals exact lt_of_mem_wordDigits h

/-- What holds of the sixteen digits holds of the characters of a digest's text. -/
theorem Digest256.forall_mem_toHex {p : Char → Prop} (digest : Digest256)
    (h : ∀ d : Fin 16, p (hexDigit d.val)) : ∀ c ∈ digest.toHex.toList, p c := by
  rw [toList_toHex]
  exact List.forall_mem_map.mpr fun d hd => h ⟨d, digest.lt_of_mem_digits hd⟩

/-- **Hex texts.**  A digest is read back from its text. -/
theorem Digest256.parseHex?_toHex (digest : Digest256) : parseHex? digest.toHex = some digest := by
  have hlength : (digest.digits.map hexDigit).length = 64 := rfl
  have hdigits := mapM_hexVal? fun d hd => digest.lt_of_mem_digits hd
  have h0 : wordOfDigits digest.digits 0 = digest.w0 := ofNat_wordDigits digest.w0
  have h1 : wordOfDigits digest.digits 8 = digest.w1 := ofNat_wordDigits digest.w1
  have h2 : wordOfDigits digest.digits 16 = digest.w2 := ofNat_wordDigits digest.w2
  have h3 : wordOfDigits digest.digits 24 = digest.w3 := ofNat_wordDigits digest.w3
  have h4 : wordOfDigits digest.digits 32 = digest.w4 := ofNat_wordDigits digest.w4
  have h5 : wordOfDigits digest.digits 40 = digest.w5 := ofNat_wordDigits digest.w5
  have h6 : wordOfDigits digest.digits 48 = digest.w6 := ofNat_wordDigits digest.w6
  have h7 : wordOfDigits digest.digits 56 = digest.w7 := ofNat_wordDigits digest.w7
  rw [parseHex?, toList_toHex, hlength, hdigits]
  simp [h0, h1, h2, h3, h4, h5, h6, h7]

/-- Digests with one text are one digest. -/
theorem Digest256.toHex_inj {a b : Digest256} : a.toHex = b.toHex ↔ a = b := by
  constructor
  · intro h
    have ha := a.parseHex?_toHex
    rw [h, b.parseHex?_toHex] at ha
    exact (Option.some.inj ha).symm
  · rintro rfl
    rfl

end McpSeal.SealCore.Sha256
