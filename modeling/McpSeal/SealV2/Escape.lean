import Mathlib.Tactic.Common
set_option autoImplicit false

/-!
# SealV2: canonical string escaping (`SealV2/Escape.lean`)

The one-representation rule: every Unicode string has exactly one canonical
escape, *defined* as the output of `escapeChar`.  The decoding half
(`hexVal?`, `fromHex4?`, `unescapeShort?`, `uEscapeScalarOk`) is what the
escape-aware string parser consults; this module relates the two halves one
character at a time, so that the parser module never reasons about hex digits.
-/

namespace McpSeal.SealV2

/-! ## The emitter -/

/-- Lowercase hex nibble. -/
def hexDigitChar (n : Nat) : Char :=
  if n < 10 then Char.ofNat (48 + n) else Char.ofNat (87 + n)

/-- Four lowercase hex digits, most significant nibble first. -/
def toHex4 (n : Nat) : List Char :=
  [hexDigitChar (n / 4096 % 16), hexDigitChar (n / 256 % 16),
   hexDigitChar (n / 16 % 16), hexDigitChar (n % 16)]

/-- The canonical escape of one character. -/
def escapeChar (c : Char) : List Char :=
  let n := c.toNat
  if c = '"' then ['\\', '"']
  else if c = '\\' then ['\\', '\\']
  else if 0x20 ≤ n ∧ n ≤ 0x7e then [c]
  else if n = 0xa then ['\\', 'n']
  else if n = 0x9 then ['\\', 't']
  else if n = 0xd then ['\\', 'r']
  else if n = 0x8 then ['\\', 'b']
  else if n = 0xc then ['\\', 'f']
  else if n < 0x10000 then '\\' :: 'u' :: toHex4 n
  else
    ('\\' :: 'u' :: toHex4 (0xd800 + (n - 0x10000) / 1024)) ++
      ('\\' :: 'u' :: toHex4 (0xdc00 + (n - 0x10000) % 1024))

/-- Canonical escape of a character list. -/
def escapeList (cs : List Char) : List Char :=
  cs.flatMap escapeChar

/-- Canonical escape of a string, without the surrounding quotes. -/
def escapeString (s : String) : String :=
  String.ofList (escapeList s.toList)

/-! ## The decoder's tables -/

/-- Hex nibble value, lowercase digits only. -/
def hexVal? (c : Char) : Option Nat :=
  if 48 ≤ c.toNat ∧ c.toNat ≤ 57 then some (c.toNat - 48)
  else if 97 ≤ c.toNat ∧ c.toNat ≤ 102 then some (c.toNat - 87)
  else none

/-- Four-nibble decode. -/
def fromHex4? (h1 h2 h3 h4 : Char) : Option Nat :=
  match hexVal? h1, hexVal? h2, hexVal? h3, hexVal? h4 with
  | some a, some b, some c, some d => some (a * 4096 + b * 256 + c * 16 + d)
  | _, _, _, _ => none

/-- The five short-escape letters, by scalar value. -/
def shortEscapeLetter? (n : Nat) : Option Char :=
  if n = 0xa then some 'n'
  else if n = 0x9 then some 't'
  else if n = 0xd then some 'r'
  else if n = 0x8 then some 'b'
  else if n = 0xc then some 'f'
  else none

/-- Decode a short-escape letter; `u` is deliberately absent. -/
def unescapeShort? (c : Char) : Option Char :=
  if c = '"' then some '"'
  else if c = '\\' then some '\\'
  else if c = 'n' then some (Char.ofNat 0xa)
  else if c = 't' then some (Char.ofNat 0x9)
  else if c = 'r' then some (Char.ofNat 0xd)
  else if c = 'b' then some (Char.ofNat 0x8)
  else if c = 'f' then some (Char.ofNat 0xc)
  else none

/-- The scalars a single four-digit escape may canonically denote. -/
def uEscapeScalarOk (n : Nat) : Bool :=
  if n < 0x20 then (shortEscapeLetter? n).isNone
  else if n = 0x7f then true
  else if 0x80 ≤ n ∧ n < 0xd800 then true
  else if 0xe000 ≤ n ∧ n ≤ 0xffff then true
  else false

/-! ## The forms of an escape -/

/-- The four forms of a canonical escape: a short one, the character itself, one
group of four digits, or a surrogate pair. -/
theorem escapeChar_cases (c : Char) :
    (∃ letter, unescapeShort? letter = some c ∧ escapeChar c = ['\\', letter]) ∨
    (c ≠ '"' ∧ c ≠ '\\' ∧ (0x20 ≤ c.toNat ∧ c.toNat ≤ 0x7e) ∧ escapeChar c = [c]) ∨
    (c.toNat < 0x10000 ∧ uEscapeScalarOk c.toNat = true ∧
      escapeChar c = '\\' :: 'u' :: toHex4 c.toNat) ∨
    ((0x10000 ≤ c.toNat ∧ c.toNat < 0x110000) ∧
      escapeChar c = ('\\' :: 'u' :: toHex4 (0xd800 + (c.toNat - 0x10000) / 1024)) ++
        ('\\' :: 'u' :: toHex4 (0xdc00 + (c.toNat - 0x10000) % 1024))) := by
  have hvalid : c.toNat < 0xd800 ∨ (0xdfff < c.toNat ∧ c.toNat < 0x110000) := c.valid
  have hofNat : Char.ofNat c.toNat = c := Char.ofNat_toNat c
  unfold escapeChar
  dsimp only
  by_cases hquote : c = '"'
  · rw [if_pos hquote, hquote]
    exact Or.inl ⟨'"', rfl, rfl⟩
  rw [if_neg hquote]
  by_cases hslash : c = '\\'
  · rw [if_pos hslash, hslash]
    exact Or.inl ⟨'\\', rfl, rfl⟩
  rw [if_neg hslash]
  by_cases hplain : 0x20 ≤ c.toNat ∧ c.toNat ≤ 0x7e
  · rw [if_pos hplain]
    exact Or.inr (Or.inl ⟨hquote, hslash, hplain, rfl⟩)
  rw [if_neg hplain]
  by_cases hn : c.toNat = 0xa
  · rw [if_pos hn, ← hofNat, hn]
    exact Or.inl ⟨'n', rfl, rfl⟩
  rw [if_neg hn]
  by_cases ht : c.toNat = 0x9
  · rw [if_pos ht, ← hofNat, ht]
    exact Or.inl ⟨'t', rfl, rfl⟩
  rw [if_neg ht]
  by_cases hr : c.toNat = 0xd
  · rw [if_pos hr, ← hofNat, hr]
    exact Or.inl ⟨'r', rfl, rfl⟩
  rw [if_neg hr]
  by_cases hb : c.toNat = 0x8
  · rw [if_pos hb, ← hofNat, hb]
    exact Or.inl ⟨'b', rfl, rfl⟩
  rw [if_neg hb]
  by_cases hf : c.toNat = 0xc
  · rw [if_pos hf, ← hofNat, hf]
    exact Or.inl ⟨'f', rfl, rfl⟩
  rw [if_neg hf]
  by_cases hbmp : c.toNat < 0x10000
  · rw [if_pos hbmp]
    have hok : uEscapeScalarOk c.toNat = true := by
      unfold uEscapeScalarOk shortEscapeLetter?
      rw [if_neg hn, if_neg ht, if_neg hr, if_neg hb, if_neg hf]
      split_ifs <;> first | rfl | omega
    exact Or.inr (Or.inr (Or.inl ⟨hbmp, hok, rfl⟩))
  · rw [if_neg hbmp]
    exact Or.inr (Or.inr (Or.inr ⟨by omega, rfl⟩))

end McpSeal.SealV2
