import McpSeal.Foundation.Scanner
import McpSeal.SealV2.Serialization
set_option autoImplicit false

/-!
# SealV2: strings and numbers read back (`SealV2/SerializationTheorems.lean`)

The lexical half of the round trip: the parser reads every escaped string and
every canonical decimal back as it was, one character class at a time.
-/

namespace McpSeal.SealV2

open McpSeal.Foundation (Reads)

/-! ## Escapes -/

theorem hexVal?_hexDigitChar {d : Nat} (h : d < 16) : hexVal? (hexDigitChar d) = some d := by
  have hall : ∀ d : Fin 16, hexVal? (hexDigitChar d) = some d.val := by decide
  exact hall ⟨d, h⟩

/-- Four hex digits are read back. -/
theorem fromHex4?_toHex4 {n : Nat} (h : n < 0x10000) :
    fromHex4? (hexDigitChar (n / 4096 % 16)) (hexDigitChar (n / 256 % 16))
      (hexDigitChar (n / 16 % 16)) (hexDigitChar (n % 16)) = some n := by
  have h1 := hexVal?_hexDigitChar (Nat.mod_lt (n / 4096) (by omega : 16 > 0))
  have h2 := hexVal?_hexDigitChar (Nat.mod_lt (n / 256) (by omega : 16 > 0))
  have h3 := hexVal?_hexDigitChar (Nat.mod_lt (n / 16) (by omega : 16 > 0))
  have h4 := hexVal?_hexDigitChar (Nat.mod_lt n (by omega : 16 > 0))
  simp only [fromHex4?, h1, h2, h3, h4]
  congr 1
  omega

/-- A long escape of a scalar that has no shorter form is read as it. -/
theorem parse_longEscape {n : Nat} (hn : n < 0x10000) (hok : uEscapeScalarOk n = true)
    (acc : String) (tail : List Char) :
    parseStringCharsUnchecked acc ('\\' :: 'u' :: (toHex4 n ++ tail)) =
      parseStringCharsUnchecked (acc ++ String.singleton (Char.ofNat n)) tail := by
  simp only [toHex4, List.cons_append, List.nil_append]
  rw [parseStringCharsUnchecked]
  simp only [fromHex4?_toHex4 hn, hok, if_true]

/-- A surrogate pair is read as the scalar it encodes. -/
theorem parse_surrogatePair {n m : Nat} (hn : 0xd800 ≤ n ∧ n ≤ 0xdbff)
    (hm : 0xdc00 ≤ m ∧ m ≤ 0xdfff) (acc : String) (tail : List Char) :
    parseStringCharsUnchecked acc
        ('\\' :: 'u' :: (toHex4 n ++ '\\' :: 'u' :: (toHex4 m ++ tail))) =
      parseStringCharsUnchecked
        (acc ++ String.singleton (Char.ofNat (0x10000 + (n - 0xd800) * 1024 + (m - 0xdc00))))
        tail := by
  have hbad : uEscapeScalarOk n = false := by
    unfold uEscapeScalarOk
    rw [if_neg (by omega), if_neg (by omega), if_neg (by omega), if_neg (by omega)]
  simp only [toHex4, List.cons_append, List.nil_append]
  rw [parseStringCharsUnchecked]
  have hn' := fromHex4?_toHex4 (n := n) (by omega)
  have hm' := fromHex4?_toHex4 (n := m) (by omega)
  simp only [hn', hm', hbad, hn, hm, if_true, and_self, Bool.false_eq_true, if_false]

/-- A printable character other than quote and backslash stands for itself. -/
theorem parse_plainChar {c : Char} (hquote : c ≠ '"') (hslash : c ≠ '\\')
    (hrange : 0x20 ≤ c.toNat ∧ c.toNat ≤ 0x7e) (acc : String) (tail : List Char) :
    parseStringCharsUnchecked acc (c :: tail) =
      parseStringCharsUnchecked (acc ++ String.singleton c) tail := by
  have hplain : isAsciiStringChar c = true := by
    simp [isAsciiStringChar, hquote, hslash, hrange]
  rw [parseStringCharsUnchecked.eq_def]
  split
  · rename_i heq
    exact absurd (List.cons.inj heq).1 hquote
  · rename_i heq
    exact absurd (List.cons.inj heq).1 hslash
  · rename_i heq
    exact absurd (List.cons.inj heq).1 hslash
  · rename_i heq
    obtain ⟨rfl, rfl⟩ := List.cons.inj heq
    rw [if_pos hplain]
  · contradiction

/-- A short escape is read as the character its letter denotes. -/
theorem parse_shortEscape {letter c : Char} (hletter : unescapeShort? letter = some c)
    (acc : String) (tail : List Char) :
    parseStringCharsUnchecked acc ('\\' :: letter :: tail) =
      parseStringCharsUnchecked (acc ++ String.singleton c) tail := by
  have hu : letter ≠ 'u' := by
    rintro rfl
    have hnone : unescapeShort? 'u' = none := by decide
    exact absurd (hnone.symm.trans hletter) (by simp)
  rw [parseStringCharsUnchecked.eq_def]
  split
  · rename_i heq
    exact absurd (List.cons.inj heq).1 (by decide)
  · rename_i heq
    exact absurd (List.cons.inj (List.cons.inj heq).2).1 hu
  · rename_i heq
    obtain ⟨rfl, rfl⟩ := List.cons.inj (List.cons.inj heq).2
    rw [hletter]
  · rename_i hnot heq
    obtain ⟨rfl, rfl⟩ := List.cons.inj heq
    exact (hnot letter tail rfl rfl).elim
  · contradiction

/-- **One character.**  The parser reads the canonical escape of a character as
that character. -/
theorem parse_escapeChar (c : Char) (acc : String) (tail : List Char) :
    parseStringCharsUnchecked acc (escapeChar c ++ tail) =
      parseStringCharsUnchecked (acc ++ String.singleton c) tail := by
  have hofNat : Char.ofNat c.toNat = c := Char.ofNat_toNat c
  rcases escapeChar_cases c with ⟨letter, hletter, hform⟩ | ⟨hquote, hslash, hplain, hform⟩ |
    ⟨hbmp, hok, hform⟩ | ⟨hastral, hform⟩
  · rw [hform]
    exact parse_shortEscape hletter acc tail
  · rw [hform]
    exact parse_plainChar hquote hslash hplain acc tail
  · have h := parse_longEscape hbmp hok acc tail
    rw [hofNat] at h
    rw [hform]
    exact h
  · have h := parse_surrogatePair (n := 0xd800 + (c.toNat - 0x10000) / 1024)
      (m := 0xdc00 + (c.toNat - 0x10000) % 1024) (by omega) (by omega) acc tail
    have hscalar : 0x10000 + (0xd800 + (c.toNat - 0x10000) / 1024 - 0xd800) * 1024 +
        (0xdc00 + (c.toNat - 0x10000) % 1024 - 0xdc00) = c.toNat := by omega
    rw [hscalar, hofNat] at h
    rw [hform, List.append_assoc]
    exact h

/-! ## Strings -/

theorem escapeString_toList (s : String) : (escapeString s).toList = escapeList s.toList :=
  String.toList_ofList

theorem singleton_append_ofList (c : Char) (cs : List Char) :
    String.singleton c ++ String.ofList cs = String.ofList (c :: cs) := by
  rw [← String.toList_inj]
  simp

theorem parse_escapeList (cs : List Char) (acc : String) (tail : List Char) :
    parseStringCharsUnchecked acc (escapeList cs ++ '"' :: tail) =
      some (acc ++ String.ofList cs, tail) := by
  induction cs generalizing acc with
  | nil =>
      show parseStringCharsUnchecked acc ('"' :: tail) = _
      rw [parseStringCharsUnchecked]
      simp
  | cons c cs ih =>
      have hcons : escapeList (c :: cs) ++ '"' :: tail =
          escapeChar c ++ (escapeList cs ++ '"' :: tail) := by
        simp [escapeList]
      rw [hcons, parse_escapeChar, ih, String.append_assoc, singleton_append_ofList]

/-- Text of a string literal. -/
def quoted (s : String) : List Char :=
  '"' :: (escapeList s.toList ++ ['"'])

/-- **Strings.**  Every string is read back from its literal. -/
theorem reads_string (s : String) : Reads parseString (fun _ => True) (quoted s) s := by
  intro tail _
  have hcontent := parse_escapeList s.toList "" tail
  have htext : quoted s ++ tail = '"' :: (escapeList s.toList ++ '"' :: tail) := by
    simp [quoted]
  rw [htext, parseString, parseStringChars, hcontent]
  simp [guardCanonicalStringResult, isCanonicalString]

/-! ## Numbers -/

theorem takeDigits_append {ds tail : List Char} (hds : ds.all isDigit = true)
    (htail : ∀ c rest, tail = c :: rest → isDigit c = false) :
    takeDigits (ds ++ tail) = (String.ofList ds, tail) := by
  induction ds with
  | nil =>
      cases tail with
      | nil => rfl
      | cons c rest => simp [takeDigits, htail c rest rfl]
  | cons d ds ih =>
      simp only [List.all_cons, Bool.and_eq_true] at hds
      rw [List.cons_append, takeDigits, if_pos hds.1, ih hds.2]
      dsimp only
      rw [singleton_append_ofList]

/-- Where a number may end: the end of the input, or a separator or bracket. -/
def EndsValue (tail : List Char) : Prop :=
  ∀ c rest, tail = c :: rest → c = ',' ∨ c = ']' ∨ c = '}'

theorem EndsValue.not_digit {tail : List Char} (h : EndsValue tail) :
    ∀ c rest, tail = c :: rest → isDigit c = false := by
  intro c rest heq
  rcases h c rest heq with rfl | rfl | rfl <;> rfl

theorem EndsValue.not_exponent {tail : List Char} (h : EndsValue tail) :
    startsExponent tail = false := by
  cases tail with
  | nil => rfl
  | cons c rest => rcases h c rest rfl with rfl | rfl | rfl <;> rfl

/-- Canonical integer digits are read back before a tail that is not a digit. -/
theorem parseIntegerDigits_append {digits : String} {tail : List Char}
    (hdigits : isCanonicalIntDigits digits = true)
    (htail : ∀ c rest, tail = c :: rest → isDigit c = false) :
    parseIntegerDigits (digits.toList ++ tail) = some (digits, tail) := by
  unfold isCanonicalIntDigits at hdigits
  split at hdigits
  · rename_i heq
    have hzero : digits = "0" := by rw [← String.toList_inj, heq]; rfl
    rw [heq, hzero]
    cases tail with
    | nil => rfl
    | cons c rest => simp [parseIntegerDigits, htail c rest rfl]
  · rename_i c rest hnot heq
    simp only [Bool.and_eq_true] at hdigits
    obtain ⟨hfirst, hrest⟩ := hdigits
    have hzero : c ≠ '0' := by
      rintro rfl
      exact absurd hfirst (by decide)
    rw [heq, List.cons_append, parseIntegerDigits.eq_def]
    split
    · rename_i heq'
      exact absurd (List.cons.inj heq').1 hzero
    · rename_i heq'
      obtain ⟨rfl, rfl⟩ := List.cons.inj heq'
      have hfirst : isNonZeroDigit c = true := hfirst
      rw [if_pos hfirst, takeDigits_append hrest htail]
      dsimp only
      rw [singleton_append_ofList, ← heq, String.ofList_toList]
    · contradiction
  · contradiction

/-- Text of a fraction part. -/
def fractionText : Option String → List Char
  | none => []
  | some digits => '.' :: digits.toList

theorem parseFraction_append {frac : Option String} {tail : List Char}
    (hfrac : ∀ digits, frac = some digits → isCanonicalFracDigits digits = true)
    (htail : EndsValue tail) :
    parseFraction (fractionText frac ++ tail) = some (frac, tail) := by
  cases frac with
  | none =>
      cases tail with
      | nil => rfl
      | cons c rest => rcases htail c rest rfl with rfl | rfl | rfl <;> rfl
  | some digits =>
      have hcanonical := hfrac digits rfl
      unfold isCanonicalFracDigits at hcanonical
      split at hcanonical
      · rename_i last init hlast
        simp only [Bool.and_eq_true] at hcanonical
        obtain ⟨hnonzero, hdigits⟩ := hcanonical
        have hne : (last == '0') = false := by
          rw [beq_eq_false_iff_ne]
          rintro rfl
          exact absurd hnonzero (by decide)
        rw [fractionText, List.cons_append, parseFraction,
          takeDigits_append hdigits htail.not_digit]
        simp only [String.ofList_toList, hlast, hne,
          Bool.false_eq_true, if_false]
      · contradiction

/-- Text of a decimal. -/
theorem serializeDecimal_toList (d : Decimal) :
    (serializeDecimal d).toList =
      (if d.negative then ['-'] else []) ++
        (d.intDigits.toList ++ fractionText d.fracDigits) := by
  unfold serializeDecimal
  cases d.negative <;> cases d.fracDigits <;> simp [fractionText]

/-- Canonical integer digits start with a digit. -/
theorem exists_first_digit {digits : String} (h : isCanonicalIntDigits digits = true) :
    ∃ c rest, digits.toList = c :: rest ∧ isDigit c = true := by
  unfold isCanonicalIntDigits at h
  split at h
  · rename_i heq
    exact ⟨'0', [], heq, rfl⟩
  · rename_i c rest _ heq
    simp only [Bool.and_eq_true, isNonZeroDigitChar, decide_eq_true_eq] at h
    refine ⟨c, rest, heq, ?_⟩
    have hlo : '0'.toNat ≤ c.toNat := Nat.le_trans (by decide) h.1.1
    simp only [isDigit, Bool.and_eq_true, decide_eq_true_eq]
    exact ⟨hlo, h.1.2⟩
  · contradiction

/-- The digits and fraction of a canonical decimal are read back. -/
theorem parse_digits {d : Decimal} (h : isCanonicalDecimal d = true) {tail : List Char}
    (htail : EndsValue tail) :
    parseIntegerDigits (d.intDigits.toList ++ (fractionText d.fracDigits ++ tail)) =
        some (d.intDigits, fractionText d.fracDigits ++ tail) ∧
      parseFraction (fractionText d.fracDigits ++ tail) = some (d.fracDigits, tail) := by
  simp only [isCanonicalDecimal, Bool.and_eq_true] at h
  obtain ⟨⟨hint, hfrac⟩, _⟩ := h
  have hstop : ∀ c rest, fractionText d.fracDigits ++ tail = c :: rest → isDigit c = false := by
    intro c rest heq
    cases hd : d.fracDigits with
    | none => exact htail.not_digit c rest (by rw [← heq, hd]; rfl)
    | some digits =>
        rw [hd] at heq
        obtain ⟨rfl, _⟩ := List.cons.inj heq
        rfl
  refine ⟨parseIntegerDigits_append hint hstop, parseFraction_append ?_ htail⟩
  intro digits hd
  rw [hd] at hfrac
  exact hfrac

/-- **Numbers.**  Every canonical decimal is read back from its text. -/
theorem reads_number {d : Decimal} (h : isCanonicalDecimal d = true) :
    Reads parseNumber EndsValue (serializeDecimal d).toList (.number d) := by
  intro tail htail
  obtain ⟨hint, hfrac⟩ := parse_digits h htail
  refine guardCanonicalResult_eq_some.mpr ⟨?_, h⟩
  have hd : ∀ negative, d.negative = negative →
      ({ negative, intDigits := d.intDigits, fracDigits := d.fracDigits } : Decimal) = d := by
    rintro _ rfl
    rfl
  rw [serializeDecimal_toList, List.append_assoc, List.append_assoc]
  unfold parseNumberUnchecked
  cases hsign : d.negative with
  | true =>
      rw [if_pos rfl, List.singleton_append]
      simp only [hint, hfrac, htail.not_exponent, Bool.false_eq_true, if_false, hd true hsign]
  | false =>
      have hcanonical := h
      simp only [isCanonicalDecimal, Bool.and_eq_true] at hcanonical
      obtain ⟨c, rest, hfirst, hdigit⟩ := exists_first_digit hcanonical.1.1
      have hminus : c ≠ '-' := by
        rintro rfl
        exact absurd hdigit (by decide)
      rw [hfirst, List.cons_append] at hint ⊢
      simp [hminus, hint, hfrac, htail.not_exponent, hd false hsign]

end McpSeal.SealV2
