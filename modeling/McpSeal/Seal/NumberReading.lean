import McpSeal.Data.JsonMeaning
import McpSeal.Seal.NumberSafety
import Mathlib.Algebra.Order.Field.Rat
import Mathlib.Algebra.Order.Field.Basic
import Mathlib.Tactic.Positivity
import Mathlib.Tactic.Linarith
import Mathlib.Tactic.FieldSimp
import Mathlib.Tactic.Ring
set_option autoImplicit false

/-!
# Seal: the agreement check reads the number the parser reads (`Seal/JsonUtil.lean`)

The agreement check takes a literal apart by itself.  Here its digits and
exponent are compared with the number the JSON parser makes of the same literal:
both denote one rational number.
-/

namespace McpSeal.Seal.JsonUtil

open McpSeal.Data
open McpSeal.Data.Json.Parser

/-! ## Taking a literal apart -/

theorem literalSign_text {w : Numeral} (h : w.Valid) :
    literalSign w.text = (w.negative, w.whole ++ (w.fractionText ++ w.exponentText)) := by
  obtain ⟨c, rest, hwhole, _⟩ := h.whole.first
  have hc : c ≠ '-' := by
    rintro rfl
    exact absurd (h.whole.digits '-' (by rw [hwhole]; exact List.mem_cons_self)) (by decide)
  rw [Numeral.text]
  cases w.negative with
  | true => rfl
  | false =>
      rw [hwhole]
      simp only [signChars, Bool.false_eq_true, if_false, List.nil_append, List.cons_append]
      rw [literalSign]
      intro rest' heq
      exact hc (List.cons.inj heq).1

theorem exponentSign_text (e : ExpPart) (h : Digits e.digits) :
    exponentSign (e.signText ++ e.digits) = (e.sign == some true, e.digits) := by
  have hplain : ∀ rest, e.digits ≠ '+' :: rest ∧ e.digits ≠ '-' :: rest := by
    intro rest
    constructor <;> intro heq <;> rw [heq] at h
    · exact absurd (h '+' List.mem_cons_self) (by decide)
    · exact absurd (h '-' List.mem_cons_self) (by decide)
  rw [ExpPart.signText]
  cases e.sign with
  | none =>
      simp only [List.nil_append]
      rw [exponentSign]
      · rfl
      · exact fun rest heq => (hplain rest).1 heq
      · exact fun rest heq => (hplain rest).2 heq
  | some minus => cases minus <;> rfl

/-! ## Digits -/

theorem digits_of_sublist {cs ds : List Char} (hsub : cs.Sublist ds) (h : Digits ds) : Digits cs :=
  fun c hc => h c (hsub.subset hc)

theorem allDigits_of_digits {ds : List Char} (h : Digits ds) (hne : ds ≠ []) :
    allDigits ds = true := by
  have hempty : ds.isEmpty = false := by simpa using hne
  rw [allDigits, hempty]
  simpa using fun c hc => charIsDigit_iff.mpr (h c hc)

theorem validIntegerPart_of_intPart {ds : List Char} (h : IntPart ds) :
    validIntegerPart ds = true := by
  obtain ⟨c, rest, rfl, hzero⟩ := h.first
  obtain ⟨hc, hrest⟩ := List.forall_mem_cons.mp h.digits
  by_cases hc0 : c = '0'
  · obtain rfl := hzero hc0
    subst hc0
    rfl
  · rw [validIntegerPart]
    · have hall : rest.all charIsDigit = true := by
        simpa using fun d hd => charIsDigit_iff.mpr (hrest d hd)
      simp [hc0, charIsDigit_iff.mpr hc, hall]
    · exact fun heq => absurd heq hc0

theorem digitsValue_stripLeadingZeroes (ds : List Char) :
    digitsValue (stripLeadingZeroes ds) = digitsValue ds := by
  induction ds with
  | nil => rfl
  | cons d ds ih =>
      rw [stripLeadingZeroes, List.dropWhile_cons]
      split
      · rename_i hd
        obtain rfl := beq_iff_eq.mp hd
        have hsplit := digitsValue_append ['0'] ds
        rw [List.singleton_append] at hsplit
        rw [hsplit]
        rw [show digitsValue ['0'] = 0 from rfl, Nat.zero_mul, Nat.zero_add]
        exact ih
      · rfl

theorem toNat?_digits {ds : List Char} (h : Digits ds) (hne : ds ≠ []) :
    toNat? (String.ofList ds) = some (digitsValue ds) := by
  have hdigits : ∀ c ∈ ds, c.isDigit = true := fun c hc => (ne_of_digit_char (h c hc)).2.2.2.2.2.2
  have hvalid : isNatChars false ds = true := by
    rw [isNatChars_of_digits hdigits]
    simpa using hne
  rw [toNat?, String.toList_ofList, if_pos hvalid, natOfChars_of_digits hdigits, digitsValue]

theorem coefficient?_digits {ds : List Char} (h : Digits ds) :
    coefficient? ds = some (digitsValue ds) := by
  by_cases hne : ds = []
  · rw [hne]
    rfl
  · rw [coefficient?, if_neg (by simpa using hne), toNat?_digits h hne]

/-- Normalizing cuts off leading zeroes and counts the trailing ones it cuts off. -/
theorem normalizeDigits_spec {ds : List Char} (h : Digits ds) :
    Digits (normalizeDigits ds).1 ∧
      digitsValue ds = digitsValue (normalizeDigits ds).1 * 10 ^ (normalizeDigits ds).2 := by
  obtain ⟨ns, hns⟩ : ∃ ns, ns = stripLeadingZeroes ds := ⟨_, rfl⟩
  obtain ⟨zs, hzs⟩ : ∃ zs, zs = ns.reverse.takeWhile (· == '0') := ⟨_, rfl⟩
  have hzeroes : zs = List.replicate zs.length '0' := by
    refine List.eq_replicate_iff.mpr ⟨rfl, fun c hc => ?_⟩
    rw [hzs] at hc
    exact beq_iff_eq.mp (List.all_eq_true.mp List.all_takeWhile c hc)
  obtain ⟨fs, hsplit⟩ : ∃ fs, ns = fs ++ zs.reverse := by
    refine ⟨(ns.reverse.dropWhile (· == '0')).reverse, ?_⟩
    rw [← List.reverse_append, hzs, List.takeWhile_append_dropWhile, List.reverse_reverse]
  have htake : ns.take (ns.length - zs.length) = fs := by
    have hlength : ns.length - zs.length = fs.length := by
      rw [hsplit, List.length_append, List.length_reverse, Nat.add_sub_cancel]
    rw [hlength, hsplit, List.take_left]
  have hfst : (normalizeDigits ds).1 = ns.take (ns.length - zs.length) := by
    rw [normalizeDigits, ← hns, ← hzs]
  have hsnd : (normalizeDigits ds).2 = zs.length := by
    rw [normalizeDigits, ← hns, ← hzs]
  constructor
  · rw [hfst, hns]
    exact digits_of_sublist ((List.take_sublist _ _).trans (List.dropWhile_sublist _)) h
  · rw [hfst, hsnd, htake, ← digitsValue_stripLeadingZeroes ds, ← hns, hsplit,
      digitsValue_append, List.length_reverse]
    have hzero : digitsValue zs.reverse = 0 := by
      rw [hzeroes, List.reverse_replicate, digitsValue, Nat.ofDigitChars_replicate_zero,
        Nat.mul_zero]
    rw [hzero, Nat.add_zero]

/-! ## The exponent -/

/-- The exponent of a numeral. -/
def exponentValue (w : Numeral) : Int :=
  match w.exponent with
  | none => 0
  | some e =>
      if e.sign = some true then -(digitsValue e.digits : Int) else (digitsValue e.digits : Int)

theorem wireExponent?_text {w : Numeral} (h : w.Valid)
    (hexponent : ∀ e, w.exponent = some e → e.digits.length ≤ maxExponentDigits) :
    wireExponent? w.exponentText = some (exponentValue w) := by
  cases he : w.exponent with
  | none => rw [Numeral.exponentText, exponentValue, he]; rfl
  | some e =>
      obtain ⟨hds, hne⟩ := h.exponent e he
      have htext : w.exponentText = e.text := by rw [Numeral.exponentText, he]
      have hvalue : exponentValue w =
          if e.sign = some true then -(digitsValue e.digits : Int)
          else (digitsValue e.digits : Int) := by
        rw [exponentValue, he]
      have hsub : (stripLeadingZeroes e.digits).Sublist e.digits := List.dropWhile_sublist _
      have hlength : ¬ (stripLeadingZeroes e.digits).length > maxExponentDigits := by
        have hle := hsub.length_le
        have hmax := hexponent e he
        omega
      have hmagnitude : coefficient? (stripLeadingZeroes e.digits) =
          some (digitsValue e.digits) := by
        rw [coefficient?_digits (digits_of_sublist hsub hds), digitsValue_stripLeadingZeroes]
      rw [coefficient?] at hmagnitude
      rw [htext, hvalue, ExpPart.text, wireExponent?, exponentSign_text e hds]
      simp only [allDigits_of_digits hds hne, Bool.not_true, Bool.false_eq_true, if_false,
        if_neg hlength, hmagnitude, Option.map_some, beq_iff_eq]

/-! ## The number -/

/-- The rational number a decimal is. -/
def DecimalValue.toRat (d : DecimalValue) : ℚ :=
  d.coeff * 10 ^ d.exp10

theorem jsonRat_shiftl (n : JsonNumber) (s : Nat) :
    jsonRat (n.shiftl s) = jsonRat n * 10 ^ (s : Int) := by
  obtain ⟨m, e⟩ := n
  simp only [jsonRat, JsonNumber.shiftl]
  push_cast
  rw [zpow_natCast, div_mul_eq_mul_div, div_eq_div_iff (by positivity) (by positivity),
    mul_assoc, mul_assoc, ← pow_add, ← pow_add]
  congr 2
  omega

theorem jsonRat_shiftr (n : JsonNumber) (s : Nat) :
    jsonRat (n.shiftr s) = jsonRat n * 10 ^ (-(s : Int)) := by
  obtain ⟨m, e⟩ := n
  simp only [jsonRat, JsonNumber.shiftr, zpow_neg, zpow_natCast, pow_add]
  field_simp

/-- A numeral without its sign: its digits, moved by its exponent and its places. -/
theorem abs_jsonRat_value (w : Numeral) :
    |jsonRat w.value| = digitsValue (w.whole ++ w.fraction) *
      10 ^ (exponentValue w - (w.fraction.length : Int)) := by
  have hbase : |jsonRat w.base| = digitsValue (w.whole ++ w.fraction) *
      10 ^ (-(w.fraction.length : Int)) := by
    rw [jsonRat, Numeral.base, abs_div, zpow_neg, zpow_natCast, ← div_eq_mul_inv]
    congr 1
    · rw [signValue]
      split <;> simp
    · exact abs_of_pos (by positivity)
  have hshift : ∀ k : Int, |jsonRat w.base * 10 ^ k| = digitsValue (w.whole ++ w.fraction) *
      10 ^ (k - (w.fraction.length : Int)) := by
    intro k
    rw [abs_mul, hbase, abs_of_pos (zpow_pos (by norm_num : (0 : ℚ) < 10) k), mul_assoc,
      ← zpow_add₀ (by norm_num : (10 : ℚ) ≠ 0), neg_add_eq_sub]
  rw [Numeral.value, exponentValue]
  cases w.exponent with
  | none => simpa using hbase
  | some e =>
      show |jsonRat (e.shift w.base)| = _
      rw [ExpPart.shift]
      dsimp only
      split
      · rw [jsonRat_shiftr]
        exact hshift _
      · rw [jsonRat_shiftl]
        exact hshift _

/-! ## The literal, part by part -/

/-- No exponent marker stands in front of the exponent. -/
theorem ne_marker_of_mem {w : Numeral} (h : w.Valid) {c : Char}
    (hc : c ∈ w.whole ++ w.fractionText) : (c != 'e' && c != 'E') = true := by
  have hplain : ('0' ≤ c ∧ c ≤ '9') ∨ c = '.' := by
    rcases List.mem_append.mp hc with hc | hc
    · exact Or.inl (h.whole.digits c hc)
    · exact (Numeral.mem_fractionText hc).symm.imp_left (h.fraction c)
  rcases hplain with hdigit | rfl
  · obtain ⟨_, _, _, _, he, hE, _⟩ := ne_of_digit_char hdigit
    simp [he, hE]
  · decide

/-- The exponent starts with its marker. -/
theorem marker_of_exponentText {w : Numeral} {c : Char} {rest : List Char}
    (h : w.exponentText = c :: rest) : (c != 'e' && c != 'E') = false := by
  rw [Numeral.exponentText] at h
  split at h
  · exact absurd h (List.cons_ne_nil c rest).symm
  · rename_i e _
    obtain ⟨rfl, _⟩ := List.cons.inj h
    cases e.upper <;> decide

/-- The fraction starts with its point. -/
theorem point_of_fractionText {w : Numeral} {c : Char} {rest : List Char}
    (h : w.fractionText = c :: rest) : (c != '.') = false := by
  rw [Numeral.fractionText] at h
  split at h
  · exact absurd h (List.cons_ne_nil c rest).symm
  · obtain ⟨rfl, _⟩ := List.cons.inj h
    decide

theorem span_marker {w : Numeral} (h : w.Valid) :
    (w.whole ++ (w.fractionText ++ w.exponentText)).span (fun c => c != 'e' && c != 'E') =
      (w.whole ++ w.fractionText, w.exponentText) := by
  rw [← List.append_assoc]
  exact span_append (fun _ => ne_marker_of_mem h) fun _ _ => marker_of_exponentText

theorem span_point {w : Numeral} (h : w.Valid) :
    (w.whole ++ w.fractionText).span (fun c => c != '.') = (w.whole, w.fractionText) := by
  refine span_append (fun c hc => ?_) fun _ _ => point_of_fractionText
  obtain ⟨_, _, _, hpoint, _⟩ := ne_of_digit_char (h.whole.digits c hc)
  simpa using hpoint

theorem fractionDigits_fractionText (w : Numeral) :
    fractionDigits w.fractionText = w.fraction := by
  rw [Numeral.fractionText]
  cases w.fraction <;> rfl

theorem isEmpty_fractionText (w : Numeral) :
    w.fractionText.isEmpty = w.fraction.isEmpty := by
  rw [Numeral.fractionText]
  cases w.fraction <;> rfl

theorem isEmpty_exponentText (w : Numeral) :
    w.exponentText.isEmpty = w.exponent.isNone := by
  rw [Numeral.exponentText]
  cases w.exponent <;> rfl

/-- A fraction that is there has digits. -/
theorem allDigits_fraction {w : Numeral} (h : w.Valid) :
    (!w.fraction.isEmpty && !allDigits w.fraction) = false := by
  by_cases hempty : w.fraction = []
  · rw [hempty]
    rfl
  · rw [allDigits_of_digits h.fraction hempty, Bool.not_true, Bool.and_false]

/-! ## The literal as a whole -/

/-- What the check reads of a literal of the JSON grammar. -/
theorem parseWireDecimal?_eq {w : Numeral} (h : w.Valid)
    (hexponent : ∀ e, w.exponent = some e → e.digits.length ≤ maxExponentDigits) :
    parseWireDecimal? (String.ofList w.text) = some
      { negative := w.negative
        digits := (normalizeDigits (w.whole ++ w.fraction)).1
        exp10 :=
          if (normalizeDigits (w.whole ++ w.fraction)).1.isEmpty then 0
          else exponentValue w - (w.fraction.length : Int) +
            ((normalizeDigits (w.whole ++ w.fraction)).2 : Int)
        integerSyntax := w.fraction.isEmpty && w.exponent.isNone } := by
  simp only [parseWireDecimal?, String.toList_ofList, literalSign_text h, span_marker h,
    wireExponent?_text h hexponent, span_point h, validIntegerPart_of_intPart h.whole,
    fractionDigits_fractionText, isEmpty_fractionText, isEmpty_exponentText,
    allDigits_fraction h, Bool.not_not, Bool.not_true, Bool.false_eq_true, if_false]
  rfl

/-- The check reads of a literal of the JSON grammar the number the parser reads. -/
theorem parseWireDecimal?_text {w : Numeral} (h : w.Valid)
    (hexponent : ∀ e, w.exponent = some e → e.digits.length ≤ maxExponentDigits) :
    ∃ p, parseWireDecimal? (String.ofList w.text) = some p ∧ Digits p.digits ∧
      digitsValue p.digits * (10 : ℚ) ^ p.exp10 = |jsonRat w.value| ∧
      p.integerSyntax = (w.fraction.isEmpty && w.exponent.isNone) := by
  have hraw : Digits (w.whole ++ w.fraction) := fun c hc =>
    (List.mem_append.mp hc).elim (h.whole.digits c) (h.fraction c)
  obtain ⟨hdigits, hvalue⟩ := normalizeDigits_spec hraw
  refine ⟨_, parseWireDecimal?_eq h hexponent, hdigits, ?_, rfl⟩
  rw [abs_jsonRat_value, hvalue]
  dsimp only
  by_cases hempty : (normalizeDigits (w.whole ++ w.fraction)).1 = []
  · rw [hempty]
    simp [digitsValue]
  · rw [if_neg (by simpa using hempty)]
    push_cast
    rw [zpow_add₀ (by norm_num : (10 : ℚ) ≠ 0), zpow_natCast]
    ring

end McpSeal.Seal.JsonUtil
