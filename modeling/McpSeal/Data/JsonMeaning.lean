import McpSeal.Data.JsonRoundTrip
import Mathlib.Algebra.Order.Field.Rat
import Mathlib.Algebra.Order.Field.Basic
import Mathlib.Tactic.Positivity
import Mathlib.Tactic.FieldSimp
import Mathlib.Tactic.Ring
set_option autoImplicit false

/-!
# Data: what a compact text says (`Lean.Data.Json`)

`compress` does not keep a JSON value: a number loses the zeros at the end of
its fraction, so that `1.0` and `1` have one text.  What it keeps is the meaning
of the value, in which numbers are rational numbers.
-/

namespace McpSeal.Data

open McpSeal.Data.Json.Parser (Digits digitsValue EndsValue signChars signValue)

/-! ## Numbers -/

open JsonNumber (countDigits)

/-- The rational number a JSON number is. -/
def jsonRat (n : JsonNumber) : ℚ :=
  n.mantissa / 10 ^ n.exponent

/-- The digits behind a decimal point, as a rational number. -/
def fractionRat (ds : List Char) : ℚ :=
  digitsValue ds / 10 ^ ds.length

/-- Zeros at the end of a fraction do not count. -/
theorem fractionRat_trim (ds : List Char) :
    fractionRat (ds.reverse.dropWhile (· = '0')).reverse = fractionRat ds := by
  induction ds using List.reverseRecOn with
  | nil => rfl
  | append_singleton front c ih =>
      rw [List.reverse_append, List.reverse_singleton, List.singleton_append]
      by_cases hc : c = '0'
      · have hzero : digitsValue (front ++ ['0']) = 10 * digitsValue front := by
          rw [digitsValue, Nat.ofDigitChars_append]
          rfl
        rw [List.dropWhile_cons_of_pos (by simpa using hc), ih, hc, fractionRat, fractionRat, hzero,
          List.length_append, List.length_singleton, pow_succ]
        push_cast
        field_simp
      · rw [List.dropWhile_cons_of_neg (by simpa using hc)]
        simp

/-- The digits the printer writes behind the point. -/
theorem fraction_rat (w : Nat) {r : Nat} (hr : r < 10 ^ w) :
    Digits (Json.fraction w r) ∧ fractionRat (Json.fraction w r) = r / 10 ^ w := by
  obtain ⟨ds, hdigits, hds, hlength, hvalue⟩ := Json.exists_padded w hr
  have hfraction : Json.fraction w r = (ds.reverse.dropWhile (· = '0')).reverse := by
    rw [Json.fraction, Nat.toList_repr, hdigits]
    rfl
  rw [hfraction, fractionRat_trim, fractionRat, hlength, hvalue]
  refine ⟨fun c hc => hds c ?_, rfl⟩
  exact List.mem_reverse.mp ((List.dropWhile_suffix _).subset (List.mem_reverse.mp hc))

theorem toDigits_mul_ten {n : Nat} (hn : 0 < n) :
    Nat.toDigits 10 (10 * n) = Nat.toDigits 10 n ++ ['0'] := by
  have hdiv : 10 * n / 10 = n := by omega
  have hmod : 10 * n % 10 = 0 := by omega
  rw [Nat.toDigits_of_base_le (by decide) (by omega), hdiv, hmod]
  rfl

/-- A zero more at the end of a fraction is not printed. -/
theorem fraction_mul_ten (w r : Nat) : Json.fraction (w + 1) (10 * r) = Json.fraction w r := by
  have hpos : 0 < 10 ^ w + r := Nat.add_pos_left (Nat.pow_pos (by decide)) r
  have hsum : 10 ^ (w + 1) + 10 * r = 10 * (10 ^ w + r) := by
    rw [Nat.pow_succ']
    omega
  obtain ⟨c, rest, hdigits⟩ := List.exists_cons_of_ne_nil
    (Nat.toDigits_ne_nil (n := 10 ^ w + r) (b := 10))
  simp only [Json.fraction, Nat.toList_repr]
  rw [hsum, toDigits_mul_ten hpos, hdigits]
  simp

theorem fraction_zero (w : Nat) : Json.fraction w 0 = [] := by
  induction w with
  | zero => decide
  | succ w ih => exact (fraction_mul_ten w 0).trans ih

theorem countDigits_mul_ten {n : Nat} (hn : 0 < n) :
    countDigits (10 * n) = countDigits n + 1 := by
  rw [countDigits, toDigits_mul_ten hn, List.length_append]
  rfl

/-- An exponent below zero, if it is one. -/
def exponentChars (k : Nat) : List Char :=
  if k = 0 then [] else 'e' :: '-' :: Nat.toDigits 10 k

/-- What the text of a number is, and what it is the text of: a whole number, or a whole
number, a fraction that may be empty, and an exponent. -/
theorem toText_forms (n : JsonNumber) :
    (∃ q, n.toText.toList = signChars (decide (n.mantissa < 0)) ++ Nat.toDigits 10 q ∧
      jsonRat n = signValue (decide (n.mantissa < 0)) * q) ∨
    ∃ q fs k, Digits fs ∧ n.toText.toList = signChars (decide (n.mantissa < 0)) ++
        (Nat.toDigits 10 q ++ '.' :: (fs ++ exponentChars k)) ∧
      jsonRat n = signValue (decide (n.mantissa < 0)) * (q + fractionRat fs) / 10 ^ k ∧
      (fs ≠ [] → n.mantissa ≠ 0) := by
  obtain ⟨m, e⟩ := n
  have hsign : (m : ℚ) = signValue (decide (m < 0)) * (m.natAbs : ℚ) := by
    rw [← Int.cast_natCast, ← Int.cast_mul, Json.signValue_natAbs]
  rcases Nat.eq_zero_or_pos e with rfl | he
  · refine Or.inl ⟨m.natAbs, Json.toList_intRepr m, ?_⟩
    rw [jsonRat, pow_zero, div_one]
    exact hsign
  obtain ⟨k, w, exp, hexp, hk, hw, hplaces⟩ : ∃ (k w : Nat) (exp : Int),
      (if 9 + (countDigits m.natAbs : Int) - e < 0 then
        9 + (countDigits m.natAbs : Int) - e else 0) = exp ∧ exp = -(k : Int) ∧
      e - exp.natAbs = w ∧ e = w + k := by
    rcases Nat.lt_or_ge (9 + countDigits m.natAbs) e with hmany | hfew
    · refine ⟨e - (9 + countDigits m.natAbs), 9 + countDigits m.natAbs, _, if_pos (by omega),
        by omega, by omega, by omega⟩
    · exact ⟨0, e, _, if_neg (by omega), rfl, rfl, rfl⟩
  have hvalue : (m.natAbs : ℚ) / 10 ^ w =
      (m.natAbs / 10 ^ w : Nat) + (m.natAbs % 10 ^ w : Nat) / 10 ^ w := by
    have hsplit : (m.natAbs : ℚ) = (m.natAbs / 10 ^ w : Nat) * 10 ^ w + (m.natAbs % 10 ^ w : Nat) := by
      exact_mod_cast (Nat.div_add_mod' m.natAbs (10 ^ w)).symm
    rw [hsplit]
    field_simp
  have hrat : jsonRat ⟨m, e⟩ = signValue (decide (m < 0)) *
      ((m.natAbs / 10 ^ w : Nat) + (m.natAbs % 10 ^ w : Nat) / 10 ^ w) / 10 ^ k := by
    rw [← hvalue, jsonRat, hsign, hplaces, pow_add]
    field_simp
  by_cases hwhole : m.natAbs % 10 ^ w = 0 ∧ exp = 0
  · -- nothing is left behind the point, and the point is not printed
    obtain ⟨hzero, rfl⟩ := hwhole
    obtain rfl : k = 0 := by omega
    refine Or.inl ⟨m.natAbs / 10 ^ w, ?_, ?_⟩
    · obtain ⟨e, rfl⟩ := Nat.exists_eq_add_one_of_ne_zero (Nat.ne_of_gt he)
      simp only [JsonNumber.toText, hexp, hw]
      rw [if_pos ⟨hzero, trivial⟩, String.toList_append, Json.toList_sign, Nat.toList_repr]
    · rw [hrat, hzero]
      simp
  · have hpos : 0 < 10 ^ w := Nat.pow_pos (by decide)
    obtain ⟨hfs, hfraction⟩ := fraction_rat w (Nat.mod_lt m.natAbs hpos)
    refine Or.inr ⟨m.natAbs / 10 ^ w, Json.fraction w (m.natAbs % 10 ^ w), k, hfs, ?_, ?_, ?_⟩
    · have hexponent : (if exp = 0 then "" else "e" ++ exp.repr).toList = exponentChars k := by
        rcases Nat.eq_zero_or_pos k with rfl | hpos
        · rw [hk]
          rfl
        · rw [hk, if_neg (by omega), Json.toList_exponent hpos, exponentChars, if_neg (by omega)]
      rw [Json.toList_toText m he hexp hw hwhole, hexponent]
    · rw [hrat, hfraction]
    · rintro hne rfl
      exact hne (by simpa using fraction_zero w)

/-- Every number starts with its sign or a digit. -/
theorem startsNumber_toText (n : JsonNumber) :
    ∃ c rest, n.toText.toList = c :: rest ∧ Json.Parser.StartsNumber c := by
  rcases toText_forms n with ⟨q, htext, -⟩ | ⟨q, fs, k, -, htext, -, -⟩
  · have h := Json.exists_startsNumber (decide (n.mantissa < 0)) q []
    rwa [List.append_nil, ← htext] at h
  · rw [htext]
    exact Json.exists_startsNumber _ _ _

/-- A zero more behind the point does not change the text. -/
theorem toText_mul_ten {m : Int} (hm : m ≠ 0) (e : Nat) :
    JsonNumber.toText ⟨10 * m, e + 1⟩ = JsonNumber.toText ⟨m, e⟩ := by
  have hpos : 0 < m.natAbs := by omega
  have habs : (10 * m).natAbs = 10 * m.natAbs := by omega
  have hsign : (10 * m ≥ 0) = (m ≥ 0) := propext (by omega)
  have hcount := countDigits_mul_ten hpos
  rcases Nat.eq_zero_or_pos e with rfl | he
  · have hexp : ¬ 9 + (countDigits (10 * m.natAbs) : Int) - (0 + 1 : Nat) < 0 := by omega
    have hwhole : (JsonNumber.toText ⟨m, 0⟩).toList =
      signChars (decide (m < 0)) ++ Nat.toDigits 10 m.natAbs := Json.toList_intRepr m
    have hleft : 10 * m.natAbs / 10 = m.natAbs := by omega
    rw [← String.toList_inj, hwhole, ← Json.toList_sign]
    simp only [JsonNumber.toText, habs, hsign, if_neg hexp]
    simp [hleft]
  · obtain ⟨e, rfl⟩ := Nat.exists_eq_add_one_of_ne_zero (Nat.ne_of_gt he)
    have hexp : 9 + (countDigits (10 * m.natAbs) : Int) - (e + 1 + 1 : Nat) =
        9 + (countDigits m.natAbs : Int) - (e + 1 : Nat) := by omega
    simp only [JsonNumber.toText, habs, hsign, hexp]
    generalize hk : (if 9 + (countDigits m.natAbs : Int) - (e + 1 : Nat) < 0 then
      9 + (countDigits m.natAbs : Int) - (e + 1 : Nat) else 0) = exp
    obtain ⟨w, hw, hw'⟩ : ∃ w, e + 1 - exp.natAbs = w ∧ e + 1 + 1 - exp.natAbs = w + 1 := by
      refine ⟨e + 1 - exp.natAbs, rfl, ?_⟩
      split at hk <;> omega
    have hleft : 10 * m.natAbs / 10 ^ (w + 1) = m.natAbs / 10 ^ w := by
      rw [Nat.pow_succ']
      exact Nat.mul_div_mul_left _ _ (by decide)
    have hrest : 10 * m.natAbs % 10 ^ (w + 1) = 10 * (m.natAbs % 10 ^ w) := by
      rw [Nat.pow_succ']
      exact Nat.mul_mod_mul_left _ _ _
    have hzero : (10 * (m.natAbs % 10 ^ w) = 0) = (m.natAbs % 10 ^ w = 0) := propext (by omega)
    have hfraction := fraction_mul_ten w (m.natAbs % 10 ^ w)
    simp only [Json.fraction] at hfraction
    rw [hw, hw', hleft, hrest, hfraction]
    simp only [hzero]

/-- **Texts of numbers.**  A number other than zero is printed by its value. -/
theorem toText_congr {m n : JsonNumber} (hm : m.mantissa ≠ 0) (h : jsonRat m = jsonRat n) :
    m.toText = n.toText := by
  have hmore : ∀ (a : Int) (e d : Nat), a ≠ 0 →
      JsonNumber.toText ⟨a * 10 ^ d, e + d⟩ = JsonNumber.toText ⟨a, e⟩ := by
    intro a e d ha
    induction d with
    | zero => simp
    | succ d ih =>
        have hne : a * 10 ^ d ≠ 0 := Int.mul_ne_zero ha (by positivity)
        have hstep := toText_mul_ten hne (e + d)
        rwa [ih, show 10 * (a * 10 ^ d) = a * 10 ^ (d + 1) by ring] at hstep
  obtain ⟨a, e⟩ := m
  obtain ⟨b, f⟩ := n
  have hcross : a * 10 ^ f = b * 10 ^ e := by
    rw [jsonRat, jsonRat, div_eq_div_iff (by positivity) (by positivity)] at h
    exact_mod_cast h
  have hb : b ≠ 0 := by
    rintro rfl
    have hzero : a * 10 ^ f ≠ 0 := Int.mul_ne_zero hm (by positivity)
    exact hzero (by rw [hcross, Int.zero_mul])
  rcases Nat.le_total e f with hle | hle
  · obtain ⟨d, rfl⟩ := Nat.exists_eq_add_of_le hle
    have hvalue : a * 10 ^ d = b := by
      have hpow : (10 : Int) ^ e ≠ 0 := by positivity
      exact Int.eq_of_mul_eq_mul_right hpow (by rw [← hcross, pow_add]; ring)
    rw [← hvalue, hmore a e d hm]
  · obtain ⟨d, rfl⟩ := Nat.exists_eq_add_of_le hle
    have hvalue : b * 10 ^ d = a := by
      have hpow : (10 : Int) ^ f ≠ 0 := by positivity
      exact Int.eq_of_mul_eq_mul_right hpow (by rw [hcross, pow_add]; ring)
    rw [← hvalue, hmore b f d hb]
theorem span_append {p : Char → Bool} {cs ds : List Char} (hcs : ∀ c ∈ cs, p c = true)
    (hds : ∀ c rest, ds = c :: rest → p c = false) : (cs ++ ds).span p = (cs, ds) := by
  rw [List.span_eq_takeWhile_dropWhile, List.takeWhile_append_of_pos hcs,
    List.dropWhile_append_of_pos hcs]
  cases ds with
  | nil => simp
  | cons c rest => simp [hds c rest rfl]

/-- A decimal digit. -/
def isDigit (c : Char) : Bool :=
  decide ('0' ≤ c ∧ c ≤ '9')

theorem Digits.isDigit {ds : List Char} (h : Digits ds) : ∀ c ∈ ds, isDigit c = true :=
  fun c hc => decide_eq_true (h c hc)

/-- The number a whole part and what stands behind its point say. -/
def scaled (whole : Nat) (cs : List Char) : ℚ :=
  match cs.span isDigit with
  | (fraction, 'e' :: '-' :: ds) => (whole + fractionRat fraction) / 10 ^ digitsValue ds
  | (fraction, _) => whole + fractionRat fraction

/-- The number a text without a sign says. -/
def magnitude (cs : List Char) : ℚ :=
  match cs.span isDigit with
  | (whole, '.' :: rest) => scaled (digitsValue whole) rest
  | (whole, _) => digitsValue whole

/-- The number a text says. -/
def textRat : List Char → ℚ
  | '-' :: rest => -magnitude rest
  | cs => magnitude cs

theorem textRat_sign (negative : Bool) (q : Nat) (more : List Char) :
    textRat (signChars negative ++ (Nat.toDigits 10 q ++ more)) =
      signValue negative * magnitude (Nat.toDigits 10 q ++ more) := by
  cases negative with
  | true =>
      show -magnitude (Nat.toDigits 10 q ++ more) = _
      simp [signValue]
  | false =>
      obtain ⟨c, rest, hdigits, _⟩ := (Json.intPart_toDigits q).first
      have hc : c ≠ '-' := by
        rintro rfl
        have hdigit := Json.digits_toDigits q '-' (by rw [hdigits]; exact List.mem_cons_self)
        exact absurd hdigit (by decide)
      have hplain : textRat (c :: (rest ++ more)) = magnitude (c :: (rest ++ more)) := by
        rw [textRat]
        rintro rest' heq
        exact hc (List.cons.inj heq).1
      rw [hdigits]
      show textRat (c :: (rest ++ more)) = _
      rw [hplain]
      simp [signValue]

theorem magnitude_whole (q : Nat) : magnitude (Nat.toDigits 10 q) = q := by
  have hspan := span_append (Digits.isDigit (Json.digits_toDigits q))
    (fun c rest h => absurd h.symm (List.cons_ne_nil c rest))
  rw [List.append_nil] at hspan
  rw [magnitude, hspan]
  exact congrArg Nat.cast (Json.digitsValue_toDigits q)

theorem scaled_exponent (whole : Nat) {fs : List Char} (hfs : Digits fs) (k : Nat) :
    scaled whole (fs ++ exponentChars k) = (whole + fractionRat fs) / 10 ^ k := by
  rcases Nat.eq_zero_or_pos k with rfl | hk
  · have hspan := span_append (Digits.isDigit hfs)
      (fun c rest h => absurd h.symm (List.cons_ne_nil c rest))
    rw [exponentChars, if_pos rfl, scaled, hspan, pow_zero, div_one]
  · have hletter : ∀ c rest, 'e' :: '-' :: Nat.toDigits 10 k = c :: rest → isDigit c = false := by
      intro c rest h
      obtain ⟨rfl, -⟩ := List.cons.inj h
      rfl
    have hspan := span_append (Digits.isDigit hfs) hletter
    rw [exponentChars, if_neg (by omega), scaled, hspan]
    exact congrArg (_ / 10 ^ ·) (Json.digitsValue_toDigits k)

theorem magnitude_fraction (q : Nat) {fs : List Char} (hfs : Digits fs) (k : Nat) :
    magnitude (Nat.toDigits 10 q ++ '.' :: (fs ++ exponentChars k)) =
      (q + fractionRat fs) / 10 ^ k := by
  have hpoint : ∀ c rest, '.' :: (fs ++ exponentChars k) = c :: rest → isDigit c = false := by
    intro c rest h
    obtain ⟨rfl, -⟩ := List.cons.inj h
    rfl
  have hspan := span_append (Digits.isDigit (Json.digits_toDigits q)) hpoint
  rw [magnitude, hspan]
  show scaled (digitsValue (Nat.toDigits 10 q)) (fs ++ exponentChars k) = _
  rw [Json.digitsValue_toDigits, scaled_exponent q hfs]

/-- The text of a number says the number. -/
theorem textRat_toText (n : JsonNumber) : textRat n.toText.toList = jsonRat n := by
  rcases toText_forms n with ⟨q, htext, hrat⟩ | ⟨q, fs, k, hfs, htext, hrat, -⟩
  · have hsign := textRat_sign (decide (n.mantissa < 0)) q []
    rw [List.append_nil] at hsign
    rw [htext, hrat, hsign, magnitude_whole]
  · rw [htext, hrat, textRat_sign, magnitude_fraction q hfs, mul_div_assoc]

/-- The characters of numbers. -/
def isNumberChar (c : Char) : Bool :=
  isDigit c || c == '-' || c == '.' || c == 'e'

theorem isNumberChar_toText (n : JsonNumber) : ∀ c ∈ n.toText.toList, isNumberChar c = true := by
  have hdigits : ∀ {ds : List Char}, Digits ds → ∀ c ∈ ds, isNumberChar c = true := by
    intro ds hds c hc
    rw [isNumberChar, Digits.isDigit hds c hc]
    rfl
  have hsign : ∀ negative, ∀ c ∈ signChars negative, isNumberChar c = true :=
    fun negative => List.all_eq_true.mp (by cases negative <;> rfl)
  rcases toText_forms n with ⟨q, htext, -⟩ | ⟨q, fs, k, hfs, htext, -⟩
  · rw [htext]
    exact List.forall_mem_append.mpr ⟨hsign _, hdigits (Json.digits_toDigits q)⟩
  · have hexponent : ∀ c ∈ exponentChars k, isNumberChar c = true := by
      rw [exponentChars]
      split
      · exact List.forall_mem_nil _
      · exact List.forall_mem_cons.mpr ⟨by decide,
          List.forall_mem_cons.mpr ⟨by decide, hdigits (Json.digits_toDigits k)⟩⟩
    rw [htext]
    simp only [List.forall_mem_append, List.forall_mem_cons]
    exact ⟨hsign _, hdigits (Json.digits_toDigits q), by decide, hdigits hfs, hexponent⟩

/-- A number and what follows it can be told apart. -/
theorem jsonRat_of_text {m n : JsonNumber} {t t' : List Char} (ht : EndsValue t)
    (ht' : EndsValue t') (h : m.toText.toList ++ t = n.toText.toList ++ t') :
    jsonRat m = jsonRat n ∧ t = t' := by
  have hends : ∀ {s : List Char}, EndsValue s → ∀ c rest, s = c :: rest → isNumberChar c = false := by
    intro s hs c rest heq
    rcases hs c rest heq with rfl | rfl | rfl <;> rfl
  have hspan := span_append (isNumberChar_toText m) (hends ht)
  rw [h, span_append (isNumberChar_toText n) (hends ht')] at hspan
  obtain ⟨htext, htail⟩ := Prod.mk.inj hspan
  refine ⟨?_, htail.symm⟩
  rw [← textRat_toText, ← textRat_toText, htext]

/-! ## Values -/

/-- What a JSON value says: its numbers are rational numbers. -/
inductive Meaning where
  | null
  | bool (b : Bool)
  | num (q : ℚ)
  | str (s : String)
  | arr (elems : List Meaning)
  | obj (members : List (String × Meaning))

namespace Json

mutual

/-- What a value says, numbers as rationals. -/
def meaning : Json → Meaning
  | .null => .null
  | .bool b => .bool b
  | .num n => .num (jsonRat n)
  | .str s => .str s
  | .arr elems => .arr (meaningElems elems)
  | .obj kvPairs => .obj (meaningFields kvPairs)

/-- What the elements say, in order. -/
def meaningElems : List Json → List Meaning
  | [] => []
  | e :: es => meaning e :: meaningElems es

/-- What the bindings say, in key order. -/
def meaningFields : List (String × Json) → List (String × Meaning)
  | [] => []
  | (k, v) :: kvs => (k, meaning v) :: meaningFields kvs

end

/-- The form of a value, which its first character gives away. -/
inductive Form where
  | null
  | bool
  | num
  | str
  | arr
  | obj
  deriving DecidableEq

/-- The form of a value. -/
def form : Json → Form
  | .null => .null
  | .bool _ => .bool
  | .num _ => .num
  | .str _ => .str
  | .arr _ => .arr
  | .obj _ => .obj

/-- The form of the values that start with a character. -/
def formOf? (c : Char) : Option Form :=
  if c = 'n' then some .null
  else if c = 't' ∨ c = 'f' then some .bool
  else if c = '"' then some .str
  else if c = '[' then some .arr
  else if c = '\x7b' then some .obj
  else if c = '-' ∨ isDigit c then some .num
  else none

theorem formOf?_startsNumber {c : Char} (h : Parser.StartsNumber c) : formOf? c = some .num := by
  rcases h with rfl | hc
  · rfl
  · have hdigit : isDigit c = true := decide_eq_true hc
    have hne : ∀ d : Char, isDigit d = false → c ≠ d := by
      rintro d hd rfl
      exact absurd (hdigit.symm.trans hd) (by decide)
    have hall : (['n', 't', 'f', '"', '[', '\x7b'].all (isDigit · == false)) = true := by rfl
    have hothers : ∀ d ∈ ['n', 't', 'f', '"', '[', '\x7b'], isDigit d = false :=
      fun d hd => beq_iff_eq.mp (List.all_eq_true.mp hall d hd)
    simp [formOf?, hne, hdigit, hothers]

theorem formOf?_compress (j : Json) :
    ∃ c rest, (compress j).toList = c :: rest ∧ formOf? c = some j.form := by
  cases j with
  | null => exact ⟨'n', _, rfl, rfl⟩
  | bool b => cases b <;> exact ⟨_, _, rfl, rfl⟩
  | num n =>
      obtain ⟨c, rest, htext, hc⟩ := startsNumber_toText n
      exact ⟨c, rest, htext, formOf?_startsNumber hc⟩
  | str s => exact ⟨'"', _, toList_renderString s, rfl⟩
  | arr elems => exact ⟨'[', (compressElems elems ++ "]").toList, by simp [compress], rfl⟩
  | obj kvPairs => exact ⟨'\x7b', (compressFields kvPairs ++ "\x7d").toList, by simp [compress], rfl⟩

/-! ## Unique reading -/

/-- What follows an item of a list that is closed by a bracket. -/
def listTail (close : Char) (items : List (List Char)) (t : List Char) : List Char :=
  match items with
  | [] => close :: t
  | item :: rest => ',' :: (Parser.commaList (item :: rest) ++ close :: t)

theorem commaList_cons_append (close : Char) (item : List Char) (rest : List (List Char))
    (t : List Char) :
    Parser.commaList (item :: rest) ++ close :: t = item ++ listTail close rest t := by
  cases rest with
  | nil => rw [Parser.commaList_singleton, listTail]
  | cons next rest => simp [Parser.commaList_cons, listTail]

theorem endsValue_listTail {close : Char} (hclose : close = ']' ∨ close = '\x7d')
    (items : List (List Char)) (t : List Char) : EndsValue (listTail close items t) := by
  cases items with
  | nil => exact Parser.endsValue_of_cons (Or.inr hclose) t
  | cons item rest => exact Parser.endsValue_of_cons (Or.inl rfl) _

/-- No item starts with the bracket that closes the list. -/
def Opens (close : Char) (items : List (List Char)) : Prop :=
  ∀ item ∈ items, ∃ c rest, item = c :: rest ∧ c ≠ close

/-- Lists with one text are empty together, and go on alike. -/
theorem listTail_of_text {close : Char} {items items' : List (List Char)}
    (hitems : Opens close items) (hitems' : Opens close items') {t t' : List Char}
    (h : Parser.commaList items ++ close :: t = Parser.commaList items' ++ close :: t') :
    listTail close items t = listTail close items' t' := by
  have hstart : ∀ {item : List Char} {rest : List (List Char)} {s : List Char} {s' : List Char},
      Opens close (item :: rest) → close :: s ≠ Parser.commaList (item :: rest) ++ close :: s' := by
    intro item rest s s' hopens heq
    obtain ⟨c, more, hitem, hne⟩ := hopens item List.mem_cons_self
    rw [commaList_cons_append, hitem] at heq
    exact hne (List.cons.inj heq).1.symm
  cases items with
  | nil =>
      cases items' with
      | nil => exact h
      | cons item' rest' => exact absurd h (hstart hitems')
  | cons item rest =>
      cases items' with
      | nil => exact absurd h.symm (hstart hitems)
      | cons item' rest' => rw [listTail, listTail, h]

/-- A string and what follows it can be told apart. -/
theorem string_of_text {s s' : String} {t t' : List Char}
    (h : Parser.literal escapeAux s ++ t = Parser.literal escapeAux s' ++ t') : s = s' ∧ t = t' := by
  simp only [Parser.literal, List.cons_append, List.append_assoc, List.nil_append,
    List.cons.injEq, true_and] at h
  have hread := escapes_escapeAux.str s t
  rw [h, escapes_escapeAux.str s' t'] at hread
  obtain ⟨htail, hs⟩ := ParseResult.success.inj hread
  exact ⟨hs.symm, htail.symm⟩

theorem opens_elems {close : Char} (hclose : formOf? close = none) (es : List Json) :
    Opens close (es.map fun e => (compress e).toList) := by
  intro item hitem
  obtain ⟨e, -, rfl⟩ := List.mem_map.mp hitem
  obtain ⟨c, rest, htext, hform⟩ := formOf?_compress e
  refine ⟨c, rest, htext, ?_⟩
  rintro rfl
  exact absurd (hclose.symm.trans hform) (Option.some_ne_none _).symm

theorem opens_fields {close : Char} (hclose : close ≠ '"') (kvs : List (String × Json)) :
    Opens close (kvs.map memberText) := by
  intro item hitem
  obtain ⟨kv, -, rfl⟩ := List.mem_map.mp hitem
  exact ⟨'"', _, rfl, hclose.symm⟩

theorem form_of_text {a b : Json} {t t' : List Char}
    (h : (compress a).toList ++ t = (compress b).toList ++ t') : a.form = b.form := by
  obtain ⟨c, rest, htext, hform⟩ := formOf?_compress a
  obtain ⟨c', rest', htext', hform'⟩ := formOf?_compress b
  rw [htext, htext'] at h
  obtain ⟨rfl, -⟩ := List.cons.inj h
  exact Option.some.inj (hform.symm.trans hform')

mutual

/-- A value and what follows it can be told apart, up to what the value says. -/
theorem meaning_of_text (a b : Json) {t t' : List Char} (ht : EndsValue t) (ht' : EndsValue t')
    (h : (compress a).toList ++ t = (compress b).toList ++ t') :
    a.meaning = b.meaning ∧ t = t' := by
  have hform := form_of_text h
  cases a with
  | null =>
      cases b with
      | null => exact ⟨rfl, List.append_cancel_left h⟩
      | _ => exact absurd hform (by simp [form])
  | bool x =>
      cases b with
      | bool y =>
          cases x <;> cases y
          · exact ⟨rfl, List.append_cancel_left h⟩
          · exact absurd (List.cons.inj h).1 (by decide)
          · exact absurd (List.cons.inj h).1 (by decide)
          · exact ⟨rfl, List.append_cancel_left h⟩
      | _ => exact absurd hform (by simp [form])
  | num m =>
      cases b with
      | num n =>
          obtain ⟨hrat, htail⟩ := jsonRat_of_text ht ht' h
          exact ⟨by rw [meaning, meaning, hrat], htail⟩
      | _ => exact absurd hform (by simp [form])
  | str s =>
      cases b with
      | str s' =>
          rw [compress, compress, toList_renderString, toList_renderString] at h
          obtain ⟨rfl, htail⟩ := string_of_text h
          exact ⟨rfl, htail⟩
      | _ => exact absurd hform (by simp [form])
  | arr es =>
      cases b with
      | arr es' =>
          rw [toList_compress_arr, toList_compress_arr, List.cons_append, List.cons_append,
            List.append_assoc, List.append_assoc] at h
          obtain ⟨hmeaning, htail⟩ := meaningElems_of_text es es'
            (listTail_of_text (opens_elems rfl es) (opens_elems rfl es') (List.cons.inj h).2)
          exact ⟨by rw [meaning, meaning, hmeaning], htail⟩
      | _ => exact absurd hform (by simp [form])
  | obj kvs =>
      cases b with
      | obj kvs' =>
          rw [toList_compress_obj, toList_compress_obj, List.cons_append, List.cons_append,
            List.append_assoc, List.append_assoc] at h
          obtain ⟨hmeaning, htail⟩ := meaningFields_of_text kvs kvs'
            (listTail_of_text (opens_fields (by decide) kvs) (opens_fields (by decide) kvs')
              (List.cons.inj h).2)
          exact ⟨by rw [meaning, meaning, hmeaning], htail⟩
      | _ => exact absurd hform (by simp [form])

theorem meaningElems_of_text (es es' : List Json) {t t' : List Char}
    (h : listTail ']' (es.map fun e => (compress e).toList) t =
      listTail ']' (es'.map fun e => (compress e).toList) t') :
    meaningElems es = meaningElems es' ∧ t = t' := by
  cases es with
  | nil =>
      cases es' with
      | nil => exact ⟨rfl, (List.cons.inj h).2⟩
      | cons e' rest' => exact absurd (List.cons.inj h).1 (by decide)
  | cons e rest =>
      cases es' with
      | nil => exact absurd (List.cons.inj h).1 (by decide)
      | cons e' rest' =>
          have hitems := (List.cons.inj h).2
          rw [commaList_cons_append, commaList_cons_append] at hitems
          obtain ⟨hhead, hrest⟩ := meaning_of_text e e' (endsValue_listTail (Or.inl rfl) _ _)
            (endsValue_listTail (Or.inl rfl) _ _) hitems
          obtain ⟨htail, hend⟩ := meaningElems_of_text rest rest' hrest
          exact ⟨by rw [meaningElems, meaningElems, hhead, htail], hend⟩

theorem meaningFields_of_text (kvs kvs' : List (String × Json)) {t t' : List Char}
    (h : listTail '\x7d' (kvs.map memberText) t = listTail '\x7d' (kvs'.map memberText) t') :
    meaningFields kvs = meaningFields kvs' ∧ t = t' := by
  cases kvs with
  | nil =>
      cases kvs' with
      | nil => exact ⟨rfl, (List.cons.inj h).2⟩
      | cons kv' rest' => exact absurd (List.cons.inj h).1 (by decide)
  | cons kv rest =>
      cases kvs' with
      | nil => exact absurd (List.cons.inj h).1 (by decide)
      | cons kv' rest' =>
          obtain ⟨k, v⟩ := kv
          obtain ⟨k', v'⟩ := kv'
          have hitems := (List.cons.inj h).2
          rw [commaList_cons_append, commaList_cons_append, memberText, memberText,
            List.append_assoc, List.append_assoc] at hitems
          obtain ⟨rfl, hvalue⟩ := string_of_text hitems
          obtain ⟨hhead, hrest⟩ := meaning_of_text v v' (endsValue_listTail (Or.inr rfl) _ _)
            (endsValue_listTail (Or.inr rfl) _ _) (List.cons.inj hvalue).2
          obtain ⟨htail, hend⟩ := meaningFields_of_text rest rest' hrest
          exact ⟨by rw [meaningFields, meaningFields, hhead, htail], hend⟩

end

/-- **What a text says.**  Values with one compact text say the same. -/
theorem meaning_of_compress {a b : Json} (h : compress a = compress b) : a.meaning = b.meaning := by
  have hnil : EndsValue [] := fun c rest heq => absurd heq.symm (List.cons_ne_nil c rest)
  exact (meaning_of_text a b hnil hnil (by rw [h])).1

/-- They need not be one value. -/
example : compress (.num ⟨10, 1⟩) = compress (.num ⟨1, 0⟩) := by decide

end Json

end McpSeal.Data
