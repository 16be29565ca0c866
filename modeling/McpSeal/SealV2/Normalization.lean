import McpSeal.Data.JsonRoundTrip
import McpSeal.SealV2.Approval
import McpSeal.SealV2.RoundTrip
set_option autoImplicit false

/-!
# SealV2: optional values through the JSON library (`SealV2/Validation.lean`)

The optional values of a request are normalised by printing the tree
canonically, parsing the text with the JSON library and printing the result
again.  `jsonOf` says what the parser reads: the same value, with the members of
objects in key order.  It is in normal form, so the text a request keeps is its
own normal form, and a signed message that carries it can be read back.
-/

namespace McpSeal.SealV2

open McpSeal.Data (Json JsonNumber)
open McpSeal.Data.Json.Parser (ReadsValue ReadsMember Escapes Digits IntPart digitsValue signChars
  signValue literal commaList length_commaList_cons)

/-! ## Strings -/

theorem toHex4_eq (n : Nat) :
    toHex4 n = [Nat.digitChar (n / 4096 % 16), Nat.digitChar (n / 256 % 16),
      Nat.digitChar (n / 16 % 16), Nat.digitChar (n % 16)] := by
  have hall : ∀ d : Fin 16, hexDigitChar d.val = Nat.digitChar d.val := by decide
  have hdigit : ∀ m, hexDigitChar (m % 16) = Nat.digitChar (m % 16) := fun m =>
    hall ⟨m % 16, Nat.mod_lt m (by decide)⟩
  rw [toHex4, hdigit, hdigit, hdigit, hdigit]

/-- A short escape is read by the JSON library as the character it denotes. -/
theorem escapedChar_short {letter c : Char} (h : unescapeShort? letter = some c)
    (tail : List Char) :
    Json.Parser.escapedChar (letter :: tail) = .success tail c := by
  unfold unescapeShort? at h
  repeat'
    split at h
    · rename_i hletter
      obtain rfl := Option.some.inj h
      rw [hletter]
      rfl
  contradiction

/-- A long escape is read by the JSON library as the character it denotes. -/
theorem escapedChar_toHex4 {n : Nat} (hn : n < 0x10000) (hscalar : n < 0xd800 ∨ 0xe000 ≤ n)
    (tail : List Char) :
    Json.Parser.escapedChar ('u' :: (toHex4 n ++ tail)) = .success tail (Char.ofNat n) := by
  have hvalue : n / 4096 % 16 * 4096 + n / 256 % 16 * 256 + n / 16 % 16 * 16 + n % 16 = n := by
    omega
  have hread := Json.Parser.escapedChar_long (a := n / 4096 % 16) (b := n / 256 % 16)
    (c := n / 16 % 16) (d := n % 16) (by omega) (by omega) (by omega) (by omega) (by omega) tail
  rw [hvalue] at hread
  rw [toHex4_eq]
  exact hread

theorem low_nibbles (m : Nat) :
    m / 256 % 16 * 256 + m / 16 % 16 * 16 + m % 16 = m % 4096 := by
  omega

theorem surrogates_value {n m : Nat} (hn : 0xd800 ≤ n ∧ n ≤ 0xdbff)
    (hm : 0xdc00 ≤ m ∧ m ≤ 0xdfff) :
    n % 1024 * 1024 + m % 4096 % 1024 + 0x10000 =
      0x10000 + (n - 0xd800) * 1024 + (m - 0xdc00) := by
  omega

/-- A surrogate pair is read by the JSON library as the scalar it encodes. -/
theorem escapedChar_surrogates {n m : Nat} (hn : 0xd800 ≤ n ∧ n ≤ 0xdbff)
    (hm : 0xdc00 ≤ m ∧ m ≤ 0xdfff) (tail : List Char) :
    Json.Parser.escapedChar ('u' :: (toHex4 n ++ '\\' :: 'u' :: (toHex4 m ++ tail))) =
      .success tail (Char.ofNat (0x10000 + (n - 0xd800) * 1024 + (m - 0xdc00))) := by
  have hhigh : n / 4096 % 16 * 4096 + n / 256 % 16 * 256 + n / 16 % 16 * 16 + n % 16 = n := by
    omega
  have hd : m / 4096 % 16 = 13 := by omega
  have hread := Json.Parser.escapedChar_pair (a := n / 4096 % 16) (b := n / 256 % 16)
    (c := n / 16 % 16) (d := n % 16) (by omega) (by omega) (by omega) (by omega) (by omega)
    (e := m / 256 % 16) (f := m / 16 % 16) (g := m % 16) (by omega) (by omega) (by omega)
    (by omega) tail
  rw [hhigh, low_nibbles, surrogates_value hn hm] at hread
  rw [toHex4_eq, toHex4_eq, hd]
  exact hread

/-- The canonical escapes are read by the JSON library as well. -/
theorem escapes_escapeChar : Escapes escapeChar where
  nonempty := by
    intro c
    rcases escapeChar_cases c with ⟨_, _, hform⟩ | ⟨_, _, _, hform⟩ | ⟨_, _, hform⟩ | ⟨_, hform⟩
    all_goals
      rw [hform]
      exact List.cons_ne_nil _ _
  reads := by
    intro c fuel acc tail
    have hofNat : Char.ofNat c.toNat = c := Char.ofNat_toNat c
    have hvalid : c.toNat < 0xd800 ∨ (0xdfff < c.toNat ∧ c.toNat < 0x110000) := c.valid
    rcases escapeChar_cases c with ⟨letter, hletter, hform⟩ | ⟨hquote, hslash, hplain, hform⟩ |
      ⟨hbmp, _, hform⟩ | ⟨hastral, hform⟩
    · rw [hform]
      exact Json.Parser.strCore_escape (escapedChar_short hletter tail) fuel acc
    · rw [hform]
      exact Json.Parser.strCore_plain hquote hslash hplain.1 fuel acc tail
    · have hread := escapedChar_toHex4 hbmp (by omega) tail
      rw [hofNat] at hread
      rw [hform]
      exact Json.Parser.strCore_escape hread fuel acc
    · have hread := escapedChar_surrogates (n := 0xd800 + (c.toNat - 0x10000) / 1024)
        (m := 0xdc00 + (c.toNat - 0x10000) % 1024) (by omega) (by omega) tail
      have hscalar : 0x10000 + (0xd800 + (c.toNat - 0x10000) / 1024 - 0xd800) * 1024 +
          (0xdc00 + (c.toNat - 0x10000) % 1024 - 0xdc00) = c.toNat := by omega
      rw [hscalar, hofNat] at hread
      rw [hform, List.append_assoc]
      exact Json.Parser.strCore_escape hread fuel acc

/-! ## Numbers -/

theorem isDigitChar_iff {c : Char} : isDigitChar c = true ↔ '0' ≤ c ∧ c ≤ '9' := by
  simp only [isDigitChar, Bool.and_eq_true, decide_eq_true_eq]
  exact Iff.rfl

theorem digits_of_all {ds : List Char} (h : ds.all isDigitChar = true) : Digits ds := by
  intro c hc
  exact isDigitChar_iff.mp (List.all_eq_true.mp h c hc)

theorem isNonZeroDigitChar_iff {c : Char} :
    isNonZeroDigitChar c = true ↔ c ≠ '0' ∧ '0' ≤ c ∧ c ≤ '9' := by
  simp only [isNonZeroDigitChar, Bool.and_eq_true, decide_eq_true_eq]
  constructor
  · rintro ⟨hlow, hhigh⟩
    refine ⟨?_, Nat.le_trans (by decide) hlow, hhigh⟩
    rintro rfl
    exact absurd hlow (by decide)
  · rintro ⟨hne, hlow, hhigh⟩
    exact ⟨Json.Parser.one_le_of_digit hlow hne, hhigh⟩

/-- Canonical integer digits are an integer part. -/
theorem intPart_of_canonical {digits : String} (h : isCanonicalIntDigits digits = true) :
    IntPart digits.toList := by
  unfold isCanonicalIntDigits at h
  split at h
  · rename_i heq
    rw [heq]
    exact { digits := digits_of_all rfl, first := ⟨'0', [], rfl, fun _ => rfl⟩ }
  · rename_i c rest _ heq
    obtain ⟨hc, hrest⟩ := Bool.and_eq_true_iff.mp h
    obtain ⟨hne, hdigit⟩ := isNonZeroDigitChar_iff.mp hc
    rw [heq]
    exact { digits := List.forall_mem_cons.mpr ⟨hdigit, digits_of_all hrest⟩
            first := ⟨c, rest, rfl, fun hzero => absurd hzero hne⟩ }
  · contradiction

/-- Canonical fraction digits are digits whose number does not end in zero. -/
theorem fracDigits_of_canonical {digits : String} (h : isCanonicalFracDigits digits = true) :
    Digits digits.toList ∧ digits.toList ≠ [] ∧ digitsValue digits.toList % 10 ≠ 0 := by
  unfold isCanonicalFracDigits at h
  split at h
  · rename_i last front heq
    obtain ⟨hlast, hdigits⟩ := Bool.and_eq_true_iff.mp h
    obtain ⟨hne, hlow, hhigh⟩ := isNonZeroDigitChar_iff.mp hlast
    have hchars : digits.toList = front.reverse ++ [last] := by
      rw [← List.reverse_inj, heq]
      simp
    refine ⟨digits_of_all hdigits, by simp [hchars], ?_⟩
    have hone : '1'.toNat ≤ last.toNat := Json.Parser.one_le_of_digit hlow hne
    have hnine : last.toNat ≤ '9'.toNat := hhigh
    have hone' : '1'.toNat = '0'.toNat + 1 := by decide
    have hnine' : '9'.toNat = '0'.toNat + 9 := by decide
    rw [hchars, digitsValue, Nat.ofDigitChars_append, Nat.ofDigitChars_cons, Nat.ofDigitChars_nil]
    omega
  · contradiction

/-- The number a decimal denotes. -/
def Decimal.toNumber (d : Decimal) : JsonNumber :=
  match d.fracDigits with
  | none => .fromInt (signValue d.negative * digitsValue d.intDigits.toList)
  | some digits =>
      ⟨signValue d.negative *
        (digitsValue d.intDigits.toList * (10 ^ digits.toList.length : Nat) +
          digitsValue digits.toList), digits.toList.length⟩

/-- The library reads a canonical decimal as the number it denotes. -/
theorem num_serializeDecimal {d : Decimal} (h : isCanonicalDecimal d = true)
    (hlength : (serializeDecimal d).toList.length ≤ 2 ^ 64) {tail : List Char}
    (htail : Json.Parser.EndsValue tail) :
    Json.Parser.num ((serializeDecimal d).toList ++ tail) = .success tail d.toNumber := by
  simp only [isCanonicalDecimal, Bool.and_eq_true] at h
  obtain ⟨⟨hint, hfrac⟩, _⟩ := h
  have hds := intPart_of_canonical hint
  have hchars : (serializeDecimal d).toList ++ tail =
      signChars d.negative ++ (d.intDigits.toList ++ (fractionText d.fracDigits ++ tail)) := by
    rw [serializeDecimal_toList, List.append_assoc, List.append_assoc]
    rfl
  rw [hchars, Json.Parser.num, Decimal.toNumber]
  rw [serializeDecimal_toList] at hlength
  cases hd : d.fracDigits with
  | none =>
      have hread := Json.Parser.numWithDecimals_int d.negative hds htail.digits htail.point
      exact (Json.Parser.bind_success hread).trans (Json.Parser.exponent_none htail _)
  | some digits =>
      rw [hd] at hfrac hlength
      obtain ⟨hfs, hne, _⟩ := fracDigits_of_canonical hfrac
      have hplaces : digits.toList.length ≤ 2 ^ 64 := by
        simp only [fractionText, List.length_append, List.length_cons] at hlength
        omega
      have hread := Json.Parser.numWithDecimals_frac d.negative hds hfs hne hplaces htail.digits
      exact (Json.Parser.bind_success hread).trans (Json.Parser.exponent_none htail _)

/-- A canonical decimal denotes a number in normal form. -/
theorem normalNumber_toNumber {d : Decimal} (h : isCanonicalDecimal d = true)
    (hlength : (serializeDecimal d).toList.length ≤ 2 ^ 64) : Json.NormalNumber d.toNumber := by
  simp only [isCanonicalDecimal, Bool.and_eq_true] at h
  obtain ⟨⟨_, hfrac⟩, _⟩ := h
  rw [serializeDecimal_toList] at hlength
  rw [Decimal.toNumber]
  cases hd : d.fracDigits with
  | none => exact { last := fun hpos => absurd hpos (Nat.lt_irrefl 0), places := Nat.zero_le _ }
  | some digits =>
      rw [hd] at hfrac hlength
      obtain ⟨_, hne, hlast⟩ := fracDigits_of_canonical hfrac
      have hplaces : digits.toList.length ≤ 2 ^ 64 := by
        simp only [fractionText, List.length_append, List.length_cons] at hlength
        omega
      refine { last := fun _ => ?_, places := hplaces }
      have hpos : digits.toList.length ≠ 0 := by simpa using hne
      have hdvd : (10 : Int) ∣ (10 ^ digits.toList.length : Nat) := by
        exact_mod_cast dvd_pow_self 10 hpos
      obtain ⟨k, hk⟩ := hdvd
      have hshift : (digitsValue d.intDigits.toList : Int) * (10 ^ digits.toList.length : Nat) =
          10 * (digitsValue d.intDigits.toList * k) := by
        rw [hk]
        ring
      dsimp only
      rw [hshift]
      cases d.negative with
      | true =>
          show (-1 * _) % 10 ≠ 0
          omega
      | false =>
          show (1 * _) % 10 ≠ 0
          omega

/-! ## Trees -/

mutual

/-- The value the JSON library reads from the text of a tree. -/
def jsonOf : AST → Json
  | .null => .null
  | .bool value => .bool value
  | .number value => .num value.toNumber
  | .string value => .str value
  | .array items => .arr (jsonItems items)
  | .object fields => Json.mkObj (jsonFields fields)

/-- The library values of the items. -/
def jsonItems : List AST → List Json
  | [] => []
  | item :: rest => jsonOf item :: jsonItems rest

/-- The members with their library values, in the order of the tree. -/
def jsonFields : List (String × AST) → List (String × Json)
  | [] => []
  | (key, value) :: rest => (key, jsonOf value) :: jsonFields rest

end

theorem jsonFields_eq_map (fields : List (String × AST)) :
    jsonFields fields = fields.map fun field => (field.1, jsonOf field.2) := by
  induction fields with
  | nil => rfl
  | cons field rest ih => rw [jsonFields, ih, List.map_cons]

theorem quoted_eq_literal (s : String) : quoted s = literal escapeChar s := rfl

theorem itemsText_eq_commaList (items : List AST) :
    itemsText items = commaList (items.map text) := by
  induction items with
  | nil => rfl
  | cons item rest ih =>
      cases rest with
      | nil => exact (Json.Parser.commaList_singleton _).symm
      | cons next rest =>
          rw [itemsText_cons, ih, List.map_cons, List.map_cons, List.map_cons,
            Json.Parser.commaList_cons]

/-- Text of one member of an object. -/
def fieldText (field : String × AST) : List Char :=
  quoted field.1 ++ ':' :: text field.2

theorem fieldsText_eq_commaList (fields : List (String × AST)) :
    fieldsText fields = commaList (fields.map fieldText) := by
  induction fields with
  | nil => rfl
  | cons field rest ih =>
      obtain ⟨key, value⟩ := field
      cases rest with
      | nil =>
          rw [fieldsText_singleton, List.map_cons, List.map_nil, Json.Parser.commaList_singleton]
          rfl
      | cons next rest =>
          have hmember : fieldText (key, value) ++ ',' :: fieldsText (next :: rest) =
              fieldsText ((key, value) :: next :: rest) := by
            rw [fieldsText_cons, fieldText, List.append_assoc, List.cons_append]
          rw [← hmember, ih]
          simp only [List.map_cons, Json.Parser.commaList_cons]

theorem length_text_le (field : String × AST) :
    (text field.2).length ≤ (fieldText field).length := by
  rw [fieldText, List.length_append, List.length_cons]
  omega

mutual

/-- **Trees.**  The library reads the text of a canonical tree as its value. -/
theorem readsValue_text (ast : AST) (h : IsCanonical ast) (hlength : (text ast).length ≤ 2 ^ 64) :
    ReadsValue (text ast) (jsonOf ast) := by
  cases ast with
  | null => exact Json.Parser.readsValue_null
  | bool value =>
      cases value with
      | true => exact Json.Parser.readsValue_true
      | false => exact Json.Parser.readsValue_false
  | number value =>
      have hread : ∀ tail, Json.Parser.EndsValue tail →
          Json.Parser.num ((serializeDecimal value).toList ++ tail) =
            .success tail value.toNumber :=
        fun tail htail => num_serializeDecimal h hlength htail
      obtain ⟨c, rest, hchars, hstart⟩ := exists_first_number h
      have hnumber : Json.Parser.StartsNumber c :=
        hstart.imp_right fun hdigit => isDigitChar_iff.mp hdigit
      show ReadsValue (serializeDecimal value).toList _
      rw [hchars] at hread ⊢
      exact Json.Parser.readsValue_num hnumber hread
  | string value =>
      rw [text_string, quoted_eq_literal]
      exact Json.Parser.readsValue_str escapes_escapeChar value
  | array items =>
      rw [text_array, itemsText_eq_commaList] at hlength ⊢
      rw [List.length_cons, List.length_append] at hlength
      exact Json.Parser.readsValue_arr (readsItems items h (by omega))
  | object fields =>
      rw [text_object, fieldsText_eq_commaList] at hlength ⊢
      rw [List.length_cons, List.length_append] at hlength
      exact Json.Parser.readsValue_obj escapes_escapeChar (readsFields fields h (by omega))

theorem readsItems (items : List AST) (h : isCanonicalArray items = true)
    (hlength : (commaList (items.map text)).length ≤ 2 ^ 64) :
    List.Forall₂ ReadsValue (items.map text) (jsonItems items) := by
  cases items with
  | nil => exact .nil
  | cons item rest =>
      obtain ⟨hitem, hrest⟩ := Bool.and_eq_true_iff.mp h
      obtain ⟨hfirst, hothers⟩ := length_commaList_cons (text item) (rest.map text)
      rw [List.map_cons] at hlength ⊢
      exact .cons (readsValue_text item hitem (hfirst.trans hlength))
        (readsItems rest hrest (hothers.trans hlength))

theorem readsFields (fields : List (String × AST)) (h : isCanonicalObject fields = true)
    (hlength : (commaList (fields.map fieldText)).length ≤ 2 ^ 64) :
    List.Forall₂ (ReadsMember escapeChar) (fields.map fieldText) (jsonFields fields) := by
  cases fields with
  | nil => exact .nil
  | cons field rest =>
      obtain ⟨key, value⟩ := field
      simp only [isCanonicalObject, Bool.and_eq_true] at h
      obtain ⟨⟨⟨_, hvalue⟩, _⟩, hrest⟩ := h
      obtain ⟨hfirst, hothers⟩ := length_commaList_cons (fieldText (key, value))
        (rest.map fieldText)
      rw [List.map_cons] at hlength ⊢
      have hvalueLength := (length_text_le (key, value)).trans (hfirst.trans hlength)
      exact .cons ⟨_, rfl, readsValue_text value hvalue hvalueLength⟩
        (readsFields rest hrest (hothers.trans hlength))

end

mutual

/-- The value of a canonical tree is in normal form. -/
theorem normal_jsonOf (ast : AST) (h : IsCanonical ast) (hlength : (text ast).length ≤ 2 ^ 64) :
    Json.Normal (jsonOf ast) := by
  cases ast with
  | null => exact trivial
  | bool value => exact trivial
  | number value => exact normalNumber_toNumber h hlength
  | string value => exact trivial
  | array items =>
      rw [text_array, itemsText_eq_commaList, List.length_cons, List.length_append] at hlength
      exact normalItems items h (by omega)
  | object fields =>
      rw [text_object, fieldsText_eq_commaList, List.length_cons, List.length_append] at hlength
      exact Json.normal_mkObj (normalFields fields h (by omega))

theorem normalItems (items : List AST) (h : isCanonicalArray items = true)
    (hlength : (commaList (items.map text)).length ≤ 2 ^ 64) :
    Json.NormalElems (jsonItems items) := by
  cases items with
  | nil => exact trivial
  | cons item rest =>
      obtain ⟨hitem, hrest⟩ := Bool.and_eq_true_iff.mp h
      obtain ⟨hfirst, hothers⟩ := length_commaList_cons (text item) (rest.map text)
      rw [List.map_cons] at hlength
      exact ⟨normal_jsonOf item hitem (hfirst.trans hlength),
        normalItems rest hrest (hothers.trans hlength)⟩

theorem normalFields (fields : List (String × AST)) (h : isCanonicalObject fields = true)
    (hlength : (commaList (fields.map fieldText)).length ≤ 2 ^ 64) :
    Json.NormalFields (jsonFields fields) := by
  cases fields with
  | nil => exact trivial
  | cons field rest =>
      obtain ⟨key, value⟩ := field
      simp only [isCanonicalObject, Bool.and_eq_true] at h
      obtain ⟨⟨⟨_, hvalue⟩, _⟩, hrest⟩ := h
      obtain ⟨hfirst, hothers⟩ := length_commaList_cons (fieldText (key, value))
        (rest.map fieldText)
      rw [List.map_cons] at hlength
      have hvalueLength := (length_text_le (key, value)).trans (hfirst.trans hlength)
      exact ⟨normal_jsonOf value hvalue hvalueLength, normalFields rest hrest (hothers.trans hlength)⟩

end

/-! ## The texts a request keeps -/

/-- A canonical value the library reads in full: it refuses fractions of more
than `2 ^ 64` digits. -/
structure Admissible (ast : AST) : Prop where
  canonical : IsCanonical ast
  length : (text ast).length ≤ 2 ^ 64

/-- The text a request keeps of a value. -/
def normalText (ast : AST) : CanonicalBytes :=
  (jsonOf ast).compress

theorem parse_serializeAstValue {ast : AST} (h : Admissible ast) :
    Json.parse (serializeAstValue ast) = .ok (jsonOf ast) :=
  Json.parse_of_readsValue (readsValue_text ast h.canonical h.length)

theorem parse_normalText {ast : AST} (h : Admissible ast) :
    Json.parse (normalText ast) = .ok (jsonOf ast) :=
  Json.parse_compress (normal_jsonOf ast h.canonical h.length)

/-- Two values are kept as one text exactly if they are one value. -/
theorem normalText_inj {a b : AST} (ha : Admissible a) (hb : Admissible b) :
    normalText a = normalText b ↔ jsonOf a = jsonOf b := by
  constructor
  · intro h
    have hparse := parse_normalText ha
    rw [h, parse_normalText hb] at hparse
    exact (Except.ok.inj hparse).symm
  · intro h
    rw [normalText, normalText, h]

theorem normalText_inj_sample :
    normalText (.object [("a", .null), ("b", .string "x")]) =
      normalText (.object [("b", .string "x"), ("a", .null)]) := by
  refine (normalText_inj ⟨by rfl, by decide +kernel⟩ ⟨by rfl, by decide +kernel⟩).mpr ?_
  rfl
/-- The order of the members of an object does not matter. -/
theorem normalText_object_perm {fields fields' : List (String × AST)}
    (hperm : fields.Perm fields') (h : IsCanonical (.object fields)) :
    normalText (.object fields) = normalText (.object fields') := by
  have hkeys : (jsonFields fields).map Prod.fst = fields.map Prod.fst := by
    rw [jsonFields_eq_map, List.map_map]
    rfl
  have hnodup : ((jsonFields fields).map Prod.fst).Nodup := by
    rw [hkeys]
    exact (isCanonicalObject_iff.mp h).2
  have hjson : (jsonFields fields).Perm (jsonFields fields') := by
    rw [jsonFields_eq_map, jsonFields_eq_map]
    exact hperm.map _
  rw [normalText, normalText, jsonOf, jsonOf, Json.mkObj_perm hjson hnodup]

/-! ## Optional values -/

/-- The value of an optional member, if there is one, is admissible. -/
def AdmissibleMember (value : Option AST) : Prop :=
  ∀ ast, value = some ast → Admissible ast

theorem canonicalValue?_some {ast : AST} (h : Admissible ast) :
    canonicalValue? (some ast) = some (some (normalText ast)) := by
  rw [canonicalValue?, parse_serializeAstValue h]
  rfl

/-- A kept text is its own normal form, so it is accepted when signed. -/
theorem canonicalValueFromSigned?_normalText {ast : AST} (h : Admissible ast) :
    canonicalValueFromSigned? (signedCanonicalValue (normalText ast)) =
      some (normalText ast) := by
  rw [signedCanonicalValue, canonicalValueFromSigned?, parse_normalText h]
  exact if_pos (beq_self_eq_true _)

/-- What is kept of an optional value is accepted when signed. -/
theorem signed_canonicalValue {value : Option AST} (hvalue : AdmissibleMember value)
    {kept : CanonicalBytes} (h : canonicalValue? value = some (some kept)) :
    canonicalValueFromSigned? (signedCanonicalValue kept) = some kept := by
  cases value with
  | none =>
      have hnone : none = some kept := Option.some.inj h
      contradiction
  | some ast =>
      rw [canonicalValue?_some (hvalue ast rfl)] at h
      obtain rfl := Option.some.inj (Option.some.inj h)
      exact canonicalValueFromSigned?_normalText (hvalue ast rfl)

theorem signed_requestState {value : Option AST} (hvalue : AdmissibleMember value)
    {kept : CanonicalBytes} (h : RequestState.fromAst? value = some (.present kept)) :
    RequestState.fromSignedAst? (RequestState.signedAst kept) = some (.present kept) := by
  obtain ⟨found, hfound, hstate⟩ := Option.map_eq_some_iff.mp h
  cases found with
  | none => contradiction
  | some text =>
      obtain rfl := RequestState.present.inj hstate
      rw [RequestState.fromSignedAst?, RequestState.signedAst, signed_canonicalValue hvalue hfound]
      rfl

theorem signed_inputResponses {value : Option AST} (hvalue : AdmissibleMember value)
    {kept : CanonicalBytes} (h : InputResponses.fromAst? value = some (.present kept)) :
    InputResponses.fromSignedAst? (InputResponses.signedAst kept) = some (.present kept) := by
  obtain ⟨found, hfound, hresponses⟩ := Option.map_eq_some_iff.mp h
  cases found with
  | none => contradiction
  | some text =>
      obtain rfl := InputResponses.present.inj hresponses
      rw [InputResponses.fromSignedAst?, InputResponses.signedAst,
        signed_canonicalValue hvalue hfound]
      rfl

/-- **Multi-round-trip values.**  The members of a signed target are read back
as the values of the request. -/
theorem signed_mrtr {stateValue responsesValue : Option AST}
    (hstateValue : AdmissibleMember stateValue) (hresponsesValue : AdmissibleMember responsesValue)
    {state : RequestState} {responses : InputResponses}
    (hstate : RequestState.fromAst? stateValue = some state)
    (hresponses : InputResponses.fromAst? responsesValue = some responses) :
    mrtrFromSignedFields?
        (signedRequestStateField state ++ signedInputResponsesField responses) =
      some (state, responses) := by
  cases state with
  | absent =>
      cases responses with
      | absent => rfl
      | present kept =>
          have hread := signed_inputResponses hresponsesValue hresponses
          simp [signedRequestStateField, signedInputResponsesField, mrtrFromSignedFields?, hread]
  | present kept =>
      have hread := signed_requestState hstateValue hstate
      cases responses with
      | absent =>
          simp [signedRequestStateField, signedInputResponsesField, mrtrFromSignedFields?, hread]
      | present kept' =>
          have hread' := signed_inputResponses hresponsesValue hresponses
          simp [signedRequestStateField, signedInputResponsesField, mrtrFromSignedFields?, hread,
            hread']

/-- What is kept of an object. -/
theorem fromAst?_object {fields : List (String × AST)} (h : Admissible (.object fields)) :
    MetaValue.fromAst? (some (.object fields)) = some (.present (normalText (.object fields))) := by
  rw [MetaValue.fromAst?, parse_serializeAstValue h]
  rfl

/-- **`_meta`.**  What a request keeps of it is accepted when signed. -/
theorem signed_metadata {value : Option AST} (hvalue : AdmissibleMember value)
    {metadata : MetaValue} (h : MetaValue.fromAst? value = some metadata) :
    MetaValue.fromSignedAst? metadata.signedAst = some metadata := by
  cases value with
  | none =>
      obtain rfl := Option.some.inj h
      rfl
  | some ast =>
      have hadmissible := hvalue ast rfl
      cases ast with
      | object fields =>
          rw [fromAst?_object hadmissible] at h
          obtain rfl := Option.some.inj h
          rw [MetaValue.signedAst, MetaValue.fromSignedAst?, parse_normalText hadmissible]
          exact if_pos (beq_self_eq_true _)
      | _ => contradiction

end McpSeal.SealV2
