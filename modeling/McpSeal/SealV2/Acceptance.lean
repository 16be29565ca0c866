import McpSeal.SealV2.RoundTrip
set_option autoImplicit false

/-!
# SealV2: what the parser accepts (`SealV2/Parser.lean`)

The converse of the round trip.  A text is accepted only if it is the canonical
text of the tree it is read as with blanks put in: no other escape of a
character, no other form of a number, no other separator is let through.
-/

namespace McpSeal.SealV2

open McpSeal.Foundation (Padded Accepts)

/-! ## Escapes -/

theorem toNat_charOfNat {n : Nat} (h : n < 0xd800 ∨ (0xdfff < n ∧ n < 0x110000)) :
    (Char.ofNat n).toNat = n := by
  have hvalid : n.isValidChar := h
  rw [Char.ofNat, dif_pos hvalid]
  rfl

theorem hexVal?_eq_some {c : Char} {d : Nat} (h : hexVal? c = some d) :
    d < 16 ∧ c = hexDigitChar d := by
  have hofNat : Char.ofNat c.toNat = c := Char.ofNat_toNat c
  unfold hexVal? at h
  split at h
  · obtain rfl := Option.some.inj h
    have hvalue : 48 + (c.toNat - 48) = c.toNat := by omega
    rw [hexDigitChar, if_pos (by omega), hvalue, hofNat]
    exact ⟨by omega, rfl⟩
  · split at h
    · obtain rfl := Option.some.inj h
      have hvalue : 87 + (c.toNat - 87) = c.toNat := by omega
      rw [hexDigitChar, if_neg (by omega), hvalue, hofNat]
      exact ⟨by omega, rfl⟩
    · contradiction

/-- Four characters are read as a number only if they are its digits. -/
theorem fromHex4?_eq_some {h1 h2 h3 h4 : Char} {n : Nat} (h : fromHex4? h1 h2 h3 h4 = some n) :
    n < 0x10000 ∧ [h1, h2, h3, h4] = toHex4 n := by
  unfold fromHex4? at h
  split at h
  · rename_i a b c d ha hb hc hd
    obtain rfl := Option.some.inj h
    obtain ⟨ha, rfl⟩ := hexVal?_eq_some ha
    obtain ⟨hb, rfl⟩ := hexVal?_eq_some hb
    obtain ⟨hc, rfl⟩ := hexVal?_eq_some hc
    obtain ⟨hd, rfl⟩ := hexVal?_eq_some hd
    have h1 : (a * 4096 + b * 256 + c * 16 + d) / 4096 % 16 = a := by omega
    have h2 : (a * 4096 + b * 256 + c * 16 + d) / 256 % 16 = b := by omega
    have h3 : (a * 4096 + b * 256 + c * 16 + d) / 16 % 16 = c := by omega
    have h4 : (a * 4096 + b * 256 + c * 16 + d) % 16 = d := by omega
    rw [toHex4, h1, h2, h3, h4]
    exact ⟨by omega, rfl⟩
  · contradiction

theorem escapeChar_short {letter c : Char} (h : unescapeShort? letter = some c) :
    escapeChar c = ['\\', letter] := by
  unfold unescapeShort? at h
  repeat'
    split at h
    · rename_i hletter
      obtain rfl := Option.some.inj h
      rw [hletter]
      rfl
  contradiction

theorem escapeChar_plain {c : Char} (h : isAsciiStringChar c = true) : escapeChar c = [c] := by
  simp only [isAsciiStringChar, Bool.and_eq_true, decide_eq_true_eq, bne_iff_ne] at h
  obtain ⟨⟨hrange, hquote⟩, hslash⟩ := h
  rw [escapeChar, if_neg hquote, if_neg hslash, if_pos hrange]

/-- A character that is neither printable nor has a short escape is written in
groups of four digits. -/
theorem escapeChar_groups {c : Char} (hrange : c.toNat < 0x20 ∨ 0x7e < c.toNat)
    (hshort : c.toNat ≠ 0xa ∧ c.toNat ≠ 0x9 ∧ c.toNat ≠ 0xd ∧ c.toNat ≠ 0x8 ∧ c.toNat ≠ 0xc) :
    escapeChar c =
      if c.toNat < 0x10000 then '\\' :: 'u' :: toHex4 c.toNat
      else ('\\' :: 'u' :: toHex4 (0xd800 + (c.toNat - 0x10000) / 1024)) ++
        ('\\' :: 'u' :: toHex4 (0xdc00 + (c.toNat - 0x10000) % 1024)) := by
  obtain ⟨hn, ht, hr, hb, hf⟩ := hshort
  have hquote : c ≠ '"' := by
    rintro rfl
    exact absurd hrange (by decide)
  have hslash : c ≠ '\\' := by
    rintro rfl
    exact absurd hrange (by decide)
  rw [escapeChar, if_neg hquote, if_neg hslash, if_neg (by omega), if_neg hn, if_neg ht,
    if_neg hr, if_neg hb, if_neg hf]

theorem uEscapeScalarOk_eq_true {n : Nat} (h : uEscapeScalarOk n = true) :
    (n < 0x20 ∨ 0x7e < n) ∧ (n < 0xd800 ∨ (0xdfff < n ∧ n < 0x110000)) ∧
      (n ≠ 0xa ∧ n ≠ 0x9 ∧ n ≠ 0xd ∧ n ≠ 0x8 ∧ n ≠ 0xc) := by
  unfold uEscapeScalarOk shortEscapeLetter? at h
  split_ifs at h <;> first | contradiction | omega

/-- A group of four digits is accepted only where it is the canonical escape. -/
theorem escapeChar_long {n : Nat} (hn : n < 0x10000) (hok : uEscapeScalarOk n = true) :
    escapeChar (Char.ofNat n) = '\\' :: 'u' :: toHex4 n := by
  obtain ⟨hrange, hvalid, hshort⟩ := uEscapeScalarOk_eq_true hok
  have hnat := toNat_charOfNat hvalid
  rw [escapeChar_groups (by rwa [hnat]) (by rwa [hnat]), hnat, if_pos hn]

/-- A surrogate pair is the canonical escape of the scalar it encodes. -/
theorem escapeChar_surrogates {n m : Nat} (hn : 0xd800 ≤ n ∧ n ≤ 0xdbff)
    (hm : 0xdc00 ≤ m ∧ m ≤ 0xdfff) :
    escapeChar (Char.ofNat (0x10000 + (n - 0xd800) * 1024 + (m - 0xdc00))) =
      ('\\' :: 'u' :: toHex4 n) ++ ('\\' :: 'u' :: toHex4 m) := by
  have hnat := toNat_charOfNat (n := 0x10000 + (n - 0xd800) * 1024 + (m - 0xdc00)) (by omega)
  have hhigh : 0xd800 + (0x10000 + (n - 0xd800) * 1024 + (m - 0xdc00) - 0x10000) / 1024 = n := by
    omega
  have hlow : 0xdc00 + (0x10000 + (n - 0xd800) * 1024 + (m - 0xdc00) - 0x10000) % 1024 = m := by
    omega
  rw [escapeChar_groups (by omega) (by omega), hnat, if_neg (by omega), hhigh, hlow]

/-! ## Strings -/

/-- One character more in front of the content of a string. -/
theorem content_cons {acc s : String} {content chars rest : List Char} (c : Char)
    (h : s = acc ++ String.singleton c ++ String.ofList content ∧
      chars = escapeList content ++ '"' :: rest) :
    s = acc ++ String.ofList (c :: content) ∧
      escapeChar c ++ chars = escapeList (c :: content) ++ '"' :: rest := by
  obtain ⟨rfl, rfl⟩ := h
  rw [String.append_assoc, singleton_append_ofList, escapeList, escapeList, List.flatMap_cons,
    List.append_assoc]
  exact ⟨rfl, rfl⟩

/-- **Strings.**  The content of a string is accepted only in its canonical
escapes. -/
theorem parseStringCharsUnchecked_eq_some {acc s : String} {chars rest : List Char}
    (h : parseStringCharsUnchecked acc chars = some (s, rest)) :
    ∃ content, s = acc ++ String.ofList content ∧
      chars = escapeList content ++ '"' :: rest := by
  fun_induction parseStringCharsUnchecked acc chars with
  | case1 acc tail =>
      obtain ⟨rfl, rfl⟩ := Prod.mk.inj (Option.some.inj h)
      exact ⟨[], by simp, rfl⟩
  | case3 acc h1 h2 h3 h4 tail n hhex hok ih =>
      obtain ⟨hn, hdigits⟩ := fromHex4?_eq_some hhex
      obtain ⟨content, hcontent⟩ := ih h
      have hcons := content_cons _ hcontent
      rw [escapeChar_long hn hok, ← hdigits] at hcons
      exact ⟨_, hcons⟩
  | case5 acc h1 h2 h3 h4 n hhigh _ hn k1 k2 k3 k4 tail m hlow hm ih =>
      obtain ⟨_, hdigits⟩ := fromHex4?_eq_some hhigh
      obtain ⟨_, hdigits'⟩ := fromHex4?_eq_some hlow
      obtain ⟨content, hcontent⟩ := ih h
      have hcons := content_cons _ hcontent
      rw [escapeChar_surrogates hn hm, ← hdigits, ← hdigits'] at hcons
      exact ⟨_, hcons⟩
  | case9 acc letter tail _ c hletter ih =>
      obtain ⟨content, hcontent⟩ := ih h
      have hcons := content_cons _ hcontent
      rw [escapeChar_short hletter] at hcons
      exact ⟨_, hcons⟩
  | case11 acc c tail _ _ _ hplain ih =>
      obtain ⟨content, hcontent⟩ := ih h
      have hcons := content_cons _ hcontent
      rw [escapeChar_plain hplain] at hcons
      exact ⟨_, hcons⟩
  | _ => contradiction

theorem parseString_eq_some {chars rest : List Char} {s : String}
    (h : parseString chars = some (s, rest)) : chars = quoted s ++ rest := by
  unfold parseString at h
  split at h
  · rename_i tail
    unfold parseStringChars guardCanonicalStringResult at h
    split at h
    · rename_i value rest' hcontent
      obtain ⟨content, hvalue, rfl⟩ := parseStringCharsUnchecked_eq_some hcontent
      obtain ⟨rfl, rfl⟩ := Prod.mk.inj (Option.some.inj h)
      rw [hvalue]
      simp [quoted]
    · contradiction
  · contradiction

/-! ## Numbers -/

theorem takeDigits_append_eq (chars : List Char) :
    chars = (takeDigits chars).1.toList ++ (takeDigits chars).2 := by
  induction chars with
  | nil => rfl
  | cons c rest ih =>
      rw [takeDigits]
      split
      · dsimp only
        rw [String.toList_append, String.toList_singleton]
        exact congrArg (c :: ·) ih
      · rfl

theorem parseIntegerDigits_eq_some {chars rest : List Char} {digits : String}
    (h : parseIntegerDigits chars = some (digits, rest)) : chars = digits.toList ++ rest := by
  unfold parseIntegerDigits at h
  split at h
  · split at h
    · split at h
      · contradiction
      · obtain ⟨rfl, rfl⟩ := Prod.mk.inj (Option.some.inj h)
        rfl
    · obtain ⟨rfl, rfl⟩ := Prod.mk.inj (Option.some.inj h)
      rfl
  · rename_i c tail _
    split at h
    · obtain ⟨rfl, rfl⟩ := Prod.mk.inj (Option.some.inj h)
      rw [String.toList_append, String.toList_singleton]
      exact congrArg (c :: ·) (takeDigits_append_eq tail)
    · contradiction
  · contradiction

theorem parseFraction_eq_some {chars rest : List Char} {frac : Option String}
    (h : parseFraction chars = some (frac, rest)) : chars = fractionText frac ++ rest := by
  unfold parseFraction at h
  split at h
  · rename_i tail
    dsimp only at h
    split at h
    · split at h
      · contradiction
      · obtain ⟨rfl, rfl⟩ := Prod.mk.inj (Option.some.inj h)
        exact congrArg ('.' :: ·) (takeDigits_append_eq tail)
    · contradiction
  · obtain ⟨rfl, rfl⟩ := Prod.mk.inj (Option.some.inj h)
    rfl

/-- **Numbers.**  A number is accepted only in its canonical form. -/
theorem parseNumber_eq_some {chars rest : List Char} {ast : AST}
    (h : parseNumber chars = some (ast, rest)) : chars = text ast ++ rest := by
  obtain ⟨h, _⟩ := guardCanonicalResult_eq_some.mp h
  unfold parseNumberUnchecked at h
  split at h
  rename_i negative digits heq
  have hsign : chars = (if negative then ['-'] else []) ++ digits := by
    split at heq
    all_goals
      obtain ⟨rfl, rfl⟩ := Prod.mk.inj heq
      rfl
  split at h
  · contradiction
  · rename_i intDigits afterInt hint
    split at h
    · contradiction
    · rename_i frac tail hfrac
      split at h
      · contradiction
      · obtain ⟨rfl, rfl⟩ := Prod.mk.inj (Option.some.inj h)
        rw [hsign, parseIntegerDigits_eq_some hint, parseFraction_eq_some hfrac, text,
          serializeAstValue, serializeDecimal_toList, List.append_assoc, List.append_assoc]

/-! ## Values -/

theorem parseLiteral_eq_some {literal chars rest : List Char} {value ast : AST}
    (h : parseLiteral literal value chars = some (ast, rest)) :
    ast = value ∧ chars = literal ++ rest := by
  unfold parseLiteral at h
  split at h
  · rename_i hliteral
    obtain ⟨rfl, rfl⟩ := Prod.mk.inj (Option.some.inj h)
    have hfront := eq_of_beq hliteral
    refine ⟨rfl, ?_⟩
    have hchars := List.take_append_drop literal.length chars
    rw [hfront] at hchars
    exact hchars.symm
  · contradiction

theorem padded_of_skipWs {text chars : List Char} (h : Padded isWs text (skipWs chars)) :
    Padded isWs text chars := by
  induction chars with
  | nil => exact h
  | cons c rest ih =>
      rw [skipWs] at h
      split at h
      · rename_i hc
        exact .skip hc (ih h)
      · exact h

theorem skipWs_skipWs (chars : List Char) : skipWs (skipWs chars) = skipWs chars := by
  induction chars with
  | nil => rfl
  | cons c rest ih =>
      by_cases hc : isWs c = true
      · rw [skipWs, if_pos hc, ih]
      · rw [skipWs, if_neg hc, skipWs, if_neg hc]

/-- What an array call accepts: items behind those read so far, and the closing
bracket; at least one item where the bracket does not come first. -/
def AcceptsArray (fuel : Nat) : Prop :=
  ∀ acc chars ast rest, parseArrayFuelUnchecked fuel acc chars = some (ast, rest) →
    ∃ items, ast = .array (acc.reverse ++ items) ∧
      Padded isWs (itemsText items ++ ']' :: rest) chars ∧
      ((∀ tail, skipWs chars ≠ ']' :: tail) → items ≠ [])

/-- What an object call accepts, likewise. -/
def AcceptsObject (fuel : Nat) : Prop :=
  ∀ acc chars ast rest, parseObjectFuelUnchecked fuel acc chars = some (ast, rest) →
    ∃ fields, ast = .object (acc.reverse ++ fields) ∧
      Padded isWs (fieldsText fields ++ '}' :: rest) chars ∧
      ((∀ tail, skipWs chars ≠ '}' :: tail) → fields ≠ [])

/-- A value call accepts what its array and object calls do. -/
theorem acceptsValue_step {fuel : Nat} (harray : AcceptsArray fuel)
    (hobject : AcceptsObject fuel) :
    Accepts isWs (parseValueFuelUnchecked (fuel + 1)) text := by
  intro chars ast rest h
  refine padded_of_skipWs ?_
  rw [parseValueFuelUnchecked] at h
  split at h
  · contradiction
  · obtain ⟨rfl, heq⟩ := parseLiteral_eq_some h
    rw [heq]
    exact Padded.refl isWs _
  · obtain ⟨rfl, heq⟩ := parseLiteral_eq_some h
    rw [heq]
    exact Padded.refl isWs _
  · obtain ⟨rfl, heq⟩ := parseLiteral_eq_some h
    rw [heq]
    exact Padded.refl isWs _
  · split at h
    · rename_i s tail hstring
      obtain ⟨rfl, rfl⟩ := Prod.mk.inj (Option.some.inj h)
      rw [text_string, parseString_eq_some hstring]
      exact Padded.refl isWs _
    · contradiction
  · rename_i tail heq
    obtain ⟨items, rfl, hpadded, _⟩ := harray _ _ _ _ h
    rw [heq, text_array, List.cons_append, List.append_assoc]
    exact .keep '[' (padded_of_skipWs hpadded)
  · rename_i tail heq
    obtain ⟨fields, rfl, hpadded, _⟩ := hobject _ _ _ _ h
    rw [heq, text_object, List.cons_append, List.append_assoc]
    exact .keep '{' (padded_of_skipWs hpadded)
  · rw [parseNumber_eq_some h]
    exact Padded.refl isWs _
  · split at h
    · rw [parseNumber_eq_some h]
      exact Padded.refl isWs _
    · contradiction

/-- A separator or bracket behind blanks, and what follows it. -/
theorem padded_next {c : Char} {text tail chars : List Char} (hnext : skipWs chars = c :: tail)
    (h : Padded isWs text tail) : Padded isWs (c :: text) chars := by
  refine padded_of_skipWs ?_
  rw [hnext]
  exact .keep c h

/-- An array call accepts what its value call and the next array call do. -/
theorem acceptsArray_step {fuel : Nat} (hvalue : Accepts isWs (parseValueFuelUnchecked fuel) text)
    (harray : AcceptsArray fuel) : AcceptsArray (fuel + 1) := by
  intro acc chars ast rest h
  rw [parseArrayFuelUnchecked] at h
  split at h
  · rename_i tail hclose
    dsimp only at h
    split at h
    · obtain ⟨rfl, rfl⟩ := Prod.mk.inj (Option.some.inj h)
      refine ⟨[], by rw [List.append_nil], padded_next hclose (Padded.refl isWs _), ?_⟩
      exact fun hopen => absurd hclose (hopen _)
    · contradiction
  · split at h
    · contradiction
    · rename_i value afterValue hread
      have hfirst := padded_of_skipWs (hvalue _ _ _ hread)
      split at h
      · rename_i afterComma hcomma
        split at h
        · contradiction
        · rename_i hopen
          split at h
          · obtain ⟨items, rfl, hitems, hne⟩ := harray _ _ _ _ h
            obtain ⟨next, more, rfl⟩ := List.exists_cons_of_ne_nil (hne (by rwa [skipWs_skipWs]))
            refine ⟨value :: next :: more, by simp, ?_, fun _ => List.cons_ne_nil _ _⟩
            have hafter := padded_next hcomma (padded_of_skipWs hitems)
            rw [itemsText_cons, List.append_assoc]
            exact (hafter.append_left (text value)).trans hfirst
          · contradiction
      · rename_i afterClose hclose
        dsimp only at h
        split at h
        · obtain ⟨rfl, rfl⟩ := Prod.mk.inj (Option.some.inj h)
          refine ⟨[value], by simp, ?_, fun _ => List.cons_ne_nil _ _⟩
          have hafter := padded_next hclose (Padded.refl isWs _)
          exact (hafter.append_left (text value)).trans hfirst
        · contradiction
      · contradiction

/-- A member and what follows it. -/
theorem padded_member {key : String} {value : AST}
    {afterKey afterColon afterValue chars tail : List Char}
    (hkey : skipWs chars = quoted key ++ afterKey) (hcolon : skipWs afterKey = ':' :: afterColon)
    (hvalue : Padded isWs (text value ++ afterValue) afterColon)
    (htail : Padded isWs tail afterValue) :
    Padded isWs (quoted key ++ ':' :: (text value ++ tail)) chars := by
  have hcolon' := padded_next hcolon ((htail.append_left (text value)).trans hvalue)
  refine padded_of_skipWs ?_
  rw [hkey]
  exact hcolon'.append_left (quoted key)

/-- An object call accepts what its value call and the next object call do. -/
theorem acceptsObject_step {fuel : Nat}
    (hvalue : Accepts isWs (parseValueFuelUnchecked fuel) text)
    (hobject : AcceptsObject fuel) : AcceptsObject (fuel + 1) := by
  intro acc chars ast rest h
  rw [parseObjectFuelUnchecked] at h
  split at h
  · rename_i tail hclose
    dsimp only at h
    split at h
    · obtain ⟨rfl, rfl⟩ := Prod.mk.inj (Option.some.inj h)
      refine ⟨[], by rw [List.append_nil], padded_next hclose (Padded.refl isWs _), ?_⟩
      exact fun hopen => absurd hclose (hopen _)
    · contradiction
  · split at h
    · contradiction
    · rename_i key afterKey hstring
      have hkey := parseString_eq_some hstring
      split at h
      · contradiction
      · split at h
        · rename_i afterColon hcolon
          split at h
          · contradiction
          · rename_i value afterValue hread
            have hmember := hvalue _ _ _ hread
            split at h
            · rename_i afterComma hcomma
              split at h
              · contradiction
              · rename_i hopen
                split at h
                · obtain ⟨fields, rfl, hfields, hne⟩ := hobject _ _ _ _ h
                  obtain ⟨next, more, rfl⟩ :=
                    List.exists_cons_of_ne_nil (hne (by rwa [skipWs_skipWs]))
                  refine ⟨(key, value) :: next :: more, by simp, ?_,
                    fun _ => List.cons_ne_nil _ _⟩
                  have hafter := padded_next hcomma (padded_of_skipWs hfields)
                  rw [fieldsText_cons, List.append_assoc, List.cons_append, List.append_assoc]
                  exact padded_member hkey hcolon hmember hafter
                · contradiction
            · rename_i afterClose hclose
              dsimp only at h
              split at h
              · obtain ⟨rfl, rfl⟩ := Prod.mk.inj (Option.some.inj h)
                refine ⟨[(key, value)], by simp, ?_, fun _ => List.cons_ne_nil _ _⟩
                have hafter := padded_next hclose (Padded.refl isWs _)
                rw [fieldsText_singleton, List.append_assoc, List.cons_append]
                exact padded_member hkey hcolon hmember hafter
              · contradiction
            · contradiction
        · contradiction

/-- The three calls accept canonical texts only, at every fuel. -/
theorem accepts_fuel (fuel : Nat) :
    Accepts isWs (parseValueFuelUnchecked fuel) text ∧ AcceptsArray fuel ∧ AcceptsObject fuel := by
  induction fuel with
  | zero =>
      refine ⟨?_, ?_, ?_⟩
      · intro chars ast rest h
        rw [parseValueFuelUnchecked] at h
        contradiction
      · intro acc chars ast rest h
        rw [parseArrayFuelUnchecked] at h
        contradiction
      · intro acc chars ast rest h
        rw [parseObjectFuelUnchecked] at h
        contradiction
  | succ fuel ih =>
      obtain ⟨hvalue, harray, hobject⟩ := ih
      exact ⟨acceptsValue_step harray hobject, acceptsArray_step hvalue harray,
        acceptsObject_step hvalue hobject⟩

/-! ## Documents -/

/-- **Acceptance.**  A text is accepted only if it is the canonical text of the
tree it is read as, with blanks put in. -/
theorem padded_of_parse {raw : RawBytes} {ast : AST} (h : parse raw = some ast) :
    Padded isWs (text ast) raw.toList := by
  unfold parse at h
  dsimp only at h
  split at h
  · rename_i found rest hfound
    obtain ⟨hread, _⟩ := guardCanonicalResult_eq_some.mp hfound
    have hvalue := (accepts_fuel _).1 _ _ _ hread
    split at h
    · rename_i hend
      split at h
      · obtain rfl := Option.some.inj h
        have hrest : Padded isWs [] rest := by
          refine padded_of_skipWs ?_
          rw [hend]
          exact .nil
        have htext := (hrest.append_left (text found)).trans hvalue
        rwa [List.append_nil] at htext
      · contradiction
    · contradiction
  · contradiction

/-- A text without blanks is accepted only if it is canonical. -/
theorem eq_serializeAstValue_of_parse {raw : RawBytes} {ast : AST} (h : parse raw = some ast)
    (hblanks : ∀ c ∈ raw.toList, isWs c = false) : raw = serializeAstValue ast :=
  String.toList_inj.mp ((padded_of_parse h).eq_of_no_blank hblanks)

/-- **One text for a tree.**  Among the texts without blanks, those that are accepted are
the canonical texts of the canonical trees, each read as its own tree. -/
theorem parse_eq_some_iff {raw : RawBytes} (hblanks : ∀ c ∈ raw.toList, isWs c = false)
    {ast : AST} : parse raw = some ast ↔ IsCanonical ast ∧ raw = serializeAstValue ast := by
  constructor
  · exact fun h => ⟨parse_canonical h, eq_serializeAstValue_of_parse h hblanks⟩
  · rintro ⟨hcanonical, rfl⟩
    exact parse_serializeAst ⟨ast, hcanonical⟩

theorem parse_eq_some_iff_sample :
    parse "\x7b\"n\":-1.25,\"s\":\"a\"\x7d" = some (.object
      [("n", .number { negative := true, intDigits := "1", fracDigits := some "25" }),
        ("s", .string "a")]) := by
  have hblanks : ("\x7b\"n\":-1.25,\"s\":\"a\"\x7d".toList.all fun c => !isWs c) = true := by
    decide +kernel
  refine (parse_eq_some_iff fun c hc => ?_).mpr ⟨by rfl, by rfl⟩
  simpa using List.all_eq_true.mp hblanks c hc

/-- No accepted text is shorter than the canonical one. -/
theorem length_text_le_of_parse {raw : RawBytes} {ast : AST} (h : parse raw = some ast) :
    (text ast).length ≤ raw.toList.length :=
  (padded_of_parse h).length_le

end McpSeal.SealV2
