import McpSeal.Data.JsonText
import McpSeal.Data.NatText
import Mathlib.Data.List.Nodup
set_option autoImplicit false

/-!
# Data: compact texts read back (`Lean.Data.Json`)

The parser reads back what `compress` prints of a value in normal form: object
keys in order, and no number with a trailing zero behind its decimal point.
The printer moves leading zeros of a small fraction into an exponent, and the
parser moves them back.
-/

namespace McpSeal.Data.Json

open McpSeal.Data.Json.Parser (Digits digitsValue IntPart EndsValue EndsDigits ReadsValue
  signChars signValue)

/-! ## Strings -/

theorem escapes_escapeAux : Parser.Escapes escapeAux where
  nonempty := by
    intro c
    unfold escapeAux
    dsimp only
    split_ifs <;> simp
  reads := by
    intro c fuel acc tail
    unfold escapeAux
    dsimp only
    split_ifs with hquote hslash hnewline hreturn hplain
    · rw [hquote]
      exact Parser.strCore_escape rfl fuel acc
    · rw [hslash]
      exact Parser.strCore_escape rfl fuel acc
    · rw [hnewline]
      exact Parser.strCore_escape rfl fuel acc
    · rw [hreturn]
      exact Parser.strCore_escape rfl fuel acc
    · exact Parser.strCore_plain hquote hslash hplain.1 fuel acc tail
    · have hmax : c.toNat < 0xd800 ∨ (0xdfff < c.toNat ∧ c.toNat < 0x110000) := c.valid
      have hcontrol : c.toNat < 0x20 := by omega
      have hvalue : c.toNat / 4096 * 4096 + c.toNat % 4096 / 256 * 256 +
          c.toNat % 256 / 16 * 16 + c.toNat % 16 = c.toNat := by omega
      have hread := Parser.escapedChar_long (a := c.toNat / 4096) (b := c.toNat % 4096 / 256)
        (c := c.toNat % 256 / 16) (d := c.toNat % 16) (by omega) (by omega) (by omega)
        (by omega) (by omega) tail
      rw [hvalue, Char.ofNat_toNat] at hread
      exact Parser.strCore_escape hread fuel acc

/-! ## Digits -/

theorem digits_toDigits (n : Nat) : Digits (Nat.toDigits 10 n) := by
  intro c hc
  have hdigit := Nat.isDigit_of_mem_toDigits (by decide) (by decide) hc
  simp only [Char.isDigit, Bool.and_eq_true, decide_eq_true_eq] at hdigit
  exact hdigit

theorem digitsValue_toDigits (n : Nat) : digitsValue (Nat.toDigits 10 n) = n :=
  Nat.ofDigitChars_ten_toDigits

theorem intPart_toDigits (n : Nat) : IntPart (Nat.toDigits 10 n) where
  digits := digits_toDigits n
  first := by
    rcases Nat.eq_zero_or_pos n with rfl | hpos
    · exact ⟨'0', [], rfl, fun _ => rfl⟩
    · obtain ⟨c, rest, hdigits, hone, _⟩ := exists_first_toDigits hpos
      refine ⟨c, rest, hdigits, ?_⟩
      rintro rfl
      exact absurd hone (by decide)

theorem digits_append_digitChar {ds : List Char} (h : Digits ds) {d : Nat} (hd : d < 10) :
    Digits (ds ++ [Nat.digitChar d]) ∧
      digitsValue (ds ++ [Nat.digitChar d]) = 10 * digitsValue ds + d := by
  have hlast := digits_toDigits d
  rw [Nat.toDigits_of_lt_base hd] at hlast
  constructor
  · intro c hc
    rcases List.mem_append.mp hc with hc | hc
    · exact h c hc
    · exact hlast c hc
  · rw [digitsValue, Nat.ofDigitChars_append, Nat.ofDigitChars_cons_digitChar_of_lt_ten hd]
    rfl

/-- A number below `10 ^ w` behind a leading one: its `w` digits, zeros first. -/
theorem exists_padded (w : Nat) {r : Nat} (hr : r < 10 ^ w) :
    ∃ ds, Nat.toDigits 10 (10 ^ w + r) = '1' :: ds ∧ Digits ds ∧ ds.length = w ∧
      digitsValue ds = r := by
  induction w generalizing r with
  | zero =>
      obtain rfl : r = 0 := by omega
      exact ⟨[], rfl, fun _ hc => by contradiction, rfl, rfl⟩
  | succ w ih =>
      have hpow : 10 ^ (w + 1) = 10 * 10 ^ w := Nat.pow_succ'
      obtain ⟨ds, hdigits, hds, hlength, hvalue⟩ := ih (r := r / 10) (by omega)
      have hpos : 0 < 10 ^ w := Nat.pow_pos (by decide)
      have hdiv : (10 ^ (w + 1) + r) / 10 = 10 ^ w + r / 10 := by omega
      have hmod : (10 ^ (w + 1) + r) % 10 = r % 10 := by omega
      have hlast : r % 10 < 10 := by omega
      obtain ⟨hds', hvalue'⟩ := digits_append_digitChar hds hlast
      refine ⟨ds ++ [Nat.digitChar (r % 10)], ?_, hds', ?_, ?_⟩
      · rw [Nat.toDigits_of_base_le (by decide) (by omega), hdiv, hmod, hdigits]
        rfl
      · rw [List.length_append, hlength]
        rfl
      · rw [hvalue', hvalue]
        omega

/-- No zero is stripped from digits of a number that does not end in one. -/
theorem trimmed_padded {w r : Nat} {ds : List Char} (hw : 0 < w) (hr : r % 10 ≠ 0)
    (hdigits : Nat.toDigits 10 (10 ^ w + r) = '1' :: ds) :
    (ds.reverse.dropWhile (· = '0')).reverse = ds := by
  obtain ⟨w, rfl⟩ := Nat.exists_eq_add_one_of_ne_zero (Nat.ne_of_gt hw)
  have hpow : 10 ^ (w + 1) = 10 * 10 ^ w := Nat.pow_succ'
  have hpos : 0 < 10 ^ w := Nat.pow_pos (by decide)
  have hmod : (10 ^ (w + 1) + r) % 10 = r % 10 := by omega
  rw [Nat.toDigits_of_base_le (by decide) (by omega), hmod] at hdigits
  obtain ⟨c, front, hfront⟩ := List.exists_cons_of_ne_nil
    (Nat.toDigits_ne_nil (n := (10 ^ (w + 1) + r) / 10) (b := 10))
  rw [hfront] at hdigits
  obtain ⟨_, hds⟩ := List.cons.inj hdigits
  have hlast : ∀ d : Fin 10, d.val ≠ 0 → d.val.digitChar ≠ '0' := by decide
  have hne : Nat.digitChar (r % 10) ≠ '0' := hlast ⟨r % 10, by omega⟩ hr
  have hds : ds = front ++ [Nat.digitChar (r % 10)] := hds.symm
  rw [hds, List.reverse_append, List.reverse_singleton, List.singleton_append,
    List.dropWhile_cons_of_neg (by simpa using hne)]
  simp

/-! ## Numbers -/

/-- A number without a zero at the end of its fraction, and with no more decimal
places than the parser admits. -/
structure NormalNumber (n : JsonNumber) : Prop where
  last : 0 < n.exponent → n.mantissa % 10 ≠ 0
  places : n.exponent ≤ 2 ^ 64

theorem toList_sign (m : Int) :
    (if m ≥ 0 then "" else "-").toList = signChars (decide (m < 0)) := by
  rcases Int.lt_or_le m 0 with hneg | hpos
  · rw [if_neg (by omega), decide_eq_true hneg]
    rfl
  · rw [if_pos hpos, decide_eq_false (by omega)]
    rfl

theorem signValue_natAbs (m : Int) : signValue (decide (m < 0)) * (m.natAbs : Int) = m := by
  rcases Int.lt_or_le m 0 with hneg | hpos
  · rw [decide_eq_true hneg]
    show -1 * (m.natAbs : Int) = m
    omega
  · rw [decide_eq_false (by omega)]
    show 1 * (m.natAbs : Int) = m
    omega

theorem toList_intRepr (m : Int) :
    m.repr.toList = signChars (decide (m < 0)) ++ Nat.toDigits 10 m.natAbs := by
  rw [Int.repr_eq_if]
  rcases Int.lt_or_le m 0 with hneg | hpos
  · have habs : (-m).toNat = m.natAbs := by omega
    rw [if_neg (by omega), decide_eq_true hneg, habs, String.toList_append, Nat.toList_repr]
    rfl
  · have habs : m.toNat = m.natAbs := by omega
    rw [if_pos hpos, decide_eq_false (by omega), habs, Nat.toList_repr]
    rfl

/-- A whole number. -/
theorem num_repr (m : Int) {tail : List Char} (htail : EndsValue tail) :
    Parser.num (m.repr.toList ++ tail) = .success tail ⟨m, 0⟩ := by
  have hread := Parser.numWithDecimals_int (decide (m < 0)) (intPart_toDigits m.natAbs)
    htail.digits htail.point
  rw [digitsValue_toDigits, signValue_natAbs] at hread
  rw [toList_intRepr, List.append_assoc, Parser.num, Parser.bind_success hread]
  exact Parser.exponent_none htail _

/-- The digits behind the point, `w` of them, as the printer writes them. -/
def fraction (w r : Nat) : List Char :=
  (((10 ^ w + r).repr.toList.drop 1).reverse.dropWhile (· = '0')).reverse

theorem fraction_spec {w r : Nat} (hw : 0 < w) (hr : r < 10 ^ w) (hlast : r % 10 ≠ 0) :
    Digits (fraction w r) ∧ (fraction w r).length = w ∧ digitsValue (fraction w r) = r := by
  obtain ⟨ds, hdigits, hds, hlength, hvalue⟩ := exists_padded w hr
  have hfraction : fraction w r = ds := by
    rw [fraction, Nat.toList_repr, hdigits]
    exact trimmed_padded hw hlast hdigits
  rw [hfraction]
  exact ⟨hds, hlength, hvalue⟩

/-- A number with a fraction of `w` digits. -/
theorem numWithDecimals_fraction (m : Int) {w : Nat} (hw : 0 < w) (hplaces : w ≤ 2 ^ 64)
    (hlast : m % 10 ≠ 0) {tail : List Char} (htail : EndsDigits tail) :
    Parser.numWithDecimals (signChars (decide (m < 0)) ++
        (Nat.toDigits 10 (m.natAbs / 10 ^ w) ++ '.' :: (fraction w (m.natAbs % 10 ^ w) ++ tail))) =
      .success tail ⟨m, w⟩ := by
  have hpos : 0 < 10 ^ w := Nat.pow_pos (by decide)
  have hlast' : m.natAbs % 10 ^ w % 10 ≠ 0 := by
    have hdvd : 10 ∣ 10 ^ w := dvd_pow_self 10 (Nat.ne_of_gt hw)
    rw [Nat.mod_mod_of_dvd _ hdvd]
    omega
  obtain ⟨hfs, hlength, hvalue⟩ := fraction_spec hw (Nat.mod_lt m.natAbs hpos) hlast'
  have hne : fraction w (m.natAbs % 10 ^ w) ≠ [] := by
    intro hnil
    rw [hnil] at hlength
    exact absurd hlength.symm (Nat.ne_of_gt hw)
  have hread := Parser.numWithDecimals_frac (decide (m < 0))
    (intPart_toDigits (m.natAbs / 10 ^ w)) hfs hne (by omega) htail
  have habs : ((m.natAbs / 10 ^ w : Nat) : Int) * (10 ^ w : Nat) + (m.natAbs % 10 ^ w : Nat) =
      (m.natAbs : Int) := by
    exact_mod_cast Nat.div_add_mod' m.natAbs (10 ^ w)
  rw [hlength, hvalue, digitsValue_toDigits, habs, signValue_natAbs] at hread
  exact hread

open JsonNumber (countDigits)

/-- The text of a number with a fraction, for the `w` places printed behind the
point and the exponent. -/
theorem toList_toText (m : Int) {e : Nat} (he : 0 < e) {w : Nat} {exp : Int}
    (hexp : (if 9 + (countDigits m.natAbs : Int) - e < 0 then
      9 + (countDigits m.natAbs : Int) - e else 0) = exp)
    (hw : e - exp.natAbs = w) (hlast : ¬ (m.natAbs % 10 ^ w = 0 ∧ exp = 0)) :
    (JsonNumber.toText ⟨m, e⟩).toList = signChars (decide (m < 0)) ++
      (Nat.toDigits 10 (m.natAbs / 10 ^ w) ++ '.' :: (fraction w (m.natAbs % 10 ^ w) ++
        (if exp = 0 then "" else "e" ++ exp.repr).toList)) := by
  obtain ⟨e, rfl⟩ := Nat.exists_eq_add_one_of_ne_zero (Nat.ne_of_gt he)
  have hpoint : ".".toList = ['.'] := by decide
  simp only [JsonNumber.toText, hexp, hw]
  rw [if_neg hlast]
  simp only [String.toList_append, toList_sign, Nat.toList_repr, String.toList_ofList, hpoint,
    List.append_assoc, List.nil_append, List.cons_append, fraction]

/-- The text of an exponent below zero. -/
theorem toList_exponent {k : Nat} (hk : 0 < k) :
    ("e" ++ (-(k : Int)).repr).toList = 'e' :: '-' :: Nat.toDigits 10 k := by
  have hneg : decide (-(k : Int) < 0) = true := decide_eq_true (by omega)
  have habs : (-(k : Int)).natAbs = k := by omega
  rw [String.toList_append, toList_intRepr, hneg, habs]
  rfl

theorem not_dvd_of_last {m : Int} (hlast : m % 10 ≠ 0) {w : Nat} (hw : 0 < w) :
    m.natAbs % 10 ^ w ≠ 0 := by
  intro hzero
  have hdvd : 10 ∣ m.natAbs := (dvd_pow_self 10 (Nat.ne_of_gt hw)).trans (Nat.dvd_of_mod_eq_zero hzero)
  omega

/-- A fraction with few leading zeros is printed in full. -/
theorem num_fraction {m : Int} {e : Nat} (he : 0 < e) (hplaces : e ≤ 2 ^ 64)
    (hlast : m % 10 ≠ 0) (hfew : e ≤ 9 + countDigits m.natAbs) {tail : List Char}
    (htail : EndsValue tail) :
    Parser.num ((JsonNumber.toText ⟨m, e⟩).toList ++ tail) = .success tail ⟨m, e⟩ := by
  have hexp : (if 9 + (countDigits m.natAbs : Int) - e < 0 then
      9 + (countDigits m.natAbs : Int) - e else 0) = 0 := if_neg (by omega)
  have hread := numWithDecimals_fraction m he hplaces hlast htail.digits
  have hempty : "".toList = [] := by decide
  rw [toList_toText m he hexp rfl (fun h => not_dvd_of_last hlast he h.1), if_pos rfl, hempty,
    Parser.num]
  simp only [List.append_assoc, List.cons_append, List.nil_append]
  exact (Parser.bind_success hread).trans (Parser.exponent_none htail _)

/-- A fraction with many leading zeros is printed with an exponent. -/
theorem num_exponent {m : Int} {e : Nat} (hplaces : e ≤ 2 ^ 64) (hlast : m % 10 ≠ 0)
    (hmany : 9 + countDigits m.natAbs < e) {tail : List Char} (htail : EndsValue tail) :
    Parser.num ((JsonNumber.toText ⟨m, e⟩).toList ++ tail) = .success tail ⟨m, e⟩ := by
  obtain ⟨k, rfl⟩ := Nat.exists_eq_add_of_lt hmany
  have hw : 0 < 9 + countDigits m.natAbs := by omega
  have hexp : (if 9 + (countDigits m.natAbs : Int) - (9 + countDigits m.natAbs + k + 1 : Nat) < 0
      then 9 + (countDigits m.natAbs : Int) - (9 + countDigits m.natAbs + k + 1 : Nat) else 0) =
      -((k + 1 : Nat) : Int) := by
    rw [if_pos (by omega)]
    omega
  have hdigits : EndsDigits ('e' :: '-' :: (Nat.toDigits 10 (k + 1) ++ tail)) := by
    intro c rest heq
    obtain ⟨rfl, _⟩ := List.cons.inj heq
    decide
  have hread := numWithDecimals_fraction m hw (by omega) hlast hdigits
  have hexponent := Parser.exponent_neg (digits_toDigits (k + 1)) Nat.toDigits_ne_nil htail.digits
    ⟨m, 9 + countDigits m.natAbs⟩
  rw [digitsValue_toDigits] at hexponent
  rw [toList_toText m (by omega) hexp (by omega) (fun h => not_dvd_of_last hlast hw h.1),
    if_neg (by omega), toList_exponent (Nat.succ_pos k), Parser.num]
  simp only [List.append_assoc, List.cons_append]
  exact (Parser.bind_success hread).trans hexponent

/-- A printed number starts with its sign or a digit. -/
theorem exists_startsNumber (negative : Bool) (n : Nat) (more : List Char) :
    ∃ c rest, signChars negative ++ (Nat.toDigits 10 n ++ more) = c :: rest ∧
      Parser.StartsNumber c := by
  cases negative with
  | true => exact ⟨'-', _, rfl, Or.inl rfl⟩
  | false =>
      obtain ⟨c, rest, hdigits, _⟩ := (intPart_toDigits n).first
      have hc := digits_toDigits n c (by rw [hdigits]; exact List.mem_cons_self)
      exact ⟨c, rest ++ more, by rw [hdigits]; rfl, Or.inr hc⟩

theorem toText_starts {n : JsonNumber} (h : NormalNumber n) :
    ∃ c rest, n.toText.toList = c :: rest ∧ Parser.StartsNumber c := by
  obtain ⟨m, e⟩ := n
  rcases Nat.eq_zero_or_pos e with rfl | he
  · have hstart := exists_startsNumber (decide (m < 0)) m.natAbs []
    rw [List.append_nil, ← toList_intRepr] at hstart
    exact hstart
  · have hlast := h.last he
    rcases Nat.lt_or_ge (9 + countDigits m.natAbs) e with hmany | hfew
    · have hw : 0 < e - (9 + (countDigits m.natAbs : Int) - e).natAbs := by omega
      rw [toList_toText m he (if_pos (by omega)) rfl (fun h => not_dvd_of_last hlast hw h.1)]
      exact exists_startsNumber _ _ _
    · rw [toList_toText m he (if_neg (by omega)) rfl (fun h => not_dvd_of_last hlast he h.1)]
      exact exists_startsNumber _ _ _

/-- **Numbers.**  A normal number is read back from its text. -/
theorem readsValue_number {n : JsonNumber} (h : NormalNumber n) :
    ReadsValue n.toText.toList (.num n) := by
  have hread : ∀ tail, EndsValue tail → Parser.num (n.toText.toList ++ tail) = .success tail n := by
    intro tail htail
    obtain ⟨m, e⟩ := n
    rcases Nat.eq_zero_or_pos e with rfl | he
    · exact num_repr m htail
    · rcases Nat.lt_or_ge (9 + countDigits m.natAbs) e with hmany | hfew
      · exact num_exponent h.places (h.last he) hmany htail
      · exact num_fraction he h.places (h.last he) hfew htail
  obtain ⟨c, rest, hchars, hstart⟩ := toText_starts h
  rw [hchars] at hread ⊢
  exact Parser.readsValue_num hstart hread

/-! ## Objects in key order -/

/-- A binding behind all others is inserted at the end. -/
theorem insert_last {kvs : List (String × Json)} {k : String} (v : Json)
    (h : ∀ kv ∈ kvs, kv.1 < k) : insert kvs k v = kvs ++ [(k, v)] := by
  induction kvs with
  | nil => rfl
  | cons kv rest ih =>
      obtain ⟨hkv, hrest⟩ := List.forall_mem_cons.mp h
      rw [insert, compare_gt_iff_gt.mpr hkv]
      dsimp only
      rw [ih hrest]
      rfl

/-- Sorted bindings make the object that has them. -/
theorem mkObj_of_sorted {kvs : List (String × Json)} (h : SortedKeys kvs) :
    mkObj kvs = .obj kvs := by
  have hfold : ∀ (front rest : List (String × Json)), SortedKeys (front ++ rest) →
      rest.foldl (fun acc kv => insert acc kv.1 kv.2) front = front ++ rest := by
    intro front rest
    induction rest generalizing front with
    | nil => intro _; simp
    | cons kv rest ih =>
        intro hsorted
        have hlast : ∀ kv' ∈ front, kv'.1 < kv.1 := fun kv' hmem =>
          (List.pairwise_append.mp hsorted).2.2 kv' hmem kv List.mem_cons_self
        have happend : front ++ kv :: rest = front ++ [kv] ++ rest := by simp
        rw [happend] at hsorted ⊢
        rw [List.foldl_cons, insert_last kv.2 hlast, ih _ hsorted]
  rw [mkObj, hfold [] kvs h]
  rfl

theorem insert_cons_lt {k m : String} (h : k < m) (u v : Json) (rest : List (String × Json)) :
    insert ((m, u) :: rest) k v = (k, v) :: (m, u) :: rest := by
  rw [insert, compare_lt_iff_lt.mpr h]

theorem insert_cons_self (k : String) (u v : Json) (rest : List (String × Json)) :
    insert ((k, u) :: rest) k v = (k, v) :: rest := by
  rw [insert, compare_eq_iff_eq.mpr rfl]

theorem insert_cons_gt {k m : String} (h : m < k) (u v : Json) (rest : List (String × Json)) :
    insert ((m, u) :: rest) k v = (m, u) :: insert rest k v := by
  rw [insert, compare_gt_iff_gt.mpr h]

theorem insert_comm_of_lt (kvs : List (String × Json)) {k l : String} (hlt : k < l) (v w : Json) :
    insert (insert kvs k v) l w = insert (insert kvs l w) k v := by
  induction kvs with
  | nil => exact (insert_cons_gt hlt v w []).trans (insert_cons_lt hlt w v []).symm
  | cons kv rest ih =>
      obtain ⟨m, u⟩ := kv
      rcases lt_trichotomy k m with hkm | rfl | hmk
      · rw [insert_cons_lt hkm, insert_cons_gt hlt]
        rcases lt_trichotomy l m with hlm | rfl | hml
        · rw [insert_cons_lt hlm, insert_cons_lt hlt]
        · rw [insert_cons_self, insert_cons_lt hlt]
        · rw [insert_cons_gt hml, insert_cons_lt hkm]
      · rw [insert_cons_self, insert_cons_gt hlt, insert_cons_gt hlt, insert_cons_self]
      · have hml : m < l := hmk.trans hlt
        rw [insert_cons_gt hmk, insert_cons_gt hml, insert_cons_gt hml, insert_cons_gt hmk, ih]

/-- Bindings of two keys are inserted in either order. -/
theorem insert_comm (kvs : List (String × Json)) {k l : String} (hne : k ≠ l) (v w : Json) :
    insert (insert kvs k v) l w = insert (insert kvs l w) k v := by
  rcases lt_or_gt_of_ne hne with hlt | hgt
  · exact insert_comm_of_lt kvs hlt v w
  · exact (insert_comm_of_lt kvs hgt w v).symm

/-- The order of bindings of distinct keys does not matter. -/
theorem mkObj_perm {kvs kvs' : List (String × Json)} (hperm : kvs.Perm kvs')
    (hnodup : (kvs.map Prod.fst).Nodup) : mkObj kvs = mkObj kvs' := by
  have hcomm : ∀ a ∈ kvs, ∀ b ∈ kvs, ∀ acc : List (String × Json),
      insert (insert acc a.1 a.2) b.1 b.2 = insert (insert acc b.1 b.2) a.1 a.2 := by
    intro a ha b hb acc
    by_cases heq : a.1 = b.1
    · rw [List.inj_on_of_nodup_map hnodup ha hb heq]
    · exact insert_comm acc heq a.2 b.2
  rw [mkObj, mkObj, hperm.foldl_eq' hcomm]

/-! ## Values -/

mutual

/-- Values the printer and the parser agree on. -/
def Normal : Json → Prop
  | .num n => NormalNumber n
  | .arr elems => NormalElems elems
  | .obj kvPairs => SortedKeys kvPairs ∧ NormalFields kvPairs
  | _ => True

/-- All elements are normal. -/
def NormalElems : List Json → Prop
  | [] => True
  | e :: es => Normal e ∧ NormalElems es

/-- All bound values are normal. -/
def NormalFields : List (String × Json) → Prop
  | [] => True
  | (_, v) :: kvs => Normal v ∧ NormalFields kvs

end

theorem normalFields_insert {kvPairs : List (String × Json)} (h : NormalFields kvPairs)
    (k : String) {v : Json} (hv : Normal v) : NormalFields (insert kvPairs k v) := by
  induction kvPairs with
  | nil => exact ⟨hv, trivial⟩
  | cons kv rest ih =>
      obtain ⟨l, w⟩ := kv
      unfold insert
      split
      · exact ⟨hv, h⟩
      · exact ⟨hv, h.2⟩
      · exact ⟨h.1, ih h.2⟩

/-- An object built from normal values is in normal form. -/
theorem normal_mkObj {kvs : List (String × Json)} (h : NormalFields kvs) : Normal (mkObj kvs) := by
  have hfold : ∀ (kvs acc : List (String × Json)), NormalFields kvs → NormalFields acc →
      NormalFields (kvs.foldl (fun acc kv => insert acc kv.1 kv.2) acc) := by
    intro kvs
    induction kvs with
    | nil => exact fun _ _ hacc => hacc
    | cons kv rest ih =>
        intro acc hkvs hacc
        exact ih _ hkvs.2 (normalFields_insert hacc kv.1 hkvs.1)
  obtain ⟨kvPairs, hobj, hsorted⟩ := mkObj_sorted kvs
  have hnormal := hfold kvs [] h trivial
  injection hobj with hobj
  rw [hobj] at hnormal
  show Normal (.obj _)
  exact ⟨by rw [hobj]; exact hsorted, by rw [hobj]; exact hnormal⟩

/-- The text of a member. -/
def memberText (kv : String × Json) : List Char :=
  Parser.literal escapeAux kv.1 ++ ':' :: (compress kv.2).toList

theorem toList_compressElems (es : List Json) :
    (compressElems es).toList = Parser.commaList (es.map fun e => (compress e).toList) := by
  have hcomma : ",".toList = [','] := by decide
  induction es with
  | nil => rfl
  | cons e rest ih =>
      cases rest with
      | nil =>
          rw [compressElems, List.map_cons, List.map_nil, Parser.commaList_singleton]
      | cons next rest =>
          rw [compressElems]
          · rw [String.toList_append, String.toList_append, ih, hcomma, List.append_assoc]
            simp only [List.map_cons, Parser.commaList_cons]
            rfl
          · exact List.cons_ne_nil next rest

theorem toList_compressFields (kvs : List (String × Json)) :
    (compressFields kvs).toList = Parser.commaList (kvs.map memberText) := by
  have hcomma : ",".toList = [','] := by decide
  have hcolon : ":".toList = [':'] := by decide
  induction kvs with
  | nil => rfl
  | cons kv rest ih =>
      obtain ⟨k, v⟩ := kv
      have hmember : (renderString k ++ ":" ++ compress v).toList = memberText (k, v) := by
        rw [String.toList_append, String.toList_append, toList_renderString, hcolon,
          List.append_assoc]
        rfl
      cases rest with
      | nil => rw [compressFields, hmember, List.map_cons, List.map_nil, Parser.commaList_singleton]
      | cons next rest =>
          rw [compressFields]
          · rw [String.toList_append, String.toList_append, hmember, ih, hcomma, List.append_assoc]
            simp only [List.map_cons, Parser.commaList_cons]
            rfl
          · exact List.cons_ne_nil next rest

theorem toList_compress_arr (elems : List Json) : (compress (.arr elems)).toList =
    '[' :: (Parser.commaList (elems.map fun e => (compress e).toList) ++ [']']) := by
  rw [compress, String.toList_append, String.toList_append, toList_compressElems]
  rfl

theorem toList_compress_obj (kvPairs : List (String × Json)) : (compress (.obj kvPairs)).toList =
    '\x7b' :: (Parser.commaList (kvPairs.map memberText) ++ ['\x7d']) := by
  rw [compress, String.toList_append, String.toList_append, toList_compressFields]
  rfl

mutual

/-- **Compact texts.**  A value in normal form is read back from its text. -/
theorem readsValue_compress (j : Json) (h : Normal j) : ReadsValue (compress j).toList j := by
  cases j with
  | null => exact Parser.readsValue_null
  | bool b =>
      cases b with
      | true => exact Parser.readsValue_true
      | false => exact Parser.readsValue_false
  | num n => exact readsValue_number h
  | str s =>
      rw [compress, toList_renderString]
      exact Parser.readsValue_str escapes_escapeAux s
  | arr elems =>
      rw [toList_compress_arr]
      exact Parser.readsValue_arr (readsElems elems h)
  | obj kvPairs =>
      rw [toList_compress_obj, ← mkObj_of_sorted h.1]
      exact Parser.readsValue_obj escapes_escapeAux (readsFields kvPairs h.2)

theorem readsElems (es : List Json) (h : NormalElems es) :
    List.Forall₂ ReadsValue (es.map fun e => (compress e).toList) es := by
  cases es with
  | nil => exact .nil
  | cons e rest => exact .cons (readsValue_compress e h.1) (readsElems rest h.2)

theorem readsFields (kvs : List (String × Json)) (h : NormalFields kvs) :
    List.Forall₂ (Parser.ReadsMember escapeAux) (kvs.map memberText) kvs := by
  cases kvs with
  | nil => exact .nil
  | cons kv rest =>
      obtain ⟨k, v⟩ := kv
      exact .cons ⟨_, rfl, readsValue_compress v h.1⟩ (readsFields rest h.2)

end

/-- **Round trip.**  A value in normal form is parsed back from its text. -/
theorem parse_compress {j : Json} (h : Normal j) : parse (compress j) = .ok j :=
  parse_of_readsValue (readsValue_compress j h)

end McpSeal.Data.Json
