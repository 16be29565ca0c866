import McpSeal.Data.JsonParser
import McpSeal.Foundation.Scanner
import Mathlib.Data.Nat.Digits.Defs
import Mathlib.Tactic.IntervalCases
set_option autoImplicit false

/-!
# Data: texts the JSON parser reads (`Lean.Data.Json.Parser`)

For each kind of value, a text without blanks that the parser reads as the value
in front of every tail a value may stand before.  Strings are read for every way
of writing their characters that is read one character at a time, so that the
results serve both the library's own writer and the canonical serializer.
-/

namespace McpSeal.Data.Json.Parser

/-! ## Steps of the monad -/

theorem bind_success {α β : Type} {p : Parser α} {g : α → Parser β} {it rest : List Char}
    {a : α} (h : p it = .success rest a) : (p >>= g) it = g a rest := by
  simp only [bind, h]

theorem lookahead_success {p : Char → Bool} {c : Char} (h : p c = true) (desc : String)
    (rest : List Char) : lookahead p desc (c :: rest) = .success (c :: rest) () := by
  rw [lookahead, bind_success (a := c) rfl, if_pos h]
  rfl

/-- Blanks a value may be followed by. -/
def isBlank (c : Char) : Bool :=
  c = '\t' || c = '\n' || c = '\r' || c = ' '

/-- Nothing is skipped before a character that is no blank. -/
theorem ws_cons {c : Char} (h : isBlank c = false) (rest : List Char) :
    ws (c :: rest) = .success (c :: rest) () := by
  simp only [isBlank] at h
  simp only [ws, List.dropWhile_cons, h]
  rfl

/-- Where a value may end: the end of the input, or a separator or bracket. -/
def EndsValue (tail : List Char) : Prop :=
  ∀ c rest, tail = c :: rest → c = ',' ∨ c = ']' ∨ c = '}'

theorem EndsValue.ws {tail : List Char} (h : EndsValue tail) :
    Parser.ws tail = .success tail () := by
  cases tail with
  | nil => rfl
  | cons c rest =>
      refine ws_cons ?_ rest
      rcases h c rest rfl with rfl | rfl | rfl <;> rfl

/-! ## Strings -/

theorem hexChar_digitChar {d : Nat} (h : d < 16) (rest : List Char) :
    hexChar (Nat.digitChar d :: rest) = .success rest d := by
  interval_cases d <;> rfl

/-- A `u` escape reads four hex digits, and looks on after a high surrogate. -/
theorem escapedChar_u (it : List Char) :
    escapedChar ('u' :: it) = (do
      let u1 ← hexChar
      let u2 ← hexChar
      let u3 ← hexChar
      let u4 ← hexChar
      let val := u1 * 4096 + u2 * 256 + u3 * 16 + u4
      if val < 0xD800 then pure (Char.ofNat val)
      else if val < 0xE000 then
        if val < 0xDC00 then attemptOr (finishSurrogatePair val) '\ufffd'
        else pure '\ufffd'
      else pure (Char.ofNat val) : Parser Char) it := rfl

/-- Four hex digits outside the surrogates are read as their character. -/
theorem escapedChar_long {a b c d : Nat} (ha : a < 16) (hb : b < 16) (hc : c < 16)
    (hd : d < 16) (hscalar : a * 4096 + b * 256 + c * 16 + d < 0xD800 ∨
      0xE000 ≤ a * 4096 + b * 256 + c * 16 + d) (rest : List Char) :
    escapedChar ('u' :: Nat.digitChar a :: Nat.digitChar b :: Nat.digitChar c ::
        Nat.digitChar d :: rest) =
      .success rest (Char.ofNat (a * 4096 + b * 256 + c * 16 + d)) := by
  rw [escapedChar_u, bind_success (hexChar_digitChar ha _),
    bind_success (hexChar_digitChar hb _), bind_success (hexChar_digitChar hc _),
    bind_success (hexChar_digitChar hd _)]
  rcases hscalar with hlow | hhigh
  · rw [if_pos hlow]
    rfl
  · rw [if_neg (by omega), if_neg (by omega)]
    rfl

/-- A surrogate pair is read as the scalar it encodes. -/
theorem escapedChar_pair {a b c d : Nat} (ha : a < 16) (hb : b < 16) (hc : c < 16)
    (hd : d < 16) (hhigh : 0xD800 ≤ a * 4096 + b * 256 + c * 16 + d ∧
      a * 4096 + b * 256 + c * 16 + d < 0xDC00) {e f g : Nat} (he : e < 16) (hf : f < 16)
    (hg : g < 16) (hlow : 0xC00 ≤ e * 256 + f * 16 + g) (rest : List Char) :
    escapedChar ('u' :: Nat.digitChar a :: Nat.digitChar b :: Nat.digitChar c ::
        Nat.digitChar d :: '\\' :: 'u' :: 'd' :: Nat.digitChar e :: Nat.digitChar f ::
        Nat.digitChar g :: rest) =
      .success rest (Char.ofNat ((a * 4096 + b * 256 + c * 16 + d) % 1024 * 1024 +
        (e * 256 + f * 16 + g) % 1024 + 0x10000)) := by
  have hpair : finishSurrogatePair (a * 4096 + b * 256 + c * 16 + d)
      ('\\' :: 'u' :: 'd' :: Nat.digitChar e :: Nat.digitChar f :: Nat.digitChar g :: rest) =
      .success rest (Char.ofNat ((a * 4096 + b * 256 + c * 16 + d) % 1024 * 1024 +
        (e * 256 + f * 16 + g) % 1024 + 0x10000)) := by
    unfold finishSurrogatePair
    rw [bind_success (a := '\\') rfl, if_neg (by decide), bind_success (a := 'u') rfl,
      if_neg (by decide), bind_success (a := 'd') rfl, if_neg (by decide),
      bind_success (hexChar_digitChar he _), bind_success (hexChar_digitChar hf _),
      bind_success (hexChar_digitChar hg _), if_neg (by omega)]
    rfl
  rw [escapedChar_u, bind_success (hexChar_digitChar ha _),
    bind_success (hexChar_digitChar hb _), bind_success (hexChar_digitChar hc _),
    bind_success (hexChar_digitChar hd _), if_neg (by omega), if_pos (by omega),
    if_pos (by omega), attemptOr, hpair]

/-- A plain character of a string stands for itself. -/
theorem strCore_plain {c : Char} (hquote : c ≠ '"') (hslash : c ≠ '\\')
    (hcontrol : 0x20 ≤ c.toNat) (fuel : Nat) (acc : String) (tail : List Char) :
    strCore (fuel + 1) acc (c :: tail) = strCore fuel (acc.push c) tail := by
  have hmax : c.toNat ≤ 0x10ffff := by
    have hvalid : c.toNat < 0xd800 ∨ (0xdfff < c.toNat ∧ c.toNat < 0x110000) := c.valid
    omega
  rw [strCore, bind_success (a := c) rfl, if_neg hquote, bind_success (a := c) rfl,
    if_neg hslash, if_pos ⟨hcontrol, hmax⟩]

/-- An escape of a string stands for the character it is read as. -/
theorem strCore_escape {it tail : List Char} {c : Char} (h : escapedChar it = .success tail c)
    (fuel : Nat) (acc : String) :
    strCore (fuel + 1) acc ('\\' :: it) = strCore fuel (acc.push c) tail := by
  rw [strCore, bind_success (a := '\\') rfl, if_neg (by decide), bind_success (a := '\\') rfl,
    if_pos rfl, bind_success h]

theorem strCore_close (fuel : Nat) (acc : String) (tail : List Char) :
    strCore (fuel + 1) acc ('"' :: tail) = .success tail acc := by
  rw [strCore, bind_success (a := '"') rfl, if_pos rfl, bind_success (a := ()) rfl]
  rfl

/-- A way to write characters that the parser reads one at a time. -/
structure Escapes (esc : Char → List Char) : Prop where
  nonempty : ∀ c, esc c ≠ []
  reads : ∀ (c : Char) (fuel : Nat) (acc : String) (tail : List Char),
    strCore (fuel + 1) acc (esc c ++ tail) = strCore fuel (acc.push c) tail

theorem Escapes.length_le {esc : Char → List Char} (h : Escapes esc) (chars : List Char) :
    chars.length ≤ (chars.flatMap esc).length := by
  induction chars with
  | nil => exact Nat.zero_le _
  | cons c rest ih =>
      have hpos : 0 < (esc c).length := List.length_pos_iff.mpr (h.nonempty c)
      rw [List.flatMap_cons, List.length_append, List.length_cons]
      omega

theorem Escapes.strCore {esc : Char → List Char} (h : Escapes esc) (chars : List Char)
    {fuel : Nat} (hfuel : chars.length < fuel) (acc : String) (tail : List Char) :
    Parser.strCore fuel acc (chars.flatMap esc ++ '"' :: tail) =
      .success tail (acc ++ String.ofList chars) := by
  induction chars generalizing fuel acc with
  | nil =>
      obtain ⟨fuel, rfl⟩ := Nat.exists_eq_add_one_of_ne_zero (Nat.ne_of_gt hfuel)
      rw [List.flatMap_nil, List.nil_append, strCore_close]
      simp
  | cons c rest ih =>
      obtain ⟨fuel, rfl⟩ := Nat.exists_eq_add_one_of_ne_zero (Nat.ne_of_gt (by omega : 0 < fuel))
      have hrest : rest.length < fuel := Nat.lt_of_succ_lt_succ hfuel
      have hacc : acc.push c ++ String.ofList rest = acc ++ String.ofList (c :: rest) := by
        rw [← String.toList_inj]
        simp
      rw [List.flatMap_cons, List.append_assoc, h.reads, ih hrest, hacc]

/-- **Strings.**  A string is read back however its characters are written. -/
theorem Escapes.str {esc : Char → List Char} (h : Escapes esc) (s : String) (tail : List Char) :
    Parser.str (s.toList.flatMap esc ++ '"' :: tail) = .success tail s := by
  have hfuel : s.toList.length < (s.toList.flatMap esc ++ '"' :: tail).length + 1 := by
    have hlength := h.length_le s.toList
    rw [List.length_append, List.length_cons]
    omega
  rw [Parser.str, h.strCore s.toList hfuel]
  simp

/-! ## Numbers -/

/-- What follows does not go on with the digits. -/
def EndsDigits (tail : List Char) : Prop :=
  ∀ c rest, tail = c :: rest → ¬ ('0' ≤ c ∧ c ≤ '9')

/-- A list of decimal digits. -/
def Digits (ds : List Char) : Prop :=
  ∀ c ∈ ds, '0' ≤ c ∧ c ≤ '9'

/-- The number some digits denote. -/
def digitsValue (ds : List Char) : Nat :=
  Nat.ofDigitChars 10 ds 0

theorem natCoreNumDigits_append {ds tail : List Char} (hds : Digits ds)
    (htail : EndsDigits tail) (acc n : Nat) :
    natCoreNumDigits acc n (ds ++ tail) =
      .success tail (Nat.ofDigitChars 10 ds acc, n + ds.length) := by
  induction ds generalizing acc n with
  | nil =>
      cases tail with
      | nil => rfl
      | cons c rest =>
          rw [List.nil_append, natCoreNumDigits, if_neg (htail c rest rfl)]
          rfl
  | cons d ds ih =>
      obtain ⟨hd, hds⟩ := List.forall_mem_cons.mp hds
      rw [List.cons_append, natCoreNumDigits, if_pos hd, ih hds, Nat.ofDigitChars_cons,
        List.length_cons, Nat.add_right_comm, Nat.add_assoc]

theorem natCore_append {ds tail : List Char} (hds : Digits ds) (htail : EndsDigits tail) :
    natCore 0 (ds ++ tail) = .success tail (digitsValue ds) := by
  rw [natCore, bind_success (natCoreNumDigits_append hds htail 0 0)]
  rfl

/-- The integer part of a number: `0`, or digits that do not start with it. -/
structure IntPart (ds : List Char) : Prop where
  digits : Digits ds
  first : ∃ c rest, ds = c :: rest ∧ (c = '0' → rest = [])

theorem one_le_of_digit {c : Char} (h : '0' ≤ c) (hzero : c ≠ '0') : '1' ≤ c := by
  have hlt : '0'.toNat < c.toNat := by
    refine Nat.lt_of_le_of_ne h ?_
    intro heq
    exact hzero (Char.toNat_inj.mp heq.symm)
  exact hlt

theorem nat_append {ds tail : List Char} (hds : IntPart ds) (htail : EndsDigits tail) :
    nat (ds ++ tail) = .success tail (digitsValue ds) := by
  obtain ⟨c, rest, rfl, hzero⟩ := hds.first
  obtain ⟨hc, _⟩ := List.forall_mem_cons.mp hds.digits
  rw [nat, List.cons_append, bind_success (a := c) rfl]
  by_cases h : c = '0'
  · obtain rfl := hzero h
    subst h
    rfl
  · have hfirst : (decide ('1' ≤ c) && decide (c ≤ '9')) = true := by
      simp [one_le_of_digit hc.1 h, hc.2]
    rw [if_neg h, natNonZero, bind_success (lookahead_success hfirst _ _)]
    exact natCore_append hds.digits htail

/-- The minus sign of a number, if it has one. -/
def signChars (negative : Bool) : List Char :=
  if negative then ['-'] else []

/-- The factor a sign stands for. -/
def signValue (negative : Bool) : Int :=
  if negative then -1 else 1

theorem numSign_append (negative : Bool) {c : Char} (hc : c ≠ '-') (tail : List Char) :
    numSign (signChars negative ++ c :: tail) = .success (c :: tail) (signValue negative) := by
  cases negative with
  | true => rfl
  | false =>
      show numSign (c :: tail) = _
      rw [numSign, bind_success (a := c) rfl, if_neg hc]
      rfl

theorem IntPart.sign {ds : List Char} (h : IntPart ds) (negative : Bool) (tail : List Char) :
    numSign (signChars negative ++ (ds ++ tail)) = .success (ds ++ tail) (signValue negative) := by
  obtain ⟨c, rest, rfl, _⟩ := h.first
  obtain ⟨hc, _⟩ := List.forall_mem_cons.mp h.digits
  refine numSign_append negative ?_ (rest ++ tail)
  rintro rfl
  exact absurd hc.1 (by decide)

/-- An integer, where no fraction follows. -/
theorem numWithDecimals_int (negative : Bool) {ds tail : List Char} (hds : IntPart ds)
    (htail : EndsDigits tail) (hpoint : ∀ c rest, tail = c :: rest → c ≠ '.') :
    numWithDecimals (signChars negative ++ (ds ++ tail)) =
      .success tail (JsonNumber.fromInt (signValue negative * digitsValue ds)) := by
  rw [numWithDecimals, bind_success (hds.sign negative tail),
    bind_success (nat_append hds htail), bind_success (a := tail.isEmpty) rfl]
  cases tail with
  | nil => rfl
  | cons c rest =>
      show (peek! >>= _) _ = _
      rw [bind_success (a := c) rfl, if_neg (hpoint c rest rfl)]
      rfl

theorem lookahead_digit {ds : List Char} (hds : Digits ds) (hne : ds ≠ []) (desc : String)
    (tail : List Char) :
    lookahead (fun c => '0' ≤ c && c ≤ '9') desc (ds ++ tail) = .success (ds ++ tail) () := by
  obtain ⟨c, rest, rfl⟩ := List.exists_cons_of_ne_nil hne
  obtain ⟨hc, _⟩ := List.forall_mem_cons.mp hds
  refine lookahead_success ?_ desc (rest ++ tail)
  simpa using hc

theorem natNumDigits_append {ds tail : List Char} (hds : Digits ds) (hne : ds ≠ [])
    (htail : EndsDigits tail) :
    natNumDigits (ds ++ tail) = .success tail (digitsValue ds, ds.length) := by
  rw [natNumDigits, bind_success (lookahead_digit hds hne _ tail),
    natCoreNumDigits_append hds htail, Nat.zero_add]
  rfl

theorem natMaybeZero_append {ds tail : List Char} (hds : Digits ds) (hne : ds ≠ [])
    (htail : EndsDigits tail) :
    natMaybeZero (ds ++ tail) = .success tail (digitsValue ds) := by
  rw [natMaybeZero, bind_success (lookahead_digit hds hne _ tail)]
  exact natCore_append hds htail

/-- What stands behind the point decides. -/
theorem numWithDecimals_point (negative : Bool) {ds : List Char} (hds : IntPart ds)
    (more : List Char) :
    numWithDecimals (signChars negative ++ (ds ++ '.' :: more)) = (do
      let (n, d) ← natNumDigits
      if d > 2 ^ 64 then fail "too many decimals" else
      pure ⟨signValue negative * (digitsValue ds * (10 ^ d : Nat) + n), d⟩ : Parser JsonNumber)
      more := by
  have hpoint : EndsDigits ('.' :: more) := by
    intro c rest heq
    obtain ⟨rfl, _⟩ := List.cons.inj heq
    decide
  rw [numWithDecimals, bind_success (hds.sign negative _), bind_success (nat_append hds hpoint),
    bind_success (a := false) rfl]
  show (peek! >>= _) _ = _
  rw [bind_success (a := '.') rfl, if_pos rfl, bind_success (a := ()) rfl]

/-- A decimal fraction. -/
theorem numWithDecimals_frac (negative : Bool) {ds fs tail : List Char} (hds : IntPart ds)
    (hfs : Digits fs) (hne : fs ≠ []) (hlength : fs.length ≤ 2 ^ 64) (htail : EndsDigits tail) :
    numWithDecimals (signChars negative ++ (ds ++ '.' :: (fs ++ tail))) =
      .success tail ⟨signValue negative *
        (digitsValue ds * (10 ^ fs.length : Nat) + digitsValue fs), fs.length⟩ := by
  rw [numWithDecimals_point negative hds, bind_success (natNumDigits_append hfs hne htail)]
  show (if fs.length > 2 ^ 64 then _ else _ : Parser JsonNumber) _ = _
  rw [if_neg (by omega)]
  rfl

/-- A number without exponent. -/
theorem exponent_none {tail : List Char} (h : EndsValue tail) (value : JsonNumber) :
    exponent value tail = .success tail value := by
  rw [exponent, bind_success (a := tail.isEmpty) rfl]
  cases tail with
  | nil => rfl
  | cons c rest =>
      have hletter : ¬ (c = 'e' ∨ c = 'E') := by
        rcases h c rest rfl with rfl | rfl | rfl <;> decide
      show (peek! >>= _) _ = _
      rw [bind_success (a := c) rfl, if_neg hletter]
      rfl

/-- A negative exponent. -/
theorem exponent_neg {ds tail : List Char} (hds : Digits ds) (hne : ds ≠ [])
    (htail : EndsDigits tail) (value : JsonNumber) :
    exponent value ('e' :: '-' :: (ds ++ tail)) =
      .success tail (value.shiftr (digitsValue ds)) := by
  rw [exponent, bind_success (a := false) rfl]
  show (peek! >>= _) _ = _
  rw [bind_success (a := 'e') rfl, if_pos (Or.inl rfl), bind_success (a := ()) rfl,
    bind_success (a := '-') rfl, if_pos rfl, bind_success (a := ()) rfl,
    bind_success (natMaybeZero_append hds hne htail)]
  rfl

theorem EndsValue.digits {tail : List Char} (h : EndsValue tail) : EndsDigits tail := by
  intro c rest heq
  rcases h c rest heq with rfl | rfl | rfl <;> decide

theorem EndsValue.point {tail : List Char} (h : EndsValue tail) :
    ∀ c rest, tail = c :: rest → c ≠ '.' := by
  intro c rest heq
  rcases h c rest heq with rfl | rfl | rfl <;> decide

/-! ## Values -/

/-- The parser reads a text as a value, in front of every tail a value may stand
before, with two units of fuel for every character. -/
structure ReadsValue (chars : List Char) (j : Json) : Prop where
  starts : ∃ c rest, chars = c :: rest ∧ isBlank c = false ∧ c ≠ ']'
  reads : ∀ fuel tail, 2 * chars.length ≤ fuel → EndsValue tail →
    anyCore fuel (chars ++ tail) = .success tail j

theorem ReadsValue.intro {c : Char} {rest : List Char} {j : Json} (hblank : isBlank c = false)
    (hbracket : c ≠ ']')
    (h : ∀ fuel tail, 2 * rest.length ≤ fuel → EndsValue tail →
      anyCore (fuel + 2) (c :: (rest ++ tail)) = .success tail j) : ReadsValue (c :: rest) j where
  starts := ⟨c, rest, rfl, hblank, hbracket⟩
  reads := by
    intro fuel tail hfuel htail
    rw [List.length_cons] at hfuel
    obtain ⟨fuel, rfl⟩ := Nat.exists_eq_add_of_le' (by omega : 2 ≤ fuel)
    exact h fuel tail (by omega) htail

theorem skipString_append {s : String} {chars : List Char} (h : s.toList = chars)
    (hlength : s.length = chars.length) (tail : List Char) :
    skipString s (chars ++ tail) = .success tail () := by
  have hstart : s.toList.isPrefixOf (chars ++ tail) = true := by
    rw [h, List.isPrefixOf_iff_prefix]
    exact List.prefix_append chars tail
  rw [skipString, if_pos hstart, hlength, List.drop_left]

/-- A keyword and what follows it. -/
theorem keyword_append {s : String} (chars : List Char) {tail : List Char} (h : s.toList = chars)
    (hlength : s.length = chars.length) (htail : EndsValue tail) (j : Json) :
    (do skipString s; ws; pure j : Parser Json) (chars ++ tail) = .success tail j := by
  rw [bind_success (skipString_append h hlength tail), bind_success htail.ws]
  rfl

theorem readsValue_null : ReadsValue ['n', 'u', 'l', 'l'] .null := by
  refine ReadsValue.intro rfl (by decide) fun fuel tail _ htail => ?_
  rw [anyCore, bind_success (a := 'n') rfl]
  exact keyword_append ['n', 'u', 'l', 'l'] (by decide) (by decide) htail .null

theorem readsValue_true : ReadsValue ['t', 'r', 'u', 'e'] (.bool true) := by
  refine ReadsValue.intro rfl (by decide) fun fuel tail _ htail => ?_
  rw [anyCore, bind_success (a := 't') rfl]
  exact keyword_append ['t', 'r', 'u', 'e'] (by decide) (by decide) htail _

theorem readsValue_false : ReadsValue ['f', 'a', 'l', 's', 'e'] (.bool false) := by
  refine ReadsValue.intro rfl (by decide) fun fuel tail _ htail => ?_
  rw [anyCore, bind_success (a := 'f') rfl]
  exact keyword_append ['f', 'a', 'l', 's', 'e'] (by decide) (by decide) htail _

/-- A string literal. -/
def literal (esc : Char → List Char) (s : String) : List Char :=
  '"' :: (s.toList.flatMap esc ++ ['"'])

theorem readsValue_str {esc : Char → List Char} (h : Escapes esc) (s : String) :
    ReadsValue (literal esc s) (.str s) := by
  refine ReadsValue.intro rfl (by decide) fun fuel tail _ htail => ?_
  rw [anyCore, bind_success (a := '"') rfl]
  show (do skip; let s ← str; ws; pure (.str s) : Parser Json) _ = _
  rw [bind_success (a := ()) rfl, List.append_assoc, List.singleton_append,
    bind_success (h.str s tail), bind_success htail.ws]
  rfl

/-- The characters a number starts with. -/
def StartsNumber (c : Char) : Prop :=
  c = '-' ∨ ('0' ≤ c ∧ c ≤ '9')

instance (c : Char) : Decidable (StartsNumber c) :=
  inferInstanceAs (Decidable (c = '-' ∨ ('0' ≤ c ∧ c ≤ '9')))

theorem StartsNumber.ne {c d : Char} (h : StartsNumber c) (hd : ¬ StartsNumber d) : c ≠ d := by
  rintro rfl
  exact hd h

theorem StartsNumber.not_blank {c : Char} (h : StartsNumber c) : isBlank c = false := by
  have htab : c ≠ '\t' := h.ne (by decide)
  have hnewline : c ≠ '\n' := h.ne (by decide)
  have hreturn : c ≠ '\r' := h.ne (by decide)
  have hspace : c ≠ ' ' := h.ne (by decide)
  simp [isBlank, htab, hnewline, hreturn, hspace]

theorem readsValue_num {c : Char} {rest : List Char} {n : JsonNumber} (hc : StartsNumber c)
    (h : ∀ tail, EndsValue tail → num (c :: (rest ++ tail)) = .success tail n) :
    ReadsValue (c :: rest) (.num n) := by
  have hnum : c = '-' ∨ ('0' ≤ c ∧ c ≤ '9') := hc
  refine ReadsValue.intro hc.not_blank (hc.ne (by decide)) fun fuel tail _ htail => ?_
  rw [anyCore, bind_success (a := c) rfl, if_neg (hc.ne (by decide)), if_neg (hc.ne (by decide)),
    if_neg (hc.ne (by decide)), if_neg (hc.ne (by decide)), if_neg (hc.ne (by decide)),
    if_neg (hc.ne (by decide)), if_pos hnum, bind_success (h tail htail), bind_success htail.ws]
  rfl

/-! ## Arrays -/

/-- Items with commas between them. -/
def commaList (items : List (List Char)) : List Char :=
  List.intercalate [','] items

theorem commaList_singleton (item : List Char) : commaList [item] = item :=
  List.intercalate_singleton

theorem commaList_cons (item next : List Char) (rest : List (List Char)) :
    commaList (item :: next :: rest) = item ++ ',' :: commaList (next :: rest) := by
  rw [commaList, List.intercalate_cons_cons, List.append_assoc]
  rfl

theorem endsValue_of_cons {c : Char} (h : c = ',' ∨ c = ']' ∨ c = '}') (rest : List Char) :
    EndsValue (c :: rest) := by
  intro d tail heq
  obtain ⟨rfl, _⟩ := List.cons.inj heq
  exact h

/-- A list starts as its first item does. -/
theorem exists_commaList_cons (c : Char) (item : List Char) (rest : List (List Char)) :
    ∃ more, commaList ((c :: item) :: rest) = c :: more := by
  cases rest with
  | nil => exact ⟨item, commaList_singleton _⟩
  | cons next rest => exact ⟨_, commaList_cons _ _ _⟩

/-- Neither the first item nor the others are longer than all of them. -/
theorem length_commaList_cons (item : List Char) (rest : List (List Char)) :
    item.length ≤ (commaList (item :: rest)).length ∧
      (commaList rest).length ≤ (commaList (item :: rest)).length := by
  cases rest with
  | nil =>
      rw [commaList_singleton]
      exact ⟨Nat.le_refl _, Nat.zero_le _⟩
  | cons next rest =>
      rw [commaList_cons, List.length_append, List.length_cons]
      omega

/-- The blanks in front of an item: there are none. -/
theorem ws_commaList {c : Char} (hblank : isBlank c = false) (item : List Char)
    (rest : List (List Char)) (tail : List Char) :
    ws (commaList ((c :: item) :: rest) ++ tail) =
      .success (commaList ((c :: item) :: rest) ++ tail) () := by
  obtain ⟨more, hmore⟩ := exists_commaList_cons c item rest
  rw [hmore]
  exact ws_cons hblank _

theorem arrayCore_append {items : List (List Char)} {js : List Json}
    (h : List.Forall₂ ReadsValue items js) (hne : items ≠ []) (fuel : Nat) (acc : List Json)
    {tail : List Char} (hfuel : 2 * ((commaList items).length + 1) ≤ fuel)
    (htail : EndsValue tail) :
    arrayCore fuel acc (commaList items ++ ']' :: tail) = .success tail (acc ++ js) := by
  induction h generalizing fuel acc with
  | nil => exact absurd rfl hne
  | @cons item j items js hitem hitems ih =>
      obtain ⟨fuel, rfl⟩ := Nat.exists_eq_add_one_of_ne_zero (by omega : fuel ≠ 0)
      cases hitems with
      | nil =>
          rw [commaList_singleton] at hfuel ⊢
          have hvalue := hitem.reads fuel (']' :: tail) (by omega)
            (endsValue_of_cons (by simp) tail)
          rw [arrayCore, bind_success hvalue, bind_success (a := ']') rfl]
          show (do ws; pure (acc ++ [j]) : Parser (List Json)) tail = _
          rw [bind_success htail.ws]
          rfl
      | @cons next k rest ks hnext hrest =>
          rw [commaList_cons] at hfuel ⊢
          rw [List.length_append, List.length_cons] at hfuel
          have hvalue := hitem.reads fuel (',' :: (commaList (next :: rest) ++ ']' :: tail))
            (by omega) (endsValue_of_cons (by simp) _)
          have hblank : ws (commaList (next :: rest) ++ ']' :: tail) =
              .success (commaList (next :: rest) ++ ']' :: tail) () := by
            obtain ⟨c, chars, rfl, hblank, _⟩ := hnext.starts
            exact ws_commaList hblank chars rest _
          rw [List.append_assoc, List.cons_append, arrayCore, bind_success hvalue,
            bind_success (a := ',') rfl]
          show (do ws; arrayCore fuel (acc ++ [j]) : Parser (List Json)) _ = _
          rw [bind_success hblank, ih (by simp) fuel _ (by omega)]
          rw [List.append_assoc]
          rfl

/-- After an opening bracket: an empty array, or items. -/
theorem anyCore_bracket (fuel : Nat) (it : List Char) :
    anyCore (fuel + 1) ('[' :: it) = (do
      ws
      let c ← peek!
      if c = ']' then
        skip
        ws
        pure (.arr [])
      else
        let a ← arrayCore fuel []
        pure (.arr a) : Parser Json) it := rfl

/-- **Arrays.**  Items that are read make an array that is read. -/
theorem readsValue_arr {items : List (List Char)} {js : List Json}
    (h : List.Forall₂ ReadsValue items js) :
    ReadsValue ('[' :: (commaList items ++ [']'])) (.arr js) := by
  refine ReadsValue.intro rfl (by decide) fun fuel tail hfuel htail => ?_
  rw [List.length_append, List.length_singleton] at hfuel
  rw [anyCore_bracket, List.append_assoc, List.singleton_append]
  cases h with
  | nil =>
      show (ws >>= _) (']' :: tail) = _
      rw [bind_success (endsValue_of_cons (by simp) tail).ws, bind_success (a := ']') rfl,
        if_pos rfl, bind_success (a := ()) rfl, bind_success htail.ws]
      rfl
  | @cons item j items js hitem hitems =>
      have hread := arrayCore_append (.cons hitem hitems) (by simp) (fuel + 1) [] (by omega) htail
      obtain ⟨c, chars, rfl, hblank, hclose⟩ := hitem.starts
      obtain ⟨more, hmore⟩ := exists_commaList_cons c chars items
      rw [hmore, List.cons_append] at hread ⊢
      rw [bind_success (ws_cons hblank _), bind_success (a := c) rfl, if_neg hclose,
        bind_success hread]
      rfl

/-! ## Objects -/

/-- A text of a member: its key, a colon and its value. -/
def ReadsMember (esc : Char → List Char) (chars : List Char) (kv : String × Json) : Prop :=
  ∃ text, chars = literal esc kv.1 ++ ':' :: text ∧ ReadsValue text kv.2

/-- A key and its colon are read; the value decides how it goes on. -/
theorem objectCore_key {esc : Char → List Char} (hesc : Escapes esc) (fuel : Nat)
    (kvs : List (String × Json)) (k : String) {it : List Char} (hblank : ws it = .success it ()) :
    objectCore (fuel + 1) kvs (literal esc k ++ ':' :: it) = (do
      let v ← anyCore fuel
      let c ← any
      if c = '\x7d' then
        ws
        pure (insert kvs k v)
      else if c = ',' then
        ws
        objectCore fuel (insert kvs k v)
      else
        fail "unexpected character in object" : Parser (List (String × Json))) it := by
  have hkey := hesc.str k (':' :: it)
  rw [literal, List.cons_append, List.append_assoc, List.singleton_append, objectCore,
    bind_success (lookahead_success (by decide) _ _), bind_success (a := ()) rfl,
    bind_success hkey, bind_success (ws_cons (by decide) _),
    bind_success (lookahead_success (by decide) _ _), bind_success (a := ()) rfl,
    bind_success hblank]

/-- One member is read and bound; what follows decides how it goes on. -/
theorem objectCore_member {esc : Char → List Char} (hesc : Escapes esc) {text : List Char}
    {v : Json} (h : ReadsValue text v) {fuel : Nat} (hfuel : 2 * text.length ≤ fuel)
    (kvs : List (String × Json)) (k : String) {tail : List Char} (htail : EndsValue tail) :
    objectCore (fuel + 1) kvs (literal esc k ++ ':' :: (text ++ tail)) = (do
      let c ← any
      if c = '\x7d' then
        ws
        pure (insert kvs k v)
      else if c = ',' then
        ws
        objectCore fuel (insert kvs k v)
      else
        fail "unexpected character in object" : Parser (List (String × Json))) tail := by
  have hblank : ws (text ++ tail) = .success (text ++ tail) () := by
    obtain ⟨c, chars, rfl, hblank, _⟩ := h.starts
    exact ws_cons hblank _
  rw [objectCore_key hesc fuel kvs k hblank, bind_success (h.reads fuel tail hfuel htail)]

theorem objectCore_append {esc : Char → List Char} (hesc : Escapes esc)
    {members : List (List Char)} {kvs : List (String × Json)}
    (h : List.Forall₂ (ReadsMember esc) members kvs) (hne : members ≠ []) (fuel : Nat)
    (acc : List (String × Json)) {tail : List Char}
    (hfuel : 2 * ((commaList members).length + 1) ≤ fuel) (htail : EndsValue tail) :
    objectCore fuel acc (commaList members ++ '}' :: tail) =
      .success tail (kvs.foldl (fun acc kv => insert acc kv.1 kv.2) acc) := by
  induction h generalizing fuel acc with
  | nil => exact absurd rfl hne
  | @cons member kv members kvs hmember hmembers ih =>
      obtain ⟨fuel, rfl⟩ := Nat.exists_eq_add_one_of_ne_zero (by omega : fuel ≠ 0)
      obtain ⟨text, rfl, hvalue⟩ := hmember
      cases hmembers with
      | nil =>
          rw [commaList_singleton] at hfuel ⊢
          rw [List.length_append, List.length_cons] at hfuel
          rw [List.append_assoc, List.cons_append, objectCore_member hesc hvalue (by omega) acc kv.1
            (endsValue_of_cons (by simp) tail), bind_success (a := '}') rfl]
          show (do ws; pure (insert acc kv.1 kv.2) : Parser (List (String × Json))) tail = _
          rw [bind_success htail.ws]
          rfl
      | @cons next kv' rest kvs' hnext hrest =>
          rw [commaList_cons] at hfuel ⊢
          rw [List.length_append, List.length_append, List.length_cons, List.length_cons] at hfuel
          have hblank : ws (commaList (next :: rest) ++ '}' :: tail) =
              .success (commaList (next :: rest) ++ '}' :: tail) () := by
            obtain ⟨_, rfl, _⟩ := hnext
            exact ws_commaList (by decide) _ rest _
          rw [List.append_assoc, List.append_assoc, List.cons_append, List.cons_append,
            objectCore_member hesc hvalue (by omega) acc kv.1 (endsValue_of_cons (by simp) _),
            bind_success (a := ',') rfl]
          show (do ws; objectCore fuel (insert acc kv.1 kv.2) : Parser (List (String × Json))) _ = _
          rw [bind_success hblank, ih (by simp) fuel _ (by omega)]
          rfl

/-- After an opening brace: an empty object, or members. -/
theorem anyCore_brace (fuel : Nat) (it : List Char) :
    anyCore (fuel + 1) ('\x7b' :: it) = (do
      ws
      let c ← peek!
      if c = '\x7d' then
        skip
        ws
        pure (.obj [])
      else
        let kvs ← objectCore fuel []
        pure (.obj kvs) : Parser Json) it := rfl

/-- **Objects.**  Members that are read make an object that is read, the later
of two bindings of a key winning. -/
theorem readsValue_obj {esc : Char → List Char} (hesc : Escapes esc)
    {members : List (List Char)} {kvs : List (String × Json)}
    (h : List.Forall₂ (ReadsMember esc) members kvs) :
    ReadsValue ('\x7b' :: (commaList members ++ ['\x7d'])) (mkObj kvs) := by
  refine ReadsValue.intro rfl (by decide) fun fuel tail hfuel htail => ?_
  rw [List.length_append, List.length_singleton] at hfuel
  rw [anyCore_brace, List.append_assoc, List.singleton_append]
  cases h with
  | nil =>
      show (ws >>= _) ('\x7d' :: tail) = _
      rw [bind_success (endsValue_of_cons (by simp) tail).ws, bind_success (a := '\x7d') rfl,
        if_pos rfl, bind_success (a := ()) rfl, bind_success htail.ws]
      rfl
  | @cons member kv members kvs hmember hmembers =>
      have hread := objectCore_append hesc (.cons hmember hmembers) (by simp) (fuel + 1) []
        (by omega) htail
      obtain ⟨_, rfl, _⟩ := hmember
      obtain ⟨more, hmore⟩ := exists_commaList_cons '"' _ members
      rw [literal, List.cons_append, hmore, List.cons_append] at hread ⊢
      rw [bind_success (ws_cons (by decide) _), bind_success (a := '"') rfl, if_neg (by decide),
        bind_success hread]
      rfl

end McpSeal.Data.Json.Parser

namespace McpSeal.Data.Json

/-- **Documents.**  A text that is read as a value is parsed as it. -/
theorem parse_of_readsValue {s : String} {j : Json} (h : Parser.ReadsValue s.toList j) :
    parse s = .ok j := by
  have hvalue : Parser.anyCore (2 * s.toList.length + 2) s.toList = .success [] j := by
    have hread := h.reads (2 * s.toList.length + 2) [] (by omega) (fun _ _ heq => by contradiction)
    rwa [List.append_nil] at hread
  have hdocument : Parser.document (2 * s.toList.length + 2) s.toList = .success [] j := by
    obtain ⟨c, rest, hchars, hblank, _⟩ := h.starts
    rw [hchars] at hvalue ⊢
    rw [Parser.document, Parser.bind_success (Parser.ws_cons hblank _), Parser.bind_success hvalue,
      Parser.bind_success (a := ()) rfl]
    rfl
  rw [parse, hdocument]

end McpSeal.Data.Json
