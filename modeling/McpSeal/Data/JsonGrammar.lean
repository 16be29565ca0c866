import McpSeal.Data.JsonRaw
set_option autoImplicit false

/-!
# Data: the texts the JSON parser accepts (`Lean.Data.Json.Parser`)

`Data.JsonText` shows texts the parser reads; here is the other direction.  A
derivation says how a text is made up of tokens, and every successful run of the
parser has one (`exists_anyText_of_parseRaw`), so that a property of all lines
the parser accepts is proved by induction on derivations and not on the parser.

A derivation relates the characters a parser starts from to those it leaves.
Strings are followed only as far as their quotes and backslashes; numbers are
taken apart completely.
-/

namespace McpSeal.Data.Json

namespace Parser

/-! ## Inversion of the monad -/

theorem error_ne_success {α : Type} {it rest : List Char} {err : String} {a : α} :
    ParseResult.error it err ≠ .success rest a := nofun

theorem bind_eq_success {α β : Type} {p : Parser α} {g : α → Parser β} {it rest : List Char}
    {b : β} (h : (p >>= g) it = .success rest b) :
    ∃ mid a, p it = .success mid a ∧ g a mid = .success rest b := by
  simp only [bind] at h
  cases hp : p it with
  | success mid a =>
      rw [hp] at h
      exact ⟨mid, a, rfl, h⟩
  | error mid err =>
      rw [hp] at h
      exact absurd h error_ne_success

theorem pure_eq_success {α : Type} {a b : α} {it rest : List Char}
    (h : (pure a : Parser α) it = .success rest b) : it = rest ∧ a = b := by
  injection h with hrest hres
  exact ⟨hrest, hres⟩

theorem any_eq_success {it rest : List Char} {c : Char} (h : any it = .success rest c) :
    it = c :: rest := by
  cases it with
  | nil => exact absurd h error_ne_success
  | cons d tail =>
      injection h with hrest hres
      rw [hrest, hres]

theorem peek_eq_success {it rest : List Char} {c : Char} (h : peek! it = .success rest c) :
    ∃ tail, it = c :: tail ∧ rest = c :: tail := by
  cases it with
  | nil => exact absurd h error_ne_success
  | cons d tail =>
      injection h with hrest hres
      subst hres
      exact ⟨tail, rfl, hrest.symm⟩

theorem eof_eq_success {it rest : List Char} {u : Unit} (h : eof it = .success rest u) :
    it = [] := by
  cases it with
  | nil => rfl
  | cons c it => exact absurd h error_ne_success

theorem skip_eq_success {c : Char} {it rest : List Char} {u : Unit}
    (h : skip (c :: it) = .success rest u) : rest = it := by
  injection h with hrest
  exact hrest.symm

theorem ite_eq_success {α : Type} {c : Prop} [Decidable c] {p q : Parser α}
    {it rest : List Char} {a : α} (h : (if c then p else q) it = .success rest a) :
    c ∧ p it = .success rest a ∨ ¬ c ∧ q it = .success rest a := by
  by_cases hc : c
  · rw [if_pos hc] at h
    exact Or.inl ⟨hc, h⟩
  · rw [if_neg hc] at h
    exact Or.inr ⟨hc, h⟩

/-- A parser behind a test that fails where the test holds. -/
theorem ite_fail_eq_success {α : Type} {c : Prop} [Decidable c] {msg : String} {p : Parser α}
    {it rest : List Char} {a : α} (h : (if c then fail msg else p) it = .success rest a) :
    ¬ c ∧ p it = .success rest a := by
  rcases ite_eq_success h with ⟨_, h⟩ | h
  · exact absurd h error_ne_success
  · exact h

theorem lookahead_eq_success {p : Char → Bool} {desc : String} {it rest : List Char} {u : Unit}
    (h : lookahead p desc it = .success rest u) :
    ∃ c tail, it = c :: tail ∧ rest = c :: tail ∧ p c = true := by
  rw [lookahead] at h
  obtain ⟨mid, c, hpeek, h⟩ := bind_eq_success h
  obtain ⟨tail, rfl, rfl⟩ := peek_eq_success hpeek
  rcases ite_eq_success h with ⟨hp, h⟩ | ⟨_, h⟩
  · obtain ⟨rfl, _⟩ := pure_eq_success h
    exact ⟨c, tail, rfl, rfl, hp⟩
  · exact absurd h error_ne_success

/-! ## Blanks -/

/-- The text is some blanks, and then the rest. -/
inductive Blanks : List Char → List Char → Prop
  | done (rest : List Char) : Blanks rest rest
  | skip {c : Char} {it rest : List Char} :
      isBlank c = true → Blanks it rest → Blanks (c :: it) rest

theorem ws_eq_success {it rest : List Char} {u : Unit} (h : ws it = .success rest u) :
    Blanks it rest := by
  induction it with
  | nil =>
      injection h with hrest
      subst hrest
      exact .done []
  | cons c it ih =>
      cases hblank : isBlank c with
      | true =>
          have hskip : ws (c :: it) = ws it := by
            simp only [ws]
            rw [List.dropWhile_cons_of_pos]
            exact hblank
          exact .skip hblank (ih (hskip ▸ h))
      | false =>
          rw [ws_cons hblank] at h
          injection h with hrest
          subst hrest
          exact .done (c :: it)

/-! ## Strings -/

/-- Part of a string: plain characters, and backslashes with the character
after them.  The digits of a long escape count as plain. -/
inductive Inner : List Char → List Char → Prop
  | done (rest : List Char) : Inner rest rest
  | plain {c : Char} {it rest : List Char} :
      c ≠ '"' → c ≠ '\\' → Inner it rest → Inner (c :: it) rest
  | escape (c : Char) {it rest : List Char} : Inner it rest → Inner ('\\' :: c :: it) rest

theorem Inner.trans {it mid rest : List Char} (h : Inner it mid) (h' : Inner mid rest) :
    Inner it rest := by
  induction h with
  | done => exact h'
  | plain hquote hslash _ ih => exact .plain hquote hslash (ih h')
  | escape c _ ih => exact .escape c (ih h')

/-- The characters of a string up to the quote that closes it, with what is read. -/
inductive StrText : List Char → List Char → List Char → Prop
  | close (rest : List Char) : StrText ('"' :: rest) rest []
  | plain {c : Char} {it rest cs : List Char} :
      c ≠ '"' → c ≠ '\\' → StrText it rest cs → StrText (c :: it) rest (c :: cs)
  | escape (d : Char) {it mid rest cs : List Char} :
      Inner ('\\' :: it) mid → StrText mid rest cs → StrText ('\\' :: it) rest (d :: cs)

theorem StrText.inner {it rest cs : List Char} (h : StrText it rest cs) :
    Inner it ('"' :: rest) := by
  induction h with
  | close rest => exact .done _
  | plain hquote hslash _ ih => exact .plain hquote hslash ih
  | escape d hinner _ ih => exact hinner.trans ih

/-- A scan inside of a string: nothing but a quote or a backslash moves it. -/
theorem StrText.foldl {σ : Type} {step : σ → Char → σ} {inside escaped : σ}
    (hplain : ∀ c, c ≠ '"' → c ≠ '\\' → step inside c = inside)
    (hslash : step inside '\\' = escaped) (hescape : ∀ c, step escaped c = inside)
    {it rest cs : List Char} (h : StrText it rest cs) :
    it.foldl step inside = rest.foldl step (step inside '"') := by
  have hinner : ∀ {it rest : List Char}, Inner it rest →
      it.foldl step inside = rest.foldl step inside := by
    intro it rest h
    induction h with
    | done rest => rfl
    | plain hquote hslash _ ih => rw [List.foldl_cons, hplain _ hquote hslash, ih]
    | escape c _ ih => rw [List.foldl_cons, List.foldl_cons, hslash, hescape, ih]
  rw [hinner h.inner, List.foldl_cons]

theorem hexChar_eq_success {it rest : List Char} {n : Nat} (h : hexChar it = .success rest n) :
    ∃ c, it = c :: rest ∧ c ≠ '"' ∧ c ≠ '\\' := by
  rw [hexChar] at h
  obtain ⟨mid, c, hany, h⟩ := bind_eq_success h
  have hit := any_eq_success hany
  refine ⟨c, ?_, ?_, ?_⟩
  · rcases ite_eq_success h with ⟨_, h⟩ | ⟨_, h⟩
    · rw [hit, (pure_eq_success h).1]
    rcases ite_eq_success h with ⟨_, h⟩ | ⟨_, h⟩
    · rw [hit, (pure_eq_success h).1]
    rcases ite_eq_success h with ⟨_, h⟩ | ⟨_, h⟩
    · rw [hit, (pure_eq_success h).1]
    · exact absurd h error_ne_success
  · rintro rfl
    exact absurd h error_ne_success
  · rintro rfl
    exact absurd h error_ne_success

theorem finishSurrogatePair_eq_success {low : Nat} {it rest : List Char} {c : Char}
    (h : finishSurrogatePair low it = .success rest c) : Inner it rest := by
  rw [finishSurrogatePair] at h
  obtain ⟨mid, slash, hslash, h⟩ := bind_eq_success h
  obtain ⟨hne, h⟩ := ite_fail_eq_success h
  obtain rfl := not_not.mp hne
  obtain ⟨mid', u, hu, h⟩ := bind_eq_success h
  obtain ⟨_, h⟩ := ite_fail_eq_success h
  obtain ⟨mid₁, d, hd, h⟩ := bind_eq_success h
  obtain ⟨hnd, h⟩ := ite_fail_eq_success h
  obtain ⟨mid₂, u2, h2, h⟩ := bind_eq_success h
  obtain ⟨mid₃, u3, h3, h⟩ := bind_eq_success h
  obtain ⟨mid₄, u4, h4, h⟩ := bind_eq_success h
  obtain ⟨_, h⟩ := ite_fail_eq_success h
  obtain ⟨rfl, _⟩ := pure_eq_success h
  obtain ⟨c2, rfl, hc2⟩ := hexChar_eq_success h2
  obtain ⟨c3, rfl, hc3⟩ := hexChar_eq_success h3
  obtain ⟨c4, rfl, hc4⟩ := hexChar_eq_success h4
  rw [any_eq_success hslash, any_eq_success hu, any_eq_success hd]
  have hd' : d ≠ '"' ∧ d ≠ '\\' := by
    constructor
    · rintro rfl
      exact hnd (by decide)
    · rintro rfl
      exact hnd (by decide)
  exact .escape u (.plain hd'.1 hd'.2 (.plain hc2.1 hc2.2 (.plain hc3.1 hc3.2
    (.plain hc4.1 hc4.2 (.done _)))))

theorem attemptOr_eq_success {α : Type} {p : Parser α} {value a : α} {it rest : List Char}
    (h : attemptOr p value it = .success rest a) : p it = .success rest a ∨ rest = it := by
  rw [attemptOr] at h
  cases hp : p it with
  | success mid b =>
      rw [hp] at h
      exact Or.inl h
  | error mid err =>
      rw [hp] at h
      injection h with hrest
      exact Or.inr hrest.symm

theorem escapedChar_eq_success {it rest : List Char} {d : Char}
    (h : escapedChar it = .success rest d) : Inner ('\\' :: it) rest := by
  rw [escapedChar] at h
  obtain ⟨mid, c, hany, h⟩ := bind_eq_success h
  rw [any_eq_success hany]
  refine .escape c ?_
  split at h
  case h_9 =>
    obtain ⟨mid₁, u1, h1, h⟩ := bind_eq_success h
    obtain ⟨mid₂, u2, h2, h⟩ := bind_eq_success h
    obtain ⟨mid₃, u3, h3, h⟩ := bind_eq_success h
    obtain ⟨mid₄, u4, h4, hval⟩ := bind_eq_success h
    obtain ⟨c1, rfl, hc1⟩ := hexChar_eq_success h1
    obtain ⟨c2, rfl, hc2⟩ := hexChar_eq_success h2
    obtain ⟨c3, rfl, hc3⟩ := hexChar_eq_success h3
    obtain ⟨c4, rfl, hc4⟩ := hexChar_eq_success h4
    refine .plain hc1.1 hc1.2 (.plain hc2.1 hc2.2 (.plain hc3.1 hc3.2 (.plain hc4.1 hc4.2 ?_)))
    rcases ite_eq_success hval with ⟨_, hval⟩ | ⟨_, hval⟩
    · rw [(pure_eq_success hval).1]
      exact .done rest
    rcases ite_eq_success hval with ⟨_, hval⟩ | ⟨_, hval⟩
    · rcases ite_eq_success hval with ⟨_, hval⟩ | ⟨_, hval⟩
      · -- a high surrogate looks on for its second half
        rcases attemptOr_eq_success hval with hval | rfl
        · exact finishSurrogatePair_eq_success hval
        · exact .done _
      · rw [(pure_eq_success hval).1]
        exact .done rest
    · rw [(pure_eq_success hval).1]
      exact .done rest
  case h_10 => exact absurd h error_ne_success
  all_goals
    rw [(pure_eq_success h).1]
    exact .done rest

theorem strCore_eq_success {fuel : Nat} {acc s : String} {it rest : List Char}
    (h : strCore fuel acc it = .success rest s) :
    ∃ cs, StrText it rest cs ∧ s.toList = acc.toList ++ cs := by
  induction fuel generalizing acc it with
  | zero => exact absurd h error_ne_success
  | succ fuel ih =>
      rw [strCore] at h
      obtain ⟨mid, c, hpeek, h⟩ := bind_eq_success h
      obtain ⟨tail, rfl, rfl⟩ := peek_eq_success hpeek
      by_cases hquote : c = '"'
      · rw [if_pos hquote] at h
        obtain ⟨mid, _, hskip, h⟩ := bind_eq_success h
        obtain ⟨rfl, rfl⟩ := pure_eq_success h
        obtain rfl := skip_eq_success hskip
        subst hquote
        exact ⟨[], .close mid, (List.append_nil _).symm⟩
      rw [if_neg hquote] at h
      obtain ⟨mid, c', hany, hnext⟩ := bind_eq_success h
      obtain ⟨rfl, rfl⟩ := List.cons.inj (any_eq_success hany)
      by_cases hslash : c = '\\'
      · rw [if_pos hslash] at hnext
        subst hslash
        obtain ⟨mid, d, hd, hnext⟩ := bind_eq_success hnext
        obtain ⟨cs, htext, hs⟩ := ih hnext
        refine ⟨d :: cs, .escape d (escapedChar_eq_success hd) htext, ?_⟩
        rw [hs, String.toList_push, List.append_assoc, List.singleton_append]
      · rw [if_neg hslash] at hnext
        rcases ite_eq_success hnext with ⟨_, hnext⟩ | ⟨_, hnext⟩
        · obtain ⟨cs, htext, hs⟩ := ih hnext
          refine ⟨c :: cs, .plain hquote hslash htext, ?_⟩
          rw [hs, String.toList_push, List.append_assoc, List.singleton_append]
        · exact absurd hnext error_ne_success

theorem str_eq_success {it rest : List Char} {s : String} (h : str it = .success rest s) :
    StrText it rest s.toList := by
  obtain ⟨cs, htext, hs⟩ := strCore_eq_success h
  rw [hs]
  exact htext

/-! ## Numbers -/

/-- What stands behind the `e` of a number; the sign may be absent, `+` or `-`. -/
structure ExpPart where
  upper : Bool
  sign : Option Bool
  digits : List Char

/-- A number as it is written; the fraction is empty where there is none. -/
structure Numeral where
  negative : Bool
  whole : List Char
  fraction : List Char
  exponent : Option ExpPart

namespace ExpPart

/-- The sign of an exponent as it stands. -/
def signText (e : ExpPart) : List Char :=
  match e.sign with
  | none => []
  | some minus => [if minus then '-' else '+']

/-- The exponent as it stands, the letter first. -/
def text (e : ExpPart) : List Char :=
  (if e.upper then 'E' else 'e') :: (e.signText ++ e.digits)

/-- A negative exponent moves the decimal point to the left. -/
def shift (e : ExpPart) (n : JsonNumber) : JsonNumber :=
  if e.sign = some true then n.shiftr (digitsValue e.digits)
  else n.shiftl (digitsValue e.digits)

end ExpPart

namespace Numeral

/-- The fraction with its point, or nothing. -/
def fractionText (w : Numeral) : List Char :=
  match w.fraction with
  | [] => []
  | _ :: _ => '.' :: w.fraction

/-- The exponent with its letter, or nothing. -/
def exponentText (w : Numeral) : List Char :=
  match w.exponent with
  | none => []
  | some e => e.text

/-- The numeral as it stands. -/
def text (w : Numeral) : List Char :=
  signChars w.negative ++ (w.whole ++ (w.fractionText ++ w.exponentText))

/-- The number in front of the exponent. -/
def base (w : Numeral) : JsonNumber :=
  ⟨signValue w.negative * digitsValue (w.whole ++ w.fraction), w.fraction.length⟩

/-- The number the library reads from the numeral. -/
def value (w : Numeral) : JsonNumber :=
  match w.exponent with
  | none => w.base
  | some e => e.shift w.base

/-- The numeral is a number of the JSON grammar. -/
structure Valid (w : Numeral) : Prop where
  whole : IntPart w.whole
  fraction : Digits w.fraction
  exponent : ∀ e, w.exponent = some e → Digits e.digits ∧ e.digits ≠ []

theorem mem_fractionText {w : Numeral} {c : Char} (hc : c ∈ w.fractionText) :
    c = '.' ∨ c ∈ w.fraction := by
  rw [fractionText] at hc
  split at hc
  · exact absurd hc List.not_mem_nil
  · exact List.mem_cons.mp hc

theorem mem_exponentText {w : Numeral} {c : Char} (hc : c ∈ w.exponentText) :
    c ∈ ['-', '+', 'e', 'E'] ∨ ∃ e, w.exponent = some e ∧ c ∈ e.digits := by
  rw [exponentText] at hc
  split at hc
  · exact absurd hc List.not_mem_nil
  · rename_i e he
    rcases List.mem_cons.mp hc with rfl | hc
    · left
      cases e.upper <;> decide
    rcases List.mem_append.mp hc with hc | hc
    · left
      rw [ExpPart.signText] at hc
      split at hc
      · exact absurd hc List.not_mem_nil
      · rename_i minus _
        rw [List.mem_singleton.mp hc]
        cases minus <;> decide
    · exact Or.inr ⟨e, he, hc⟩

/-- The characters of a number. -/
theorem Valid.mem_text {w : Numeral} (h : w.Valid) {c : Char} (hc : c ∈ w.text) :
    ('0' ≤ c ∧ c ≤ '9') ∨ c ∈ ['-', '+', '.', 'e', 'E'] := by
  simp only [text, List.mem_append] at hc
  rcases hc with hc | hc | hc | hc
  · right
    rw [signChars] at hc
    split at hc
    · rw [List.mem_singleton.mp hc]
      decide
    · exact absurd hc List.not_mem_nil
  · exact Or.inl (h.whole.digits c hc)
  · rcases mem_fractionText hc with rfl | hc
    · exact Or.inr (by decide)
    · exact Or.inl (h.fraction c hc)
  · rcases mem_exponentText hc with hc | ⟨e, he, hc⟩
    · exact Or.inr ((by decide : ['-', '+', 'e', 'E'] ⊆ ['-', '+', '.', 'e', 'E']) hc)
    · exact Or.inl ((h.exponent e he).1 c hc)

end Numeral

theorem natCoreNumDigits_eq_success {acc d : Nat} {it rest : List Char} {r : Nat × Nat}
    (h : natCoreNumDigits acc d it = .success rest r) :
    ∃ ds, Digits ds ∧ it = ds ++ rest ∧ EndsDigits rest ∧
      r = (Nat.ofDigitChars 10 ds acc, d + ds.length) := by
  induction it generalizing acc d with
  | nil =>
      injection h with hrest hres
      subst hrest
      exact ⟨[], by simp [Digits], rfl, nofun, hres.symm⟩
  | cons c it ih =>
      rw [natCoreNumDigits] at h
      by_cases hc : '0' ≤ c ∧ c ≤ '9'
      · rw [if_pos hc] at h
        obtain ⟨ds, hds, rfl, hends, hr⟩ := ih h
        refine ⟨c :: ds, List.forall_mem_cons.mpr ⟨hc, hds⟩, rfl, hends, ?_⟩
        rw [hr, Nat.ofDigitChars_cons, List.length_cons, Nat.add_right_comm, Nat.add_assoc]
      · rw [if_neg hc] at h
        injection h with hrest hres
        subst hrest
        refine ⟨[], by simp [Digits], rfl, ?_, hres.symm⟩
        intro d tail heq
        obtain ⟨rfl, _⟩ := List.cons.inj heq
        exact hc

theorem natCore_eq_success {it rest : List Char} {n : Nat}
    (h : natCore 0 it = .success rest n) :
    ∃ ds, Digits ds ∧ it = ds ++ rest ∧ EndsDigits rest ∧ n = digitsValue ds := by
  rw [natCore] at h
  obtain ⟨mid, r, hdigits, h⟩ := bind_eq_success h
  obtain ⟨ds, hds, hit, hends, rfl⟩ := natCoreNumDigits_eq_success hdigits
  obtain ⟨rfl, rfl⟩ := pure_eq_success h
  exact ⟨ds, hds, hit, hends, rfl⟩

/-- Digits read from a text that starts with one are not empty. -/
theorem ne_nil_of_starts {c : Char} {tail ds rest : List Char} (hc : '0' ≤ c ∧ c ≤ '9')
    (heq : c :: tail = ds ++ rest) (hends : EndsDigits rest) : ds ≠ [] := by
  rintro rfl
  exact hends c tail heq.symm hc

theorem natMaybeZero_eq_success {it rest : List Char} {n : Nat}
    (h : natMaybeZero it = .success rest n) :
    ∃ ds, Digits ds ∧ ds ≠ [] ∧ it = ds ++ rest ∧ n = digitsValue ds := by
  rw [natMaybeZero] at h
  obtain ⟨mid, _, hlook, h⟩ := bind_eq_success h
  obtain ⟨c, tail, rfl, rfl, hc⟩ := lookahead_eq_success hlook
  obtain ⟨ds, hds, hit, hends, hn⟩ := natCore_eq_success h
  exact ⟨ds, hds, ne_nil_of_starts (by simpa using hc) hit hends, hit, hn⟩

theorem natNumDigits_eq_success {it rest : List Char} {r : Nat × Nat}
    (h : natNumDigits it = .success rest r) :
    ∃ ds, Digits ds ∧ ds ≠ [] ∧ it = ds ++ rest ∧ r = (digitsValue ds, ds.length) := by
  rw [natNumDigits] at h
  obtain ⟨mid, _, hlook, h⟩ := bind_eq_success h
  obtain ⟨c, tail, rfl, rfl, hc⟩ := lookahead_eq_success hlook
  obtain ⟨ds, hds, hit, hends, hr⟩ := natCoreNumDigits_eq_success h
  rw [Nat.zero_add] at hr
  exact ⟨ds, hds, ne_nil_of_starts (by simpa using hc) hit hends, hit, hr⟩

theorem nat_eq_success {it rest : List Char} {n : Nat} (h : nat it = .success rest n) :
    ∃ ds, IntPart ds ∧ it = ds ++ rest ∧ n = digitsValue ds := by
  rw [nat] at h
  obtain ⟨mid, c, hpeek, h⟩ := bind_eq_success h
  obtain ⟨tail, rfl, rfl⟩ := peek_eq_success hpeek
  rcases ite_eq_success h with ⟨rfl, h⟩ | ⟨hzero, h⟩
  · obtain ⟨mid, _, hskip, h⟩ := bind_eq_success h
    obtain ⟨rfl, rfl⟩ := pure_eq_success h
    obtain rfl := skip_eq_success hskip
    refine ⟨['0'], ⟨by simp [Digits], '0', [], rfl, fun _ => rfl⟩, rfl, rfl⟩
  · rw [natNonZero] at h
    obtain ⟨mid, _, hlook, h⟩ := bind_eq_success h
    obtain ⟨d, tail', heq, rfl, hd⟩ := lookahead_eq_success hlook
    obtain ⟨rfl, rfl⟩ := List.cons.inj heq
    obtain ⟨ds, hds, hit, hends, hn⟩ := natCore_eq_success h
    have hc : '0' ≤ c ∧ c ≤ '9' := by
      simp only [Bool.and_eq_true, decide_eq_true_eq] at hd
      exact ⟨le_trans (by decide) hd.1, hd.2⟩
    obtain ⟨e, more, rfl⟩ := List.exists_cons_of_ne_nil (ne_nil_of_starts hc hit hends)
    obtain ⟨rfl, _⟩ := List.cons.inj hit
    exact ⟨c :: more, ⟨hds, c, more, rfl, fun h0 => absurd h0 hzero⟩, hit, hn⟩

theorem digitsValue_append (ds es : List Char) :
    digitsValue (ds ++ es) = digitsValue ds * 10 ^ es.length + digitsValue es := by
  rw [digitsValue, Nat.ofDigitChars_append, Nat.ofDigitChars_eq_ofDigitChars_zero, digitsValue,
    digitsValue, Nat.mul_comm]

theorem digitsValue_lt {ds : List Char} (hds : Digits ds) : digitsValue ds < 10 ^ ds.length := by
  induction ds with
  | nil => exact Nat.one_pos
  | cons d ds ih =>
      obtain ⟨hd, hds⟩ := List.forall_mem_cons.mp hds
      have hhead : digitsValue [d] ≤ 9 := by
        have hle : d.toNat ≤ '9'.toNat := hd.2
        show 10 * 0 + (d.toNat - '0'.toNat) ≤ 9
        have hzero : '0'.toNat = 48 := rfl
        have hnine : '9'.toNat = 57 := rfl
        omega
      have htail := ih hds
      have hsplit := digitsValue_append [d] ds
      rw [List.singleton_append] at hsplit
      rw [hsplit, List.length_cons, pow_succ]
      nlinarith

theorem numSign_eq_success {it rest : List Char} {s : Int} (h : numSign it = .success rest s) :
    ∃ negative, it = signChars negative ++ rest ∧ s = signValue negative := by
  rw [numSign] at h
  obtain ⟨mid, c, hpeek, h⟩ := bind_eq_success h
  obtain ⟨tail, rfl, rfl⟩ := peek_eq_success hpeek
  rcases ite_eq_success h with ⟨rfl, h⟩ | ⟨_, h⟩
  · obtain ⟨mid, _, hskip, h⟩ := bind_eq_success h
    obtain ⟨rfl, rfl⟩ := pure_eq_success h
    obtain rfl := skip_eq_success hskip
    exact ⟨true, rfl, rfl⟩
  · obtain ⟨rfl, rfl⟩ := pure_eq_success h
    exact ⟨false, rfl, rfl⟩

theorem isEof_eq_success {it rest : List Char} {b : Bool} (h : isEof it = .success rest b) :
    rest = it := by
  injection h with hrest
  exact hrest.symm

theorem numWithDecimals_eq_success {it rest : List Char} {n : JsonNumber}
    (h : numWithDecimals it = .success rest n) :
    ∃ w : Numeral, w.exponent = none ∧ IntPart w.whole ∧ Digits w.fraction ∧
      it = signChars w.negative ++ (w.whole ++ (w.fractionText ++ rest)) ∧ n = w.base := by
  rw [numWithDecimals] at h
  obtain ⟨mid₁, sign, hsign, h⟩ := bind_eq_success h
  obtain ⟨negative, rfl, rfl⟩ := numSign_eq_success hsign
  obtain ⟨mid₂, whole, hwhole, h⟩ := bind_eq_success h
  obtain ⟨ds, hds, rfl, rfl⟩ := nat_eq_success hwhole
  obtain ⟨mid₃, _, heof, h⟩ := bind_eq_success h
  obtain rfl := isEof_eq_success heof
  -- a number that ends here, or goes on without a point
  have hint : ∀ mid : List Char,
      (pure (JsonNumber.fromInt (signValue negative * digitsValue ds)) : Parser JsonNumber) mid =
        .success rest n →
      ∃ w : Numeral, w.exponent = none ∧ IntPart w.whole ∧ Digits w.fraction ∧
        signChars negative ++ (ds ++ mid) =
          signChars w.negative ++ (w.whole ++ (w.fractionText ++ rest)) ∧ n = w.base := by
    intro mid hpure
    obtain ⟨rfl, rfl⟩ := pure_eq_success hpure
    refine ⟨⟨negative, ds, [], none⟩, rfl, hds, by simp [Digits], rfl, ?_⟩
    simp [Numeral.base, JsonNumber.fromInt]
  rcases ite_eq_success h with ⟨_, h⟩ | ⟨_, h⟩
  · exact hint _ h
  obtain ⟨mid₄, c, hpeek, h⟩ := bind_eq_success h
  obtain ⟨tail, rfl, rfl⟩ := peek_eq_success hpeek
  rcases ite_eq_success h with ⟨rfl, h⟩ | ⟨_, h⟩
  · obtain ⟨mid₅, _, hskip, hrest⟩ := bind_eq_success h
    obtain rfl := skip_eq_success hskip
    obtain ⟨mid₆, r, hfrac, hrest⟩ := bind_eq_success hrest
    obtain ⟨fs, hfs, hne, rfl, rfl⟩ := natNumDigits_eq_success hfrac
    obtain ⟨_, hrest⟩ := ite_fail_eq_success hrest
    obtain ⟨rfl, rfl⟩ := pure_eq_success hrest
    obtain ⟨f, more, rfl⟩ := List.exists_cons_of_ne_nil hne
    refine ⟨⟨negative, ds, f :: more, none⟩, rfl, hds, hfs, rfl, ?_⟩
    simp only [Numeral.base, digitsValue_append]
    push_cast
    rfl
  · exact hint _ h

theorem shiftl_eq_success {it rest : List Char} {value n : JsonNumber}
    (h : (natMaybeZero >>= fun n =>
      if n > 2 ^ 64 then fail "exp too large" else pure (value.shiftl n)) it = .success rest n) :
    ∃ ds, Digits ds ∧ ds ≠ [] ∧ it = ds ++ rest ∧ n = value.shiftl (digitsValue ds) := by
  obtain ⟨mid, m, hdigits, h⟩ := bind_eq_success h
  obtain ⟨ds, hds, hne, hit, rfl⟩ := natMaybeZero_eq_success hdigits
  obtain ⟨_, h⟩ := ite_fail_eq_success h
  obtain ⟨rfl, rfl⟩ := pure_eq_success h
  exact ⟨ds, hds, hne, hit, rfl⟩

/-- An exponent, or none. -/
theorem exponent_eq_success {it rest : List Char} {value n : JsonNumber}
    (h : exponent value it = .success rest n) :
    (it = rest ∧ n = value) ∨
      ∃ e : ExpPart, Digits e.digits ∧ e.digits ≠ [] ∧ it = e.text ++ rest ∧ n = e.shift value := by
  rw [exponent] at h
  obtain ⟨mid₁, _, heof, h⟩ := bind_eq_success h
  obtain rfl := isEof_eq_success heof
  rcases ite_eq_success h with ⟨_, h⟩ | ⟨_, h⟩
  · obtain ⟨rfl, rfl⟩ := pure_eq_success h
    exact Or.inl ⟨rfl, rfl⟩
  obtain ⟨mid₂, c, hpeek, h⟩ := bind_eq_success h
  obtain ⟨tail, rfl, rfl⟩ := peek_eq_success hpeek
  rcases ite_eq_success h with ⟨hletter, h⟩ | ⟨_, h⟩
  · right
    obtain ⟨upper, rfl⟩ : ∃ upper : Bool, c = if upper then 'E' else 'e' := by
      rcases hletter with rfl | rfl
      · exact ⟨false, rfl⟩
      · exact ⟨true, rfl⟩
    obtain ⟨mid₃, _, hskip, hrest⟩ := bind_eq_success h
    obtain rfl := skip_eq_success hskip
    obtain ⟨mid₄, d, hpeek, hsign⟩ := bind_eq_success hrest
    obtain ⟨tail, rfl, rfl⟩ := peek_eq_success hpeek
    rcases ite_eq_success hsign with ⟨rfl, hminus⟩ | ⟨_, hsign⟩
    · obtain ⟨mid₅, _, hskip, hshift⟩ := bind_eq_success hminus
      obtain rfl := skip_eq_success hskip
      obtain ⟨mid₆, m, hdigits, hpure⟩ := bind_eq_success hshift
      obtain ⟨ds, hds, hne, rfl, rfl⟩ := natMaybeZero_eq_success hdigits
      obtain ⟨rfl, rfl⟩ := pure_eq_success hpure
      exact ⟨⟨upper, some true, ds⟩, hds, hne, rfl, rfl⟩
    rcases ite_eq_success hsign with ⟨rfl, hplus⟩ | ⟨_, hplain⟩
    · obtain ⟨mid₅, _, hskip, hshift⟩ := bind_eq_success hplus
      obtain rfl := skip_eq_success hskip
      obtain ⟨ds, hds, hne, rfl, rfl⟩ := shiftl_eq_success hshift
      exact ⟨⟨upper, some false, ds⟩, hds, hne, rfl, rfl⟩
    · obtain ⟨ds, hds, hne, heq, rfl⟩ := shiftl_eq_success hplain
      refine ⟨⟨upper, none, ds⟩, hds, hne, ?_, rfl⟩
      rw [heq]
      rfl
  · obtain ⟨rfl, rfl⟩ := pure_eq_success h
    exact Or.inl ⟨rfl, rfl⟩

/-- What the number parser reads is a numeral, and its value. -/
theorem num_eq_success {it rest : List Char} {n : JsonNumber} (h : num it = .success rest n) :
    ∃ w : Numeral, w.Valid ∧ it = w.text ++ rest ∧ n = w.value := by
  rw [num] at h
  obtain ⟨mid, m, hdecimals, h⟩ := bind_eq_success h
  obtain ⟨w, hnone, hwhole, hfraction, rfl, rfl⟩ := numWithDecimals_eq_success hdecimals
  rcases exponent_eq_success h with ⟨rfl, rfl⟩ | ⟨e, hds, hne, rfl, rfl⟩
  · refine ⟨w, ⟨hwhole, hfraction, ?_⟩, ?_, ?_⟩
    · intro e he
      exact absurd (hnone.symm.trans he) (Option.some_ne_none e).symm
    · simp [Numeral.text, Numeral.exponentText, hnone]
    · simp [Numeral.value, hnone]
  · refine ⟨{ w with exponent := some e }, ⟨hwhole, hfraction, ?_⟩, ?_, rfl⟩
    · intro e' he
      obtain rfl := Option.some.inj he
      exact ⟨hds, hne⟩
    · simp [Numeral.text, Numeral.exponentText, Numeral.fractionText]

/-! ## Derivations -/

/-- A word of the grammar, and what it stands for. -/
inductive Keyword : List Char → Raw → Prop
  | null : Keyword ['n', 'u', 'l', 'l'] .null
  | true : Keyword ['t', 'r', 'u', 'e'] (.bool true)
  | false : Keyword ['f', 'a', 'l', 's', 'e'] (.bool false)

/-- The key of a member, up to its value. -/
inductive KeyText : List Char → List Char → String → Prop
  | intro {it it₁ it₂ rest : List Char} {k : String} :
      StrText it it₁ k.toList → Blanks it₁ (':' :: it₂) → Blanks it₂ rest →
      KeyText ('"' :: it) rest k

mutual

/-- A value with the blanks behind it. -/
inductive AnyText : List Char → List Char → Raw → Prop
  | word {ks it rest : List Char} {t : Raw} :
      Keyword ks t → Blanks it rest → AnyText (ks ++ it) rest t
  | num {w : Numeral} {it rest : List Char} :
      w.Valid → Blanks it rest → AnyText (w.text ++ it) rest (.num w.value)
  | str {it mid rest : List Char} {s : String} :
      StrText it mid s.toList → Blanks mid rest → AnyText ('"' :: it) rest (.str s)
  | arrNil {it mid rest : List Char} :
      Blanks it (']' :: mid) → Blanks mid rest → AnyText ('[' :: it) rest (.arr [])
  | arr {it mid rest : List Char} {ts : List Raw} :
      Blanks it mid → ElemsText mid rest ts → AnyText ('[' :: it) rest (.arr ts)
  | objNil {it mid rest : List Char} :
      Blanks it ('\x7d' :: mid) → Blanks mid rest → AnyText ('\x7b' :: it) rest (.obj [])
  | obj {it mid rest : List Char} {ms : List (String × Raw)} :
      Blanks it mid → MembersText mid rest ms → AnyText ('\x7b' :: it) rest (.obj ms)

/-- The elements of an array up to its end. -/
inductive ElemsText : List Char → List Char → List Raw → Prop
  | last {it mid rest : List Char} {t : Raw} :
      AnyText it (']' :: mid) t → Blanks mid rest → ElemsText it rest [t]
  | cons {it mid next rest : List Char} {t : Raw} {ts : List Raw} :
      AnyText it (',' :: mid) t → Blanks mid next → ElemsText next rest ts →
      ElemsText it rest (t :: ts)

/-- The members of an object up to its end. -/
inductive MembersText : List Char → List Char → List (String × Raw) → Prop
  | last {it val mid rest : List Char} {k : String} {t : Raw} :
      KeyText it val k → AnyText val ('\x7d' :: mid) t → Blanks mid rest →
      MembersText it rest [(k, t)]
  | cons {it val mid next rest : List Char} {k : String} {t : Raw}
      {ms : List (String × Raw)} :
      KeyText it val k → AnyText val (',' :: mid) t → Blanks mid next →
      MembersText next rest ms → MembersText it rest ((k, t) :: ms)

end

/-! ## The parser derives what it reads -/

theorem skipString_eq_success {s : String} {it rest : List Char} {u : Unit}
    (h : skipString s it = .success rest u) : it = s.toList ++ rest := by
  rw [skipString] at h
  by_cases hstart : s.toList.isPrefixOf it = true
  · rw [if_pos hstart] at h
    injection h with hrest
    obtain ⟨tail, rfl⟩ := List.isPrefixOf_iff_prefix.mp hstart
    rw [← hrest, ← String.length_toList, List.drop_left]
  · rw [if_neg hstart] at h
    exact absurd h error_ne_success

theorem keyword_eq_success {s : String} {ks : List Char} {t u : Raw} {it rest : List Char}
    (hs : s.toList = ks) (hword : Keyword ks t)
    (h : (skipString s >>= fun _ => ws >>= fun _ => (pure t : Parser Raw)) it = .success rest u) :
    AnyText it rest u := by
  obtain ⟨mid, _, hskip, h⟩ := bind_eq_success h
  obtain ⟨end', _, hws, h⟩ := bind_eq_success h
  obtain ⟨rfl, rfl⟩ := pure_eq_success h
  rw [skipString_eq_success hskip, hs]
  exact .word hword (ws_eq_success hws)

/-- What a successful run of each of the three parsers has read. -/
structure Derives (fuel : Nat) : Prop where
  array : ∀ {acc ts : List Raw} {it rest : List Char},
    arrayRaw fuel acc it = .success rest ts → ∃ us, ts = acc ++ us ∧ ElemsText it rest us
  object : ∀ {members ms : List (String × Raw)} {it rest : List Char},
    objectRaw fuel members it = .success rest ms → ∃ ns, ms = members ++ ns ∧ MembersText it rest ns
  any : ∀ {t : Raw} {it rest : List Char}, anyRaw fuel it = .success rest t → AnyText it rest t

theorem derives_array {fuel : Nat} (ih : Derives fuel) {acc ts : List Raw}
    {it rest : List Char} (h : arrayRaw (fuel + 1) acc it = .success rest ts) :
    ∃ us, ts = acc ++ us ∧ ElemsText it rest us := by
  rw [arrayRaw] at h
  obtain ⟨mid, hd, hhead, h⟩ := bind_eq_success h
  obtain ⟨mid', c, hany, h⟩ := bind_eq_success h
  have htext := ih.any hhead
  rw [any_eq_success hany] at htext
  rcases ite_eq_success h with ⟨rfl, h⟩ | ⟨_, h⟩
  · obtain ⟨_, _, hws, h⟩ := bind_eq_success h
    obtain ⟨rfl, rfl⟩ := pure_eq_success h
    exact ⟨[hd], rfl, .last htext (ws_eq_success hws)⟩
  rcases ite_eq_success h with ⟨rfl, h⟩ | ⟨_, h⟩
  · obtain ⟨_, _, hws, h⟩ := bind_eq_success h
    obtain ⟨us, rfl, hrest⟩ := ih.array h
    exact ⟨hd :: us, by rw [List.append_assoc, List.singleton_append],
      .cons htext (ws_eq_success hws) hrest⟩
  · exact absurd h error_ne_success

theorem derives_object {fuel : Nat} (ih : Derives fuel) {members ms : List (String × Raw)}
    {it rest : List Char} (h : objectRaw (fuel + 1) members it = .success rest ms) :
    ∃ ns, ms = members ++ ns ∧ MembersText it rest ns := by
  rw [objectRaw] at h
  obtain ⟨_, _, hquote, h⟩ := bind_eq_success h
  obtain ⟨q, tail, rfl, rfl, hq⟩ := lookahead_eq_success hquote
  obtain rfl := of_decide_eq_true hq
  obtain ⟨_, _, hskip, h₁⟩ := bind_eq_success h
  obtain rfl := skip_eq_success hskip
  obtain ⟨_, k, hkey, h₂⟩ := bind_eq_success h₁
  obtain ⟨_, _, hws, h₃⟩ := bind_eq_success h₂
  obtain ⟨_, _, hcolon, h₄⟩ := bind_eq_success h₃
  obtain ⟨d, tail, rfl, rfl, hd⟩ := lookahead_eq_success hcolon
  obtain rfl := of_decide_eq_true hd
  obtain ⟨_, _, hskip, h₅⟩ := bind_eq_success h₄
  obtain rfl := skip_eq_success hskip
  obtain ⟨val, _, hws', h₆⟩ := bind_eq_success h₅
  have hktext : KeyText ('"' :: _) val k :=
    .intro (str_eq_success hkey) (ws_eq_success hws) (ws_eq_success hws')
  obtain ⟨_, v, hvalue, h₇⟩ := bind_eq_success h₆
  obtain ⟨mid, c, hany, h₈⟩ := bind_eq_success h₇
  have htext := ih.any hvalue
  rw [any_eq_success hany] at htext
  rcases ite_eq_success h₈ with ⟨rfl, hend⟩ | ⟨_, hnext⟩
  · obtain ⟨_, _, hws, hend⟩ := bind_eq_success hend
    obtain ⟨rfl, rfl⟩ := pure_eq_success hend
    exact ⟨[(k, v)], rfl, .last hktext htext (ws_eq_success hws)⟩
  rcases ite_eq_success hnext with ⟨rfl, hnext⟩ | ⟨_, hfail⟩
  · obtain ⟨_, _, hws, hnext⟩ := bind_eq_success hnext
    obtain ⟨ns, rfl, hrest⟩ := ih.object hnext
    exact ⟨(k, v) :: ns, by rw [List.append_assoc, List.singleton_append],
      .cons hktext htext (ws_eq_success hws) hrest⟩
  · exact absurd hfail error_ne_success

theorem derives_any {fuel : Nat} (ih : Derives fuel) {t : Raw} {it rest : List Char}
    (h : anyRaw (fuel + 1) it = .success rest t) : AnyText it rest t := by
  rw [anyRaw] at h
  obtain ⟨_, c, hpeek, h⟩ := bind_eq_success h
  obtain ⟨tail, rfl, rfl⟩ := peek_eq_success hpeek
  rcases ite_eq_success h with ⟨rfl, harr⟩ | ⟨_, h⟩
  · obtain ⟨_, _, hskip, h₁⟩ := bind_eq_success harr
    obtain rfl := skip_eq_success hskip
    obtain ⟨_, _, hws, h₂⟩ := bind_eq_success h₁
    obtain ⟨_, c, hpeek, h₃⟩ := bind_eq_success h₂
    obtain ⟨tail, rfl, rfl⟩ := peek_eq_success hpeek
    rcases ite_eq_success h₃ with ⟨rfl, hnil⟩ | ⟨_, helems⟩
    · obtain ⟨_, _, hskip, h₄⟩ := bind_eq_success hnil
      obtain rfl := skip_eq_success hskip
      obtain ⟨_, _, hws', h₅⟩ := bind_eq_success h₄
      obtain ⟨rfl, rfl⟩ := pure_eq_success h₅
      exact .arrNil (ws_eq_success hws) (ws_eq_success hws')
    · obtain ⟨_, ts, hts, hpure⟩ := bind_eq_success helems
      obtain ⟨rfl, rfl⟩ := pure_eq_success hpure
      obtain ⟨us, rfl, htext⟩ := ih.array hts
      exact .arr (ws_eq_success hws) htext
  rcases ite_eq_success h with ⟨rfl, hobj⟩ | ⟨_, h⟩
  · obtain ⟨_, _, hskip, h₁⟩ := bind_eq_success hobj
    obtain rfl := skip_eq_success hskip
    obtain ⟨_, _, hws, h₂⟩ := bind_eq_success h₁
    obtain ⟨_, c, hpeek, h₃⟩ := bind_eq_success h₂
    obtain ⟨tail, rfl, rfl⟩ := peek_eq_success hpeek
    rcases ite_eq_success h₃ with ⟨rfl, hnil⟩ | ⟨_, hmembers⟩
    · obtain ⟨_, _, hskip, h₄⟩ := bind_eq_success hnil
      obtain rfl := skip_eq_success hskip
      obtain ⟨_, _, hws', h₅⟩ := bind_eq_success h₄
      obtain ⟨rfl, rfl⟩ := pure_eq_success h₅
      exact .objNil (ws_eq_success hws) (ws_eq_success hws')
    · obtain ⟨_, ms, hms, hpure⟩ := bind_eq_success hmembers
      obtain ⟨rfl, rfl⟩ := pure_eq_success hpure
      obtain ⟨ns, rfl, htext⟩ := ih.object hms
      exact .obj (ws_eq_success hws) htext
  rcases ite_eq_success h with ⟨rfl, hstr⟩ | ⟨_, h⟩
  · obtain ⟨_, _, hskip, h₁⟩ := bind_eq_success hstr
    obtain rfl := skip_eq_success hskip
    obtain ⟨_, s, hs, h₂⟩ := bind_eq_success h₁
    obtain ⟨_, _, hws, h₃⟩ := bind_eq_success h₂
    obtain ⟨rfl, rfl⟩ := pure_eq_success h₃
    exact .str (str_eq_success hs) (ws_eq_success hws)
  rcases ite_eq_success h with ⟨_, hword⟩ | ⟨_, h⟩
  · exact keyword_eq_success (by decide : "false".toList = _) .false hword
  rcases ite_eq_success h with ⟨_, hword⟩ | ⟨_, h⟩
  · exact keyword_eq_success (by decide : "true".toList = _) .true hword
  rcases ite_eq_success h with ⟨_, hword⟩ | ⟨_, h⟩
  · exact keyword_eq_success (by decide : "null".toList = _) .null hword
  rcases ite_eq_success h with ⟨_, hnum⟩ | ⟨_, h⟩
  · obtain ⟨_, n, hn, h₁⟩ := bind_eq_success hnum
    obtain ⟨_, _, hws, h₂⟩ := bind_eq_success h₁
    obtain ⟨rfl, rfl⟩ := pure_eq_success h₂
    obtain ⟨w, hvalid, heq, rfl⟩ := num_eq_success hn
    rw [heq]
    exact .num hvalid (ws_eq_success hws)
  · exact absurd h error_ne_success

theorem derives : ∀ fuel : Nat, Derives fuel
  | 0 =>
      { array := fun h => absurd h error_ne_success
        object := fun h => absurd h error_ne_success
        any := fun h => absurd h error_ne_success }
  | fuel + 1 =>
      { array := derives_array (derives fuel)
        object := derives_object (derives fuel)
        any := derives_any (derives fuel) }

end Parser

/-- A line the parser accepts is blanks and one value. -/
theorem exists_anyText_of_parseRaw {s : String} {t : Raw} (h : parseRaw s = .ok t) :
    ∃ it, Parser.Blanks s.toList it ∧ Parser.AnyText it [] t := by
  simp only [parseRaw] at h
  split at h
  · rename_i rest res hdoc
    obtain rfl := Except.ok.inj h
    rw [Parser.documentRaw] at hdoc
    obtain ⟨it, _, hws, hdoc⟩ := Parser.bind_eq_success hdoc
    obtain ⟨mid, t, hany, hdoc⟩ := Parser.bind_eq_success hdoc
    obtain ⟨mid', _, heof, hdoc⟩ := Parser.bind_eq_success hdoc
    obtain ⟨rfl, rfl⟩ := Parser.pure_eq_success hdoc
    obtain rfl := Parser.eof_eq_success heof
    exact ⟨it, Parser.ws_eq_success hws, (Parser.derives _).any hany⟩
  · exact absurd h (by simp)

end McpSeal.Data.Json
