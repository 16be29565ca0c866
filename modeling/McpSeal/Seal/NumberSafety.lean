import McpSeal.Data.JsonTokens
import McpSeal.Seal.NumberAgreement
set_option autoImplicit false

/-!
# Seal: what the number scans say about the parsed value (`Seal/JsonUtil.lean`)

The three number scans run on the characters of the line and know nothing of the
parser.  Each of them watches the numbers of the line in the sense of
`Data.JsonTokens`, so that what it finds on the characters holds of every number
of the value the parser reads.
-/

namespace McpSeal.Seal.JsonUtil

open McpSeal.Data
open McpSeal.Data.Json (Raw)
open McpSeal.Data.Json.Parser

/-! ## Characters that do not move a scan -/

theorem foldl_fixed_of_mem {σ : Type} {step : σ → Char → σ} {st : σ} {cs : List Char}
    (h : ∀ c ∈ cs, step st c = st) : cs.foldl step st = st := by
  induction cs with
  | nil => rfl
  | cons c cs ih =>
      obtain ⟨hc, hcs⟩ := List.forall_mem_cons.mp h
      rw [List.foldl_cons, hc, ih hcs]

/-- A mark is none of the characters the scans look for. -/
theorem ne_of_isMark {c : Char} (h : isMark c = true) :
    c ≠ '"' ∧ c ≠ '+' ∧ c ≠ '-' ∧ c ≠ '.' ∧ c ≠ 'e' ∧ c ≠ 'E' ∧ c.isDigit = false := by
  simp only [isMark, isBlank, Bool.or_eq_true, decide_eq_true_eq, beq_iff_eq] at h
  rcases h with ((((((((rfl | rfl) | rfl) | rfl) | rfl) | rfl) | rfl) | rfl) | rfl) | rfl <;>
    decide

theorem ne_of_digit_char {c : Char} (h : '0' ≤ c ∧ c ≤ '9') :
    c ≠ '"' ∧ c ≠ '+' ∧ c ≠ '-' ∧ c ≠ '.' ∧ c ≠ 'e' ∧ c ≠ 'E' ∧ c.isDigit = true := by
  refine ⟨?_, ?_, ?_, ?_, ?_, ?_, by simpa [Char.isDigit, Char.le_def] using h⟩ <;>
    rintro rfl <;> exact absurd h (by decide)

/-- The part of a number in front of its exponent. -/
def mantissaText (w : Numeral) : List Char :=
  signChars w.negative ++ (w.whole ++ w.fractionText)

theorem text_eq_mantissaText (w : Numeral) : w.text = mantissaText w ++ w.exponentText := by
  simp [Numeral.text, mantissaText]

theorem mem_mantissaText {w : Numeral} (h : w.Valid) {c : Char} (hc : c ∈ mantissaText w) :
    ('0' ≤ c ∧ c ≤ '9') ∨ c = '-' ∨ c = '.' := by
  simp only [mantissaText, List.mem_append] at hc
  rcases hc with hc | hc | hc
  · rw [signChars] at hc
    split at hc
    · exact Or.inr (Or.inl (List.mem_singleton.mp hc))
    · exact absurd hc List.not_mem_nil
  · exact Or.inl (h.whole.digits c hc)
  · rcases Numeral.mem_fractionText hc with rfl | hc
    · exact Or.inr (Or.inr rfl)
    · exact Or.inl (h.fraction c hc)

/-! ## Exponents -/

/-- The exponent scan outside of every string. -/
structure NumberScan.Outside (st : NumberScan) : Prop where
  inString : st.inString = false
  escaped : st.escaped = false

/-- The exponent scan between tokens. -/
structure NumberScan.Fresh (st : NumberScan) : Prop extends NumberScan.Outside st where
  inExp : st.inExp = false

/-- The exponent of the number has been counted. -/
def NumberScan.Seen (w : Numeral) (st : NumberScan) : Prop :=
  ∀ e, w.exponent = some e → e.digits.length ≤ st.worst

theorem numberScan_mark {st : NumberScan} (h : st.Outside) {c : Char} (hc : isMark c = true) :
    (numberScanStep st c).Fresh ∧ (numberScanStep st c).worst = st.worst := by
  obtain ⟨hstring, hescaped⟩ := h
  obtain ⟨hquote, hplus, hminus, _, he, hE, hdigit⟩ := ne_of_isMark hc
  cases hexp : st.inExp with
  | true =>
      have hstep : numberScanStep st c = { st with inExp := false, expLen := 0 } := by
        simp [numberScanStep, hstring, hexp, hquote, hdigit, hplus, hminus]
      rw [hstep]
      exact ⟨⟨⟨hstring, hescaped⟩, rfl⟩, rfl⟩
  | false =>
      have hstep : numberScanStep st c = st := by
        simp [numberScanStep, hstring, hexp, hquote, he, hE]
      rw [hstep]
      exact ⟨⟨⟨hstring, hescaped⟩, hexp⟩, rfl⟩

theorem numberScan_str {st : NumberScan} (h : st.Outside) {it rest cs : List Char}
    (hstr : StrText it rest cs) :
    ('"' :: it).foldl numberScanStep st =
      rest.foldl numberScanStep { st with inExp := false, expLen := 0 } := by
  obtain ⟨hstring, hescaped⟩ := h
  have hopen : numberScanStep st '"' =
      { st with inString := true, inExp := false, expLen := 0 } := by
    simp [numberScanStep, hstring]
  have hplain : ∀ c, c ≠ '"' → c ≠ '\\' →
      numberScanStep { st with inString := true, inExp := false, expLen := 0 } c =
        { st with inString := true, inExp := false, expLen := 0 } := by
    intro c hquote hslash
    simp [numberScanStep, hescaped, hquote, hslash]
  rw [List.foldl_cons, hopen, hstr.foldl hplain rfl]
  · simp [numberScanStep, hescaped, hstring]
  · intro c
    simp [numberScanStep, hescaped]

theorem numberScan_word {st : NumberScan} (h : st.Fresh) {ks : List Char} {t : Raw}
    (hword : Keyword ks t) :
    (ks.foldl numberScanStep st).Outside ∧ (ks.foldl numberScanStep st).worst = st.worst := by
  obtain ⟨⟨hstring, hescaped⟩, hexp⟩ := h
  cases hword with
  | null =>
      have hscan : ['n', 'u', 'l', 'l'].foldl numberScanStep st = st := by
        simp [numberScanStep, hstring, hexp]
      rw [hscan]
      exact ⟨⟨hstring, hescaped⟩, rfl⟩
  | true =>
      have hscan : ['t', 'r', 'u', 'e'].foldl numberScanStep st =
          { st with inExp := true, expLen := 0 } := by
        simp [numberScanStep, hstring, hexp]
      rw [hscan]
      exact ⟨⟨hstring, hescaped⟩, rfl⟩
  | false =>
      have hscan : ['f', 'a', 'l', 's', 'e'].foldl numberScanStep st =
          { st with inExp := true, expLen := 0 } := by
        simp [numberScanStep, hstring, hexp]
      rw [hscan]
      exact ⟨⟨hstring, hescaped⟩, rfl⟩

/-- In an exponent the digits are counted. -/
theorem numberScan_digits {ds : List Char} (hds : Digits ds) (st : NumberScan)
    (h : st.Outside) (hexp : st.inExp = true) :
    (ds.foldl numberScanStep st).Outside ∧ st.worst ≤ (ds.foldl numberScanStep st).worst ∧
      (ds ≠ [] → st.expLen + ds.length ≤ (ds.foldl numberScanStep st).worst) := by
  induction ds generalizing st with
  | nil => exact ⟨h, le_refl _, fun hne => absurd rfl hne⟩
  | cons d ds ih =>
      obtain ⟨hd, hds⟩ := List.forall_mem_cons.mp hds
      obtain ⟨hquote, _, _, _, _, _, hdigit⟩ := ne_of_digit_char hd
      have hstep : numberScanStep st d =
          { st with expLen := st.expLen + 1, worst := max st.worst (st.expLen + 1) } := by
        simp [numberScanStep, h.inString, hexp, hquote, hdigit]
      rw [List.foldl_cons, hstep]
      obtain ⟨houtside, hworst, hcount⟩ := ih hds
        { st with expLen := st.expLen + 1, worst := max st.worst (st.expLen + 1) }
        ⟨h.inString, h.escaped⟩ hexp
      refine ⟨houtside, le_trans (le_max_left _ _) hworst, fun _ => ?_⟩
      cases ds with
      | nil => exact le_trans (le_max_right _ _) hworst
      | cons e ds =>
          have hle := hcount (List.cons_ne_nil e ds)
          simp only [List.length_cons] at hle ⊢
          omega

theorem numberScan_num {st : NumberScan} (h : st.Fresh) {w : Numeral} (hvalid : w.Valid) :
    (w.text.foldl numberScanStep st).Outside ∧
      NumberScan.Seen w (w.text.foldl numberScanStep st) ∧
      st.worst ≤ (w.text.foldl numberScanStep st).worst := by
  obtain ⟨⟨hstring, hescaped⟩, hexp⟩ := h
  have hmantissa : (mantissaText w).foldl numberScanStep st = st := by
    refine foldl_fixed_of_mem fun c hc => ?_
    rcases mem_mantissaText hvalid hc with hdigit | rfl | rfl
    · obtain ⟨hquote, _, _, _, he, hE, _⟩ := ne_of_digit_char hdigit
      simp [numberScanStep, hstring, hexp, hquote, he, hE]
    · simp [numberScanStep, hstring, hexp]
    · simp [numberScanStep, hstring, hexp]
  rw [text_eq_mantissaText, List.foldl_append, hmantissa]
  cases he : w.exponent with
  | none =>
      rw [Numeral.exponentText, he]
      refine ⟨⟨hstring, hescaped⟩, ?_, le_refl _⟩
      intro e he'
      exact absurd (he.symm.trans he') (Option.some_ne_none e).symm
  | some e =>
      obtain ⟨hds, hne⟩ := hvalid.exponent e he
      have hletter : numberScanStep st (if e.upper then 'E' else 'e') =
          { st with inExp := true, expLen := 0 } := by
        cases e.upper <;> simp [numberScanStep, hstring, hexp]
      have hsign : e.signText.foldl numberScanStep { st with inExp := true, expLen := 0 } =
          { st with inExp := true, expLen := 0 } := by
        refine foldl_fixed_of_mem fun c hc => ?_
        rw [ExpPart.signText] at hc
        split at hc
        · exact absurd hc List.not_mem_nil
        · rename_i minus _
          rw [List.mem_singleton.mp hc]
          cases minus <;> simp [numberScanStep, hstring, Char.isDigit]
      have htext : w.exponentText = e.text := by rw [Numeral.exponentText, he]
      rw [htext, ExpPart.text, List.foldl_cons, hletter, List.foldl_append, hsign]
      obtain ⟨houtside, hworst, hcount⟩ := numberScan_digits hds
        { st with inExp := true, expLen := 0 } ⟨hstring, hescaped⟩ rfl
      refine ⟨houtside, ?_, hworst⟩
      intro e' he'
      obtain rfl := Option.some.inj (he.symm.trans he')
      exact le_trans (Nat.le_add_left _ _) (hcount hne)

theorem watches_numberScan :
    Watches numberScanStep NumberScan.Fresh NumberScan.Outside NumberScan.Seen where
  outside h := h.toOutside
  mark h hc := by
    obtain ⟨hfresh, hworst⟩ := numberScan_mark h hc
    exact ⟨hfresh, fun w hw e he => le_of_le_of_eq (hw e he) hworst.symm⟩
  str h hstr :=
    ⟨_, numberScan_str h.toOutside hstr, ⟨⟨h.inString, h.escaped⟩, rfl⟩, fun _ hw => hw⟩
  word h hword := by
    obtain ⟨houtside, hworst⟩ := numberScan_word h hword
    exact ⟨houtside, fun w hw e he => le_of_le_of_eq (hw e he) hworst.symm⟩
  num h hvalid := by
    obtain ⟨houtside, hseen, hworst⟩ := numberScan_num h hvalid
    exact ⟨houtside, hseen, fun v hv e he => le_trans (hv e he) hworst⟩

/-! ## Digits -/

/-- The digit scan outside of every string. -/
structure DigitScan.Outside (st : DigitScan) : Prop where
  inString : st.inString = false
  escaped : st.escaped = false

/-- The digit scan between tokens. -/
structure DigitScan.Fresh (st : DigitScan) : Prop extends DigitScan.Outside st where
  inExp : st.inExp = false
  run : st.run = 0

/-- The digits of the number have been counted. -/
def DigitScan.Seen (w : Numeral) (st : DigitScan) : Prop :=
  (w.whole ++ w.fraction).length ≤ st.worst

theorem digitScan_mark {st : DigitScan} (h : st.Outside) {c : Char} (hc : isMark c = true) :
    digitScanStep st c = { st with inExp := false, run := 0 } := by
  obtain ⟨hquote, hplus, hminus, hpoint, he, hE, hdigit⟩ := ne_of_isMark hc
  simp [digitScanStep, h.inString, hquote, hplus, hminus, hpoint, he, hE, hdigit]

theorem digitScan_str {st : DigitScan} (h : st.Outside) {it rest cs : List Char}
    (hstr : StrText it rest cs) :
    ('"' :: it).foldl digitScanStep st =
      rest.foldl digitScanStep { st with inExp := false, run := 0 } := by
  have hopen : digitScanStep st '"' =
      { st with inString := true, inExp := false, run := 0 } := by
    simp [digitScanStep, h.inString]
  have hplain : ∀ c, c ≠ '"' → c ≠ '\\' →
      digitScanStep { st with inString := true, inExp := false, run := 0 } c =
        { st with inString := true, inExp := false, run := 0 } := by
    intro c hquote hslash
    simp [digitScanStep, h.escaped, hquote, hslash]
  rw [List.foldl_cons, hopen, hstr.foldl hplain rfl]
  · simp [digitScanStep, h.escaped, h.inString]
  · intro c
    simp [digitScanStep, h.escaped]

theorem digitScan_word {st : DigitScan} (h : st.Fresh) {ks : List Char} {t : Raw}
    (hword : Keyword ks t) :
    (ks.foldl digitScanStep st).Outside ∧ (ks.foldl digitScanStep st).worst = st.worst := by
  cases hword <;>
    simp only [List.foldl_cons, List.foldl_nil] <;>
    refine ⟨⟨?_, ?_⟩, ?_⟩ <;>
    simp [digitScanStep, h.inString, h.escaped, Char.isDigit]

/-- In front of an exponent the digits are counted. -/
theorem digitScan_digits {ds : List Char} (hds : Digits ds) (st : DigitScan) (h : st.Outside)
    (hexp : st.inExp = false) :
    (ds.foldl digitScanStep st).Outside ∧ (ds.foldl digitScanStep st).inExp = false ∧
      (ds.foldl digitScanStep st).run = st.run + ds.length ∧
      st.worst ≤ (ds.foldl digitScanStep st).worst ∧
      (ds ≠ [] → st.run + ds.length ≤ (ds.foldl digitScanStep st).worst) := by
  induction ds generalizing st with
  | nil => exact ⟨h, hexp, rfl, le_refl _, fun hne => absurd rfl hne⟩
  | cons d ds ih =>
      obtain ⟨hd, hds⟩ := List.forall_mem_cons.mp hds
      obtain ⟨hquote, hplus, hminus, _, he, hE, hdigit⟩ := ne_of_digit_char hd
      have hstep : digitScanStep st d =
          { st with run := st.run + 1, worst := max st.worst (st.run + 1) } := by
        simp [digitScanStep, h.inString, hexp, hquote, hplus, hminus, he, hE, hdigit]
      rw [List.foldl_cons, hstep]
      obtain ⟨houtside, hexp', hrun, hworst, hcount⟩ := ih hds
        { st with run := st.run + 1, worst := max st.worst (st.run + 1) }
        ⟨h.inString, h.escaped⟩ hexp
      refine ⟨houtside, hexp', ?_, le_trans (le_max_left _ _) hworst, fun _ => ?_⟩
      · rw [hrun, List.length_cons]
        exact Nat.add_right_comm st.run 1 ds.length
      · cases ds with
        | nil => exact le_trans (le_max_right _ _) hworst
        | cons e ds =>
            have hle := hcount (List.cons_ne_nil e ds)
            simp only [List.length_cons] at hle ⊢
            omega

/-- In an exponent they are not. -/
theorem digitScan_exponent {st : DigitScan} (h : st.Outside) {w : Numeral} (hvalid : w.Valid) :
    (w.exponentText.foldl digitScanStep st).Outside ∧
      (w.exponentText.foldl digitScanStep st).worst = st.worst := by
  cases he : w.exponent with
  | none =>
      rw [Numeral.exponentText, he]
      exact ⟨h, rfl⟩
  | some e =>
      have htext : w.exponentText = e.text := by rw [Numeral.exponentText, he]
      have hletter : digitScanStep st (if e.upper then 'E' else 'e') =
          { st with inExp := true } := by
        cases e.upper <;> simp [digitScanStep, h.inString]
      have hrest : (e.signText ++ e.digits).foldl digitScanStep { st with inExp := true } =
          { st with inExp := true } := by
        refine foldl_fixed_of_mem fun c hc => ?_
        rcases List.mem_append.mp hc with hc | hc
        · rw [ExpPart.signText] at hc
          split at hc
          · exact absurd hc List.not_mem_nil
          · rename_i minus _
            rw [List.mem_singleton.mp hc]
            cases minus <;> simp [digitScanStep, h.inString]
        · obtain ⟨hquote, hplus, hminus, _, he', hE, hdigit⟩ :=
            ne_of_digit_char ((hvalid.exponent e he).1 c hc)
          simp [digitScanStep, h.inString, hquote, hplus, hminus, he', hE, hdigit]
      rw [htext, ExpPart.text, List.foldl_cons, hletter, hrest]
      exact ⟨⟨h.inString, h.escaped⟩, rfl⟩

theorem digitScan_num {st : DigitScan} (h : st.Fresh) {w : Numeral} (hvalid : w.Valid) :
    (w.text.foldl digitScanStep st).Outside ∧
      DigitScan.Seen w (w.text.foldl digitScanStep st) ∧
      st.worst ≤ (w.text.foldl digitScanStep st).worst := by
  have hsign : (signChars w.negative).foldl digitScanStep st = st := by
    cases w.negative <;> simp [signChars, digitScanStep, h.inString]
  obtain ⟨houtside, hexp, hrun, hworst, hcount⟩ :=
    digitScan_digits hvalid.whole.digits st h.toOutside h.inExp
  have hwhole : w.whole ≠ [] := by
    obtain ⟨c, rest, heq, _⟩ := hvalid.whole.first
    rw [heq]
    exact List.cons_ne_nil c rest
  rw [h.run, Nat.zero_add] at hrun hcount
  have hfraction : (w.fractionText.foldl digitScanStep (w.whole.foldl digitScanStep st)).Outside ∧
      DigitScan.Seen w (w.fractionText.foldl digitScanStep (w.whole.foldl digitScanStep st)) ∧
      st.worst ≤ (w.fractionText.foldl digitScanStep (w.whole.foldl digitScanStep st)).worst := by
    rw [DigitScan.Seen, List.length_append, Numeral.fractionText]
    cases hfs : w.fraction with
    | nil => exact ⟨houtside, hcount hwhole, hworst⟩
    | cons f fs =>
        have hpoint : digitScanStep (w.whole.foldl digitScanStep st) '.' =
            w.whole.foldl digitScanStep st := by
          simp [digitScanStep, houtside.inString, Char.isDigit]
        have hds : Digits (f :: fs) := hfs ▸ hvalid.fraction
        obtain ⟨houtside', _, _, hworst', hcount'⟩ := digitScan_digits hds _ houtside hexp
        rw [hrun] at hcount'
        rw [List.foldl_cons, hpoint]
        exact ⟨houtside', hcount' (List.cons_ne_nil f fs), le_trans hworst hworst'⟩
  obtain ⟨houtside', hseen, hworst'⟩ := hfraction
  obtain ⟨hend, heq⟩ := digitScan_exponent houtside' hvalid
  rw [text_eq_mantissaText, mantissaText, List.foldl_append, List.foldl_append,
    List.foldl_append, hsign]
  exact ⟨hend, le_of_le_of_eq hseen heq.symm, le_of_le_of_eq hworst' heq.symm⟩

theorem watches_digitScan :
    Watches digitScanStep DigitScan.Fresh DigitScan.Outside DigitScan.Seen where
  outside h := h.toOutside
  mark {st c} h hc := by
    rw [digitScan_mark h hc]
    exact ⟨⟨⟨h.inString, h.escaped⟩, rfl, rfl⟩, fun _ hw => hw⟩
  str h hstr :=
    ⟨_, digitScan_str h.toOutside hstr, ⟨⟨h.inString, h.escaped⟩, rfl, rfl⟩, fun _ hw => hw⟩
  word h hword := by
    obtain ⟨houtside, hworst⟩ := digitScan_word h hword
    exact ⟨houtside, fun w hw => le_of_le_of_eq hw hworst.symm⟩
  num h hvalid := by
    obtain ⟨houtside, hseen, hworst⟩ := digitScan_num h hvalid
    exact ⟨houtside, hseen, fun v hv => le_trans hv hworst⟩

/-! ## Agreement -/

/-- The agreement scan outside of every string, or stopped at a refused number. -/
def AgreementScan.Outside (st : AgreementScan) : Prop :=
  st.offending.isSome = true ∨ (st.inString = false ∧ st.escaped = false)

/-- The agreement scan between tokens, or stopped at a refused number. -/
def AgreementScan.Fresh (st : AgreementScan) : Prop :=
  st.offending.isSome = true ∨
    (st.inString = false ∧ st.escaped = false ∧ st.inNumber = false)

/-- The number has been refused if it is unsafe. -/
def AgreementScan.Seen (w : Numeral) (st : AgreementScan) : Prop :=
  numberLiteralAgreementSafe? (String.ofList w.text) = some false →
    (finishAgreementNumber st).offending.isSome = true

theorem AgreementScan.Fresh.outside {st : AgreementScan} (h : st.Fresh) : st.Outside :=
  h.imp_right fun h => ⟨h.1, h.2.1⟩

/-- A scan that has stopped does not move. -/
theorem agreementScan_stopped {st : AgreementScan} (h : st.offending.isSome = true)
    (cs : List Char) : cs.foldl agreementScanStep st = st :=
  foldl_fixed_of_mem fun c _ => by simp [agreementScanStep, h]

theorem finishAgreementNumber_stopped {st : AgreementScan} (h : st.offending.isSome = true) :
    (finishAgreementNumber st).offending.isSome = true := by
  rw [finishAgreementNumber]
  split
  · exact h
  · dsimp only
    split
    · rfl
    · exact h

theorem finishAgreementNumber_idle {st : AgreementScan} (h : st.inNumber = false) :
    finishAgreementNumber st = st := by
  simp [finishAgreementNumber, h]

/-- Finishing leaves the number and stays outside of strings. -/
theorem finishAgreementNumber_fresh {st : AgreementScan} (hstring : st.inString = false)
    (hescaped : st.escaped = false) :
    (finishAgreementNumber st).inString = false ∧ (finishAgreementNumber st).escaped = false ∧
      (finishAgreementNumber st).inNumber = false := by
  rw [finishAgreementNumber]
  split
  · rename_i h
    exact ⟨hstring, hescaped, by simpa using h⟩
  · dsimp only
    split <;> exact ⟨hstring, hescaped, rfl⟩

theorem charIsDigit_iff {c : Char} : charIsDigit c = true ↔ '0' ≤ c ∧ c ≤ '9' := by
  simp [charIsDigit]

theorem not_charIsDigit_of_isMark {c : Char} (h : isMark c = true) : charIsDigit c = false := by
  rw [Bool.eq_false_iff]
  exact fun hdigit => isMark_digit (charIsDigit_iff.mp hdigit) h

theorem agreementScan_mark {st : AgreementScan} (hsafe : st.offending.isSome = false)
    (hstring : st.inString = false) {c : Char} (hc : isMark c = true) :
    agreementScanStep st c = finishAgreementNumber st := by
  obtain ⟨hquote, hplus, hminus, hpoint, he, hE, _⟩ := ne_of_isMark hc
  have hdigit := not_charIsDigit_of_isMark hc
  have hidle : ∀ st' : AgreementScan, agreementScanOutside st' c = st' := by
    intro st'
    simp [agreementScanOutside, hquote, hminus, hdigit]
  cases hnumber : st.inNumber with
  | true =>
      have htoken : numericTokenChar c = false := by
        simp [numericTokenChar, hdigit, hplus, hminus, hpoint, he, hE]
      simp [agreementScanStep, hsafe, hstring, hnumber, htoken, hidle]
  | false =>
      simp [agreementScanStep, hsafe, hstring, hnumber, hidle, finishAgreementNumber]

theorem agreementScan_str {st : AgreementScan} (hsafe : st.offending.isSome = false)
    (hstring : st.inString = false) (hescaped : st.escaped = false)
    (hnumber : st.inNumber = false) {it rest cs : List Char} (hstr : StrText it rest cs) :
    ('"' :: it).foldl agreementScanStep st = rest.foldl agreementScanStep st := by
  have hopen : agreementScanStep st '"' = { st with inString := true } := by
    simp [agreementScanStep, agreementScanOutside, hsafe, hstring, hnumber]
  have hplain : ∀ c, c ≠ '"' → c ≠ '\\' →
      agreementScanStep { st with inString := true } c = { st with inString := true } := by
    intro c hquote hslash
    simp [agreementScanStep, hsafe, hescaped, hquote, hslash]
  have hclose : agreementScanStep { st with inString := true } '"' = st := by
    cases st
    simp_all [agreementScanStep]
  rw [List.foldl_cons, hopen, hstr.foldl hplain rfl, hclose]
  intro c
  simp [agreementScanStep, hsafe, hescaped]

theorem agreementScan_word {st : AgreementScan} (hstring : st.inString = false)
    (hnumber : st.inNumber = false) {ks : List Char} {t : Raw} (hword : Keyword ks t) :
    ks.foldl agreementScanStep st = st := by
  have hletters : ks.all (fun c => c != '"' && (c != '-' && !charIsDigit c)) = true := by
    cases hword <;> decide
  refine foldl_fixed_of_mem fun c hc => ?_
  have hletter := List.all_eq_true.mp hletters c hc
  simp only [Bool.and_eq_true, bne_iff_ne, Bool.not_eq_true'] at hletter
  obtain ⟨hquote, hminus, hdigit⟩ := hletter
  simp [agreementScanStep, agreementScanOutside, hstring, hnumber, hquote, hminus, hdigit]

theorem numericTokenChar_of_mem_text {w : Numeral} (h : w.Valid) :
    ∀ c ∈ w.text, numericTokenChar c = true := by
  intro c hc
  rcases h.mem_text hc with hdigit | hother
  · simp [numericTokenChar, charIsDigit_iff.mpr hdigit]
  · have hall : ['-', '+', '.', 'e', 'E'].all numericTokenChar = true := by decide
    exact List.all_eq_true.mp hall c hother

/-- In a number its characters are taken down. -/
theorem agreementScan_number {cs : List Char} (h : ∀ c ∈ cs, numericTokenChar c = true)
    (st : AgreementScan) (hsafe : st.offending.isSome = false) (hstring : st.inString = false)
    (hnumber : st.inNumber = true) :
    cs.foldl agreementScanStep st = { st with buf := cs.reverse ++ st.buf } := by
  induction cs generalizing st with
  | nil => rfl
  | cons c cs ih =>
      obtain ⟨hc, hcs⟩ := List.forall_mem_cons.mp h
      have hstep : agreementScanStep st c = { st with buf := c :: st.buf } := by
        simp [agreementScanStep, hsafe, hstring, hnumber, hc]
      rw [List.foldl_cons, hstep, ih hcs { st with buf := c :: st.buf } hsafe hstring hnumber]
      simp

theorem agreementScan_num {st : AgreementScan} (hsafe : st.offending.isSome = false)
    (hstring : st.inString = false) (hnumber : st.inNumber = false) {w : Numeral}
    (hvalid : w.Valid) :
    w.text.foldl agreementScanStep st = { st with inNumber := true, buf := w.text.reverse } := by
  have hchars := numericTokenChar_of_mem_text hvalid
  obtain ⟨c, more, htext, hfirst⟩ := hvalid.exists_text_starts
  rw [htext] at hchars ⊢
  obtain ⟨_, hmore⟩ := List.forall_mem_cons.mp hchars
  have hquote : c ≠ '"' := by
    rintro rfl
    exact absurd hfirst (by decide)
  have hopen : agreementScanStep st c = { st with inNumber := true, buf := [c] } := by
    have hstart : c = '-' ∨ charIsDigit c = true := hfirst.imp_right charIsDigit_iff.mpr
    rcases hstart with rfl | hdigit
    · simp [agreementScanStep, agreementScanOutside, hsafe, hstring, hnumber]
    · simp [agreementScanStep, agreementScanOutside, hsafe, hstring, hnumber, hquote, hdigit]
  rw [List.foldl_cons, hopen, agreementScan_number hmore { st with inNumber := true, buf := [c] }
    hsafe hstring rfl, List.reverse_cons]

theorem watches_agreementScan :
    Watches agreementScanStep AgreementScan.Fresh AgreementScan.Outside AgreementScan.Seen where
  outside h := h.outside
  mark {st c} h hc := by
    cases hsafe : st.offending.isSome with
    | true =>
        have hstep : agreementScanStep st c = st := agreementScan_stopped hsafe [c]
        rw [hstep]
        exact ⟨Or.inl hsafe, fun _ hw => hw⟩
    | false =>
        obtain ⟨hstring, hescaped⟩ := h.resolve_left (by simp [hsafe])
        have hfresh := finishAgreementNumber_fresh hstring hescaped
        rw [agreementScan_mark hsafe hstring hc]
        refine ⟨Or.inr hfresh, fun w hw hunsafe => ?_⟩
        rw [finishAgreementNumber_idle hfresh.2.2]
        exact hw hunsafe
  str {st it rest cs} h hstr := by
    refine ⟨st, ?_, h, fun _ hw => hw⟩
    cases hsafe : st.offending.isSome with
    | true => rw [agreementScan_stopped hsafe, agreementScan_stopped hsafe]
    | false =>
        obtain ⟨hstring, hescaped, hnumber⟩ := h.resolve_left (by simp [hsafe])
        exact agreementScan_str hsafe hstring hescaped hnumber hstr
  word {st ks t} h hword := by
    have hscan : ks.foldl agreementScanStep st = st := by
      rcases h with hstopped | ⟨hstring, _, hnumber⟩
      · exact agreementScan_stopped hstopped ks
      · exact agreementScan_word hstring hnumber hword
    rw [hscan]
    exact ⟨h.outside, fun _ hw => hw⟩
  num {st w} h hvalid := by
    cases hsafe : st.offending.isSome with
    | true =>
        rw [agreementScan_stopped hsafe]
        exact ⟨h.outside, fun _ => finishAgreementNumber_stopped hsafe, fun _ hv => hv⟩
    | false =>
        obtain ⟨hstring, hescaped, hnumber⟩ := h.resolve_left (by simp [hsafe])
        rw [agreementScan_num hsafe hstring hnumber hvalid]
        refine ⟨Or.inr ⟨hstring, hescaped⟩, fun hunsafe => ?_, fun v hv hunsafe => ?_⟩
        · simp [finishAgreementNumber, hunsafe]
        · have hstopped := hv hunsafe
          rw [finishAgreementNumber_idle hnumber, hsafe] at hstopped
          exact absurd hstopped (by decide)

/-! ## The numbers of an accepted line -/

/-- A number as it stands on a line, with what each scan has found of it. -/
structure Judged (line : String) (w : Numeral) : Prop where
  valid : w.Valid
  exponent : wireNumbersSafe line = true →
    ∀ e, w.exponent = some e → e.digits.length ≤ maxExponentDigits
  digits : wireDigitsSafe line = true → (w.whole ++ w.fraction).length ≤ maxSignificantDigits
  agrees : wireNumbersAgreementSafe line = true →
    numberLiteralAgreementSafe? (String.ofList w.text) ≠ some false

/-- Every number of the parsed value stands on the line, and the scans judged it. -/
theorem exists_judged_of_parse {line : String} {j : Json} (h : Json.parse line = .ok j) :
    ∀ n ∈ j.numbers, ∃ w, Judged line w ∧ w.value = n := by
  obtain ⟨ws, htokens, hnumbers⟩ := Json.exists_tokens_of_parse h
  have hexponents := (watches_numberScan.forall_seen htokens {} (Or.inl ⟨⟨rfl, rfl⟩, rfl⟩)).1
  have hdigits := (watches_digitScan.forall_seen htokens {} (Or.inl ⟨⟨rfl, rfl⟩, rfl, rfl⟩)).1
  have hagrees := (watches_agreementScan.forall_seen htokens {}
    (Or.inl (Or.inr ⟨rfl, rfl, rfl⟩))).1
  intro n hn
  obtain ⟨w, hw, hvalue⟩ := hnumbers n hn
  refine ⟨w, ⟨htokens.valid w hw, ?_, ?_, ?_⟩, hvalue⟩
  · intro hsafe e he
    exact le_trans (hexponents w hw e he) (of_decide_eq_true hsafe)
  · intro hsafe
    exact le_trans (hdigits w hw) (of_decide_eq_true hsafe)
  · intro hsafe hunsafe
    have hstopped := hagrees w hw hunsafe
    rw [wireNumbersAgreementSafe, Option.isNone_iff_eq_none, firstAgreementUnsafeNumber?] at hsafe
    rw [hsafe] at hstopped
    exact absurd hstopped (by decide)

/-- A JSON number is at most eighteen digits, moved by fewer than a million places. -/
def Bounded (n : JsonNumber) : Prop :=
  ∃ (k : Int) (a : Nat), n.mantissa = k * (10 ^ a : Nat) ∧ k.natAbs < 10 ^ maxSignificantDigits ∧
    a < 10 ^ maxExponentDigits ∧ n.exponent < 10 ^ maxExponentDigits + maxSignificantDigits

theorem natAbs_base_lt {w : Numeral} (h : w.Valid)
    (hdigits : (w.whole ++ w.fraction).length ≤ maxSignificantDigits) :
    w.base.mantissa.natAbs < 10 ^ maxSignificantDigits ∧
      w.base.exponent < maxSignificantDigits := by
  have hds : Digits (w.whole ++ w.fraction) := by
    intro c hc
    exact (List.mem_append.mp hc).elim (h.whole.digits c) (h.fraction c)
  obtain ⟨c, rest, hwhole, _⟩ := h.whole.first
  constructor
  · have habs : w.base.mantissa.natAbs = digitsValue (w.whole ++ w.fraction) := by
      rw [Numeral.base, signValue]
      split <;> simp
    rw [habs]
    exact lt_of_lt_of_le (digitsValue_lt hds) (Nat.pow_le_pow_right (by decide) hdigits)
  · rw [hwhole] at hdigits
    simp only [List.cons_append, List.length_cons, List.length_append] at hdigits
    show w.fraction.length < maxSignificantDigits
    omega

theorem bounded_value {w : Numeral} (h : w.Valid)
    (hdigits : (w.whole ++ w.fraction).length ≤ maxSignificantDigits)
    (hexponent : ∀ e, w.exponent = some e → e.digits.length ≤ maxExponentDigits) :
    Bounded w.value := by
  obtain ⟨hmantissa, hplaces⟩ := natAbs_base_lt h hdigits
  rw [Numeral.value]
  cases he : w.exponent with
  | none =>
      refine ⟨w.base.mantissa, 0, by simp, hmantissa, by decide, ?_⟩
      exact lt_of_lt_of_le hplaces (Nat.le_add_left _ _)
  | some e =>
      have hshift : digitsValue e.digits < 10 ^ maxExponentDigits :=
        lt_of_lt_of_le (digitsValue_lt (h.exponent e he).1)
          (Nat.pow_le_pow_right (by decide) (hexponent e he))
      show Bounded (e.shift w.base)
      rw [ExpPart.shift]
      split
      · refine ⟨w.base.mantissa, 0, by simp [JsonNumber.shiftr], hmantissa, by decide, ?_⟩
        show w.base.exponent + digitsValue e.digits < _
        omega
      · refine ⟨w.base.mantissa, digitsValue e.digits - w.base.exponent, rfl, hmantissa, ?_, ?_⟩
        · omega
        · show w.base.exponent - digitsValue e.digits < _
          omega

/-- **The parse is bounded.**  On a line that passes the exponent and the digit
scan, the parser raises ten to no power of a million or more, and no number it
reads has more than eighteen digits of its own. -/
theorem numbers_bounded {line : String} {j : Json} (hnumbers : wireNumbersSafe line = true)
    (hdigits : wireDigitsSafe line = true) (h : Json.parse line = .ok j) :
    ∀ n ∈ j.numbers, Bounded n := by
  intro n hn
  obtain ⟨w, hjudged, rfl⟩ := exists_judged_of_parse h n hn
  exact bounded_value hjudged.valid (hjudged.digits hdigits) (hjudged.exponent hnumbers)

end McpSeal.Seal.JsonUtil
