import McpSeal.Data.JsonGrammar
import McpSeal.Seal.WireGuards
set_option autoImplicit false

/-!
# Seal: a line whose keys are safe reads alike everywhere (`Seal/JsonUtil.lean`)

The duplicate-key gate runs on the characters of the line, the parser comes
after it.  Here the two meet: on every line the parser accepts, the scan follows
the parser's containers one for one, so a line that passes the scan has no
object with a repeated key, and every reader that differs from the parser only
in what it does with a repeated key reads the same value.
-/

namespace McpSeal.Seal.JsonUtil

open McpSeal.Data
open McpSeal.Data.Json (Raw)
open McpSeal.Data.Json.Parser

/-! ## The scan between tokens -/

/-- Continue the scan over some characters. -/
def keyScan (st : KeyScan) (cs : List Char) : KeyScan :=
  cs.foldl keyScanStep st

/-- The scan outside of every string. -/
def outside (stack : List KeyFrame) : KeyScan :=
  { stack }

/-- The scan inside of a string that is no key. -/
def inValue (stack : List KeyFrame) : KeyScan :=
  { stack, inString := true }

/-- The scan inside of a key. -/
def inKey (seen : List String) (stack : List KeyFrame) (buf : List Char) : KeyScan :=
  { stack := .obj seen true :: stack, inString := true, isKey := true, buf }

theorem keyScan_cons (st : KeyScan) (c : Char) (cs : List Char) :
    keyScan st (c :: cs) = keyScan (keyScanStep st c) cs := rfl

/-- What went wrong stays wrong. -/
theorem keyScan_bad {st : KeyScan} (h : st.bad = true) (cs : List Char) :
    (keyScan st cs).bad = true := by
  induction cs generalizing st with
  | nil => exact h
  | cons c cs ih =>
      rw [keyScan_cons]
      exact ih (by simp [keyScanStep, h])

/-- A character that is neither a quote, a bracket nor a comma. -/
def inert (c : Char) : Bool :=
  !(c == '"' || c == '\x7b' || c == '[' || c == '\x7d' || c == ']' || c == ',')

theorem keyScanStep_inert {c : Char} (h : inert c = true) (stack : List KeyFrame) :
    keyScanStep (outside stack) c = outside stack := by
  simp only [inert, Bool.not_eq_true', Bool.or_eq_false_iff] at h
  obtain ⟨⟨⟨⟨⟨hquote, hopen⟩, hopen'⟩, hclose⟩, hclose'⟩, hcomma⟩ := h
  simp only [keyScanStep, outside, hquote, hopen, hopen', hclose, hclose', hcomma,
    Bool.false_eq_true, if_false]

theorem keyScan_inert {cs : List Char} (h : ∀ c ∈ cs, inert c = true) (stack : List KeyFrame)
    (rest : List Char) : keyScan (outside stack) (cs ++ rest) = keyScan (outside stack) rest := by
  induction cs with
  | nil => rfl
  | cons c cs ih =>
      obtain ⟨hc, hcs⟩ := List.forall_mem_cons.mp h
      rw [List.cons_append, keyScan_cons, keyScanStep_inert hc, ih hcs]

theorem keyScan_blanks {it rest : List Char} (h : Blanks it rest) (stack : List KeyFrame) :
    keyScan (outside stack) it = keyScan (outside stack) rest := by
  induction h with
  | done rest => rfl
  | skip hblank _ ih =>
      rw [keyScan_cons, keyScanStep_inert, ih]
      simp only [isBlank, Bool.or_eq_true, decide_eq_true_eq] at hblank
      rcases hblank with ((rfl | rfl) | rfl) | rfl <;> rfl

/-! ## The scan over strings -/

/-- A value may stand here: the scan does not take the next string for a key. -/
def ValuePos : List KeyFrame → Prop
  | .obj _ expectKey :: _ => expectKey = false
  | _ => True

theorem keyScan_str {it rest cs : List Char} (h : StrText it rest cs) {stack : List KeyFrame}
    (hpos : ValuePos stack) :
    keyScan (outside stack) ('"' :: it) = keyScan (outside stack) rest := by
  have hopen : keyScanStep (outside stack) '"' = inValue stack := by
    cases stack with
    | nil => rfl
    | cons frame stack =>
        cases frame with
        | arr => rfl
        | obj seen expectKey =>
            obtain rfl : expectKey = false := hpos
            rfl
  have hplain : ∀ c, c ≠ '"' → c ≠ '\\' →
      keyScanStep (inValue stack) c = inValue stack := by
    intro c hquote hslash
    simp [keyScanStep, inValue, hquote, hslash]
  rw [keyScan_cons, hopen]
  exact h.foldl hplain rfl (fun _ => rfl)

/-- The scan over a key: it is taken down as the parser reads it, or refused. -/
theorem keyScan_key {it rest cs : List Char} (h : StrText it rest cs) {seen : List String}
    {stack : List KeyFrame} (buf : List Char)
    (hsafe : (keyScan (inKey seen stack buf) it).bad = false) :
    String.ofList (buf.reverse ++ cs) ∉ seen ∧
      keyScan (inKey seen stack buf) it =
        keyScan (outside (.obj (String.ofList (buf.reverse ++ cs) :: seen) false :: stack)) rest := by
  induction h generalizing buf with
  | close rest =>
      rw [List.append_nil]
      have hstep : keyScanStep (inKey seen stack buf) '"' =
          if seen.contains (String.ofList buf.reverse) then
            { inKey seen stack buf with bad := true }
          else outside (.obj (String.ofList buf.reverse :: seen) false :: stack) := rfl
      rw [keyScan_cons, hstep] at hsafe ⊢
      by_cases hseen : seen.contains (String.ofList buf.reverse) = true
      · rw [if_pos hseen, keyScan_bad rfl] at hsafe
        exact absurd hsafe (by decide)
      · rw [if_neg hseen]
        refine ⟨?_, rfl⟩
        simpa using hseen
  | @plain c it rest cs hquote hslash _ ih =>
      have hstep : keyScanStep (inKey seen stack buf) c = inKey seen stack (c :: buf) := by
        simp [keyScanStep, inKey, hquote, hslash]
      rw [keyScan_cons, hstep] at hsafe ⊢
      have h := ih (c :: buf) hsafe
      rw [List.reverse_cons, List.append_assoc, List.singleton_append] at h
      exact h
  | escape d _ _ _ =>
      -- a backslash in a key is refused at once
      rw [keyScan_cons, keyScan_bad rfl] at hsafe
      exact absurd hsafe (by decide)

theorem keyScan_keyText {it rest : List Char} {k : String} (h : KeyText it rest k)
    {seen : List String} {stack : List KeyFrame}
    (hsafe : (keyScan (outside (.obj seen true :: stack)) it).bad = false) :
    k ∉ seen ∧ keyScan (outside (.obj seen true :: stack)) it =
      keyScan (outside (.obj (k :: seen) false :: stack)) rest := by
  obtain ⟨hstr, hcolon, hblanks⟩ := h
  obtain ⟨hfresh, hscan⟩ := keyScan_key hstr [] hsafe
  rw [List.reverse_nil, List.nil_append, String.ofList_toList] at hfresh hscan
  refine ⟨hfresh, ?_⟩
  show keyScan (inKey seen stack []) _ = _
  rw [hscan, keyScan_blanks hcolon, keyScan_cons, keyScanStep_inert (by decide),
    keyScan_blanks hblanks]

/-! ## The scan over a value -/

theorem inert_of_mem_text {w : Numeral} (h : w.Valid) : ∀ c ∈ w.text, inert c = true := by
  intro c hc
  rcases h.mem_text hc with hdigit | hother
  · simp only [inert, Bool.not_eq_true', Bool.or_eq_false_iff, beq_eq_false_iff_ne]
    refine ⟨⟨⟨⟨⟨?_, ?_⟩, ?_⟩, ?_⟩, ?_⟩, ?_⟩
    all_goals
      rintro rfl
      exact absurd hdigit (by decide)
  · have hall : ['-', '+', '.', 'e', 'E'].all inert = true := by decide
    exact List.all_eq_true.mp hall c hother

theorem inert_of_keyword {ks : List Char} {t : Raw} (h : Keyword ks t) :
    ∀ c ∈ ks, inert c = true := by
  have hall : ks.all inert = true := by cases h <;> decide
  exact List.all_eq_true.mp hall

mutual

/-- The scan over a value leaves its place as it was, and every object of the
value has been seen to have distinct keys. -/
theorem keyScan_any : ∀ {it rest : List Char} {t : Raw}, AnyText it rest t →
    ∀ stack : List KeyFrame, ValuePos stack →
      (keyScan (outside stack) it).bad = false →
      t.Distinct ∧ keyScan (outside stack) it = keyScan (outside stack) rest
  | _, _, _, .word hword hblanks, stack, _, _ => by
      refine ⟨by cases hword <;> trivial, ?_⟩
      rw [keyScan_inert (inert_of_keyword hword), keyScan_blanks hblanks]
  | _, _, _, .num hvalid hblanks, stack, _, _ => by
      refine ⟨trivial, ?_⟩
      rw [keyScan_inert (inert_of_mem_text hvalid), keyScan_blanks hblanks]
  | _, _, _, .str hstr hblanks, stack, hpos, _ => by
      refine ⟨trivial, ?_⟩
      rw [keyScan_str hstr hpos, keyScan_blanks hblanks]
  | _, _, _, .arrNil hblanks hblanks', stack, _, _ => by
      refine ⟨trivial, ?_⟩
      show keyScan (outside (.arr :: stack)) _ = _
      rw [keyScan_blanks hblanks, keyScan_cons]
      exact keyScan_blanks hblanks' stack
  | _, _, _, .arr hblanks helems, stack, _, hsafe => by
      have hopen := keyScan_blanks hblanks (.arr :: stack)
      obtain ⟨hdistinct, hscan⟩ := keyScan_elems helems stack (hopen ▸ hsafe)
      exact ⟨hdistinct, hopen.trans hscan⟩
  | _, _, _, .objNil hblanks hblanks', stack, _, _ => by
      refine ⟨⟨List.nodup_nil, trivial⟩, ?_⟩
      show keyScan (outside (.obj [] true :: stack)) _ = _
      rw [keyScan_blanks hblanks, keyScan_cons]
      exact keyScan_blanks hblanks' stack
  | _, _, _, .obj hblanks hmembers, stack, _, hsafe => by
      have hopen := keyScan_blanks hblanks (.obj [] true :: stack)
      obtain ⟨hnodup, _, hdistinct, hscan⟩ := keyScan_members hmembers [] stack (hopen ▸ hsafe)
      exact ⟨⟨hnodup, hdistinct⟩, hopen.trans hscan⟩

theorem keyScan_elems : ∀ {it rest : List Char} {ts : List Raw}, ElemsText it rest ts →
    ∀ stack : List KeyFrame, (keyScan (outside (.arr :: stack)) it).bad = false →
      Raw.DistinctElems ts ∧
        keyScan (outside (.arr :: stack)) it = keyScan (outside stack) rest
  | _, _, _, .last htext hblanks, stack, hsafe => by
      obtain ⟨hdistinct, hscan⟩ := keyScan_any htext (.arr :: stack) trivial hsafe
      exact ⟨⟨hdistinct, trivial⟩, hscan.trans (keyScan_blanks hblanks stack)⟩
  | _, _, _, .cons htext hblanks hrest, stack, hsafe => by
      obtain ⟨hdistinct, hscan⟩ := keyScan_any htext (.arr :: stack) trivial hsafe
      have hcomma := hscan.trans (keyScan_blanks hblanks (.arr :: stack))
      obtain ⟨hdistincts, hscan'⟩ := keyScan_elems hrest stack (hcomma ▸ hsafe)
      exact ⟨⟨hdistinct, hdistincts⟩, hcomma.trans hscan'⟩

theorem keyScan_members : ∀ {it rest : List Char} {ms : List (String × Raw)},
    MembersText it rest ms → ∀ (seen : List String) (stack : List KeyFrame),
      (keyScan (outside (.obj seen true :: stack)) it).bad = false →
      (ms.map (·.1)).Nodup ∧ (∀ k ∈ ms.map (·.1), k ∉ seen) ∧ Raw.DistinctMembers ms ∧
        keyScan (outside (.obj seen true :: stack)) it = keyScan (outside stack) rest
  | _, _, _, .last (k := k) hkey htext hblanks, seen, stack, hsafe => by
      obtain ⟨hfresh, hkscan⟩ := keyScan_keyText hkey hsafe
      obtain ⟨hdistinct, hscan⟩ := keyScan_any htext (.obj (k :: seen) false :: stack) rfl
        (hkscan ▸ hsafe)
      refine ⟨by simp, by simpa using hfresh, ⟨hdistinct, trivial⟩, ?_⟩
      exact hkscan.trans (hscan.trans (keyScan_blanks hblanks stack))
  | _, _, _, .cons (k := k) hkey htext hblanks hrest, seen, stack, hsafe => by
      obtain ⟨hfresh, hkscan⟩ := keyScan_keyText hkey hsafe
      obtain ⟨hdistinct, hscan⟩ := keyScan_any htext (.obj (k :: seen) false :: stack) rfl
        (hkscan ▸ hsafe)
      have hcomma := hkscan.trans
        (hscan.trans (keyScan_blanks hblanks (.obj (k :: seen) true :: stack)))
      obtain ⟨hnodup, hfreshs, hdistincts, hscan'⟩ := keyScan_members hrest (k :: seen) stack (hcomma ▸ hsafe)
      refine ⟨?_, ?_, ⟨hdistinct, hdistincts⟩, hcomma.trans hscan'⟩
      · refine List.nodup_cons.mpr ⟨?_, hnodup⟩
        intro hmem
        exact hfreshs k hmem (List.mem_cons_self)
      · refine List.forall_mem_cons.mpr ⟨hfresh, ?_⟩
        intro l hl hmem
        exact hfreshs l hl (List.mem_cons_of_mem k hmem)

end

/-- A line that passes the scan and the parser has no object with a repeated key. -/
theorem distinct_of_wireKeysSafe {line : String} {t : Raw} (hsafe : wireKeysSafe line = true)
    (h : Json.parseRaw line = .ok t) : t.Distinct := by
  obtain ⟨it, hblanks, htext⟩ := Json.exists_anyText_of_parseRaw h
  have hscan : (keyScan (outside []) line.toList).bad = false := by
    show (line.toList.foldl keyScanStep {}).bad = false
    simpa [wireKeysSafe] using hsafe
  rw [keyScan_blanks hblanks] at hscan
  exact (keyScan_any htext [] trivial hscan).1

/-- **Readers agree.**  On a line that passes the scan, every reader that treats
a new key as the parser does reads what the parser reads, be it that a repeated
key would make it keep the first member, refuse the text or do anything else. -/
theorem readers_agree {binder : Raw.Binder} (hbinder : Raw.Standard binder) {line : String}
    (hsafe : wireKeysSafe line = true) :
    (Json.parseRaw line).bind (Raw.read binder) = Json.parse line := by
  rw [Json.parse_eq_parseRaw]
  cases h : Json.parseRaw line with
  | error err => rfl
  | ok t => exact Raw.read_of_distinct hbinder t (distinct_of_wireKeysSafe hsafe h)

end McpSeal.Seal.JsonUtil
