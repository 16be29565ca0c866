import McpSeal.Data.JsonGrammar
set_option autoImplicit false

/-!
# Data: a JSON text as a row of tokens

A scan that looks for numbers does not follow brackets; to it a text is a row of
marks, strings, words and numbers, in which a word or a number is followed by a
mark or nothing.  Every accepted text is such a row with the numbers of its
value in it (`exists_tokens_of_parse`).  A scan is then judged token by token:
`Watches` lists what it has to do on each kind, and `Watches.forall_seen` is the
one induction over the row.
-/

namespace McpSeal.Data.Json

/-! ## The numbers of a value -/

mutual

/-- The numbers of a value, in the order they are printed. -/
def numbers : Json → List JsonNumber
  | .null => []
  | .bool _ => []
  | .num n => [n]
  | .str _ => []
  | .arr elems => elemNumbers elems
  | .obj kvPairs => fieldNumbers kvPairs

/-- The numbers of the elements. -/
def elemNumbers : List Json → List JsonNumber
  | [] => []
  | j :: js => j.numbers ++ elemNumbers js

/-- The numbers of the bound values, in key order. -/
def fieldNumbers : List (String × Json) → List JsonNumber
  | [] => []
  | (_, j) :: kvs => j.numbers ++ fieldNumbers kvs

end

theorem mem_fieldNumbers_insert {kvPairs : List (String × Json)} {k : String} {v : Json}
    {n : JsonNumber} (h : n ∈ fieldNumbers (insert kvPairs k v)) :
    n ∈ fieldNumbers kvPairs ∨ n ∈ v.numbers := by
  induction kvPairs with
  | nil =>
      rw [insert, fieldNumbers, fieldNumbers, List.append_nil] at h
      exact Or.inr h
  | cons kv rest ih =>
      obtain ⟨l, w⟩ := kv
      rw [insert] at h
      split at h
      · rw [fieldNumbers] at h
        exact (List.mem_append.mp h).symm
      · rw [fieldNumbers] at h
        rcases List.mem_append.mp h with h | h
        · exact Or.inr h
        · exact Or.inl (List.mem_append_right _ h)
      · rw [fieldNumbers] at h ⊢
        rcases List.mem_append.mp h with h | h
        · exact Or.inl (List.mem_append_left _ h)
        · rcases ih h with h | h
          · exact Or.inl (List.mem_append_right _ h)
          · exact Or.inr h

namespace Raw

mutual

/-- The numbers of a tree, in the order they stand in the text. -/
def numbers : Raw → List JsonNumber
  | .null => []
  | .bool _ => []
  | .num n => [n]
  | .str _ => []
  | .arr elems => elemNumbers elems
  | .obj members => memberNumbers members

/-- The numbers of the elements. -/
def elemNumbers : List Raw → List JsonNumber
  | [] => []
  | t :: ts => t.numbers ++ elemNumbers ts

/-- The numbers of the members, those under repeated keys too. -/
def memberNumbers : List (String × Raw) → List JsonNumber
  | [] => []
  | (_, t) :: ms => t.numbers ++ memberNumbers ms

end

mutual

/-- The value has no number that the text has not. -/
theorem mem_numbers_of_value : ∀ {t : Raw} {n : JsonNumber}, n ∈ t.value.numbers → n ∈ t.numbers
  | .null, _, h => h
  | .bool _, _, h => h
  | .num _, _, h => h
  | .str _, _, h => h
  | .arr _, _, h => mem_elemNumbers_of_value h
  | .obj _, _, h => by
      rcases mem_memberNumbers_of_value h with h | h
      · exact absurd h List.not_mem_nil
      · exact h

theorem mem_elemNumbers_of_value : ∀ {ts : List Raw} {n : JsonNumber},
    n ∈ Json.elemNumbers (elemValues ts) → n ∈ elemNumbers ts
  | [], _, h => h
  | t :: ts, _, h => by
      rw [elemValues, Json.elemNumbers] at h
      rw [elemNumbers]
      rcases List.mem_append.mp h with h | h
      · exact List.mem_append_left _ (mem_numbers_of_value h)
      · exact List.mem_append_right _ (mem_elemNumbers_of_value h)

theorem mem_memberNumbers_of_value : ∀ {ms : List (String × Raw)}
    {kvPairs : List (String × Json)} {n : JsonNumber},
    n ∈ fieldNumbers (bindings kvPairs ms) → n ∈ fieldNumbers kvPairs ∨ n ∈ memberNumbers ms
  | [], _, _, h => Or.inl h
  | (k, t) :: ms, kvPairs, _, h => by
      rw [bindings] at h
      rw [memberNumbers]
      rcases mem_memberNumbers_of_value h with h | h
      · rcases mem_fieldNumbers_insert h with h | h
        · exact Or.inl h
        · exact Or.inr (List.mem_append_left _ (mem_numbers_of_value h))
      · exact Or.inr (List.mem_append_right _ h)

end

end Raw

namespace Parser

/-! ## Rows of tokens -/

/-- A character that is a token of its own. -/
def isMark (c : Char) : Bool :=
  isBlank c || c == ',' || c == ':' || c == '[' || c == ']' || c == '\x7b' || c == '\x7d'

/-- A word or a number may end here. -/
def EndsAtom (it : List Char) : Prop :=
  ∀ c rest, it = c :: rest → isMark c = true

theorem endsAtom_cons {c : Char} (h : isMark c = true) (it : List Char) : EndsAtom (c :: it) := by
  intro d rest heq
  obtain ⟨rfl, _⟩ := List.cons.inj heq
  exact h

theorem isMark_digit {c : Char} (h : '0' ≤ c ∧ c ≤ '9') : ¬ isMark c = true := by
  intro hmark
  simp only [isMark, isBlank, Bool.or_eq_true, decide_eq_true_eq, beq_iff_eq] at hmark
  rcases hmark with ((((((((rfl | rfl) | rfl) | rfl) | rfl) | rfl) | rfl) | rfl) | rfl) | rfl <;>
    exact absurd h (by decide)

/-- A number starts with its sign or a digit. -/
theorem Numeral.Valid.exists_text_starts {w : Numeral} (h : w.Valid) :
    ∃ c more, w.text = c :: more ∧ (c = '-' ∨ ('0' ≤ c ∧ c ≤ '9')) := by
  obtain ⟨c, rest, hwhole, _⟩ := h.whole.first
  rw [Numeral.text, hwhole]
  cases w.negative with
  | true => exact ⟨'-', _, rfl, Or.inl rfl⟩
  | false =>
      refine ⟨c, _, rfl, Or.inr (h.whole.digits c ?_)⟩
      rw [hwhole]
      exact List.mem_cons_self

/-- A text as a row of tokens, with the numbers in it. -/
inductive Tokens : List Char → List Numeral → Prop
  | done : Tokens [] []
  | mark {c : Char} {it : List Char} {ws : List Numeral} :
      isMark c = true → Tokens it ws → Tokens (c :: it) ws
  | str {it rest cs : List Char} {ws : List Numeral} :
      StrText it rest cs → Tokens rest ws → Tokens ('"' :: it) ws
  | word {ks it : List Char} {t : Raw} {ws : List Numeral} :
      Keyword ks t → EndsAtom it → Tokens it ws → Tokens (ks ++ it) ws
  | num {w : Numeral} {it : List Char} {ws : List Numeral} :
      w.Valid → EndsAtom it → Tokens it ws → Tokens (w.text ++ it) (w :: ws)

theorem Tokens.valid {it : List Char} {ws : List Numeral} (h : Tokens it ws) :
    ∀ w ∈ ws, w.Valid := by
  induction h with
  | done => exact fun w hw => absurd hw List.not_mem_nil
  | mark _ _ ih => exact ih
  | str _ _ ih => exact ih
  | word _ _ _ ih => exact ih
  | num hvalid _ _ ih => exact List.forall_mem_cons.mpr ⟨hvalid, ih⟩

theorem isMark_of_isBlank {c : Char} (h : isBlank c = true) : isMark c = true := by
  simp [isMark, h]

theorem Blanks.tokens {it rest : List Char} (h : Blanks it rest) {ws : List Numeral}
    (htokens : Tokens rest ws) : Tokens it ws := by
  induction h with
  | done rest => exact htokens
  | skip hblank _ ih => exact .mark (isMark_of_isBlank hblank) (ih htokens)

theorem Blanks.endsAtom {it rest : List Char} (h : Blanks it rest) (hends : EndsAtom rest) :
    EndsAtom it := by
  cases h with
  | done => exact hends
  | skip hblank _ => exact endsAtom_cons (isMark_of_isBlank hblank) _

theorem KeyText.tokens {it rest : List Char} {k : String} (h : KeyText it rest k)
    {ws : List Numeral} (htokens : Tokens rest ws) : Tokens it ws := by
  obtain ⟨hstr, hcolon, hblanks⟩ := h
  exact .str hstr (hcolon.tokens (.mark (by decide) (hblanks.tokens htokens)))

mutual

/-- A value in front of a row of tokens makes a row with its numbers first. -/
theorem AnyText.tokens : ∀ {it rest : List Char} {t : Raw}, AnyText it rest t →
    EndsAtom rest → ∀ {ws : List Numeral}, Tokens rest ws →
      ∃ us, Tokens it (us ++ ws) ∧ t.numbers = us.map Numeral.value
  | _, _, _, .word hword hblanks, hends, _, htokens => by
      refine ⟨[], .word hword (hblanks.endsAtom hends) (hblanks.tokens htokens), ?_⟩
      cases hword <;> rfl
  | _, _, _, .num (w := w) hvalid hblanks, hends, _, htokens =>
      ⟨[w], .num hvalid (hblanks.endsAtom hends) (hblanks.tokens htokens), rfl⟩
  | _, _, _, .str hstr hblanks, _, _, htokens => ⟨[], .str hstr (hblanks.tokens htokens), rfl⟩
  | _, _, _, .arrNil hblanks hblanks', _, _, htokens =>
      ⟨[], .mark (by decide) (hblanks.tokens (.mark (by decide) (hblanks'.tokens htokens))), rfl⟩
  | _, _, _, .arr hblanks helems, _, _, htokens => by
      obtain ⟨us, hrow, hnumbers⟩ := helems.tokens htokens
      exact ⟨us, .mark (by decide) (hblanks.tokens hrow), hnumbers⟩
  | _, _, _, .objNil hblanks hblanks', _, _, htokens =>
      ⟨[], .mark (by decide) (hblanks.tokens (.mark (by decide) (hblanks'.tokens htokens))), rfl⟩
  | _, _, _, .obj hblanks hmembers, _, _, htokens => by
      obtain ⟨us, hrow, hnumbers⟩ := hmembers.tokens htokens
      exact ⟨us, .mark (by decide) (hblanks.tokens hrow), hnumbers⟩

theorem ElemsText.tokens : ∀ {it rest : List Char} {ts : List Raw}, ElemsText it rest ts →
    ∀ {ws : List Numeral}, Tokens rest ws →
      ∃ us, Tokens it (us ++ ws) ∧ Raw.elemNumbers ts = us.map Numeral.value
  | _, _, _, .last htext hblanks, _, htokens => by
      obtain ⟨us, hrow, hnumbers⟩ := htext.tokens (endsAtom_cons (by decide) _)
        (.mark (by decide) (hblanks.tokens htokens))
      exact ⟨us, hrow, by rw [Raw.elemNumbers, Raw.elemNumbers, List.append_nil, hnumbers]⟩
  | _, _, _, .cons htext hblanks hrest, _, htokens => by
      obtain ⟨vs, hrow', hnumbers'⟩ := hrest.tokens htokens
      obtain ⟨us, hrow, hnumbers⟩ := htext.tokens (endsAtom_cons (by decide) _)
        (.mark (by decide) (hblanks.tokens hrow'))
      refine ⟨us ++ vs, by rw [List.append_assoc]; exact hrow, ?_⟩
      rw [Raw.elemNumbers, hnumbers, hnumbers', List.map_append]

theorem MembersText.tokens : ∀ {it rest : List Char} {ms : List (String × Raw)},
    MembersText it rest ms → ∀ {ws : List Numeral}, Tokens rest ws →
      ∃ us, Tokens it (us ++ ws) ∧ Raw.memberNumbers ms = us.map Numeral.value
  | _, _, _, .last hkey htext hblanks, _, htokens => by
      obtain ⟨us, hrow, hnumbers⟩ := htext.tokens (endsAtom_cons (by decide) _)
        (.mark (by decide) (hblanks.tokens htokens))
      refine ⟨us, hkey.tokens hrow, ?_⟩
      rw [Raw.memberNumbers, Raw.memberNumbers, List.append_nil, hnumbers]
  | _, _, _, .cons hkey htext hblanks hrest, _, htokens => by
      obtain ⟨vs, hrow', hnumbers'⟩ := hrest.tokens htokens
      obtain ⟨us, hrow, hnumbers⟩ := htext.tokens (endsAtom_cons (by decide) _)
        (.mark (by decide) (hblanks.tokens hrow'))
      refine ⟨us ++ vs, by rw [List.append_assoc]; exact hkey.tokens hrow, ?_⟩
      rw [Raw.memberNumbers, hnumbers, hnumbers', List.map_append]

end

/-! ## Scans that watch for numbers -/

/-- What a scan has to do on each token.  `Fresh` are its states between tokens,
`Outside` those right after a word or number, and `Seen w` those in which it has
taken notice of the number `w`. -/
structure Watches {σ : Type} (step : σ → Char → σ) (Fresh Outside : σ → Prop)
    (Seen : Numeral → σ → Prop) : Prop where
  outside : ∀ {st}, Fresh st → Outside st
  mark : ∀ {st c}, Outside st → isMark c = true →
    Fresh (step st c) ∧ ∀ w, Seen w st → Seen w (step st c)
  str : ∀ {st it rest cs}, Fresh st → StrText it rest cs → ∃ st',
    ('"' :: it).foldl step st = rest.foldl step st' ∧ Fresh st' ∧ ∀ w, Seen w st → Seen w st'
  word : ∀ {st ks t}, Fresh st → Keyword ks t →
    Outside (ks.foldl step st) ∧ ∀ w, Seen w st → Seen w (ks.foldl step st)
  num : ∀ {st w}, Fresh st → w.Valid →
    Outside (w.text.foldl step st) ∧ Seen w (w.text.foldl step st) ∧
      ∀ v, Seen v st → Seen v (w.text.foldl step st)

section Watch

variable {σ : Type} {step : σ → Char → σ} {Fresh Outside : σ → Prop} {Seen : Numeral → σ → Prop}

/-- The scan has taken notice of every number of the row. -/
theorem Watches.forall_seen (h : Watches step Fresh Outside Seen) {it : List Char}
    {ws : List Numeral} (htokens : Tokens it ws) :
    ∀ st, Fresh st ∨ (Outside st ∧ EndsAtom it) →
      (∀ w ∈ ws, Seen w (it.foldl step st)) ∧ ∀ w, Seen w st → Seen w (it.foldl step st) := by
  induction htokens with
  | done => exact fun st _ => ⟨by simp, fun _ hseen => hseen⟩
  | @mark c it ws hmark _ ih =>
      intro st hst
      have houtside : Outside st := hst.elim h.outside And.left
      obtain ⟨hfresh, hkeep⟩ := h.mark houtside hmark
      obtain ⟨hall, hrest⟩ := ih (step st c) (Or.inl hfresh)
      exact ⟨hall, fun w hw => hrest w (hkeep w hw)⟩
  | @str it rest cs ws hstr _ ih =>
      intro st hst
      have hfresh : Fresh st := hst.resolve_right fun hends =>
        absurd (hends.2 _ _ rfl) (by decide)
      obtain ⟨st', heq, hfresh', hkeep⟩ := h.str hfresh hstr
      obtain ⟨hall, hrest⟩ := ih st' (Or.inl hfresh')
      rw [heq]
      exact ⟨hall, fun w hw => hrest w (hkeep w hw)⟩
  | @word ks it t ws hword hends _ ih =>
      intro st hst
      have hfresh : Fresh st := hst.resolve_right fun hatom => by
        cases hword <;> exact absurd (hatom.2 _ _ rfl) (by decide)
      obtain ⟨houtside, hkeep⟩ := h.word hfresh hword
      obtain ⟨hall, hrest⟩ := ih (ks.foldl step st) (Or.inr ⟨houtside, hends⟩)
      rw [List.foldl_append]
      exact ⟨hall, fun w hw => hrest w (hkeep w hw)⟩
  | @num w it ws hvalid hends _ ih =>
      intro st hst
      have hfresh : Fresh st := hst.resolve_right fun hatom => by
        obtain ⟨c, more, heq, hc⟩ := hvalid.exists_text_starts
        have hmark := hatom.2 c (more ++ it) (by rw [heq]; rfl)
        rcases hc with rfl | hdigit
        · exact absurd hmark (by decide)
        · exact isMark_digit hdigit hmark
      obtain ⟨houtside, hseen, hkeep⟩ := h.num hfresh hvalid
      obtain ⟨hall, hrest⟩ := ih (w.text.foldl step st) (Or.inr ⟨houtside, hends⟩)
      rw [List.foldl_append]
      exact ⟨List.forall_mem_cons.mpr ⟨hrest w hseen, hall⟩, fun v hv => hrest v (hkeep v hv)⟩

end Watch

end Parser

/-- An accepted line is a row of tokens, and every number of its value stands in it. -/
theorem exists_tokens_of_parse {s : String} {j : Json} (h : parse s = .ok j) :
    ∃ ws, Parser.Tokens s.toList ws ∧
      ∀ n ∈ j.numbers, ∃ w ∈ ws, w.value = n := by
  rw [parse_eq_parseRaw] at h
  cases hraw : parseRaw s with
  | error err =>
      rw [hraw] at h
      exact absurd h (by simp [Except.map])
  | ok t =>
      rw [hraw] at h
      obtain rfl := Except.ok.inj h
      obtain ⟨it, hblanks, htext⟩ := exists_anyText_of_parseRaw hraw
      obtain ⟨us, hrow, hnumbers⟩ := htext.tokens (by simp [Parser.EndsAtom]) .done
      rw [List.append_nil] at hrow
      refine ⟨us, hblanks.tokens hrow, ?_⟩
      intro n hn
      have hmem := Raw.mem_numbers_of_value hn
      rw [hnumbers] at hmem
      exact List.mem_map.mp hmem

end McpSeal.Data.Json
