import McpSeal.Data.JsonMeaning
import McpSeal.Data.JsonRaw
set_option autoImplicit false

/-!
# Data: printing, reading and printing again (`Lean.Data.Json`)

The parser does not read every number the printer writes: a zero with many
decimal places is printed without a digit behind its point.  But where it reads
a compact text at all, the value it reads has the same compact text.
-/

namespace McpSeal.Data.Json.Parser

/-! ## Steps that fail -/

/-- The parser answers with an error on this input. -/
def Fails {α : Type} (p : Parser α) (it : List Char) : Prop :=
  ∃ rest err, p it = .error rest err

section Bind

variable {α β : Type} {p : Parser α} {g : α → Parser β} {it rest : List Char} {a : α}

theorem Fails.bind (h : Fails p it) : Fails (p >>= g) it := by
  obtain ⟨rest, err, h⟩ := h
  refine ⟨rest, err, ?_⟩
  simp only [Bind.bind, h]

theorem fails_bind (h : p it = .success rest a) (hfails : Fails (g a) rest) :
    Fails (p >>= g) it := by
  rw [Fails, bind_success h]
  exact hfails

end Bind

theorem fails_fail {α : Type} (msg : String) (it : List Char) : Fails (fail msg : Parser α) it :=
  ⟨it, msg, rfl⟩

/-! ## Numbers -/

theorem natNumDigits_fails {it : List Char} (h : EndsDigits it) : Fails natNumDigits it := by
  refine Fails.bind ?_
  cases it with
  | nil => exact Fails.bind ⟨[], _, rfl⟩
  | cons c rest =>
      refine fails_bind (a := c) rfl ?_
      have hdigit : ¬ ('0' ≤ c && c ≤ '9') = true := by simpa using h c rest rfl
      rw [if_neg hdigit]
      exact fails_fail _ _

section Point

variable (negative : Bool) {ds : List Char} (hds : IntPart ds)
include hds

theorem numWithDecimals_fails {more : List Char} (h : Fails natNumDigits more) :
    Fails numWithDecimals (signChars negative ++ (ds ++ '.' :: more)) := by
  rw [Fails, numWithDecimals_point negative hds]
  exact h.bind

theorem numWithDecimals_many {fs tail : List Char} (hfs : Digits fs) (hmany : 2 ^ 64 < fs.length)
    (htail : EndsDigits tail) :
    Fails numWithDecimals (signChars negative ++ (ds ++ '.' :: (fs ++ tail))) := by
  have hne : fs ≠ [] := List.ne_nil_of_length_pos (by omega)
  rw [Fails, numWithDecimals_point negative hds]
  refine fails_bind (natNumDigits_append hfs hne htail) ?_
  show Fails (if fs.length > 2 ^ 64 then _ else _ : Parser JsonNumber) _
  rw [if_pos hmany]
  exact fails_fail _ _

end Point

theorem endsDigits_exponentChars (k : Nat) {tail : List Char} (htail : EndsValue tail) :
    EndsDigits (exponentChars k ++ tail) := by
  rw [exponentChars]
  split
  · exact htail.digits
  · intro c rest heq
    obtain ⟨rfl, _⟩ := List.cons.inj heq
    decide

theorem exponent_exponentChars (k : Nat) {tail : List Char} (htail : EndsValue tail)
    (value : JsonNumber) :
    exponent value (exponentChars k ++ tail) = .success tail (value.shiftr k) := by
  rw [exponentChars]
  split
  · rename_i hzero
    rw [hzero]
    exact exponent_none htail value
  · have hread := exponent_neg (digits_toDigits k) Nat.toDigits_ne_nil htail.digits value
    rw [digitsValue_toDigits] at hread
    exact hread

/-- The parser reads the text of a number as a number with this text, or not at all. -/
theorem num_toText (n : JsonNumber) :
    (∀ tail, EndsValue tail → Fails num (n.toText.toList ++ tail)) ∨
      ∃ n' : JsonNumber, n'.toText = n.toText ∧
        ∀ tail, EndsValue tail → num (n.toText.toList ++ tail) = .success tail n' := by
  have hsame : ∀ {n' : JsonNumber}, n.mantissa ≠ 0 → jsonRat n' = jsonRat n →
      n'.toText = n.toText := fun hne hrat => (toText_congr hne hrat.symm).symm
  rcases toText_forms n with ⟨q, htext, hrat⟩ | ⟨q, fs, k, hfs, htext, hrat, hne⟩
  · refine Or.inr ⟨⟨signValue (decide (n.mantissa < 0)) * q, 0⟩, ?_, fun tail htail => ?_⟩
    · by_cases hzero : n.mantissa = 0
      · have hq : q = 0 := by
          rw [jsonRat, hzero] at hrat
          simpa [signValue] using hrat.symm
        rw [← String.toList_inj, htext, hzero, hq]
        rfl
      · refine hsame hzero ?_
        rw [hrat, jsonRat]
        simp
    · have hread := numWithDecimals_int (decide (n.mantissa < 0)) (intPart_toDigits q)
        htail.digits htail.point
      rw [digitsValue_toDigits] at hread
      rw [htext, List.append_assoc, num, bind_success hread]
      exact exponent_none htail _
  · have hchars : ∀ tail, n.toText.toList ++ tail = signChars (decide (n.mantissa < 0)) ++
        (Nat.toDigits 10 q ++ '.' :: (fs ++ (exponentChars k ++ tail))) := by
      intro tail
      rw [htext]
      simp
    by_cases hempty : fs = []
    · refine Or.inl fun tail htail => ?_
      rw [hchars, hempty, List.nil_append, num]
      exact (numWithDecimals_fails _ (intPart_toDigits q)
        (natNumDigits_fails (endsDigits_exponentChars k htail))).bind
    rcases Nat.lt_or_ge (2 ^ 64) fs.length with hmany | hfew
    · refine Or.inl fun tail htail => ?_
      rw [hchars, num]
      exact (numWithDecimals_many _ (intPart_toDigits q) hfs hmany
        (endsDigits_exponentChars k htail)).bind
    · refine Or.inr ⟨JsonNumber.shiftr ⟨signValue (decide (n.mantissa < 0)) *
        (q * (10 ^ fs.length : Nat) + digitsValue fs), fs.length⟩ k, hsame (hne hempty) ?_,
        fun tail htail => ?_⟩
      · rw [hrat, JsonNumber.shiftr, jsonRat, fractionRat, pow_add]
        push_cast
        field_simp
      · have hread := numWithDecimals_frac (decide (n.mantissa < 0)) (intPart_toDigits q) hfs
          hempty hfew (endsDigits_exponentChars k htail)
        rw [digitsValue_toDigits] at hread
        rw [hchars, num, bind_success hread]
        exact exponent_exponentChars k htail _

/-! ## Values -/

/-- The parser fails on a text, in front of every tail a value may stand before. -/
structure FailsValue (chars : List Char) : Prop where
  starts : ∃ c rest, chars = c :: rest ∧ isBlank c = false ∧ c ≠ ']'
  fails : ∀ fuel tail, 2 * chars.length ≤ fuel → EndsValue tail →
    Fails (anyCore fuel) (chars ++ tail)

theorem FailsValue.intro {c : Char} {rest : List Char} (hblank : isBlank c = false)
    (hbracket : c ≠ ']')
    (h : ∀ fuel tail, 2 * rest.length ≤ fuel → EndsValue tail →
      Fails (anyCore (fuel + 2)) (c :: (rest ++ tail))) : FailsValue (c :: rest) where
  starts := ⟨c, rest, rfl, hblank, hbracket⟩
  fails := by
    intro fuel tail hfuel htail
    rw [List.length_cons] at hfuel
    obtain ⟨fuel, rfl⟩ := Nat.exists_eq_add_of_le' (by omega : 2 ≤ fuel)
    exact h fuel tail (by omega) htail

/-- What the parser makes of a text: a value, or nothing. -/
def Outcome (chars : List Char) : Option Json → Prop
  | some j => ReadsValue chars j
  | none => FailsValue chars

theorem Outcome.starts {chars : List Char} {o : Option Json} (h : Outcome chars o) :
    ∃ c rest, chars = c :: rest ∧ isBlank c = false ∧ c ≠ ']' := by
  cases o with
  | none => exact FailsValue.starts h
  | some j => exact ReadsValue.starts h

theorem failsValue_num {c : Char} {rest : List Char} (hc : StartsNumber c)
    (h : ∀ tail, EndsValue tail → Fails num (c :: (rest ++ tail))) : FailsValue (c :: rest) := by
  have hnum : c = '-' ∨ ('0' ≤ c ∧ c ≤ '9') := hc
  refine FailsValue.intro hc.not_blank (hc.ne (by decide)) fun fuel tail _ htail => ?_
  rw [anyCore]
  refine fails_bind (a := c) rfl ?_
  rw [if_neg (hc.ne (by decide)), if_neg (hc.ne (by decide)), if_neg (hc.ne (by decide)),
    if_neg (hc.ne (by decide)), if_neg (hc.ne (by decide)), if_neg (hc.ne (by decide)),
    if_pos hnum]
  exact (h tail htail).bind

/-! ## Arrays -/

theorem arrayCore_fails {items : List (List Char)} {os : List (Option Json)}
    (h : List.Forall₂ Outcome items os) (hnone : none ∈ os) (fuel : Nat) (acc : List Json)
    {tail : List Char} (hfuel : 2 * ((commaList items).length + 1) ≤ fuel) :
    Fails (arrayCore fuel acc) (commaList items ++ ']' :: tail) := by
  induction h generalizing fuel acc with
  | nil => exact absurd hnone List.not_mem_nil
  | @cons item o items os hitem hitems ih =>
      obtain ⟨fuel, rfl⟩ := Nat.exists_eq_add_one_of_ne_zero (by omega : fuel ≠ 0)
      obtain ⟨hhead, -⟩ := length_commaList_cons item items
      cases o with
      | none =>
          have hfails := FailsValue.fails hitem fuel _ (by omega)
            (endsValue_listTail (Or.inl rfl) items tail)
          rw [commaList_cons_append, arrayCore]
          exact hfails.bind
      | some j =>
          have hnone : none ∈ os := by simpa using hnone
          cases hitems with
          | nil => exact absurd hnone List.not_mem_nil
          | @cons next o' rest os' hnext hrest =>
              rw [commaList_cons] at hfuel ⊢
              rw [List.length_append, List.length_cons] at hfuel
              have hvalue := ReadsValue.reads hitem fuel
                (',' :: (commaList (next :: rest) ++ ']' :: tail)) (by omega)
                (endsValue_of_cons (by simp) _)
              rw [List.append_assoc, List.cons_append, arrayCore]
              refine fails_bind hvalue (fails_bind (a := ',') rfl ?_)
              obtain ⟨c, chars, rfl, hblank, _⟩ := hnext.starts
              exact fails_bind (ws_commaList hblank chars rest _) (ih hnone fuel _ (by omega))

/-- Items one of which cannot be read make an array that cannot be read. -/
theorem failsValue_arr {items : List (List Char)} {os : List (Option Json)}
    (h : List.Forall₂ Outcome items os) (hnone : none ∈ os) :
    FailsValue ('[' :: (commaList items ++ [']'])) := by
  refine FailsValue.intro rfl (by decide) fun fuel tail hfuel _ => ?_
  rw [List.length_append, List.length_singleton] at hfuel
  rw [Fails, anyCore_bracket, List.append_assoc, List.singleton_append]
  have hfails : Fails (arrayCore (fuel + 1) []) (commaList items ++ ']' :: tail) :=
    arrayCore_fails h hnone (fuel + 1) [] (by omega)
  cases h with
  | nil => exact absurd hnone List.not_mem_nil
  | @cons item o items os hitem hitems =>
      obtain ⟨c, chars, rfl, hblank, hclose⟩ := hitem.starts
      refine fails_bind (ws_commaList hblank chars items _) ?_
      obtain ⟨more, hmore⟩ := exists_commaList_cons c chars items
      rw [hmore, List.cons_append] at hfails ⊢
      refine fails_bind (a := c) rfl ?_
      rw [if_neg hclose]
      exact hfails.bind

/-! ## Objects -/

/-- A text of a member, and what the parser makes of its value. -/
def OutcomeMember (esc : Char → List Char) (chars : List Char) (ko : String × Option Json) : Prop :=
  ∃ text, chars = literal esc ko.1 ++ ':' :: text ∧ Outcome text ko.2

theorem objectCore_fails {esc : Char → List Char} (hesc : Escapes esc)
    {members : List (List Char)} {kos : List (String × Option Json)}
    (h : List.Forall₂ (OutcomeMember esc) members kos) (hnone : none ∈ kos.map Prod.snd)
    (fuel : Nat) (acc : List (String × Json)) {tail : List Char}
    (hfuel : 2 * ((commaList members).length + 1) ≤ fuel) :
    Fails (objectCore fuel acc) (commaList members ++ '\x7d' :: tail) := by
  induction h generalizing fuel acc with
  | nil => exact absurd hnone List.not_mem_nil
  | @cons member ko members kos hmember hmembers ih =>
      obtain ⟨fuel, rfl⟩ := Nat.exists_eq_add_one_of_ne_zero (by omega : fuel ≠ 0)
      obtain ⟨k, o⟩ := ko
      obtain ⟨text, rfl, hvalue⟩ := hmember
      have hblank : ∀ more, ws (text ++ more) = .success (text ++ more) () := by
        obtain ⟨c, chars, rfl, hblank, _⟩ := hvalue.starts
        exact fun more => ws_cons hblank _
      obtain ⟨hhead, -⟩ := length_commaList_cons (literal esc k ++ ':' :: text) members
      rw [List.length_append, List.length_cons] at hhead
      have hfuel : 2 * ((commaList ((literal esc k ++ ':' :: text) :: members)).length + 1) ≤
        fuel + 1 := hfuel
      cases o with
      | none =>
          have hfails := FailsValue.fails hvalue fuel _ (by omega)
            (endsValue_listTail (Or.inr rfl) members tail)
          rw [commaList_cons_append, List.append_assoc, List.cons_append, Fails,
            objectCore_key hesc fuel acc k (hblank _)]
          exact hfails.bind
      | some v =>
          have hnone : none ∈ kos.map Prod.snd := by simpa using hnone
          cases hmembers with
          | nil => exact absurd hnone List.not_mem_nil
          | @cons next ko' rest kos' hnext hrest =>
              rw [commaList_cons] at hfuel ⊢
              rw [List.length_append, List.length_append, List.length_cons,
                List.length_cons] at hfuel
              have hshort : 2 * text.length ≤ fuel := by omega
              have hread := objectCore_member hesc hvalue hshort acc k
                (endsValue_of_cons (Or.inl rfl) (commaList (next :: rest) ++ '\x7d' :: tail))
              rw [List.append_assoc, List.append_assoc, List.cons_append, List.cons_append, Fails,
                hread]
              refine fails_bind (a := ',') rfl ?_
              obtain ⟨_, rfl, _⟩ := hnext
              exact fails_bind (ws_commaList (by decide) _ rest _) (ih hnone fuel _ (by omega))

/-- Members one of which cannot be read make an object that cannot be read. -/
theorem failsValue_obj {esc : Char → List Char} (hesc : Escapes esc)
    {members : List (List Char)} {kos : List (String × Option Json)}
    (h : List.Forall₂ (OutcomeMember esc) members kos) (hnone : none ∈ kos.map Prod.snd) :
    FailsValue ('\x7b' :: (commaList members ++ ['\x7d'])) := by
  refine FailsValue.intro rfl (by decide) fun fuel tail hfuel _ => ?_
  rw [List.length_append, List.length_singleton] at hfuel
  rw [Fails, anyCore_brace, List.append_assoc, List.singleton_append]
  have hfails : Fails (objectCore (fuel + 1) []) (commaList members ++ '\x7d' :: tail) :=
    objectCore_fails hesc h hnone (fuel + 1) [] (by omega)
  cases h with
  | nil => exact absurd hnone List.not_mem_nil
  | @cons member ko members kos hmember hmembers =>
      obtain ⟨_, rfl, _⟩ := hmember
      rw [literal, List.cons_append] at hfails ⊢
      refine fails_bind (ws_commaList (by decide) _ members _) ?_
      obtain ⟨more, hmore⟩ := exists_commaList_cons '"' _ members
      rw [hmore, List.cons_append] at hfails ⊢
      refine fails_bind (a := '"') rfl ?_
      rw [if_neg (by decide)]
      exact hfails.bind

end McpSeal.Data.Json.Parser

namespace McpSeal.Data.Json

open McpSeal.Data.Json.Parser (Outcome OutcomeMember FailsValue ReadsValue ReadsMember)

/-! ## Documents -/

mutual

/-- Every object keeps its keys sorted, as the parser leaves them. -/
def KeysSorted : Json → Prop
  | .arr elems => KeysSortedElems elems
  | .obj kvPairs => SortedKeys kvPairs ∧ KeysSortedFields kvPairs
  | _ => True

/-- Every object in the elements has ascending keys. -/
def KeysSortedElems : List Json → Prop
  | [] => True
  | e :: es => KeysSorted e ∧ KeysSortedElems es

/-- Every object in the values has ascending keys. -/
def KeysSortedFields : List (String × Json) → Prop
  | [] => True
  | (_, v) :: kvs => KeysSorted v ∧ KeysSortedFields kvs

end

/-- Objects with the same keys are sorted together. -/
theorem sortedKeys_congr {kvs kvs' : List (String × Json)}
    (h : kvs'.map Prod.fst = kvs.map Prod.fst) (hsorted : SortedKeys kvs) : SortedKeys kvs' := by
  have hkeys : ∀ {kvs : List (String × Json)},
      SortedKeys kvs ↔ (kvs.map Prod.fst).Pairwise (· < ·) := List.pairwise_map.symm
  rw [hkeys] at hsorted ⊢
  rwa [h]

/-- All of a list come from somewhere, or one does not. -/
theorem exists_map_or {α β : Type} {f : β → α} {P : α → Prop} (h : ∀ a, P a ∨ ∃ b, f b = a)
    (as : List α) : (∃ a ∈ as, P a) ∨ ∃ bs : List β, bs.map f = as := by
  induction as with
  | nil => exact Or.inr ⟨[], rfl⟩
  | cons a as ih =>
      rcases h a with hhead | ⟨b, rfl⟩
      · exact Or.inl ⟨a, List.mem_cons_self, hhead⟩
      · rcases ih with ⟨a', hmem, htail⟩ | ⟨bs, rfl⟩
        · exact Or.inl ⟨a', List.mem_cons_of_mem _ hmem, htail⟩
        · exact Or.inr ⟨b :: bs, rfl⟩

theorem exists_values_or_none (os : List (Option Json)) :
    none ∈ os ∨ ∃ js : List Json, js.map some = os := by
  have hcases : ∀ o : Option Json, o = none ∨ ∃ j, some j = o := by
    intro o
    cases o with
    | none => exact Or.inl rfl
    | some j => exact Or.inr ⟨j, rfl⟩
  refine (exists_map_or hcases os).imp_left ?_
  rintro ⟨o, hmem, rfl⟩
  exact hmem

theorem exists_members_or_none (kos : List (String × Option Json)) :
    none ∈ kos.map Prod.snd ∨
      ∃ kvs : List (String × Json), kvs.map (fun kv => (kv.1, some kv.2)) = kos := by
  have hcases : ∀ ko : String × Option Json, ko.2 = none ∨
      ∃ kv : String × Json, (kv.1, some kv.2) = ko := by
    rintro ⟨k, o⟩
    cases o with
    | none => exact Or.inl rfl
    | some v => exact Or.inr ⟨(k, v), rfl⟩
  refine (exists_map_or hcases kos).imp_left ?_
  rintro ⟨ko, hmem, hnone⟩
  exact hnone ▸ List.mem_map_of_mem hmem

theorem none_ne_some {j : Json} (P : Prop) (h : (none : Option Json) = some j) : P :=
  absurd h.symm (Option.some_ne_none j)

mutual

/-- A compact text is read as a value with this text, or not at all. -/
theorem outcome_compress (j : Json) (h : KeysSorted j) :
    ∃ o, Outcome (compress j).toList o ∧ ∀ j', o = some j' → compress j' = compress j := by
  cases j with
  | null =>
      refine ⟨some .null, Parser.readsValue_null, fun j' hj => ?_⟩
      rw [← Option.some.inj hj]
  | bool b =>
      refine ⟨some (.bool b), ?_, fun j' hj => by rw [← Option.some.inj hj]⟩
      cases b with
      | true => exact Parser.readsValue_true
      | false => exact Parser.readsValue_false
  | num n =>
      obtain ⟨c, rest, htext, hc⟩ := startsNumber_toText n
      rcases Parser.num_toText n with hfails | ⟨n', hsame, hreads⟩
      · refine ⟨none, ?_, fun j' => none_ne_some _⟩
        rw [compress, htext]
        rw [htext] at hfails
        exact Parser.failsValue_num hc hfails
      · refine ⟨some (.num n'), ?_, fun j' hj => ?_⟩
        · rw [compress, htext]
          rw [htext] at hreads
          exact Parser.readsValue_num hc hreads
        · rw [← Option.some.inj hj]
          exact hsame
  | str s =>
      refine ⟨some (.str s), ?_, fun j' hj => by rw [← Option.some.inj hj]⟩
      rw [compress, toList_renderString]
      exact Parser.readsValue_str escapes_escapeAux s
  | arr elems =>
      obtain ⟨os, hos, hsame⟩ := outcomeElems elems h
      rw [toList_compress_arr]
      rcases exists_values_or_none os with hnone | ⟨js, rfl⟩
      · exact ⟨none, Parser.failsValue_arr hos hnone, fun j' => none_ne_some _⟩
      · have hreads : List.Forall₂ (fun chars j => Outcome chars (some j))
          (elems.map fun e => (compress e).toList) js := List.forall₂_map_right_iff.mp hos
        refine ⟨some (.arr js), Parser.readsValue_arr hreads, fun j' hj => ?_⟩
        have htexts := congrArg (List.map String.toList) (hsame js rfl)
        rw [List.map_map, List.map_map] at htexts
        rw [← Option.some.inj hj, ← String.toList_inj, toList_compress_arr, toList_compress_arr]
        exact congrArg (fun texts => '[' :: (Parser.commaList texts ++ [']'])) htexts
  | obj kvPairs =>
      obtain ⟨kos, hkos, hkeys, hsame⟩ := outcomeFields kvPairs h.2
      rw [toList_compress_obj]
      rcases exists_members_or_none kos with hnone | ⟨kvs, rfl⟩
      · exact ⟨none, Parser.failsValue_obj escapes_escapeAux hkos hnone, fun j' => none_ne_some _⟩
      · have hreads : List.Forall₂
          (fun chars (kv : String × Json) => OutcomeMember escapeAux chars (kv.1, some kv.2))
          (kvPairs.map memberText) kvs := List.forall₂_map_right_iff.mp hkos
        have hsorted : SortedKeys kvs := by
          refine sortedKeys_congr ?_ h.1
          rw [← hkeys, List.map_map]
          rfl
        refine ⟨some (.obj kvs), ?_, fun j' hj => ?_⟩
        · rw [← mkObj_of_sorted hsorted]
          exact Parser.readsValue_obj escapes_escapeAux hreads
        · rw [← Option.some.inj hj, ← String.toList_inj, toList_compress_obj, toList_compress_obj,
            hsame kvs rfl]

theorem outcomeElems (es : List Json) (h : KeysSortedElems es) :
    ∃ os, List.Forall₂ Outcome (es.map fun e => (compress e).toList) os ∧
      ∀ js : List Json, js.map some = os → js.map compress = es.map compress := by
  cases es with
  | nil => exact ⟨[], .nil, fun js hjs => by rw [List.map_eq_nil_iff.mp hjs]⟩
  | cons e rest =>
      obtain ⟨o, ho, hsame⟩ := outcome_compress e h.1
      obtain ⟨os, hos, hsames⟩ := outcomeElems rest h.2
      refine ⟨o :: os, .cons ho hos, fun js hjs => ?_⟩
      obtain ⟨j, js, rfl, hj, hjs⟩ := List.map_eq_cons_iff.mp hjs
      rw [List.map_cons, List.map_cons, hsame j hj.symm, hsames js hjs]

theorem outcomeFields (kvs : List (String × Json)) (h : KeysSortedFields kvs) :
    ∃ kos, List.Forall₂ (OutcomeMember escapeAux) (kvs.map memberText) kos ∧
      kos.map Prod.fst = kvs.map Prod.fst ∧
      ∀ kvs' : List (String × Json), kvs'.map (fun kv => (kv.1, some kv.2)) = kos →
        kvs'.map memberText = kvs.map memberText := by
  cases kvs with
  | nil => exact ⟨[], .nil, rfl, fun kvs' hkvs => by rw [List.map_eq_nil_iff.mp hkvs]⟩
  | cons kv rest =>
      obtain ⟨k, v⟩ := kv
      obtain ⟨o, ho, hsame⟩ := outcome_compress v h.1
      obtain ⟨kos, hkos, hkeys, hsames⟩ := outcomeFields rest h.2
      refine ⟨(k, o) :: kos, .cons ⟨_, rfl, ho⟩ hkos, by rw [List.map_cons, List.map_cons, hkeys],
        fun kvs' hkvs => ?_⟩
      obtain ⟨⟨k', v'⟩, rest', rfl, hhead, htail⟩ := List.map_eq_cons_iff.mp hkvs
      obtain ⟨rfl, hv⟩ := Prod.mk.inj hhead
      rw [List.map_cons, List.map_cons, hsames rest' htail, memberText, memberText,
        hsame v' hv.symm]

end

theorem parse_of_failsValue {s : String} (h : FailsValue s.toList) : ∃ err, parse s = .error err := by
  have hfails : Parser.Fails (Parser.document (2 * s.toList.length + 2)) s.toList := by
    have hvalue := h.fails (2 * s.toList.length + 2) [] (by omega) (fun _ _ heq => by contradiction)
    rw [List.append_nil] at hvalue
    obtain ⟨c, rest, hchars, hblank, _⟩ := h.starts
    rw [hchars] at hvalue ⊢
    exact Parser.fails_bind (Parser.ws_cons hblank _) hvalue.bind
  obtain ⟨rest, err, herror⟩ := hfails
  exact ⟨_, by rw [parse, herror]⟩

/-- **Reading again.**  If the parser reads the compact text of a value, the value it
reads has the same compact text. -/
theorem compress_of_parse {a a' : Json} (hsorted : KeysSorted a)
    (h : parse (compress a) = .ok a') : compress a' = compress a := by
  obtain ⟨o, ho, hsame⟩ := outcome_compress a hsorted
  cases o with
  | none =>
      obtain ⟨err, herror⟩ := parse_of_failsValue ho
      exact Except.noConfusion rfl rfl (heq_of_eq (herror.symm.trans h))
  | some j =>
      have hread : parse (compress a) = .ok j := parse_of_readsValue ho
      obtain rfl := Except.ok.inj (hread.symm.trans h)
      exact hsame _ rfl

/-! ## What is parsed keeps its keys sorted -/

theorem keysSortedFields_insert {kvPairs : List (String × Json)} (h : KeysSortedFields kvPairs)
    (k : String) {v : Json} (hv : KeysSorted v) : KeysSortedFields (insert kvPairs k v) := by
  induction kvPairs with
  | nil => exact ⟨hv, trivial⟩
  | cons kv rest ih =>
      obtain ⟨l, w⟩ := kv
      unfold insert
      split
      · exact ⟨hv, h⟩
      · exact ⟨hv, h.2⟩
      · exact ⟨h.1, ih h.2⟩

mutual

theorem keysSorted_value (t : Raw) : KeysSorted t.value := by
  cases t with
  | arr elems => exact keysSorted_elemValues elems
  | obj members => exact keysSorted_bindings members .nil trivial
  | _ => trivial

theorem keysSorted_elemValues (ts : List Raw) : KeysSortedElems (Raw.elemValues ts) := by
  cases ts with
  | nil => trivial
  | cons t rest => exact ⟨keysSorted_value t, keysSorted_elemValues rest⟩

theorem keysSorted_bindings (ms : List (String × Raw)) {kvPairs : List (String × Json)}
    (hsorted : SortedKeys kvPairs) (hfields : KeysSortedFields kvPairs) :
    SortedKeys (Raw.bindings kvPairs ms) ∧ KeysSortedFields (Raw.bindings kvPairs ms) := by
  cases ms with
  | nil => exact ⟨hsorted, hfields⟩
  | cons m rest =>
      obtain ⟨k, t⟩ := m
      exact keysSorted_bindings rest (insert_sorted hsorted k t.value)
        (keysSortedFields_insert hfields k (keysSorted_value t))

end

theorem keysSorted_of_parse {s : String} {j : Json} (h : parse s = .ok j) : KeysSorted j := by
  rw [parse_eq_parseRaw] at h
  cases hraw : parseRaw s with
  | error err =>
      rw [hraw] at h
      contradiction
  | ok t =>
      rw [hraw] at h
      obtain rfl := Except.ok.inj h
      exact keysSorted_value t

end McpSeal.Data.Json
