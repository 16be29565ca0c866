import McpSeal.SealV2.Lexical
import Mathlib.Data.List.Nodup
set_option autoImplicit false

/-!
# SealV2: trees read back (`SealV2/SerializationTheorems.lean`)

The parser reads every canonical tree back from its canonical text, whatever
separator follows.  The induction is on the tree; the fuel is any number above
the length of the text, and the parser's own fuel is one such number.
-/

namespace McpSeal.SealV2

open McpSeal.Foundation (Reads)

/-! ## Canonical containers -/

theorem isCanonicalArray_iff {items : List AST} :
    isCanonicalArray items = true ↔ ∀ item ∈ items, IsCanonical item := by
  induction items with
  | nil => simp [isCanonicalArray]
  | cons item rest ih => simp [isCanonicalArray, ih, IsCanonical]

theorem duplicateKey_eq_true {key : String} {fields : List (String × AST)} :
    duplicateKey key fields = true ↔ key ∈ fields.map Prod.fst := by
  simp [duplicateKey]

theorem isCanonicalObject_iff {fields : List (String × AST)} :
    isCanonicalObject fields = true ↔
      (∀ field ∈ fields, IsCanonical field.2) ∧ (fields.map Prod.fst).Nodup := by
  induction fields with
  | nil => simp [isCanonicalObject]
  | cons field rest ih =>
      obtain ⟨key, value⟩ := field
      have hkey : hasDuplicateKey key rest = true ↔ key ∈ rest.map Prod.fst :=
        duplicateKey_eq_true
      rw [isCanonicalObject, Bool.and_eq_true, Bool.and_eq_true, Bool.and_eq_true, ih,
        Bool.not_eq_true', ← Bool.not_eq_true, hkey, List.map_cons, List.nodup_cons,
        List.forall_mem_cons]
      simp only [isCanonicalString, IsCanonical, true_and]
      tauto

/-- Canonicality of an array does not depend on the order of its items. -/
theorem canonical_array_reverse {items : List AST} :
    IsCanonical (.array items.reverse) ↔ isCanonicalArray items = true := by
  show isCanonicalArray items.reverse = true ↔ _
  simp only [isCanonicalArray_iff, List.mem_reverse]

/-- Canonicality of an object does not depend on the order of its members. -/
theorem canonical_object_reverse {fields : List (String × AST)} :
    IsCanonical (.object fields.reverse) ↔ isCanonicalObject fields = true := by
  show isCanonicalObject fields.reverse = true ↔ _
  simp only [isCanonicalObject_iff, List.mem_reverse, List.map_reverse, List.nodup_reverse]

/-! ## Texts -/

/-- Text of a tree. -/
def text (ast : AST) : List Char := (serializeAstValue ast).toList

/-- Text of the items of an array. -/
def itemsText (items : List AST) : List Char := (serializeArrayValue items).toList

/-- Text of the members of an object. -/
def fieldsText (fields : List (String × AST)) : List Char :=
  (serializeObjectValue fields).toList

theorem text_string (s : String) : text (.string s) = quoted s := by
  simp [text, serializeAstValue, quoted, escapeString_toList]

theorem text_array (items : List AST) :
    text (.array items) = '[' :: (itemsText items ++ [']']) := by
  simp [text, itemsText, serializeAstValue]

theorem text_object (fields : List (String × AST)) :
    text (.object fields) = '{' :: (fieldsText fields ++ ['}']) := by
  simp [text, fieldsText, serializeAstValue]

theorem itemsText_cons (item next : AST) (rest : List AST) :
    itemsText (item :: next :: rest) = text item ++ ',' :: itemsText (next :: rest) := by
  simp [itemsText, text, serializeArrayValue]

theorem fieldsText_singleton (key : String) (value : AST) :
    fieldsText [(key, value)] = quoted key ++ ':' :: text value := by
  simp [fieldsText, text, serializeObjectValue, quoted, escapeString_toList]

theorem fieldsText_cons (key : String) (value : AST) (next : String × AST)
    (rest : List (String × AST)) :
    fieldsText ((key, value) :: next :: rest) =
      quoted key ++ ':' :: (text value ++ ',' :: fieldsText (next :: rest)) := by
  simp [fieldsText, text, serializeObjectValue, quoted, escapeString_toList]

/-- A character a value may start with: no whitespace and no closing bracket. -/
def StartsValue (c : Char) : Prop := isWs c = false ∧ c ≠ ']' ∧ c ≠ '}'

instance (c : Char) : Decidable (StartsValue c) :=
  inferInstanceAs (Decidable (isWs c = false ∧ c ≠ ']' ∧ c ≠ '}'))

theorem StartsValue.of_digit {c : Char} (h : isDigit c = true) : StartsValue c := by
  refine ⟨?_, ?_, ?_⟩
  · unfold isWs
    split <;> first | rfl | exact absurd h (by decide)
  · rintro rfl
    exact absurd h (by decide)
  · rintro rfl
    exact absurd h (by decide)

theorem exists_first_number {d : Decimal} (h : isCanonicalDecimal d = true) :
    ∃ c rest, (serializeDecimal d).toList = c :: rest ∧ (c = '-' ∨ isDigit c = true) := by
  simp only [isCanonicalDecimal, Bool.and_eq_true] at h
  obtain ⟨c, rest, hfirst, hdigit⟩ := exists_first_digit h.1.1
  rw [serializeDecimal_toList, hfirst]
  cases d.negative with
  | true => exact ⟨'-', _, rfl, Or.inl rfl⟩
  | false => exact ⟨c, _, rfl, Or.inr hdigit⟩

theorem exists_first {ast : AST} (h : IsCanonical ast) :
    ∃ c rest, text ast = c :: rest ∧ StartsValue c := by
  cases ast with
  | null => exact ⟨'n', _, rfl, by decide⟩
  | bool b =>
      cases b with
      | false => exact ⟨'f', _, rfl, by decide⟩
      | true => exact ⟨'t', _, rfl, by decide⟩
  | number d =>
      obtain ⟨c, rest, hfirst, hc⟩ := exists_first_number h
      refine ⟨c, rest, hfirst, ?_⟩
      rcases hc with rfl | hdigit
      · decide
      · exact StartsValue.of_digit hdigit
  | string s => exact ⟨'"', _, text_string s, by decide⟩
  | array items => exact ⟨'[', _, text_array items, by decide⟩
  | object fields => exact ⟨'{', _, text_object fields, by decide⟩

theorem skipWs_of_starts {c : Char} {rest : List Char} (h : StartsValue c) :
    skipWs (c :: rest) = c :: rest := by
  rw [skipWs, h.1, if_neg (by decide)]

theorem skipWs_text {ast : AST} (h : IsCanonical ast) (tail : List Char) :
    skipWs (text ast ++ tail) = text ast ++ tail := by
  obtain ⟨c, rest, hfirst, hstarts⟩ := exists_first h
  rw [hfirst]
  exact skipWs_of_starts hstarts

/-! ## Values -/

theorem parseValue_number {c : Char} (h : c = '-' ∨ isDigit c = true) (fuel : Nat)
    (rest : List Char) :
    parseValueFuelUnchecked (fuel + 1) (c :: rest) = parseNumber (c :: rest) := by
  rcases h with rfl | hdigit
  · rw [parseValueFuelUnchecked, skipWs_of_starts (by decide)]
    rfl
  · obtain ⟨hn, ht, hf, hquote, harray, hobject, hminus⟩ :
        c ≠ 'n' ∧ c ≠ 't' ∧ c ≠ 'f' ∧ c ≠ '"' ∧ c ≠ '[' ∧ c ≠ '{' ∧ c ≠ '-' := by
      refine ⟨?_, ?_, ?_, ?_, ?_, ?_, ?_⟩ <;> (rintro rfl; exact absurd hdigit (by decide))
    rw [parseValueFuelUnchecked, skipWs_of_starts (StartsValue.of_digit hdigit)]
    simp [hdigit]

theorem parseValue_string (fuel : Nat) (s : String) (tail : List Char) :
    parseValueFuelUnchecked (fuel + 1) (quoted s ++ tail) = some (.string s, tail) := by
  have hstring := reads_string s tail trivial
  rw [quoted, List.cons_append] at hstring ⊢
  rw [parseValueFuelUnchecked, skipWs_of_starts (by decide)]
  simp only [hstring]

/-! ## Containers

One item or member at a time: what the parser does in front of a comma and in
front of the closing bracket. -/

theorem skipWs_separator {c : Char} (h : isWs c = false) (tail : List Char) :
    skipWs (c :: tail) = c :: tail := by
  rw [skipWs, h, if_neg (by decide)]

theorem parseArray_empty {acc : List AST} (hacc : isCanonicalArray acc = true) (fuel : Nat)
    (tail : List Char) :
    parseArrayFuelUnchecked (fuel + 1) acc (skipWs (']' :: tail)) =
      some (.array (acc.reverse ++ []), tail) := by
  have hskip := skipWs_separator (show isWs ']' = false from rfl) tail
  rw [hskip, parseArrayFuelUnchecked, hskip, List.append_nil]
  exact if_pos (canonical_array_reverse.mpr hacc)

theorem parseArray_close {item : AST} {acc : List AST} (hitem : IsCanonical item)
    (hacc : isCanonicalArray acc = true) {fuel : Nat} {tail : List Char}
    (hread : parseValueFuelUnchecked fuel (text item ++ ']' :: tail) =
      some (item, ']' :: tail)) :
    parseArrayFuelUnchecked (fuel + 1) acc (text item ++ ']' :: tail) =
      some (.array (item :: acc).reverse, tail) := by
  obtain ⟨c, rest, hfirst, hstarts⟩ := exists_first hitem
  have hcanonical : IsCanonical (.array (item :: acc).reverse) := by
    rw [canonical_array_reverse, isCanonicalArray, Bool.and_eq_true]
    exact ⟨hitem, hacc⟩
  rw [parseArrayFuelUnchecked, skipWs_text hitem]
  split
  · rename_i heq
    rw [hfirst] at heq
    exact absurd (List.cons.inj heq).1 hstarts.2.1
  · simp only [hread, skipWs_separator (show isWs ']' = false from rfl)]
    rw [if_pos hcanonical]

theorem parseArray_next {item next : AST} {acc : List AST} (hitem : IsCanonical item)
    (hnext : IsCanonical next) (hacc : isCanonicalArray acc = true) {fuel : Nat}
    {rest tail : List Char} (hrest : rest = text next ++ tail)
    (hread : parseValueFuelUnchecked fuel (text item ++ ',' :: rest) =
      some (item, ',' :: rest)) :
    parseArrayFuelUnchecked (fuel + 1) acc (text item ++ ',' :: rest) =
      parseArrayFuelUnchecked fuel (item :: acc) rest := by
  obtain ⟨c, _, hfirst, hstarts⟩ := exists_first hitem
  obtain ⟨d, _, hfirst', hstarts'⟩ := exists_first hnext
  have hcanonical : isCanonicalArray (item :: acc) = true := by
    rw [isCanonicalArray, Bool.and_eq_true]
    exact ⟨hitem, hacc⟩
  have hskip : skipWs rest = rest := by
    rw [hrest]
    exact skipWs_text hnext tail
  rw [parseArrayFuelUnchecked, skipWs_text hitem]
  split
  · rename_i heq
    rw [hfirst] at heq
    exact absurd (List.cons.inj heq).1 hstarts.2.1
  · simp only [hread, skipWs_separator (show isWs ',' = false from rfl), hskip]
    split
    · rw [hfirst'] at hrest
      exact absurd (List.cons.inj hrest).1.symm hstarts'.2.1
    · rw [if_pos hcanonical]

theorem skipWs_quoted (key : String) (tail : List Char) :
    skipWs (quoted key ++ tail) = quoted key ++ tail := by
  rw [quoted, List.cons_append]
  exact skipWs_separator (by decide) _

theorem not_duplicateKey {key : String} {value : AST} {acc : List (String × AST)}
    (h : isCanonicalObject ((key, value) :: acc) = true) : duplicateKey key acc = false := by
  have hnodup := (isCanonicalObject_iff.mp h).2
  rw [← Bool.not_eq_true, duplicateKey_eq_true]
  exact (List.nodup_cons.mp hnodup).1

theorem parseObject_empty {acc : List (String × AST)} (hacc : isCanonicalObject acc = true)
    (fuel : Nat) (tail : List Char) :
    parseObjectFuelUnchecked (fuel + 1) acc (skipWs ('}' :: tail)) =
      some (.object (acc.reverse ++ []), tail) := by
  have hskip := skipWs_separator (show isWs '}' = false from rfl) tail
  rw [hskip, parseObjectFuelUnchecked, hskip, List.append_nil]
  exact if_pos (canonical_object_reverse.mpr hacc)

theorem parseObject_close {key : String} {value : AST} {acc : List (String × AST)}
    (hcanonical : isCanonicalObject ((key, value) :: acc) = true) {fuel : Nat}
    {tail : List Char}
    (hread : parseValueFuelUnchecked fuel (text value ++ '}' :: tail) =
      some (value, '}' :: tail)) :
    parseObjectFuelUnchecked (fuel + 1) acc
        (quoted key ++ ':' :: (text value ++ '}' :: tail)) =
      some (.object ((key, value) :: acc).reverse, tail) := by
  have hkey := reads_string key (':' :: (text value ++ '}' :: tail)) trivial
  rw [parseObjectFuelUnchecked, skipWs_quoted]
  split
  · rename_i heq
    exact absurd (List.cons.inj heq).1 (by decide)
  · simp only [hkey, not_duplicateKey hcanonical, Bool.false_eq_true, if_false, hread,
      skipWs_separator (show isWs ':' = false from rfl),
      skipWs_separator (show isWs '}' = false from rfl)]
    rw [if_pos (canonical_object_reverse.mpr hcanonical)]

theorem parseObject_next {key : String} {value : AST} {acc : List (String × AST)}
    (hcanonical : isCanonicalObject ((key, value) :: acc) = true) {fuel : Nat}
    {next : String} {rest tail : List Char} (hrest : rest = quoted next ++ tail)
    (hread : parseValueFuelUnchecked fuel (text value ++ ',' :: rest) =
      some (value, ',' :: rest)) :
    parseObjectFuelUnchecked (fuel + 1) acc
        (quoted key ++ ':' :: (text value ++ ',' :: rest)) =
      parseObjectFuelUnchecked fuel ((key, value) :: acc) rest := by
  have hkey := reads_string key (':' :: (text value ++ ',' :: rest)) trivial
  have hskip : skipWs rest = rest := by
    rw [hrest]
    exact skipWs_quoted next tail
  rw [parseObjectFuelUnchecked, skipWs_quoted]
  split
  · rename_i heq
    exact absurd (List.cons.inj heq).1 (by decide)
  · simp only [hkey, not_duplicateKey hcanonical, Bool.false_eq_true, if_false, hread, hskip,
      skipWs_separator (show isWs ':' = false from rfl),
      skipWs_separator (show isWs ',' = false from rfl)]
    split
    · exact absurd (List.cons.inj hrest).1 (by decide)
    · rw [if_pos hcanonical]

/-! ## Trees -/

theorem endsValue_cons {c : Char} (h : c = ',' ∨ c = ']' ∨ c = '}') (tail : List Char) :
    EndsValue (c :: tail) := by
  intro d rest heq
  obtain ⟨rfl, _⟩ := List.cons.inj heq
  exact h

theorem endsValue_nil : EndsValue [] := by
  intro c rest heq
  contradiction

theorem isCanonicalArray_left {items rest : List AST}
    (h : isCanonicalArray (items ++ rest) = true) : isCanonicalArray items = true := by
  rw [isCanonicalArray_iff] at h ⊢
  exact fun item hitem => h item (List.mem_append_left rest hitem)

theorem isCanonicalObject_left {fields rest : List (String × AST)}
    (h : isCanonicalObject (fields ++ rest) = true) : isCanonicalObject fields = true := by
  rw [isCanonicalObject_iff] at h ⊢
  rw [List.map_append] at h
  exact ⟨fun field hfield => h.1 field (List.mem_append_left rest hfield),
    (List.nodup_append.mp h.2).1⟩

theorem parseValue_array (fuel : Nat) (chars : List Char) :
    parseValueFuelUnchecked (fuel + 1) ('[' :: chars) =
      parseArrayFuelUnchecked fuel [] (skipWs chars) := by
  rw [parseValueFuelUnchecked, skipWs_separator (by decide)]
  rfl

theorem parseValue_object (fuel : Nat) (chars : List Char) :
    parseValueFuelUnchecked (fuel + 1) ('{' :: chars) =
      parseObjectFuelUnchecked fuel [] (skipWs chars) := by
  rw [parseValueFuelUnchecked, skipWs_separator (by decide)]
  rfl

/-- The items of an array start with the first of them. -/
theorem itemsText_eq_append (item : AST) (rest : List AST) :
    ∃ tail, itemsText (item :: rest) = text item ++ tail := by
  cases rest with
  | nil => exact ⟨[], (List.append_nil _).symm⟩
  | cons next rest => exact ⟨_, itemsText_cons item next rest⟩

/-- The members of an object start with the first key. -/
theorem fieldsText_eq_append (field : String × AST) (rest : List (String × AST)) :
    ∃ tail, fieldsText (field :: rest) = quoted field.1 ++ tail := by
  obtain ⟨key, value⟩ := field
  cases rest with
  | nil => exact ⟨_, fieldsText_singleton key value⟩
  | cons next rest => exact ⟨_, fieldsText_cons key value next rest⟩

theorem skipWs_itemsText {item : AST} (h : IsCanonical item) (rest : List AST)
    (tail : List Char) :
    skipWs (itemsText (item :: rest) ++ tail) = itemsText (item :: rest) ++ tail := by
  obtain ⟨tail', htail'⟩ := itemsText_eq_append item rest
  rw [htail', List.append_assoc]
  exact skipWs_text h _

theorem skipWs_fieldsText (field : String × AST) (rest : List (String × AST))
    (tail : List Char) :
    skipWs (fieldsText (field :: rest) ++ tail) = fieldsText (field :: rest) ++ tail := by
  obtain ⟨tail', htail'⟩ := fieldsText_eq_append field rest
  rw [htail', List.append_assoc]
  exact skipWs_quoted field.1 _

mutual

/-- **Trees.**  Every canonical tree is read back from its text, with any fuel
above the length of the text. -/
theorem reads_value (ast : AST) (hcanonical : IsCanonical ast) (fuel : Nat)
    (hfuel : (text ast).length < fuel) :
    Reads (parseValueFuelUnchecked fuel) EndsValue (text ast) ast := by
  intro tail htail
  obtain ⟨fuel, rfl⟩ : ∃ n, fuel = n + 1 := ⟨fuel - 1, by omega⟩
  cases ast with
  | null => simp [text, serializeAstValue, parseValueFuelUnchecked, skipWs, isWs, parseLiteral]
  | bool b =>
      cases b <;>
        simp [text, serializeAstValue, parseValueFuelUnchecked, skipWs, isWs, parseLiteral]
  | number d =>
      obtain ⟨c, rest, hfirst, hc⟩ := exists_first_number hcanonical
      have hnumber := reads_number hcanonical tail htail
      rw [hfirst, List.cons_append] at hnumber
      rw [text, serializeAstValue, hfirst, List.cons_append, parseValue_number hc]
      exact hnumber
  | string s =>
      rw [text_string]
      exact parseValue_string fuel s tail
  | array items =>
      rw [text_array, List.length_cons, List.length_append, List.length_singleton] at hfuel
      rw [text_array, List.cons_append, List.append_assoc, parseValue_array]
      exact reads_items items [] hcanonical fuel (by omega) tail
  | object fields =>
      rw [text_object, List.length_cons, List.length_append, List.length_singleton] at hfuel
      rw [text_object, List.cons_append, List.append_assoc, parseValue_object]
      exact reads_fields fields [] hcanonical fuel (by omega) tail

/-- The items of an array are read back up to the closing bracket, on top of
the items already read. -/
theorem reads_items (items acc : List AST)
    (hcanonical : isCanonicalArray (acc.reverse ++ items) = true) (fuel : Nat)
    (hfuel : (itemsText items).length + 1 < fuel) (tail : List Char) :
    parseArrayFuelUnchecked fuel acc (skipWs (itemsText items ++ ']' :: tail)) =
      some (.array (acc.reverse ++ items), tail) := by
  obtain ⟨fuel, rfl⟩ : ∃ n, fuel = n + 1 := ⟨fuel - 1, by omega⟩
  have hacc : isCanonicalArray acc = true :=
    canonical_array_reverse.mp (isCanonicalArray_left hcanonical)
  cases items with
  | nil => exact parseArray_empty hacc fuel tail
  | cons item rest =>
      have hitem : IsCanonical item := isCanonicalArray_iff.mp hcanonical item (by simp)
      rw [skipWs_itemsText hitem]
      cases rest with
      | nil =>
          have hread := reads_value item hitem fuel (by
            rw [itemsText, serializeArrayValue, ← text] at hfuel
            omega)
          have hclose := parseArray_close hitem hacc
            (hread (']' :: tail) (endsValue_cons (by simp) tail))
          rw [List.reverse_cons] at hclose
          exact hclose
      | cons next rest =>
          have hnext : IsCanonical next := isCanonicalArray_iff.mp hcanonical next (by simp)
          rw [itemsText_cons, List.length_append, List.length_cons] at hfuel
          have hcanonical' : isCanonicalArray ((item :: acc).reverse ++ next :: rest) = true := by
            rw [List.reverse_cons, List.append_assoc]
            exact hcanonical
          have hread := reads_value item hitem fuel (by omega)
          have hrest := reads_items (next :: rest) (item :: acc) hcanonical' fuel
            (by omega) tail
          rw [skipWs_itemsText hnext] at hrest
          obtain ⟨tail', htail'⟩ := itemsText_eq_append next rest
          have hstep := parseArray_next hitem hnext hacc (by rw [htail', List.append_assoc])
            (hread (',' :: (itemsText (next :: rest) ++ ']' :: tail))
              (endsValue_cons (by simp) _))
          rw [itemsText_cons, List.append_assoc, List.cons_append, hstep, hrest,
            List.reverse_cons, List.append_assoc]
          rfl

/-- The members of an object are read back up to the closing brace, on top of
the members already read. -/
theorem reads_fields (fields acc : List (String × AST))
    (hcanonical : isCanonicalObject (acc.reverse ++ fields) = true) (fuel : Nat)
    (hfuel : (fieldsText fields).length + 1 < fuel) (tail : List Char) :
    parseObjectFuelUnchecked fuel acc (skipWs (fieldsText fields ++ '}' :: tail)) =
      some (.object (acc.reverse ++ fields), tail) := by
  obtain ⟨fuel, rfl⟩ : ∃ n, fuel = n + 1 := ⟨fuel - 1, by omega⟩
  cases fields with
  | nil =>
      exact parseObject_empty
        (canonical_object_reverse.mp (isCanonicalObject_left hcanonical)) fuel tail
  | cons field rest =>
      rw [skipWs_fieldsText]
      obtain ⟨key, value⟩ := field
      have hvalue : IsCanonical value :=
        (isCanonicalObject_iff.mp hcanonical).1 (key, value) (by simp)
      have hcanonical' : isCanonicalObject (((key, value) :: acc).reverse ++ rest) = true := by
        rw [List.reverse_cons, List.append_assoc]
        exact hcanonical
      have hmember : isCanonicalObject ((key, value) :: acc) = true :=
        canonical_object_reverse.mp (isCanonicalObject_left hcanonical')
      cases rest with
      | nil =>
          rw [fieldsText_singleton, List.length_append, List.length_cons] at hfuel
          have hread := reads_value value hvalue fuel (by omega)
          have hclose := parseObject_close hmember
            (hread ('}' :: tail) (endsValue_cons (by simp) tail))
          rw [fieldsText_singleton, List.append_assoc, List.cons_append, hclose,
            List.reverse_cons]
      | cons next rest =>
          rw [fieldsText_cons, List.length_append, List.length_cons, List.length_append,
            List.length_cons] at hfuel
          have hread := reads_value value hvalue fuel (by omega)
          have hrest := reads_fields (next :: rest) ((key, value) :: acc) hcanonical' fuel
            (by omega) tail
          rw [skipWs_fieldsText] at hrest
          obtain ⟨tail', htail'⟩ := fieldsText_eq_append next rest
          have hstep := parseObject_next hmember (by rw [htail', List.append_assoc])
            (hread (',' :: (fieldsText (next :: rest) ++ '}' :: tail))
              (endsValue_cons (by simp) _))
          rw [fieldsText_cons, List.append_assoc, List.cons_append, List.append_assoc,
            List.cons_append, hstep, hrest, List.reverse_cons, List.append_assoc]
          rfl

end

/-! ## The round trip -/

/-- **Round trip.**  The parser reads the canonical text of a canonical tree
back as that tree; its own fuel is enough. -/
theorem parse_serializeAst (ast : {ast // IsCanonical ast}) :
    parse (serializeAst ast) = some ast.val := by
  obtain ⟨ast, hcanonical⟩ := ast
  have hread := reads_value ast hcanonical ((text ast).length + 1) (by omega) [] endsValue_nil
  rw [List.append_nil] at hread
  have hvalue : parseValueFuel ((text ast).length + 1) (text ast) = some (ast, []) :=
    guardCanonicalResult_eq_some.mpr ⟨hread, hcanonical⟩
  have htext : (serializeAst ⟨ast, hcanonical⟩).toList = text ast := rfl
  simp only [parse, htext, hvalue, skipWs, if_pos hcanonical]

theorem text_injective {a b : AST} (ha : IsCanonical a) (hb : IsCanonical b)
    (h : text a = text b) : a = b := by
  have hread := reads_value a ha ((text a).length + 1) (by omega)
  have hread' := reads_value b hb ((text a).length + 1) (by rw [h]; omega)
  rw [← h] at hread'
  exact hread.unique hread' endsValue_nil

/-- Distinct canonical trees have distinct texts. -/
theorem serializeAst_injective {a b : {ast // IsCanonical ast}}
    (h : serializeAst a = serializeAst b) : a = b :=
  Subtype.ext (text_injective a.property b.property (congrArg String.toList h))

end McpSeal.SealV2
