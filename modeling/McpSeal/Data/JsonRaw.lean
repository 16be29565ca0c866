import McpSeal.Data.JsonText
set_option autoImplicit false

/-!
# Data: a JSON text before its keys are collapsed

The library's parser inserts every member it reads, so of two members with one
key the later wins and the earlier is gone.  Another reader of the same text may
keep the first, or refuse it.  To speak about both, the text is read into a raw
tree that keeps every member in the order of the text; a reader is then what it
does with the members.  The parser is the reader that inserts (`parse_eq_parseRaw`).
-/

namespace McpSeal.Data.Json

/-- A JSON text: like a value, but with the members as they are written. -/
inductive Raw where
  | null
  | bool (b : Bool)
  | num (n : JsonNumber)
  | str (s : String)
  | arr (elems : List Raw)
  | obj (members : List (String × Raw))

namespace Raw

/-! ## What the library makes of a tree -/

mutual

/-- The value the library makes of a tree: a repeated key keeps its last value. -/
def value : Raw → Json
  | .null => .null
  | .bool b => .bool b
  | .num n => .num n
  | .str s => .str s
  | .arr elems => .arr (elemValues elems)
  | .obj members => .obj (bindings [] members)

/-- The values of the elements. -/
def elemValues : List Raw → List Json
  | [] => []
  | t :: ts => t.value :: elemValues ts

/-- The bindings after some members, each replacing an earlier one of its key. -/
def bindings (kvPairs : List (String × Json)) : List (String × Raw) → List (String × Json)
  | [] => kvPairs
  | (k, t) :: ms => bindings (insert kvPairs k t.value) ms

end

theorem elemValues_append (ts us : List Raw) :
    elemValues (ts ++ us) = elemValues ts ++ elemValues us := by
  induction ts with
  | nil => rfl
  | cons t ts ih => rw [List.cons_append, elemValues, elemValues, ih, List.cons_append]

theorem bindings_append (kvPairs : List (String × Json)) (ms ns : List (String × Raw)) :
    bindings kvPairs (ms ++ ns) = bindings (bindings kvPairs ms) ns := by
  induction ms generalizing kvPairs with
  | nil => rfl
  | cons m ms ih =>
      obtain ⟨k, t⟩ := m
      rw [List.cons_append, bindings, bindings, ih]

/-! ## What another reader makes of it -/

/-- How a reader adds a member to the bindings it has, or refuses it. -/
abbrev Binder : Type :=
  List (String × Json) → String → Json → Except String (List (String × Json))

mutual

/-- Read a tree with a binder, which decides at every member of every object. -/
def read (binder : Binder) : Raw → Except String Json
  | .null => .ok .null
  | .bool b => .ok (.bool b)
  | .num n => .ok (.num n)
  | .str s => .ok (.str s)
  | .arr elems => (readElems binder elems).map .arr
  | .obj members => (readMembers binder [] members).map .obj

/-- Read the elements in order. -/
def readElems (binder : Binder) : List Raw → Except String (List Json)
  | [] => .ok []
  | t :: ts => do
      let j ← read binder t
      let js ← readElems binder ts
      pure (j :: js)

/-- Read the members in order, each bound to those before it. -/
def readMembers (binder : Binder) (kvPairs : List (String × Json)) :
    List (String × Raw) → Except String (List (String × Json))
  | [] => .ok kvPairs
  | (k, t) :: ms => do
      let j ← read binder t
      let kvPairs' ← binder kvPairs k j
      readMembers binder kvPairs' ms

end

/-- The reader that keeps the first of two members with one key. -/
def firstWins : Binder := fun kvPairs k v =>
  .ok (if (get? kvPairs k).isSome then kvPairs else insert kvPairs k v)

/-- The reader that refuses the second. -/
def refuses : Binder := fun kvPairs k v =>
  if (get? kvPairs k).isSome then .error ("duplicate key: " ++ k) else .ok (insert kvPairs k v)

/-- A reader that does with a new key what the library does. -/
def Standard (binder : Binder) : Prop :=
  ∀ kvPairs k v, k ∉ kvPairs.map (·.1) → binder kvPairs k v = .ok (insert kvPairs k v)

theorem get?_of_not_mem {kvPairs : List (String × Json)} {k : String}
    (h : k ∉ kvPairs.map (·.1)) : get? kvPairs k = none := by
  rw [get?, Option.map_eq_none_iff, List.find?_eq_none]
  intro kv hkv heq
  exact h (List.mem_map.mpr ⟨kv, hkv, beq_iff_eq.mp heq⟩)

theorem standard_firstWins : Standard firstWins := by
  intro kvPairs k v h
  rw [firstWins, get?_of_not_mem h]
  rfl

theorem standard_refuses : Standard refuses := by
  intro kvPairs k v h
  rw [refuses, get?_of_not_mem h]
  rfl

mutual

/-- No object of the tree has two members with one key. -/
def Distinct : Raw → Prop
  | .null => True
  | .bool _ => True
  | .num _ => True
  | .str _ => True
  | .arr elems => DistinctElems elems
  | .obj members => (members.map (·.1)).Nodup ∧ DistinctMembers members

/-- No object in any element has two members with one key. -/
def DistinctElems : List Raw → Prop
  | [] => True
  | t :: ts => t.Distinct ∧ DistinctElems ts

/-- No object in any member's value has two members with one key. -/
def DistinctMembers : List (String × Raw) → Prop
  | [] => True
  | (_, t) :: ms => t.Distinct ∧ DistinctMembers ms

end

section Agreement

variable {binder : Binder}

mutual

/-- On a tree without repeated keys every reader sees what the library sees. -/
theorem read_of_distinct (hbinder : Standard binder) :
    ∀ t : Raw, t.Distinct → read binder t = .ok t.value
  | .null, _ => rfl
  | .bool _, _ => rfl
  | .num _, _ => rfl
  | .str _, _ => rfl
  | .arr elems, h => by
      rw [read, readElems_of_distinct hbinder elems h]
      rfl
  | .obj members, h => by
      have hfresh : ∀ k ∈ members.map (·.1), k ∉ ([] : List (String × Json)).map (·.1) := by
        simp
      rw [read, readMembers_of_distinct hbinder members h.1 h.2 [] hfresh]
      rfl

theorem readElems_of_distinct (hbinder : Standard binder) :
    ∀ ts : List Raw, DistinctElems ts → readElems binder ts = .ok (elemValues ts)
  | [], _ => rfl
  | t :: ts, h => by
      rw [readElems, read_of_distinct hbinder t h.1, readElems_of_distinct hbinder ts h.2]
      rfl

theorem readMembers_of_distinct (hbinder : Standard binder) :
    ∀ ms : List (String × Raw), (ms.map (·.1)).Nodup → DistinctMembers ms →
      ∀ kvPairs : List (String × Json), (∀ k ∈ ms.map (·.1), k ∉ kvPairs.map (·.1)) →
        readMembers binder kvPairs ms = .ok (bindings kvPairs ms)
  | [], _, _, _, _ => rfl
  | (k, t) :: ms, hnodup, h, kvPairs, hfresh => by
      obtain ⟨hk, hnodup⟩ := List.nodup_cons.mp hnodup
      obtain ⟨hkfresh, hfresh⟩ := List.forall_mem_cons.mp hfresh
      have hnext : ∀ l ∈ ms.map (·.1), l ∉ (insert kvPairs k t.value).map (·.1) := by
        intro l hl hmem
        rcases mem_keys_insert hmem with rfl | hmem
        · exact hk hl
        · exact hfresh l hl hmem
      have hrest := readMembers_of_distinct hbinder ms hnodup h.2 _ hnext
      rw [readMembers, read_of_distinct hbinder t h.1]
      show (binder kvPairs k t.value >>= fun kvPairs' => readMembers binder kvPairs' ms) = _
      rw [hbinder kvPairs k t.value hkfresh]
      exact hrest

end

end Agreement

end Raw

/-! ## Reading the tree -/

namespace Parser

open Raw (elemValues bindings)

mutual

/-- `arrayCore`, keeping the tree. -/
def arrayRaw : Nat → List Raw → Parser (List Raw)
  | 0, _ => fail "out of fuel"
  | fuel + 1, acc => do
      let hd ← anyRaw fuel
      let acc' := acc ++ [hd]
      let c ← any
      if c = ']' then
        ws
        pure acc'
      else if c = ',' then
        ws
        arrayRaw fuel acc'
      else
        fail "unexpected character in array"

/-- `objectCore`, keeping every member, the repeated ones too. -/
def objectRaw : Nat → List (String × Raw) → Parser (List (String × Raw))
  | 0, _ => fail "out of fuel"
  | fuel + 1, members => do
      lookahead (fun c => c = '"') "\""
      skip
      let k ← str
      ws
      lookahead (fun c => c = ':') ":"
      skip
      ws
      let v ← anyRaw fuel
      let c ← any
      if c = '\x7d' then
        ws
        pure (members ++ [(k, v)])
      else if c = ',' then
        ws
        objectRaw fuel (members ++ [(k, v)])
      else
        fail "unexpected character in object"

/-- `anyCore`, keeping the tree. -/
def anyRaw : Nat → Parser Raw
  | 0 => fail "out of fuel"
  | fuel + 1 => do
      let c ← peek!
      if c = '[' then
        skip
        ws
        let c ← peek!
        if c = ']' then
          skip
          ws
          pure (.arr [])
        else
          let a ← arrayRaw fuel []
          pure (.arr a)
      else if c = '\x7b' then
        skip
        ws
        let c ← peek!
        if c = '\x7d' then
          skip
          ws
          pure (.obj [])
        else
          let members ← objectRaw fuel []
          pure (.obj members)
      else if c = '"' then
        skip
        let s ← str
        ws
        pure (.str s)
      else if c = 'f' then
        skipString "false"
        ws
        pure (.bool false)
      else if c = 't' then
        skipString "true"
        ws
        pure (.bool true)
      else if c = 'n' then
        skipString "null"
        ws
        pure .null
      else if c = '-' ∨ ('0' ≤ c ∧ c ≤ '9') then
        let n ← num
        ws
        pure (.num n)
      else
        fail "unexpected input"

end

/-- `document`, keeping the tree: one value between blanks, to the end of the text. -/
def documentRaw (fuel : Nat) : Parser Raw := do
  ws
  let res ← anyRaw fuel
  eof
  pure res

end Parser

/-- Read a JSON text as `parse` does, keeping every member. -/
def parseRaw (s : String) : Except String Raw :=
  let chars := s.toList
  match Parser.documentRaw (2 * chars.length + 2) chars with
  | .success _ res => .ok res
  | .error rest err =>
      .error ("offset " ++ toString (s.utf8ByteSize - (String.ofList rest).utf8ByteSize)
        ++ ": " ++ err)

/-! ## The library's parser inserts what the raw one keeps -/

/-- The same outcome, with the value changed. -/
def ParseResult.map {α β : Type} (f : α → β) : ParseResult α → ParseResult β
  | .success rest res => .success rest (f res)
  | .error rest err => .error rest err

namespace Parser

open Raw (elemValues bindings)

theorem bind_map {α β γ δ : Type} {p : Parser α} {q : Parser γ} {e : γ → α} {f : δ → β}
    {g : α → Parser β} {h : γ → Parser δ} {it : List Char}
    (hfirst : p it = ParseResult.map e (q it))
    (hrest : ∀ c rest, g (e c) rest = ParseResult.map f (h c rest)) :
    (p >>= g) it = ParseResult.map f ((q >>= h) it) := by
  simp only [bind, hfirst]
  cases q it with
  | success rest c => exact hrest c rest
  | error rest err => rfl

theorem bind_map_right {α β δ : Type} (p : Parser α) {f : δ → β} {g : α → Parser β}
    {h : α → Parser δ} (it : List Char)
    (hrest : ∀ a rest, g a rest = ParseResult.map f (h a rest)) :
    (p >>= g) it = ParseResult.map f ((p >>= h) it) := by
  simp only [bind]
  cases p it with
  | success rest a => exact hrest a rest
  | error rest err => rfl

/-- The two parsers run alike; the library's has already inserted the members. -/
def Collapses (fuel : Nat) : Prop :=
  (∀ acc it, arrayCore fuel (elemValues acc) it = (arrayRaw fuel acc it).map elemValues) ∧
  (∀ members it, objectCore fuel (bindings [] members) it =
    (objectRaw fuel members it).map (bindings [])) ∧
  (∀ it, anyCore fuel it = (anyRaw fuel it).map Raw.value)

theorem collapses_array {fuel : Nat} (ih : Collapses fuel) (acc : List Raw) (it : List Char) :
    arrayCore (fuel + 1) (elemValues acc) it =
      (arrayRaw (fuel + 1) acc it).map elemValues := by
  obtain ⟨iharray, _, ihany⟩ := ih
  rw [arrayCore, arrayRaw]
  refine bind_map (ihany it) fun hd rest => ?_
  have hacc : elemValues acc ++ [hd.value] = elemValues (acc ++ [hd]) :=
    (Raw.elemValues_append acc [hd]).symm
  refine bind_map_right any rest fun c rest => ?_
  by_cases hclose : c = ']'
  · rw [if_pos hclose, if_pos hclose, hacc]
    exact bind_map_right ws rest fun _ _ => rfl
  · rw [if_neg hclose, if_neg hclose]
    by_cases hcomma : c = ','
    · rw [if_pos hcomma, if_pos hcomma, hacc]
      exact bind_map_right ws rest fun _ rest => iharray (acc ++ [hd]) rest
    · rw [if_neg hcomma, if_neg hcomma]
      rfl

theorem collapses_object {fuel : Nat} (ih : Collapses fuel) (members : List (String × Raw))
    (it : List Char) : objectCore (fuel + 1) (bindings [] members) it =
      (objectRaw (fuel + 1) members it).map (bindings []) := by
  obtain ⟨_, ihobject, ihany⟩ := ih
  rw [objectCore, objectRaw]
  refine bind_map_right _ it fun _ rest => ?_
  refine bind_map_right skip rest fun _ rest => ?_
  refine bind_map_right str rest fun k rest => ?_
  refine bind_map_right ws rest fun _ rest => ?_
  refine bind_map_right _ rest fun _ rest => ?_
  refine bind_map_right skip rest fun _ rest => ?_
  refine bind_map_right ws rest fun _ rest => ?_
  refine bind_map (ihany rest) fun v rest => ?_
  have hinsert : insert (bindings [] members) k v.value = bindings [] (members ++ [(k, v)]) :=
    (Raw.bindings_append [] members [(k, v)]).symm
  refine bind_map_right any rest fun c rest => ?_
  by_cases hclose : c = '\x7d'
  · rw [if_pos hclose, if_pos hclose, hinsert]
    exact bind_map_right ws rest fun _ _ => rfl
  · rw [if_neg hclose, if_neg hclose]
    by_cases hcomma : c = ','
    · rw [if_pos hcomma, if_pos hcomma, hinsert]
      exact bind_map_right ws rest fun _ rest => ihobject (members ++ [(k, v)]) rest
    · rw [if_neg hcomma, if_neg hcomma]
      rfl

theorem collapses_any {fuel : Nat} (ih : Collapses fuel) (it : List Char) :
    anyCore (fuel + 1) it = (anyRaw (fuel + 1) it).map Raw.value := by
  obtain ⟨iharray, ihobject, _⟩ := ih
  rw [anyCore, anyRaw]
  refine bind_map_right peek! it fun c rest => ?_
  split_ifs
  · refine bind_map_right skip rest fun _ rest => ?_
    refine bind_map_right ws rest fun _ rest => ?_
    refine bind_map_right peek! rest fun c rest => ?_
    split_ifs
    · exact bind_map_right skip rest fun _ rest => bind_map_right ws rest fun _ _ => rfl
    · exact bind_map (iharray [] rest) fun _ _ => rfl
  · refine bind_map_right skip rest fun _ rest => ?_
    refine bind_map_right ws rest fun _ rest => ?_
    refine bind_map_right peek! rest fun c rest => ?_
    split_ifs
    · exact bind_map_right skip rest fun _ rest => bind_map_right ws rest fun _ _ => rfl
    · exact bind_map (ihobject [] rest) fun _ _ => rfl
  · refine bind_map_right skip rest fun _ rest => ?_
    exact bind_map_right str rest fun _ rest => bind_map_right ws rest fun _ _ => rfl
  · exact bind_map_right _ rest fun _ rest => bind_map_right ws rest fun _ _ => rfl
  · exact bind_map_right _ rest fun _ rest => bind_map_right ws rest fun _ _ => rfl
  · exact bind_map_right _ rest fun _ rest => bind_map_right ws rest fun _ _ => rfl
  · exact bind_map_right num rest fun _ rest => bind_map_right ws rest fun _ _ => rfl
  · rfl

theorem collapses : ∀ fuel : Nat, Collapses fuel
  | 0 => ⟨fun _ _ => rfl, fun _ _ => rfl, fun _ => rfl⟩
  | fuel + 1 =>
      ⟨collapses_array (collapses fuel), collapses_object (collapses fuel),
        collapses_any (collapses fuel)⟩

theorem document_eq_documentRaw (fuel : Nat) (it : List Char) :
    document fuel it = (documentRaw fuel it).map Raw.value := by
  refine bind_map_right ws it fun _ rest => ?_
  exact bind_map ((collapses fuel).2.2 rest) fun _ rest =>
    bind_map_right eof rest fun _ _ => rfl

end Parser

/-- The library's parser is the raw reading, its members inserted in order; on
every text that is no JSON the two give one error. -/
theorem parse_eq_parseRaw (s : String) : parse s = (parseRaw s).map Raw.value := by
  simp only [parse, parseRaw, Parser.document_eq_documentRaw]
  cases Parser.documentRaw (2 * s.toList.length + 2) s.toList with
  | success rest res => rfl
  | error rest err => rfl

end McpSeal.Data.Json
