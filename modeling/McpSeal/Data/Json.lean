import Mathlib.Data.String.Basic
import Mathlib.Order.Compare
import Mathlib.Tactic.Tauto
set_option autoImplicit false

/-!
# Data: the JSON value type and its compact text (`Lean.Data.Json`)

The host seam and the optional request values go through the JSON library of
the source language.  This module follows that library: a number is a mantissa
and a decimal exponent, an object is an ordered map from keys to values, and
`compress` prints without blanks.

An object is represented by the bindings of its map in key order, which is all
that the library's functions observe of it: `insert` keeps the list sorted and
replaces an existing binding, so a later duplicate wins.
-/

namespace McpSeal.Data

/-- A decimal number, `mantissa * 10 ^ -exponent`. -/
structure JsonNumber where
  mantissa : Int
  exponent : Nat
  deriving DecidableEq

/-- A JSON value. -/
inductive Json where
  | null
  | bool (b : Bool)
  | num (n : JsonNumber)
  | str (s : String)
  | arr (elems : List Json)
  | obj (kvPairs : List (String × Json))

namespace JsonNumber

/-- A whole number. -/
def fromInt (n : Int) : JsonNumber := ⟨n, 0⟩

/-- Shift by a number of decimal places to the left. -/
def shiftl : JsonNumber → Nat → JsonNumber
  | ⟨m, e⟩, s => ⟨m * (10 ^ (s - e) : Nat), e - s⟩

/-- Shift by a number of decimal places to the right. -/
def shiftr : JsonNumber → Nat → JsonNumber
  | ⟨m, e⟩, s => ⟨m, e + s⟩

/-- Number of decimal digits. -/
def countDigits (n : Nat) : Nat := (Nat.toDigits 10 n).length

/-- Decimal text, with an exponent when more than nine zeroes would follow the
decimal point. -/
def toText : JsonNumber → String
  | ⟨m, 0⟩ => m.repr
  | ⟨m, e⟩ =>
      let sign := if m ≥ 0 then "" else "-"
      let m := m.natAbs
      let exp : Int := 9 + countDigits m - (e : Int)
      let exp := if exp < 0 then exp else 0
      let e' := 10 ^ (e - exp.natAbs)
      let left := (m / e').repr
      if m % e' = 0 ∧ exp = 0 then
        sign ++ left
      else
        let right := String.ofList
          (((e' + m % e').repr.toList.drop 1).reverse.dropWhile (· = '0')).reverse
        let exp := if exp = 0 then "" else "e" ++ exp.repr
        sign ++ left ++ "." ++ right ++ exp

end JsonNumber

namespace Json

/-! ## Objects -/

/-- Insert a binding in key order, replacing one with an equal key. -/
def insert (kvPairs : List (String × Json)) (k : String) (v : Json) :
    List (String × Json) :=
  match kvPairs with
  | [] => [(k, v)]
  | (l, w) :: rest =>
      match compare k l with
      | .lt => (k, v) :: (l, w) :: rest
      | .eq => (k, v) :: rest
      | .gt => (l, w) :: insert rest k v

/-- The value bound to a key. -/
def get? (kvPairs : List (String × Json)) (k : String) : Option Json :=
  (kvPairs.find? fun kv => kv.1 == k).map (·.2)

/-- The object with the given bindings, later ones winning. -/
def mkObj (o : List (String × Json)) : Json :=
  .obj (o.foldl (fun kvPairs kv => insert kvPairs kv.1 kv.2) [])

/-- The value bound to a key of an object; anything else has no keys. -/
def getObjVal? : Json → String → Except String Json
  | .obj kvs, k =>
      match get? kvs k with
      | some v => .ok v
      | none => .error ("property not found: " ++ k)
  | _, _ => .error "object expected"

/-- The text of a string. -/
def getStr? : Json → Except String String
  | .str s => .ok s
  | _ => .error "String expected"

/-- The natural number a value is.  `1e0` and `1.0` are none: only an exponent of 0
counts. -/
def getNat? : Json → Except String Nat
  | .num ⟨.ofNat n, 0⟩ => .ok n
  | _ => .error "Natural number expected"

/-- The elements of an array. -/
def getArr? : Json → Except String (List Json)
  | .arr a => .ok a
  | _ => .error "array expected"

/-- The bindings of an object, in key order. -/
def getObj? : Json → Except String (List (String × Json))
  | .obj kvs => .ok kvs
  | _ => .error "object expected"

/-- The truth value of a boolean. -/
def getBool? : Json → Except String Bool
  | .bool b => .ok b
  | _ => .error "Bool expected"

/-! ## Compact text -/

/-- Escape one character: quotes, backslashes and controls only. -/
def escapeAux (c : Char) : List Char :=
  if c = '"' then ['\\', '"']
  else if c = '\\' then ['\\', '\\']
  else if c = '\n' then ['\\', 'n']
  else if c = '\x0d' then ['\\', 'r']
  else if 0x20 ≤ c.toNat ∧ c.toNat ≤ 0x10ffff then [c]
  else
    let n := c.toNat
    ['\\', 'u', Nat.digitChar (n / 4096), Nat.digitChar (n % 4096 / 256),
      Nat.digitChar (n % 256 / 16), Nat.digitChar (n % 16)]

/-- A quoted string.  The library's byte table only skips the escaping pass for
strings that need none, so it does not show in the result. -/
def renderString (s : String) : String :=
  "\"" ++ String.ofList (s.toList.flatMap escapeAux) ++ "\""

mutual

/-- The text of a value, without blanks and with object keys in map order. -/
def compress : Json → String
  | .null => "null"
  | .bool b => toString b
  | .num n => n.toText
  | .str s => renderString s
  | .arr elems => "[" ++ compressElems elems ++ "]"
  | .obj kvPairs => "\x7b" ++ compressFields kvPairs ++ "\x7d"

/-- The elements of an array, separated by commas. -/
def compressElems : List Json → String
  | [] => ""
  | [e] => compress e
  | e :: es => compress e ++ "," ++ compressElems es

/-- The bindings of an object, separated by commas. -/
def compressFields : List (String × Json) → String
  | [] => ""
  | [(k, v)] => renderString k ++ ":" ++ compress v
  | (k, v) :: kvs => renderString k ++ ":" ++ compress v ++ "," ++ compressFields kvs

end

theorem toList_renderString (s : String) :
    (renderString s).toList = '"' :: (s.toList.flatMap escapeAux ++ ['"']) := by
  have hquote : "\"".toList = ['"'] := by decide
  rw [renderString, String.toList_append, String.toList_append, hquote, String.toList_ofList]
  rfl

/-! ## Objects keep their keys sorted -/

/-- Strictly ascending keys, the invariant of an ordered map's bindings. -/
def SortedKeys (kvPairs : List (String × Json)) : Prop :=
  kvPairs.Pairwise fun a b => a.1 < b.1

theorem mem_keys_insert {kvPairs : List (String × Json)} {k l : String} {v : Json}
    (h : l ∈ (insert kvPairs k v).map (·.1)) :
    l = k ∨ l ∈ kvPairs.map (·.1) := by
  induction kvPairs with
  | nil => simpa [insert] using h
  | cons kv rest ih =>
      obtain ⟨m, w⟩ := kv
      unfold insert at h
      split at h
      · simpa using h
      · simp only [List.map_cons, List.mem_cons] at h ⊢
        tauto
      · simp only [List.map_cons, List.mem_cons] at h ⊢
        rcases h with rfl | h
        · exact Or.inr (Or.inl rfl)
        · rcases ih h with rfl | h
          · exact Or.inl rfl
          · exact Or.inr (Or.inr h)

/-- Insertion keeps the keys strictly ascending. -/
theorem insert_sorted {kvPairs : List (String × Json)} (hsorted : SortedKeys kvPairs)
    (k : String) (v : Json) : SortedKeys (insert kvPairs k v) := by
  induction kvPairs with
  | nil => simp [insert, SortedKeys]
  | cons kv rest ih =>
      obtain ⟨m, w⟩ := kv
      obtain ⟨hhead, htail⟩ := List.pairwise_cons.mp hsorted
      unfold insert
      split
      · rename_i hlt
        have hkm : k < m := compare_lt_iff_lt.mp hlt
        refine List.pairwise_cons.mpr ⟨?_, hsorted⟩
        intro x hx
        rcases List.mem_cons.mp hx with rfl | hx
        · exact hkm
        · exact lt_trans hkm (hhead x hx)
      · rename_i heq
        have hkm : k = m := compare_eq_iff_eq.mp heq
        subst hkm
        exact List.pairwise_cons.mpr ⟨hhead, htail⟩
      · rename_i hgt
        have hmk : m < k := compare_gt_iff_gt.mp hgt
        refine List.pairwise_cons.mpr ⟨?_, ih htail⟩
        intro x hx
        have hkey : x.1 ∈ (insert rest k v).map (·.1) := List.mem_map_of_mem hx
        rcases mem_keys_insert hkey with hxk | hxr
        · show m < x.1
          rw [hxk]
          exact hmk
        · obtain ⟨y, hy, hyx⟩ := List.mem_map.mp hxr
          show m < x.1
          rw [← hyx]
          exact hhead y hy

/-- Every object the library builds has strictly ascending keys. -/
theorem mkObj_sorted (o : List (String × Json)) :
    ∃ kvPairs, mkObj o = .obj kvPairs ∧ SortedKeys kvPairs := by
  refine ⟨_, rfl, ?_⟩
  refine List.foldlRecOn o _ (motive := SortedKeys) List.Pairwise.nil ?_
  intro kvPairs hsorted kv _
  exact insert_sorted hsorted kv.1 kv.2

end Json

end McpSeal.Data
