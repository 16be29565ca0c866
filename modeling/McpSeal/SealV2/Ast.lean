import Mathlib.Tactic.Common
set_option autoImplicit false

/-!
# SealV2: the canonical syntax tree (`SealV2/Parser.lean`)

The tree the parser produces, the canonicality predicate every accepted tree
satisfies, and structural equality.  The source derives `BEq AST`; the derived
instance compares structurally, and it is spelled out here so that it reduces
and can be shown lawful.  Lawfulness is what lets a later proof turn the
source's `approval.target == target` into an equation.
-/

namespace McpSeal.SealV2

/-- A text as it is received. -/
abbrev RawBytes := String
/-- A text as the serializer writes it. -/
abbrev CanonicalBytes := String

/-- A canonical decimal, kept as digit text. -/
structure Decimal where
  negative : Bool
  intDigits : String
  fracDigits : Option String := none
  deriving DecidableEq

/-- The JSON syntax tree.  Object members keep their source order. -/
inductive AST where
  | null
  | bool (value : Bool)
  | number (value : Decimal)
  | string (value : String)
  | array (items : List AST)
  | object (fields : List (String × AST))

/-! ## Structural equality -/

mutual

/-- Structural equality of two trees. -/
def AST.beq : AST → AST → Bool
  | .null, .null => true
  | .bool a, .bool b => a == b
  | .number a, .number b => a == b
  | .string a, .string b => a == b
  | .array as, .array bs => AST.beqItems as bs
  | .object as, .object bs => AST.beqFields as bs
  | _, _ => false

/-- Structural equality of two item lists. -/
def AST.beqItems : List AST → List AST → Bool
  | [], [] => true
  | a :: as, b :: bs => AST.beq a b && AST.beqItems as bs
  | _, _ => false

/-- Structural equality of two member lists. -/
def AST.beqFields : List (String × AST) → List (String × AST) → Bool
  | [], [] => true
  | (k, a) :: as, (l, b) :: bs => k == l && AST.beq a b && AST.beqFields as bs
  | _, _ => false

end

instance : BEq AST := ⟨AST.beq⟩

mutual

theorem AST.beq_refl : ∀ a : AST, AST.beq a a = true
  | .null => rfl
  | .bool _ => by simp [AST.beq]
  | .number _ => by simp [AST.beq]
  | .string _ => by simp [AST.beq]
  | .array as => AST.beqItems_refl as
  | .object as => AST.beqFields_refl as

theorem AST.beqItems_refl : ∀ as : List AST, AST.beqItems as as = true
  | [] => rfl
  | a :: as => by simp [AST.beqItems, AST.beq_refl a, AST.beqItems_refl as]

theorem AST.beqFields_refl :
    ∀ as : List (String × AST), AST.beqFields as as = true
  | [] => rfl
  | (k, a) :: as => by
      simp [AST.beqFields, AST.beq_refl a, AST.beqFields_refl as]

end

mutual

theorem AST.eq_of_beq : ∀ {a b : AST}, AST.beq a b = true → a = b := by
  intro a b h
  cases a with
  | null => cases b <;> simp [AST.beq] at h ⊢
  | bool x => cases b <;> simp [AST.beq] at h ⊢; exact h
  | number x => cases b <;> simp [AST.beq] at h ⊢; exact h
  | string x => cases b <;> simp [AST.beq] at h ⊢; exact h
  | array as =>
      cases b <;> simp only [AST.beq, Bool.false_eq_true] at h
      rw [AST.eq_of_beqItems h]
  | object as =>
      cases b <;> simp only [AST.beq, Bool.false_eq_true] at h
      rw [AST.eq_of_beqFields h]

theorem AST.eq_of_beqItems :
    ∀ {as bs : List AST}, AST.beqItems as bs = true → as = bs := by
  intro as bs h
  cases as with
  | nil => cases bs <;> simp [AST.beqItems] at h ⊢
  | cons a as =>
      cases bs with
      | nil => simp [AST.beqItems] at h
      | cons b bs =>
          simp only [AST.beqItems, Bool.and_eq_true] at h
          rw [AST.eq_of_beq h.1, AST.eq_of_beqItems h.2]

theorem AST.eq_of_beqFields :
    ∀ {as bs : List (String × AST)}, AST.beqFields as bs = true → as = bs := by
  intro as bs h
  match as, bs, h with
  | [], [], _ => rfl
  | (k, a) :: as, (l, b) :: bs, h =>
      simp only [AST.beqFields, Bool.and_eq_true, beq_iff_eq] at h
      rw [h.1.1, AST.eq_of_beq h.1.2, AST.eq_of_beqFields h.2]

end

instance : LawfulBEq AST where
  eq_of_beq := AST.eq_of_beq
  rfl {a} := AST.beq_refl a

instance : DecidableEq AST := fun _ _ => decidable_of_iff _ beq_iff_eq

/-! ## Canonicality -/

/-- Every string is admissible: canonicality is a property of bytes. -/
def isCanonicalString (_ : String) : Bool :=
  true

/-- A decimal digit. -/
def isDigitChar (c : Char) : Bool :=
  '0'.toNat ≤ c.toNat && c.toNat ≤ '9'.toNat

/-- A decimal digit that is not zero. -/
def isNonZeroDigitChar (c : Char) : Bool :=
  '1'.toNat ≤ c.toNat && c.toNat ≤ '9'.toNat

/-- `0`, or a nonzero digit followed by digits. -/
def isCanonicalIntDigits (digits : String) : Bool :=
  match digits.toList with
  | ['0'] => true
  | c :: rest => isNonZeroDigitChar c && rest.all isDigitChar
  | [] => false

/-- Digits whose last one is not zero. -/
def isCanonicalFracDigits (digits : String) : Bool :=
  match digits.toList.reverse with
  | last :: _ => isNonZeroDigitChar last && digits.toList.all isDigitChar
  | [] => false

/-- A decimal with canonical digits that is not negative zero. -/
def isCanonicalDecimal (decimal : Decimal) : Bool :=
  isCanonicalIntDigits decimal.intDigits &&
    (match decimal.fracDigits with
     | none => true
     | some digits => isCanonicalFracDigits digits) &&
    !(decimal.negative && decimal.intDigits == "0" && decimal.fracDigits.isNone)

/-- The key is among those of the members. -/
def hasDuplicateKey (key : String) (fields : List (String × AST)) : Bool :=
  fields.any fun field => field.fst == key

mutual

/-- Canonical numbers everywhere and no object with a repeated key. -/
def isCanonicalAst : AST → Bool
  | .null => true
  | .bool _ => true
  | .number value => isCanonicalDecimal value
  | .string value => isCanonicalString value
  | .array items => isCanonicalArray items
  | .object fields => isCanonicalObject fields

/-- Every item is canonical. -/
def isCanonicalArray : List AST → Bool
  | [] => true
  | item :: rest => isCanonicalAst item && isCanonicalArray rest

/-- Every value is canonical, and no key is repeated. -/
def isCanonicalObject : List (String × AST) → Bool
  | [] => true
  | (key, value) :: rest =>
      isCanonicalString key &&
        isCanonicalAst value &&
        !hasDuplicateKey key rest &&
        isCanonicalObject rest

end

/-- The predicate every accepted tree satisfies. -/
def IsCanonical (ast : AST) : Prop :=
  isCanonicalAst ast = true

instance (ast : AST) : Decidable (IsCanonical ast) :=
  inferInstanceAs (Decidable (isCanonicalAst ast = true))

end McpSeal.SealV2
