import McpSeal.Foundation.Framing
import McpSeal.SealCore.Sha256
set_option autoImplicit false

/-!
# Seal: hashes of part lists (`Seal/Hash.lean`)

A target is the digest of a framed list of parts.  The framing loses nothing, so
two part lists share a target only through a collision of the digest.
-/

namespace McpSeal.Seal

open McpSeal.Foundation
open McpSeal.SealCore

/-- Length-prefixed framing of a part list.  Lengths count characters. -/
def encodeParts (parts : List String) : String :=
  String.join (parts.map fun s => toString s.length ++ ":" ++ s)

/-- The digest of a text's UTF-8 bytes. -/
def stableHashString (s : String) : Sha256.TargetHash :=
  Sha256.sha256Digest s.toUTF8

/-- The digest of a list of parts, framed so that their borders count. -/
def stableHashParts (parts : List String) : Sha256.TargetHash :=
  stableHashString (encodeParts parts)

/-! ## The framing is injective -/

/-- One framed part: its length, a colon and its characters. -/
def framePart (s : String) : List Char :=
  Framing.lengthPrefixed (Nat.toDigits 10) ':' s.toList

theorem toList_encodeParts (parts : List String) :
    (encodeParts parts).toList = parts.flatMap framePart := by
  rw [encodeParts, String.toList_join, List.flatMap_map]
  refine List.flatMap_congr fun s _ => ?_
  rw [String.toList_append, String.toList_append, framePart, Framing.lengthPrefixed,
    ← String.length_toList]
  simp [Nat.toList_repr]

theorem toDigits_inj : Function.Injective (Nat.toDigits 10) := by
  intro m n h
  rw [← Nat.ofDigitChars_ten_toDigits (n := m), h, Nat.ofDigitChars_ten_toDigits]

theorem selfDelimiting_framePart : Framing.SelfDelimiting framePart := by
  have hsep : ∀ n, ':' ∉ Nat.toDigits 10 n := fun n hmem =>
    absurd (Nat.isDigit_of_mem_toDigits (by decide) (by decide) hmem) (by decide)
  intro a b tail tail' heq
  obtain ⟨hbody, htail⟩ :=
    Framing.selfDelimiting_lengthPrefixed toDigits_inj hsep a.toList b.toList tail tail' heq
  exact ⟨String.toList_inj.mp hbody, htail⟩

/-- **Framing.**  A framed text determines its parts. -/
theorem encodeParts_inj {as bs : List String} (h : encodeParts as = encodeParts bs) : as = bs := by
  have hframes : as.flatMap framePart = bs.flatMap framePart := by
    rw [← toList_encodeParts, ← toList_encodeParts, h]
  exact selfDelimiting_framePart.flatMap_inj
    (fun _ => Framing.lengthPrefixed_ne_nil _ _ _) hframes

/-- Two different inputs with one digest. -/
def Collision (a b : ByteArray) : Prop :=
  a ≠ b ∧ Sha256.sha256Digest a = Sha256.sha256Digest b

/-- **Targets.**  Part lists with one target are equal, or their framings collide. -/
theorem stableHashParts_inj {as bs : List String} (h : stableHashParts as = stableHashParts bs) :
    as = bs ∨ Collision (encodeParts as).toUTF8 (encodeParts bs).toUTF8 := by
  by_cases heq : (encodeParts as).toUTF8 = (encodeParts bs).toUTF8
  · exact Or.inl (encodeParts_inj (String.toByteArray_inj.mp heq))
  · exact Or.inr ⟨heq, h⟩

end McpSeal.Seal
