import McpSeal.Data.JsonReparse
import McpSeal.Seal.Hash
set_option autoImplicit false

/-!
# Seal: effect commitments (`Seal/EffectCommitment.lean`)

A commitment is the digest of a framed list of parts: the server, the tool, the
compact texts of the arguments and of what the call carries besides.  The source
assumes that the digest, the framing and the compact texts are injective.  The
framing is; the texts are not, since `1.0` and `1` have one text, and no digest
is.  What holds without assumptions is that effects with one commitment say the
same, or an explicit pair of byte strings collides.
-/

namespace McpSeal.Seal

open McpSeal.Data (Json Meaning)
open McpSeal.SealCore

/-! ## What a call carries besides its arguments -/

/-- Two parts that tell an absent value from a present one. -/
def presenceParts (absentTag presentTag : String) : Option Json → List String
  | none => [absentTag, ""]
  | some value => [presentTag, value.compress]

/-- The bindings of a metadata object, if there is one. -/
inductive ValidatedMeta where
  | absent
  | present (object : List (String × Json))

/-- The member's value, if it is there. -/
def ValidatedMeta.toJson? : ValidatedMeta → Option Json
  | .absent => none
  | .present object => some (.obj object)

/-- The parts the member contributes to a preimage. -/
def ValidatedMeta.preimageParts (metadata : ValidatedMeta) : List String :=
  presenceParts "meta.absent" "meta.present" metadata.toJson?

/-- The optional `requestState` of a request; a null that is there is present. -/
inductive RequestState where
  | absent
  | present (value : Json)

/-- The member's value, if it is there. -/
def RequestState.toJson? : RequestState → Option Json
  | .absent => none
  | .present value => some value

/-- The parts the member contributes to a preimage. -/
def RequestState.preimageParts (state : RequestState) : List String :=
  presenceParts "requestState.absent" "requestState.present" state.toJson?

/-- The optional `inputResponses` of a request; a null that is there is present. -/
inductive InputResponses where
  | absent
  | present (value : Json)

/-- The member's value, if it is there. -/
def InputResponses.toJson? : InputResponses → Option Json
  | .absent => none
  | .present value => some value

/-- The parts the member contributes to a preimage. -/
def InputResponses.preimageParts (responses : InputResponses) : List String :=
  presenceParts "inputResponses.absent" "inputResponses.present" responses.toJson?

/-! ## Effects -/

/-- The first part of every effect, which keeps commitments apart from other hashes.
-/
def effectDomainTag : String := "seal.effect/v4-proposed-meta-all"

/-- What a call does to a server: the tool, its arguments and the request's optional
members. -/
structure Effect where
  server : String
  tool : String
  arguments : Json
  metadata : ValidatedMeta
  requestState : RequestState := .absent
  inputResponses : InputResponses := .absent

/-- The parts that are hashed. -/
def Effect.preimageParts (e : Effect) : List String :=
  [effectDomainTag, e.server, e.tool, e.arguments.compress] ++
    e.metadata.preimageParts ++ e.requestState.preimageParts ++
    e.inputResponses.preimageParts

/-- The commitment: the digest of the framed parts, in hexadecimal. -/
def Effect.commitment (e : Effect) : String :=
  (stableHashParts e.preimageParts).toHex

theorem length_presenceParts (absentTag presentTag : String) (value : Option Json) :
    (presenceParts absentTag presentTag value).length = 2 := by
  cases value <;> rfl

/-! ## What a commitment binds -/

/-- Values with the same parts are absent together, or say the same. -/
theorem meaning_of_presenceParts {absentTag presentTag : String} (hne : absentTag ≠ presentTag)
    {a b : Option Json}
    (h : presenceParts absentTag presentTag a = presenceParts absentTag presentTag b) :
    a.map Json.meaning = b.map Json.meaning := by
  cases a with
  | none =>
      cases b with
      | none => rfl
      | some value => exact absurd (List.cons.inj h).1 hne
  | some value =>
      cases b with
      | none => exact absurd (List.cons.inj h).1.symm hne
      | some value' =>
          have htext := (List.cons.inj (List.cons.inj h).2).1
          exact congrArg some (Json.meaning_of_compress htext)

/-- What an effect says. -/
structure EffectMeaning where
  server : String
  tool : String
  arguments : Meaning
  metadata : Option Meaning
  requestState : Option Meaning
  inputResponses : Option Meaning

/-- What an effect says. -/
def Effect.meaning (e : Effect) : EffectMeaning where
  server := e.server
  tool := e.tool
  arguments := e.arguments.meaning
  metadata := e.metadata.toJson?.map Json.meaning
  requestState := e.requestState.toJson?.map Json.meaning
  inputResponses := e.inputResponses.toJson?.map Json.meaning

theorem length_contextParts (metadata : ValidatedMeta) (requestState : RequestState)
    (inputResponses : InputResponses) :
    (metadata.preimageParts ++ (requestState.preimageParts ++
      inputResponses.preimageParts)).length = 6 := by
  rw [List.length_append, List.length_append, ValidatedMeta.preimageParts,
    RequestState.preimageParts, InputResponses.preimageParts, length_presenceParts,
    length_presenceParts, length_presenceParts]

/-- The parts that end a list can be told apart. -/
theorem contextParts_inj {metadata metadata' : ValidatedMeta}
    {requestState requestState' : RequestState} {inputResponses inputResponses' : InputResponses}
    (h : metadata.preimageParts ++ (requestState.preimageParts ++ inputResponses.preimageParts) =
      metadata'.preimageParts ++ (requestState'.preimageParts ++ inputResponses'.preimageParts)) :
    metadata.preimageParts = metadata'.preimageParts ∧
      requestState.preimageParts = requestState'.preimageParts ∧
      inputResponses.preimageParts = inputResponses'.preimageParts := by
  have hlength : ∀ {absentTag presentTag : String} (a b : Option Json),
      (presenceParts absentTag presentTag a).length = (presenceParts absentTag presentTag b).length :=
    fun a b => (length_presenceParts _ _ a).trans (length_presenceParts _ _ b).symm
  obtain ⟨hmeta, hrest⟩ := List.append_inj h (hlength _ _)
  obtain ⟨hstate, hresponses⟩ := List.append_inj hrest (hlength _ _)
  exact ⟨hmeta, hstate, hresponses⟩

theorem Effect.meaning_of_preimageParts {e e' : Effect}
    (h : e.preimageParts = e'.preimageParts) : e.meaning = e'.meaning := by
  simp only [Effect.preimageParts, List.cons_append, List.nil_append, List.append_assoc,
    List.cons.injEq, true_and] at h
  obtain ⟨hserver, htool, harguments, hcontext⟩ := h
  obtain ⟨hmeta, hstate, hresponses⟩ := contextParts_inj hcontext
  rw [Effect.meaning, Effect.meaning, hserver, htool, Json.meaning_of_compress harguments,
    meaning_of_presenceParts (by decide) hmeta, meaning_of_presenceParts (by decide) hstate,
    meaning_of_presenceParts (by decide) hresponses]

/-- **Binding.**  Effects with one commitment say the same, or their framed parts collide. -/
theorem commitment_binds {e e' : Effect} (h : e.commitment = e'.commitment) :
    e.meaning = e'.meaning ∨
      Collision (encodeParts e.preimageParts).toUTF8 (encodeParts e'.preimageParts).toUTF8 :=
  (stableHashParts_inj (Sha256.Digest256.toHex_inj.mp h)).imp_left Effect.meaning_of_preimageParts

/-- Two effects that differ, with one commitment. -/
theorem commitment_binds_sample :
    let whole : Effect :=
      { server := "bank", tool := "pay", arguments := .num ⟨1, 0⟩, metadata := .absent }
    let decimal : Effect :=
      { server := "bank", tool := "pay", arguments := .num ⟨10, 1⟩, metadata := .absent }
    whole.meaning = decimal.meaning ∨
      Collision (encodeParts whole.preimageParts).toUTF8
        (encodeParts decimal.preimageParts).toUTF8 := by
  intro whole decimal
  have htext : Json.compress (.num ⟨1, 0⟩) = Json.compress (.num ⟨10, 1⟩) := by decide
  have hparts : whole.preimageParts = decimal.preimageParts :=
    congrArg (fun text => [effectDomainTag, "bank", "pay", text] ++
      (ValidatedMeta.absent.preimageParts ++ RequestState.absent.preimageParts ++
        InputResponses.absent.preimageParts)) htext
  exact commitment_binds (congrArg (fun parts => (stableHashParts parts).toHex) hparts)

/-! ## Deriving a commitment again -/

/-- The second value is read from the compact text of the first. -/
def Reparsed : Option Json → Option Json → Prop
  | none, none => True
  | some source, some reparsed => Json.parse source.compress = .ok reparsed
  | _, _ => False

/-- `reparsed` is what printing and reading make of `source`. -/
def ValidatedMeta.ReparsedFrom (source reparsed : ValidatedMeta) : Prop :=
  Reparsed source.toJson? reparsed.toJson?

/-- `reparsed` is what printing and reading make of `source`. -/
def RequestState.ReparsedFrom (source reparsed : RequestState) : Prop :=
  Reparsed source.toJson? reparsed.toJson?

/-- `reparsed` is what printing and reading make of `source`. -/
def InputResponses.ReparsedFrom (source reparsed : InputResponses) : Prop :=
  Reparsed source.toJson? reparsed.toJson?

/-- A host that reads every compact text of an effect has this effect. -/
structure Effect.Rederived (e e' : Effect) : Prop where
  server : e'.server = e.server
  tool : e'.tool = e.tool
  arguments : Json.parse e.arguments.compress = .ok e'.arguments
  metadata : ValidatedMeta.ReparsedFrom e.metadata e'.metadata
  requestState : RequestState.ReparsedFrom e.requestState e'.requestState
  inputResponses : InputResponses.ReparsedFrom e.inputResponses e'.inputResponses

/-- The objects of the values are ordered maps. -/
structure Effect.Ordered (e : Effect) : Prop where
  arguments : Json.KeysSorted e.arguments
  metadata : ∀ value ∈ e.metadata.toJson?, Json.KeysSorted value
  requestState : ∀ value ∈ e.requestState.toJson?, Json.KeysSorted value
  inputResponses : ∀ value ∈ e.inputResponses.toJson?, Json.KeysSorted value

theorem presenceParts_of_reparsed (absentTag presentTag : String) {source reparsed : Option Json}
    (hsorted : ∀ value ∈ source, Json.KeysSorted value) (h : Reparsed source reparsed) :
    presenceParts absentTag presentTag reparsed = presenceParts absentTag presentTag source := by
  cases source with
  | none =>
      cases reparsed with
      | none => rfl
      | some value => exact h.elim
  | some value =>
      cases reparsed with
      | none => exact h.elim
      | some value' =>
          rw [presenceParts, presenceParts, Json.compress_of_parse (hsorted value rfl) h]

/-- **Stability.**  A host that reads the compact texts again derives the same commitment,
of an effect that says the same. -/
theorem commitment_rederivation_stable {e e' : Effect} (hordered : e.Ordered)
    (h : e.Rederived e') : e'.commitment = e.commitment ∧ e'.meaning = e.meaning := by
  have hparts : e'.preimageParts = e.preimageParts := by
    rw [Effect.preimageParts, Effect.preimageParts, h.server, h.tool,
      Json.compress_of_parse hordered.arguments h.arguments, ValidatedMeta.preimageParts,
      RequestState.preimageParts, InputResponses.preimageParts,
      presenceParts_of_reparsed _ _ hordered.metadata h.metadata,
      presenceParts_of_reparsed _ _ hordered.requestState h.requestState,
      presenceParts_of_reparsed _ _ hordered.inputResponses h.inputResponses]
    rfl
  exact ⟨by rw [Effect.commitment, hparts, Effect.commitment],
    Effect.meaning_of_preimageParts hparts⟩

end McpSeal.Seal
