import McpSeal.Data.JsonRoundTrip
import McpSeal.Data.NatText
import McpSeal.Seal.WireGuards
import McpSeal.SealCore.Automaton
import Mathlib.Data.List.DropRight
set_option autoImplicit false

/-!
# Seal: the approval channel (`Seal/Channel.lean`)

Approvals reach the gate through a control file, one record a line.  A reading
takes in the records behind those already seen.  A record can shorten the life of
its approval but never lengthen it, and the text a blocked caller is shown makes a
record that is read back as the approval of the same target.
-/

namespace McpSeal.Seal

open McpSeal.Data (Json toNat?)
open McpSeal.SealCore
open McpSeal.Seal.JsonUtil

/-- `String.trimAscii`. -/
def trimAscii (s : String) : String :=
  String.ofList ((s.toList.dropWhile Char.isWhitespace).rdropWhile Char.isWhitespace)

/-- The natural number a member is, as a number or as a text. -/
def jsonToNat? (j : Json) : Option Nat :=
  match j with
  | .num n => toNat? n.toText
  | .str s => toNat? s
  | _ => none

/-- The digest a member spells in hexadecimal. -/
def jsonToTargetHash? (j : Json) : Option TargetHash :=
  match j with
  | .str s => Sha256.Digest256.parseHex? s
  | _ => none

/-- The approval a record asks for.  It runs from the time the record states, or from
`now` if that is earlier or nothing is stated. -/
def parseApprovalRecord (now ttlMs : Nat) (line : String) : Option Event :=
  let trimmed := trimAscii line
  if trimmed.isEmpty then none else
  if !wireNumbersSafe trimmed then none else
    match Json.parse trimmed with
    | .ok json =>
        match (json.getObjVal? "target").toOption.bind jsonToTargetHash? with
        | some target =>
            let issuedAt := (json.getObjVal? "issuedAt").toOption.bind jsonToNat?
            let base := min (issuedAt.getD now) now
            some (.approval target (base + ttlMs))
        | none => none
    | .error _ => none

/-- The control file as a reading finds it. -/
inductive ControlFile where
  | missing
  | symlink
  | unreadable (err : String)
  | text (contents : String)

/-- `text.splitOn "\n"`. -/
def lines (text : String) : List String :=
  (text.toList.splitOn '\n').map String.ofList

/-- The lines that are not blank. -/
def records (text : String) : List String :=
  (lines text).filter fun line => !(trimAscii line).isEmpty

/-- The number of records now seen, and the approvals among the new ones. -/
def readApprovalsFrom (path : String) (file : ControlFile) (seenRecords now ttlMs : Nat) :
    Except String (Nat × List Event) :=
  match file with
  | .missing => pure (seenRecords, [])
  | .symlink => throw ("approval control file must not be a symlink: " ++ path)
  | .unreadable err => throw err
  | .text contents =>
      let fresh := (records contents).drop seenRecords
      pure ((records contents).length, fresh.filterMap (parseApprovalRecord now ttlMs))

/-! ## Lines -/

theorem lines_append (text more : String) :
    lines (text ++ "\n" ++ more) = lines text ++ lines more := by
  have hnewline : "\n".toList = ['\n'] := by decide
  rw [lines, lines, lines, ← List.map_append, String.toList_append, String.toList_append, hnewline,
    List.append_assoc, List.singleton_append, List.splitOn, List.splitOnP_append_cons _ _ (by simp)]
  rfl

theorem lines_of_not_mem {text : String} (h : '\n' ∉ text.toList) : lines text = [text] := by
  have hnone : ∀ c ∈ text.toList, (c == '\n') = false := by
    intro c hc
    rw [beq_eq_false_iff_ne]
    rintro rfl
    exact h hc
  rw [lines, List.splitOn, List.splitOnP_eq_singleton hnone, List.map_singleton,
    String.ofList_toList]

/-- What is added behind a line break is read behind what was there. -/
theorem records_append (text more : String) :
    records (text ++ "\n" ++ more) = records text ++ records more := by
  rw [records, lines_append, List.filter_append]
  rfl

/-! ## Records -/

/-- The value a record is read as. -/
def recordJson? (line : String) : Option Json :=
  if (trimAscii line).isEmpty || !wireNumbersSafe (trimAscii line) then none
  else (Json.parse (trimAscii line)).toOption

/-- The target a record of the control file names. -/
def jsonTarget? (json : Json) : Option TargetHash :=
  (json.getObjVal? "target").toOption.bind jsonToTargetHash?

/-- When an approval starts to run. -/
def jsonBase (now : Nat) (json : Json) : Nat :=
  min (((json.getObjVal? "issuedAt").toOption.bind jsonToNat?).getD now) now

theorem jsonBase_le (now : Nat) (json : Json) : jsonBase now json ≤ now :=
  Nat.min_le_right _ _

theorem parseApprovalRecord_eq (now ttlMs : Nat) (line : String) :
    parseApprovalRecord now ttlMs line =
      (recordJson? line).bind fun json =>
        (jsonTarget? json).map fun target => .approval target (jsonBase now json + ttlMs) := by
  unfold parseApprovalRecord recordJson? jsonTarget? jsonBase
  cases hempty : (trimAscii line).isEmpty with
  | true => simp [hempty]
  | false =>
      cases hsafe : wireNumbersSafe (trimAscii line) with
      | false => simp [hempty, hsafe]
      | true =>
          cases hparse : Json.parse (trimAscii line) with
          | error err => simp [hempty, hsafe, hparse, Except.toOption]
          | ok json =>
              have hok : (Except.ok json : Except String Json).toOption = some json := rfl
              simp only [hempty, hsafe, hparse, hok, Option.bind_some, Bool.not_true, Bool.or_self,
                Bool.false_eq_true, if_false]
              cases (json.getObjVal? "target").toOption.bind jsonToTargetHash? <;> rfl

/-- The target a record names, if it asks for an approval. -/
def recordTarget? (line : String) : Option TargetHash :=
  (recordJson? line).bind jsonTarget?

/-- A record asks for its target, whenever it is read, and for at most a whole lifetime
from then. -/
theorem parseApprovalRecord_cases (now ttlMs : Nat) (line : String) :
    (recordTarget? line = none ∧ parseApprovalRecord now ttlMs line = none) ∨
      ∃ target deadline, recordTarget? line = some target ∧
        parseApprovalRecord now ttlMs line = some (.approval target deadline) ∧
        deadline ≤ now + ttlMs := by
  rw [parseApprovalRecord_eq, recordTarget?]
  cases recordJson? line with
  | none => exact Or.inl ⟨rfl, rfl⟩
  | some json =>
      cases htarget : jsonTarget? json with
      | none => exact Or.inl ⟨htarget, by simp [htarget]⟩
      | some target =>
          exact Or.inr ⟨target, jsonBase now json + ttlMs, htarget, by simp [htarget],
            Nat.add_le_add_right (jsonBase_le now json) ttlMs⟩

/-! ## The record of a target -/

/-- The record that approves a target, as the text a blocked caller is shown has it. -/
def targetRecord (target : TargetHash) : Json :=
  .obj [("target", .str target.toHex)]

/-- The text in front of the target. -/
def targetFront : List Char :=
  ['\x7b', '"', 't', 'a', 'r', 'g', 'e', 't', '"', ':', '"']

theorem toList_targetRecord (target : TargetHash) :
    (targetRecord target).compress.toList = targetFront ++ (target.toHex.toList ++ ['"', '\x7d']) := by
  have hplain : target.toHex.toList.flatMap Json.escapeAux = target.toHex.toList := by
    have hsingle := target.forall_mem_toHex (p := fun c => Json.escapeAux c = [c]) (by decide)
    exact (List.flatMap_congr hsingle).trans (List.flatMap_singleton' _)
  have hkey : (Json.renderString "target").toList = ['"', 't', 'a', 'r', 'g', 'e', 't', '"'] := by
    decide
  have hopen : "\x7b".toList = ['\x7b'] := by decide
  have hcolon : ":".toList = [':'] := by decide
  have hclose : "\x7d".toList = ['\x7d'] := by decide
  simp [targetRecord, Json.compress, Json.compressFields, Json.toList_renderString target.toHex,
    hplain, hkey, hopen, hcolon, hclose, targetFront]

/-- A text that neither starts nor ends with a blank is not trimmed. -/
theorem trimAscii_eq_self {s : String} {c d : Char} {mid : List Char}
    (h : s.toList = c :: (mid ++ [d])) (hc : c.isWhitespace = false)
    (hd : d.isWhitespace = false) : trimAscii s = s := by
  have hlast : c :: (mid ++ [d]) = (c :: mid) ++ [d] := rfl
  rw [trimAscii, h, List.dropWhile_cons_of_neg (by simp [hc]), hlast,
    List.rdropWhile_concat_neg _ _ _ (by simp [hd]), ← hlast, ← h, String.ofList_toList]

/-- Inside a string the scan for exponents waits for the closing quote. -/
theorem foldl_numberScan_plain {chars : List Char} (h : ∀ c ∈ chars, c ≠ '"' ∧ c ≠ '\\')
    {st : NumberScan} (hin : st.inString = true) (hesc : st.escaped = false) :
    chars.foldl numberScanStep st = st := by
  induction chars with
  | nil => rfl
  | cons c rest ih =>
      obtain ⟨⟨hquote, hslash⟩, hrest⟩ := List.forall_mem_cons.mp h
      have hstep : numberScanStep st c = st := by simp [numberScanStep, hin, hesc, hquote, hslash]
      rw [List.foldl_cons, hstep, ih hrest]

theorem wireNumbersSafe_targetRecord (target : TargetHash) :
    wireNumbersSafe (targetRecord target).compress = true := by
  have hplain := target.forall_mem_toHex (p := fun c => c ≠ '"' ∧ c ≠ '\\') (by decide)
  have hfront : targetFront.foldl numberScanStep {} = { inString := true } := rfl
  rw [wireNumbersSafe, toList_targetRecord, List.foldl_append, List.foldl_append, hfront,
    foldl_numberScan_plain hplain rfl rfl]
  rfl

theorem trimAscii_targetRecord (target : TargetHash) :
    trimAscii (targetRecord target).compress = (targetRecord target).compress := by
  have htext : (targetRecord target).compress.toList =
      '\x7b' :: ((targetFront.tail ++ (target.toHex.toList ++ ['"'])) ++ ['\x7d']) := by
    rw [toList_targetRecord]
    simp [targetFront]
  exact trimAscii_eq_self htext rfl rfl

theorem isEmpty_targetRecord (target : TargetHash) :
    (targetRecord target).compress.isEmpty = false := by
  rw [← Bool.not_eq_true, String.isEmpty_iff, ← String.toList_eq_nil_iff, toList_targetRecord]
  exact List.cons_ne_nil _ _

/-- The record of a target is one record. -/
theorem records_targetRecord (target : TargetHash) :
    records (targetRecord target).compress = [(targetRecord target).compress] := by
  have hhex := target.forall_mem_toHex (p := fun c => c ≠ '\n') (by decide)
  have hnewline : '\n' ∉ (targetRecord target).compress.toList := by
    rw [toList_targetRecord, List.mem_append, List.mem_append]
    rintro (hmem | hmem | hmem)
    · exact absurd hmem (by decide)
    · exact hhex _ hmem rfl
    · exact absurd hmem (by decide)
  rw [records, lines_of_not_mem hnewline,
    List.filter_cons_of_pos (by rw [trimAscii_targetRecord, isEmpty_targetRecord]; rfl)]
  rfl

theorem recordJson?_targetRecord (target : TargetHash) :
    recordJson? (targetRecord target).compress = some (targetRecord target) := by
  have hnormal : Json.Normal (targetRecord target) :=
    ⟨List.pairwise_singleton _ _, trivial, trivial⟩
  rw [recordJson?, trimAscii_targetRecord, isEmpty_targetRecord, wireNumbersSafe_targetRecord,
    Json.parse_compress hnormal]
  rfl

/-- **Approving.**  The record of a target, read at any time, approves that target for a
whole lifetime. -/
theorem parseApprovalRecord_targetRecord (now ttlMs : Nat) (target : TargetHash) :
    parseApprovalRecord now ttlMs (targetRecord target).compress =
      some (.approval target (now + ttlMs)) := by
  have hmember : (targetRecord target).getObjVal? "target" = .ok (.str target.toHex) := rfl
  have htarget : jsonTarget? (targetRecord target) = some target := by
    simp only [jsonTarget?, hmember, Except.toOption, Option.bind_some, jsonToTargetHash?]
    exact target.parseHex?_toHex
  have hbase : jsonBase now (targetRecord target) = now := Nat.min_self now
  rw [parseApprovalRecord_eq, recordJson?_targetRecord, Option.bind_some, htarget, hbase]
  rfl

end McpSeal.Seal
