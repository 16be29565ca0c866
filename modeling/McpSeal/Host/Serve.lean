import Mathlib.Data.List.Infix
import McpSeal.Foundation.Words
import McpSeal.Host.Authorization
import McpSeal.Host.Base64
set_option autoImplicit false

/-!
# Host: the command lines (`rust/src/main.rs`)

`serve` starts one session from a configuration file and then answers commands
line by line.  A line names a call and its texts; the request or signed text is
base64, and the clock text is passed on as it stands.

A line that names no call gets a reply of the host's own and does not reach the
core.  So a served session is the run of the calls its lines name, and every
call whose other texts are words is named by some line.
-/

namespace McpSeal.Host

open McpSeal.Data (Json)
open McpSeal.Foundation (words IsWord)
open McpSeal.SealV2

/-! ## Reading a line -/

/-- Unicode `White_Space` (`char::is_whitespace`). -/
def isWhitespace (c : Char) : Bool :=
  let n := c.toNat
  (9 ≤ n && n ≤ 13) || n == 0x20 || n == 0x85 || n == 0xa0 || n == 0x1680 ||
    (0x2000 ≤ n && n ≤ 0x200a) || n == 0x2028 || n == 0x2029 || n == 0x202f ||
    n == 0x205f || n == 0x3000

/-- The maximal runs of other characters, in order. -/
def splitWhitespace (s : String) : List String :=
  (words isWhitespace s.toList).map String.ofList

/-- `line.trim().is_empty()`. -/
def isBlank (line : String) : Bool :=
  line.toList.all isWhitespace

/-- The reply to a line whose payload is not base64 or not UTF-8. -/
def bad : String :=
  "\x7b\"ok\":false,\"error\":\"bad base64/utf8\"\x7d"

/-- The reply to a line that names no call. -/
def unknownCommand : String :=
  "\x7b\"ok\":false,\"error\":\"unknown command\"\x7d"

/-- The text of a payload. -/
def decode (b64 : String) : Option String :=
  (b64Decode b64).bind String.fromUTF8?

/-- The call a line names, or the host's own reply. -/
def lineCall (line : String) : Except String Call :=
  match splitWhitespace line with
  | ["decide", now, b64] =>
      match decode b64 with
      | some raw => .ok (.decide raw now)
      | none => .error bad
  | ["challenge", issued, expiry, nonce, b64] =>
      match decode b64 with
      | some raw => .ok (.challenge raw issued expiry nonce)
      | none => .error bad
  | ["add_approval", sig, b64] =>
      match decode b64 with
      | some signed => .ok (.addApproval signed sig)
      | none => .error bad
  | _ => .error unknownCommand

/-! ## Serving -/

variable (ed25519Verify : Ed25519Verify)

/-- Answer one line; a blank line gets no reply. -/
def serveLine (line : String) (stateRef : StateRef) : StateRef × Option String :=
  if isBlank line then (stateRef, none)
  else
    match lineCall line with
    | .error reply => (stateRef, some reply)
    | .ok call =>
        let (stateRef, reply) := call.exec ed25519Verify stateRef
        (stateRef, some reply)

/-- Answer lines in order: the final cell and the replies. -/
def serveLines : List String → StateRef → StateRef × List String
  | [], stateRef => (stateRef, [])
  | line :: rest, stateRef =>
      let (stateRef, reply) := serveLine ed25519Verify line stateRef
      let (stateRef, replies) := serveLines rest stateRef
      (stateRef, reply.toList ++ replies)

/-- `j.contains("\"ok\":true")`. -/
def isOk (j : String) : Bool :=
  decide ("\"ok\":true".toList <:+: j.toList)

/-- The replies of the process, unless `init` fails and it exits.  A line that
cannot be read is taken as an empty one. -/
def serve (configText : String) (lines : List (Option String)) : Option (List String) :=
  let (stateRef, reply) := initImpl configText none
  if !isOk reply then none
  else some (serveLines ed25519Verify (lines.map fun line => line.getD "") stateRef).2

variable {ed25519Verify}

/-! ## A served session is a run -/

/-- A blank line names no call. -/
theorem lineCall_of_isBlank {line : String} (h : isBlank line = true) :
    lineCall line = .error unknownCommand := by
  have hsplit : splitWhitespace line = [] := by
    rw [splitWhitespace, words.of_all_sep h]
    rfl
  rw [lineCall, hsplit]

/-- The calls the lines name, in order. -/
def callsOf (lines : List String) : List Call :=
  lines.filterMap fun line => (lineCall line).toOption

/-- Serving leaves the cell as the run of the named calls does. -/
theorem serveLines_fst (lines : List String) (stateRef : StateRef) :
    (serveLines ed25519Verify lines stateRef).1 =
      (runCalls ed25519Verify (callsOf lines) stateRef).1 := by
  induction lines generalizing stateRef with
  | nil => rfl
  | cons line rest ih =>
      simp only [serveLines, serveLine]
      cases hblank : isBlank line with
      | true =>
          have hcall := lineCall_of_isBlank hblank
          have hrest : callsOf (line :: rest) = callsOf rest :=
            List.filterMap_cons_none (by rw [hcall]; rfl)
          rw [hrest]
          exact ih stateRef
      | false =>
          cases hcall : lineCall line with
          | error reply =>
              have hrest : callsOf (line :: rest) = callsOf rest :=
                List.filterMap_cons_none (by rw [hcall]; rfl)
              rw [hrest]
              exact ih stateRef
          | ok call =>
              have hrest : callsOf (line :: rest) = call :: callsOf rest :=
                List.filterMap_cons_some (by rw [hcall]; rfl)
              rw [hrest]
              exact ih _

/-- Every line that is not blank is answered, and no other. -/
theorem length_serveLines (lines : List String) (stateRef : StateRef) :
    (serveLines ed25519Verify lines stateRef).2.length =
      lines.countP fun line => !isBlank line := by
  induction lines generalizing stateRef with
  | nil => rfl
  | cons line rest ih =>
      have hreply : (serveLine ed25519Verify line stateRef).2.toList.length =
          if !isBlank line then 1 else 0 := by
        unfold serveLine
        cases isBlank line with
        | true => rfl
        | false => cases lineCall line <;> rfl
      simp only [serveLines, List.length_append, List.countP_cons, ih, hreply]
      exact Nat.add_comm _ _

/-! ## Naming a call -/

/-- The words of the line a client sends for a call. -/
def Call.words : Call → List String
  | .decide raw now => ["decide", now, b64Encode raw.toUTF8]
  | .challenge raw issued expiry nonce =>
      ["challenge", issued, expiry, nonce, b64Encode raw.toUTF8]
  | .addApproval signed sig => ["add_approval", sig, b64Encode signed.toUTF8]

/-- The line a client sends for a call. -/
def Call.line (call : Call) : String :=
  " ".intercalate call.words

/-- A call a line can name: its words are words, none of them empty. -/
def Call.Sendable (call : Call) : Prop :=
  ∀ w ∈ call.words, IsWord isWhitespace w.toList

theorem isWord_of_all {w : String}
    (h : (!w.toList.isEmpty && w.toList.all fun c => !isWhitespace c) = true) :
    IsWord isWhitespace w.toList := by
  rw [Bool.and_eq_true, List.all_eq_true, Bool.not_eq_true', List.isEmpty_eq_false_iff] at h
  exact ⟨h.1, fun c hc => by simpa using h.2 c hc⟩

/-- The payload of a text that is not empty is a word. -/
theorem isWord_b64Encode {text : String} (h : text ≠ "") :
    IsWord isWhitespace (b64Encode text.toUTF8).toList where
  nonempty := by
    rw [b64Encode, String.toList_ofList]
    refine b64EncodeBytes_ne_nil fun hnil => h ?_
    have hbytes : text.toByteArray = ByteArray.empty := by
      apply ByteArray.ext
      exact Array.toList_inj.mp hnil
    exact String.toByteArray_inj.mp hbytes
  noSep := by
    rw [b64Encode, String.toList_ofList]
    exact forall_b64EncodeBytes (P := fun c => isWhitespace c = false) (by decide) (by decide) _

theorem splitWhitespace_line {call : Call} (h : call.Sendable) :
    splitWhitespace call.line = call.words := by
  have hws : ∀ chars ∈ call.words.map String.toList, IsWord isWhitespace chars := by
    intro chars hmem
    obtain ⟨w, hw, rfl⟩ := List.mem_map.mp hmem
    exact h w hw
  have hspace : isWhitespace ' ' = true := by decide
  have hchars : call.line.toList = List.intercalate [' '] (call.words.map String.toList) :=
    String.toList_intercalate
  rw [splitWhitespace, hchars, words.intercalate hspace hws, List.map_map]
  exact List.map_id'' (fun w => String.ofList_toList) call.words

theorem decode_b64Encode (text : String) : decode (b64Encode text.toUTF8) = some text := by
  rw [decode, b64Decode_b64Encode, Option.bind_some, String.fromUTF8?,
    String.toUTF8_eq_toByteArray, dif_pos text.isValidUTF8]
  rfl

/-- **Every sendable call is named by its line**: the texts reach the core as
they stand, the clock text among them. -/
theorem lineCall_line {call : Call} (h : call.Sendable) : lineCall call.line = .ok call := by
  rw [lineCall, splitWhitespace_line h]
  cases call <;> simp only [Call.words, decode_b64Encode]

theorem isBlank_line {call : Call} (h : call.Sendable) : isBlank call.line = false := by
  rw [← Bool.not_eq_true]
  intro hblank
  have hcall := lineCall_line h
  rw [lineCall_of_isBlank hblank] at hcall
  contradiction

/-- Serving the lines of sendable calls is running the calls. -/
theorem serveLines_lines {calls : List Call} (h : ∀ call ∈ calls, call.Sendable)
    (stateRef : StateRef) :
    serveLines ed25519Verify (calls.map Call.line) stateRef =
      runCalls ed25519Verify calls stateRef := by
  induction calls generalizing stateRef with
  | nil => rfl
  | cons call rest ih =>
      obtain ⟨hcall, hrest⟩ := List.forall_mem_cons.mp h
      simp only [List.map_cons, serveLines, serveLine, isBlank_line hcall, lineCall_line hcall,
        runCalls, ih hrest]
      rfl

/-- The lines of sendable calls name these calls. -/
theorem callsOf_lines {calls : List Call} (h : ∀ call ∈ calls, call.Sendable) :
    callsOf (calls.map Call.line) = calls := by
  rw [callsOf, List.filterMap_map]
  refine (List.filterMap_congr fun call hcall => ?_).trans (List.filterMap_some)
  rw [Function.comp_apply, lineCall_line (h call hcall)]
  rfl

/-! ## Starting

The host looks for `"ok":true` in the reply.  An error message cannot forge it:
the quotes it contains are escaped. -/

/-- A text without `k":t`, which a `k` before it would not complete either. -/
structure NotOk (chars : List Char) : Prop where
  inner : ¬ ['k', '"', ':', 't'] <:+: chars
  start : ¬ ['"', ':', 't'] <+: chars

/-- Text without quotes changes nothing. -/
theorem NotOk.append (front : List Char) {chars : List Char} (h : NotOk chars)
    (hfront : '"' ∉ front) : NotOk (front ++ chars) := by
  induction front with
  | nil => exact h
  | cons c rest ih =>
      obtain ⟨hc, hrest⟩ := not_or.mp (mt List.mem_cons.mpr hfront)
      have htail := ih hrest
      constructor
      · intro hinner
        rcases List.infix_cons_iff.mp hinner with hstart | hinner
        · exact htail.start (List.cons_prefix_cons.mp hstart).2
        · exact htail.inner hinner
      · intro hstart
        exact hc (List.cons_prefix_cons.mp hstart).1

/-- A quote that does not follow a `k`. -/
theorem NotOk.quote {c : Char} {chars : List Char} (h : NotOk chars) (hk : c ≠ 'k')
    (hc : c ≠ '"') : NotOk (c :: '"' :: chars) where
  inner := by
    intro hinner
    rcases List.infix_cons_iff.mp hinner with hstart | hinner
    · exact hk (List.cons_prefix_cons.mp hstart).1.symm
    · rcases List.infix_cons_iff.mp hinner with hstart | hinner
      · exact absurd (List.cons_prefix_cons.mp hstart).1 (by decide)
      · exact h.inner hinner
  start := by
    intro hstart
    exact hc (List.cons_prefix_cons.mp hstart).1.symm

theorem digitChar_ne_quote (n : Nat) : '"' ≠ Nat.digitChar n := by
  rcases Nat.lt_or_ge n 16 with hdigit | hlarge
  · interval_cases n <;> decide
  · have hstar : Nat.digitChar n = '*' := by
      unfold Nat.digitChar
      repeat rw [if_neg (by omega)]
    rw [hstar]
    decide

/-- Only a quote is escaped to a text with a quote in it. -/
theorem quote_not_mem_escapeAux {c : Char} (h : c ≠ '"') : '"' ∉ Json.escapeAux c := by
  unfold Json.escapeAux
  rw [if_neg h]
  split
  · simp
  · split
    · simp
    · split
      · simp
      · split
        · simpa using h.symm
        · simp [digitChar_ne_quote]

/-- An escaped character keeps `"ok":true` away. -/
theorem NotOk.escapeAux (c : Char) {chars : List Char} (h : NotOk chars) :
    NotOk (Json.escapeAux c ++ chars) := by
  by_cases hquote : c = '"'
  · subst hquote
    exact h.quote (by decide) (by decide)
  · exact h.append (Json.escapeAux c) (quote_not_mem_escapeAux hquote)

theorem NotOk.escaped (msg : List Char) {chars : List Char} (h : NotOk chars) :
    NotOk (msg.flatMap Json.escapeAux ++ chars) := by
  induction msg with
  | nil => exact h
  | cons c rest ih =>
      rw [List.flatMap_cons, List.append_assoc]
      exact ih.escapeAux c

theorem toList_errJson (msg : String) :
    (errJson msg).toList = ['\x7b', '"', 'e', 'r', 'r', 'o', 'r', '"', ':', '"'] ++
      (msg.toList.flatMap Json.escapeAux ++
        ['"', ',', '"', 'o', 'k', '"', ':', 'f', 'a', 'l', 's', 'e', '\x7d']) := by
  have hcompare : compare "error" "ok" = .lt := by decide
  have hobj : Json.mkObj [("ok", .bool false), ("error", .str msg)] =
      .obj [("error", .str msg), ("ok", .bool false)] := by
    simp only [Json.mkObj, List.foldl_cons, List.foldl_nil, Json.insert, hcompare]
  have hopen : "\x7b".toList = ['\x7b'] := by decide
  have hclose : "\x7d".toList = ['\x7d'] := by decide
  have hcolon : ":".toList = [':'] := by decide
  have hcomma : ",".toList = [','] := by decide
  have hfalse : (toString false).toList = ['f', 'a', 'l', 's', 'e'] := by decide
  have herror : "error".toList.flatMap Json.escapeAux = ['e', 'r', 'r', 'o', 'r'] := by decide
  have hok : "ok".toList.flatMap Json.escapeAux = ['o', 'k'] := by decide
  rw [errJson, hobj]
  simp only [Json.compress, Json.compressFields, String.toList_append, Json.toList_renderString,
    hopen, hclose, hcolon, hcomma, hfalse, herror, hok]
  simp

/-- No error message makes a reply the host takes for a success. -/
theorem isOk_errJson (msg : String) : isOk (errJson msg) = false := by
  have htail : NotOk ['"', ',', '"', 'o', 'k', '"', ':', 'f', 'a', 'l', 's', 'e', '\x7d'] :=
    ⟨by decide, by decide⟩
  have hvalue := (htail.escaped msg.toList).quote (c := ':') (by decide) (by decide)
  have hkey := hvalue.quote (c := 'r') (by decide) (by decide)
  have hletters := hkey.append ['e', 'r', 'r', 'o'] (by decide)
  have htext := hletters.quote (c := '\x7b') (by decide) (by decide)
  have hneedle : ['k', '"', ':', 't'] <:+: "\"ok\":true".toList := by decide
  refine decide_eq_false ?_
  intro hinner
  rw [toList_errJson] at hinner
  exact htext.inner (hneedle.trans hinner)

theorem isOk_okJson : isOk okJson = true := by
  decide +kernel

/-- The host goes on exactly if the session is started. -/
theorem isOk_initImpl (configText : String) :
    isOk (initImpl configText none).2 = true ↔
      ∃ st, (initImpl configText none).1 = some st := by
  unfold initImpl
  cases Json.parse configText with
  | error e => simp [isOk_errJson]
  | ok j =>
      dsimp only
      cases parseConfig j with
      | error e => simp [isOk_errJson]
      | ok st => simp [isOk_okJson]

/-- **Serving.**  The process answers exactly if the configuration starts a
session; it answers the lines of sendable calls as the run of the calls does. -/
theorem serve_lines (configText : String) {calls : List Call}
    (h : ∀ call ∈ calls, call.Sendable) :
    serve ed25519Verify configText (calls.map fun call => some call.line) =
      (initImpl configText none).1.map fun st =>
        (runCalls ed25519Verify calls (some st)).2 := by
  have hlines : (calls.map fun call => some call.line).map (fun line => line.getD "") =
      calls.map Call.line := by
    rw [List.map_map]
    rfl
  unfold serve
  rcases initImpl_none configText with hempty | ⟨st, hstarted, _⟩
  · have hnot : isOk (initImpl configText none).2 = false := by
      rw [← Bool.not_eq_true, isOk_initImpl, hempty]
      simp
    simp only [hnot, hempty]
    rfl
  · have hok : isOk (initImpl configText none).2 = true :=
      (isOk_initImpl configText).mpr ⟨st, hstarted⟩
    simp only [hok, hlines, serveLines_lines h, hstarted]
    rfl

theorem sendable_decideOn : (decideOn "users" "10").Sendable := by
  have hraw : serializeAstValue (writeRequest "users") ≠ "" := by decide +kernel
  simp only [decideOn, Call.Sendable, Call.words, List.forall_mem_cons]
  exact ⟨isWord_of_all (by decide), isWord_of_all (by decide), isWord_b64Encode hraw,
    List.forall_mem_nil _⟩

theorem sendable_addApproval {approval : Approval} {signature : Signature}
    (hraw : approvalOf? approval.signedMessageRaw signature ≠ none)
    (hsig : IsWord isWhitespace signature.toList) :
    (Call.addApproval approval.signedMessageRaw signature).Sendable := by
  have hempty : approval.signedMessageRaw ≠ "" := by
    intro hempty
    rw [hempty] at hraw
    exact hraw rfl
  simp only [Call.Sendable, Call.words, List.forall_mem_cons]
  exact ⟨isWord_of_all (by decide), hsig, isWord_b64Encode hempty, List.forall_mem_nil _⟩

theorem sendable_addBoth : ∀ call ∈ addBoth, call.Sendable := by
  rw [addBoth, List.forall_mem_cons, List.forall_mem_singleton]
  constructor
  · refine sendable_addApproval ?_ (isWord_of_all (by decide +kernel))
    exact ne_of_eq_of_ne (approvalOf?_writeApproval _ _ _ _) (Option.some_ne_none _)
  · refine sendable_addApproval ?_ (isWord_of_all (by decide +kernel))
    exact ne_of_eq_of_ne (approvalOf?_writeApproval _ _ _ _) (Option.some_ne_none _)

theorem serve_lines_sample :
    serve vectorVerify configJson
        ((addBoth ++ [decideOn "users" "10"]).map fun call => some call.line) =
      some (runCalls vectorVerify (addBoth ++ [decideOn "users" "10"]) (some configured)).2 := by
  have hsend : ∀ call ∈ addBoth ++ [decideOn "users" "10"], call.Sendable :=
    List.forall_mem_append.mpr
      ⟨sendable_addBoth, List.forall_mem_singleton.mpr sendable_decideOn⟩
  rw [serve_lines configJson hsend, initImpl_configJson]
  rfl

/-- **Mediation of a served session.**  After any lines, blank, garbled or not,
a `decide` line is answered `Allow`, with the canonical text of its request,
exactly if the lines before it have added an unspent approval that authorizes
the request. -/
theorem served_decide (configText : String) (lines : List String) {st st' : ApprovalState}
    (hstarted : (initImpl configText none).1 = some st)
    (hserved : (serveLines ed25519Verify lines (some st)).1 = some st')
    {rawRequest nowText : String} (hsend : (Call.decide rawRequest nowText).Sendable) :
    (∃ approval ∈ added (callsOf lines), ∃ out,
      Authorizes ed25519Verify st rawRequest (effectiveClock st' nowText) approval ∧
      ¬ SpentIn (decisions ed25519Verify (callsOf lines) (some st)) st
        (effectiveClock st' nowText) approval ∧
      parse out = parse rawRequest ∧
      (serveLine ed25519Verify (Call.decide rawRequest nowText).line (some st')).2 =
        some (decisionJson "Allow" (some out))) ∨
    ((∀ approval ∈ added (callsOf lines),
      Authorizes ed25519Verify st rawRequest (effectiveClock st' nowText) approval →
      SpentIn (decisions ed25519Verify (callsOf lines) (some st)) st
        (effectiveClock st' nowText) approval) ∧
      (serveLine ed25519Verify (Call.decide rawRequest nowText).line (some st')).2 =
        some (decisionJson "Block" none)) := by
  have hfresh : Fresh st := fresh_of_init hstarted
  have hreply : (serveLine ed25519Verify (Call.decide rawRequest nowText).line (some st')).2 =
      some (decideImpl ed25519Verify rawRequest nowText (some st')).2 := by
    simp only [serveLine, isBlank_line hsend, lineCall_line hsend]
    rfl
  rw [serveLines_fst] at hserved
  rcases mediated ed25519Verify (callsOf lines) hfresh hserved rawRequest nowText with
    ⟨approval, hadded, out, hauthorizes, hunspent, hout, hdecide⟩ | ⟨hspent, hdecide⟩
  · rw [hdecide] at hreply
    exact Or.inl ⟨approval, hadded, out, hauthorizes, hunspent, hout, hreply⟩
  · rw [hdecide] at hreply
    exact Or.inr ⟨hspent, hreply⟩

theorem served_decide_sample :
    ∃ out, (serveLine vectorVerify (decideOn "users" "10").line (some (sessionAt 0 []))).2 =
      some (decisionJson "Allow" (some out)) := by
  have hlines : callsOf (addBoth.map Call.line) = addBoth := callsOf_lines sendable_addBoth
  have hserved : (serveLines vectorVerify (addBoth.map Call.line) (some configured)).1 =
      some (sessionAt 0 []) := by
    rw [serveLines_lines sendable_addBoth, runCalls_addBoth]
  rcases served_decide configJson (addBoth.map Call.line) initImpl_configJson hserved
    sendable_decideOn with ⟨_, _, out, _, _, _, hreply⟩ | ⟨hspent, _⟩
  · exact ⟨out, hreply⟩
  · have hadded : usersApproval ∈ added addBoth :=
      List.mem_filterMap.mpr ⟨_, List.mem_cons_self, approvalOf?_writeApproval _ _ _ _⟩
    rw [hlines] at hspent
    exact absurd (hspent _ hadded (authorizes_users (verify_vector (Or.inl rfl)) (by decide)))
      (not_spentIn_addBoth _ _)

end McpSeal.Host
