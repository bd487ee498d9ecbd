/-
Replies and status messages of the GRAM protocol with extensions (gram/protocol/source/globus_gram_protocol_pack.c).
The block that a message is packed into has room for two characters less than an extension with its quotes takes,
and the formats of the other lines leave some room. What fits is unpacked again.
-/
import GlobusToolkit.Gram.Message
import GlobusToolkit.Lib.Strtol

namespace Globus

open Lib List GramExtension
open GramLine (extension)

/-! ## Packing -/

/-- What the first loop over the extensions counts for one. -/
def extensionRoom (e : GramExtension) : Nat := e.attr.length + 2 * e.value.length + 4

/-- What the second loop writes for an extension. -/
def OutBuf.putExtension (b : OutBuf) (e : GramExtension) : Option OutBuf := do
  let b ← b.put (e.attr ++ ": ".toList)
  let b ← b.put (quoteString e.value)
  b.put "\r\n".toList

/-- The loop over the extensions, and the bytes of the reply up to its null character. -/
def OutBuf.putExtensions (b : OutBuf) (es : List GramExtension) : Option (List Char) := do
  let b ← es.foldlM OutBuf.putExtension b
  return cstr b.text ++ ['\x00']

section Pack

variable {K : Type} (fuel : Nat) (extensions : HashTable K GramExtension)

/-- The extensions in the order of `globus_hashtable_first` and `globus_hashtable_next`. -/
def tableExtensions : Option (List GramExtension) := HashTable.walk HashTable.toNext fuel extensions.toFirst

/-- `globus_gram_protocol_pack_job_request_reply_with_extensions`. -/
def packJobRequestReplyWithExtensions (status : Int) (jobContact : Option (List Char)) : Option (List Char) := do
  let es ← tableExtensions fuel extensions
  let len := (es.map extensionRoom).sum + packProtocolVersionLine.format.length + packStatusLine.format.length +
    jobContact.elim 0 (fun _ => packJobManagerUrlLine.format.length) + jobContact.elim 0 List.length + 4
  let reply ← OutBuf.put ⟨len, []⟩ (packProtocolVersionLine.print (printInt gramProtocolVersion) ++
    packStatusLine.print (printInt status) ++ jobContact.elim [] packJobManagerUrlLine.print)
  reply.putExtensions es

/-- `globus_gram_protocol_pack_status_reply_with_extensions`. -/
def packStatusReplyWithExtensions (jobStatus failureCode jobFailureCode : Int) : Option (List Char) := do
  let es ← tableExtensions fuel extensions
  let len := (es.map extensionRoom).sum + packProtocolVersionLine.format.length + packStatusLine.format.length +
    packFailureCodeLine.format.length + packJobFailureCodeLine.format.length + 4
  let reply ← OutBuf.put ⟨len, []⟩ (packProtocolVersionLine.print (printInt gramProtocolVersion) ++
    packStatusLine.print (printInt jobStatus) ++ packFailureCodeLine.print (printInt failureCode) ++
    packJobFailureCodeLine.print (printInt jobFailureCode))
  reply.putExtensions es

/-- `globus_gram_protocol_pack_status_update_message_with_extensions`: the lines in front are allocated first, and the
block is made larger then. -/
def packStatusUpdateMessageWithExtensions (jobContact : List Char) (status failureCode : Int) : Option (List Char) := do
  let es ← tableExtensions fuel extensions
  let tmp := packProtocolVersionLine.print (printInt gramProtocolVersion) ++ packJobManagerUrlLine.print jobContact ++
    packStatusLine.print (printInt status) ++ packFailureCodeLine.print (printInt failureCode)
  let len := (es.map extensionRoom).sum + (tmp.length + 1)
  OutBuf.putExtensions ⟨len, tmp⟩ es

end Pack

/-! ## Unpacking -/

section Unpack

variable (fuel : Nat) (mem : Nat → HashEntry (List Char) GramExtension) (message : List Char)

/-- An attribute that has to be in the table. -/
def requireAttribute (table : GramTable) (attr : List Char) : Gram GramExtension := do
  match ← ofOption (GramTable.find fuel table attr) with
  | none => throw .httpUnpackFailed
  | some extension => return extension

/-- `globus_gram_protocol_unpack_job_request_reply_with_extensions`: the status, the job contact and the table. -/
def unpackJobRequestReplyWithExtensions : Gram (Int × Option (List Char) × GramTable) := do
  let extensions ← unpackMessage fuel mem message
  let version ← requireAttribute fuel extensions attrProtocolVersion
  failIf (strtol version.value ≠ gramProtocolVersion) .versionMismatch
  let status ← requireAttribute fuel extensions attrStatus
  let contact ← ofOption (GramTable.find fuel extensions attrJobManagerUrl)
  return (atoi status.value, contact.map GramExtension.value, extensions)

/-- `globus_gram_protocol_unpack_status_reply_with_extensions`. -/
def unpackStatusReplyWithExtensions : Gram GramTable := do
  let extensions ← unpackMessage fuel mem message
  let version ← requireAttribute fuel extensions attrProtocolVersion
  failIf (strtol version.value ≠ gramProtocolVersion) .versionMismatch
  let _ ← requireAttribute fuel extensions attrStatus
  let _ ← requireAttribute fuel extensions attrFailureCode
  let _ ← requireAttribute fuel extensions attrJobFailureCode
  return extensions

/-- A string attribute that may be missing. -/
def optionalAttribute (table : GramTable) (attr : List Char) : Gram (Option (List Char)) := do
  match ← attempt (getStringAttribute fuel table attr) with
  | .ok value => return some value
  | .error .httpUnpackFailed => return none
  | .error err => throw err

/-- The text that replaces the message of an error in staging a file, from the attributes of the failure. -/
def extendedError (type message source destination : Option (List Char)) : List Char :=
  match type with
  | some type =>
    if type = "executable".toList ∨ type = "stdin".toList then
      "the job manager could not stage in ".toList ++ type ++ " from ".toList ++ source.getD "UNKNOWN".toList
    else staged
  | none => staged
where
  staged : List Char :=
    "the job manager could not stage in a file from ".toList ++ source.getD "UNKNOWN".toList ++ " to ".toList ++
      destination.getD "UNKNOWN".toList ++
      match message with
      | some (c :: text) => ": ".toList ++ c :: text
      | _ => []

/-- `GLOBUS_GRAM_PROTOCOL_ERROR_STAGE_IN_FAILED`, `…_STAGING_EXECUTABLE` and `…_STAGING_STDIN`. -/
def stagingErrors : List Int := [135, 43, 44]

/-- `globus_gram_protocol_unpack_status_update_message_with_extensions`: the table, and the error whose message is
replaced, with the new one. -/
def unpackStatusUpdateMessageWithExtensions : Gram (Option (Int × List Char) × GramTable) := do
  let extensions ← unpackMessage fuel mem message
  let protocolVersion ← getIntAttribute fuel extensions attrProtocolVersion
  failIf (protocolVersion ≠ gramProtocolVersion) .versionMismatch
  let _ ← requireAttribute fuel extensions attrJobManagerUrl
  let _ ← requireAttribute fuel extensions attrStatus
  let failureCode ← getIntAttribute fuel extensions attrFailureCode
  let failureType ← optionalAttribute fuel extensions "gt3-failure-type".toList
  let failureMessage ← optionalAttribute fuel extensions "gt3-failure-message".toList
  let failureSource ← optionalAttribute fuel extensions "gt3-failure-source".toList
  let failureDestination ← optionalAttribute fuel extensions "gt3-failure-destination".toList
  let replaced :=
    if failureCode ∈ stagingErrors then
      some (failureCode, extendedError failureType failureMessage failureSource failureDestination)
    else none
  return (replaced, extensions)

end Unpack

/-! ## What fits -/

/-- The line of an extension. -/
def GramExtension.line (e : GramExtension) : GramLine := ⟨e.attr, e.value, true⟩

/-- The texts of the extensions. -/
def extensionsText (es : List GramExtension) : List Char := es.flatMap fun e => e.line.text

/-- The quotes and backslashes that are written, and the characters of the values. -/
def escapesNeeded (es : List GramExtension) : Nat := (es.map fun e => escapes e.value + 2).sum

def valuesLength (es : List GramExtension) : Nat := (es.map fun e => e.value.length).sum

theorem length_extensionsText : ∀ es : List GramExtension,
    (extensionsText es).length + valuesLength es = (es.map extensionRoom).sum + escapesNeeded es
  | [] => rfl
  | e :: es => by
    have ih := length_extensionsText es
    have hline : e.line.text.length = e.attr.length + e.value.length + escapes e.value + 6 := by
      simp only [line, GramLine.text, if_true, length_append, length_quoteString]
      have hlengths : ": ".toList.length = 2 ∧ "\r\n".toList.length = 2 := by decide
      omega
    unfold extensionsText valuesLength escapesNeeded at *
    simp only [flatMap_cons, length_append, map_cons, sum_cons]
    rw [hline, extensionRoom]
    omega

/-- The bytes written for the lines `head` and the extensions behind them, with the null character. -/
def bytesWritten (head : List GramLine) (es : List GramExtension) : Nat :=
  (head.flatMap GramLine.text).length + (extensionsText es).length + 1

/-! `len` in the three functions. -/

def jobRequestReplyLen (es : List GramExtension) (jobContact : Option (List Char)) : Nat :=
  (es.map extensionRoom).sum + packProtocolVersionLine.format.length + packStatusLine.format.length +
    jobContact.elim 0 (fun _ => packJobManagerUrlLine.format.length) + jobContact.elim 0 List.length + 4

def statusReplyLen (es : List GramExtension) : Nat :=
  (es.map extensionRoom).sum + packProtocolVersionLine.format.length + packStatusLine.format.length +
    packFailureCodeLine.format.length + packJobFailureCodeLine.format.length + 4

def statusUpdateLen (es : List GramExtension) (jobContact : List Char) (status failureCode : Int) : Nat :=
  (es.map extensionRoom).sum + ((packProtocolVersionLine.print (printInt gramProtocolVersion) ++
    packJobManagerUrlLine.print jobContact ++ packStatusLine.print (printInt status) ++
    packFailureCodeLine.print (printInt failureCode)).length + 1)

namespace OutBuf

theorem put_put (b : OutBuf) (s t : List Char) : ((b.put s).bind fun b => b.put t) = b.put (s ++ t) := by
  unfold put
  by_cases hs : b.text.length + s.length < b.size
  · rw [if_pos hs, Option.bind_some]
    simp only [length_append, append_assoc, Nat.add_assoc]
  · rw [if_neg hs, if_neg (by rw [length_append]; omega)]
    rfl

theorem putExtension_eq (b : OutBuf) (e : GramExtension) : b.putExtension e = b.put e.line.text := by
  unfold putExtension
  simp only [Option.bind_eq_bind]
  rw [← Option.bind_assoc, put_put, put_put]
  rfl

theorem foldlM_putExtension : ∀ {es : List GramExtension} {b : OutBuf}, b.text.length < b.size →
    es.foldlM putExtension b = b.put (extensionsText es)
  | [], b, hb => by
    rw [put_of_lt (by simpa [extensionsText] using hb)]
    simp [extensionsText]
  | e :: es, b, hb => by
    have htext : extensionsText (e :: es) = e.line.text ++ extensionsText es := rfl
    rw [foldlM_cons, putExtension_eq, htext, ← put_put]
    by_cases he : b.text.length + e.line.text.length < b.size
    · rw [put_of_lt he]
      exact foldlM_putExtension (by simpa using he)
    · rw [put, if_neg he]
      rfl

end OutBuf

/-- The message with the extensions behind the lines `head`, if a block of `size` bytes has room for it. -/
def packedMessage (size : Nat) (head : List GramLine) (es : List GramExtension) : Option (List Char) :=
  if bytesWritten head es ≤ size then some (cstr (head.flatMap GramLine.text ++ extensionsText es) ++ ['\x00']) else none

variable {head : List GramLine}

theorem packedMessage_isSome {size : Nat} {es : List GramExtension} :
    (packedMessage size head es).isSome ↔ bytesWritten head es ≤ size := by
  simp [packedMessage]

theorem OutBuf.putExtensions_eq {size : Nat} (hhead : (head.flatMap GramLine.text).length < size)
    (es : List GramExtension) :
    OutBuf.putExtensions ⟨size, head.flatMap GramLine.text⟩ es = packedMessage size head es := by
  unfold OutBuf.putExtensions
  rw [OutBuf.foldlM_putExtension hhead]
  unfold OutBuf.put packedMessage bytesWritten
  simp only [Nat.lt_iff_add_one_le]
  split <;> rfl

theorem OutBuf.put_putExtensions (size : Nat) (head : List GramLine) (es : List GramExtension) :
    ((OutBuf.put ⟨size, []⟩ (head.flatMap GramLine.text)).bind fun b => b.putExtensions es) =
      packedMessage size head es := by
  by_cases hhead : (head.flatMap GramLine.text).length < size
  · rw [OutBuf.put_of_lt (by simpa using hhead), Option.bind_some]
    exact OutBuf.putExtensions_eq hhead es
  · rw [OutBuf.put, if_neg (by simpa using hhead), packedMessage, if_neg (by unfold bytesWritten; omega)]
    rfl

/-! ## The round trip -/

/-- The attributes of the lines in front of the extensions. -/
def replyAttrs : List (List Char) :=
  [attrProtocolVersion, attrStatus, attrJobManagerUrl, attrFailureCode, attrJobFailureCode]

/-- Extensions with attributes of their own, over strings. -/
structure ExtensionsOk (es : List GramExtension) : Prop where
  distinct : (es.map GramExtension.attr).Nodup
  attr : ∀ e ∈ es, AttrOk e.attr ∧ e.attr ∉ replyAttrs
  value : ∀ e ∈ es, '\x00' ∉ e.value

/-- Lines that may stand in front of extensions. -/
structure HeadOk (head : List GramLine) : Prop where
  lines : ∀ l ∈ head, l.Ok
  distinct : (head.map GramLine.attr).Nodup
  attr : ∀ l ∈ head, l.attr ∈ replyAttrs

theorem HeadOk.of_attrs (attrs : List (List Char)) (hattrs : head.map GramLine.attr = attrs)
    (hok : attrs.Nodup ∧ ∀ attr ∈ attrs, attr ∈ replyAttrs) (hlines : ∀ l ∈ head, l.Ok) : HeadOk head := by
  subst hattrs
  exact ⟨hlines, hok.1, fun l hl => hok.2 _ (mem_map_of_mem hl)⟩

/-- A message is packed within its block, and what it is unpacked to goes with a table that has the extensions
`es` and no other attribute. -/
def RoundTrips {α : Type} (packed : Option (List Char))
    (unpack : Nat → (Nat → HashEntry (List Char) GramExtension) → List Char → Gram α) (result : GramTable → α → Prop)
    (es : List GramExtension) : Prop :=
  ∃ message, packed = some message ∧ ∀ fuel mem, es.length < fuel →
    ∃ table a, unpack fuel mem message = pure a ∧ result table a ∧ table.Maps fuel es

section RoundTrip

variable {fuel : Nat} {es : List GramExtension} {head : List GramLine} {table : GramTable}

theorem GramLine.Ok.nul_not_mem {l : GramLine} (h : l.Ok) : '\x00' ∉ l.text := by
  have hescape : '\x00' ∉ escapeText l.value := not_mem_escapeText (by decide) h.value_nul
  have hvalue : '\x00' ∉ (if l.quoted then quoteString l.value else l.value) := by
    split
    · simpa [quoteString] using hescape
    · exact h.value_nul
  simpa [GramLine.text, h.attr.2.2] using hvalue

theorem ExtensionsOk.lines (hes : ExtensionsOk es) : ∀ l ∈ es.map line, l.Ok := by
  intro l hl
  obtain ⟨e, he, rfl⟩ := mem_map.1 hl
  exact ⟨(hes.attr e he).1, hes.value e he, fun h => by cases h⟩

theorem cstr_append_extensionsText (hhead : ∀ l ∈ head, l.Ok) (hes : ExtensionsOk es) :
    cstr (head.flatMap GramLine.text ++ extensionsText es) ++ ['\x00'] =
      linesMessage (head ++ es.map line) := by
  have htext : head.flatMap GramLine.text ++ extensionsText es =
      (head ++ es.map line).flatMap GramLine.text := by
    rw [flatMap_append, flatMap_map]
    rfl
  rw [htext, cstr_eq_self, linesMessage]
  intro hmem
  obtain ⟨l, hl, hnul⟩ := mem_flatMap.1 hmem
  rcases mem_append.1 hl with hl | hl
  · exact (hhead l hl).nul_not_mem hnul
  · exact (hes.lines l hl).nul_not_mem hnul

theorem roundTrips_iff {α : Type} {packed : Option (List Char)} {size : Nat}
    {unpack : Nat → (Nat → HashEntry (List Char) GramExtension) → List Char → Gram α} {result : GramTable → α → Prop}
    (hhead : HeadOk head) (hes : ExtensionsOk es)
    (hpacked : packed = packedMessage size head es)
    (hunpack : ∀ fuel mem message table, unpackMessage fuel mem message = pure table →
      table.Maps fuel (head.map extension ++ es) →
      ∃ a, unpack fuel mem message = pure a ∧ result table a) :
    RoundTrips packed unpack result (head.map extension ++ es) ↔ bytesWritten head es ≤ size := by
  constructor
  · rintro ⟨message, hmessage, -⟩
    rw [← packedMessage_isSome, ← hpacked, hmessage]
    rfl
  · intro hsize
    rw [packedMessage, if_pos hsize, cstr_append_extensionsText hhead.lines hes] at hpacked
    refine ⟨_, hpacked, fun fuel mem hfuel => ?_⟩
    have hmap : (head ++ es.map line).map extension = head.map extension ++ es := by
      rw [map_append, map_map]
      exact congrArg _ (map_id es)
    have hok : ∀ l ∈ head ++ es.map line, l.Ok := fun l hl =>
      (mem_append.1 hl).elim (hhead.lines l) (hes.lines l)
    have hlt : (head ++ es.map line).length < fuel := by simpa using hfuel
    obtain ⟨table, htable, hholds⟩ := unpackMessage_lines hok mem hlt
    rw [hmap] at hholds
    have hnodup : ((head.map extension ++ es).map GramExtension.attr).Nodup := by
      rw [map_append, map_map, nodup_append]
      refine ⟨hhead.distinct, hes.distinct, fun a ha b hb heq => ?_⟩
      obtain ⟨l, hl, rfl⟩ := mem_map.1 ha
      obtain ⟨e, he, rfl⟩ := mem_map.1 hb
      exact (hes.attr e he).2 (heq ▸ hhead.attr l hl)
    have hmaps := hholds.maps hfuel.le hnodup
    obtain ⟨a, ha, hresult⟩ := hunpack fuel mem _ table htable hmaps
    exact ⟨table, a, ha, hresult, hmaps⟩

/-! ### The single messages -/

theorem GramTable.Maps.requireAttribute (h : table.Maps fuel es) {k v : List Char} (he : ⟨k, v⟩ ∈ es) :
    requireAttribute fuel table k = pure ⟨k, v⟩ := by
  unfold Globus.requireAttribute
  rw [h.mem _ he]
  rfl

theorem GramTable.Maps.find_eq (h : table.Maps fuel es) (k : List Char) :
    ∃ o, GramTable.find fuel table k = some o := by
  by_cases hk : ∃ e ∈ es, e.attr = k
  · obtain ⟨e, he, rfl⟩ := hk
    exact ⟨_, h.mem e he⟩
  · exact ⟨_, h.only k fun e he heq => hk ⟨e, he, heq⟩⟩

theorem GramTable.Maps.optionalAttribute (h : table.Maps fuel es) (k : List Char) :
    ∃ o, optionalAttribute fuel table k = pure o := by
  obtain ⟨o, ho⟩ := h.find_eq k
  unfold Globus.optionalAttribute Globus.getStringAttribute
  rw [ho]
  cases o with
  | none => exact ⟨none, rfl⟩
  | some e => exact ⟨some e.value, rfl⟩

theorem strtol_version : strtol (printInt gramProtocolVersion) = gramProtocolVersion := by decide

/-- The lines in front of the extensions of a reply to a job request. -/
def jobRequestReplyHead (status : Int) (jobContact : Option (List Char)) : List GramLine :=
  intLine attrProtocolVersion gramProtocolVersion :: intLine attrStatus status ::
    jobContact.elim [] fun contact => [⟨attrJobManagerUrl, contact, false⟩]

/-- A job contact can be written without quotes. -/
def ContactOk (contact : List Char) : Prop :=
  '"' ∉ contact ∧ '\\' ∉ contact ∧ '\r' ∉ contact ∧ '\x00' ∉ contact

theorem ContactOk.line {contact : List Char} (h : ContactOk contact) :
    (⟨attrJobManagerUrl, contact, false⟩ : GramLine).Ok :=
  ⟨standardAttrs_ok attrJobManagerUrl (by decide), h.2.2.2, fun _ => ⟨h.1, h.2.1, h.2.2.1⟩⟩

theorem jobRequestReplyHead_ok (status : Int) {jobContact : Option (List Char)}
    (hcontact : ∀ contact ∈ jobContact, ContactOk contact) : HeadOk (jobRequestReplyHead status jobContact) := by
  have hversion : (intLine attrProtocolVersion gramProtocolVersion).Ok := intLine_ok (by decide) _
  have hstatus : (intLine attrStatus status).Ok := intLine_ok (by decide) _
  cases jobContact with
  | none =>
    refine .of_attrs [attrProtocolVersion, attrStatus] rfl (by decide) ?_
    simp [jobRequestReplyHead, hversion, hstatus]
  | some contact =>
    refine .of_attrs [attrProtocolVersion, attrStatus, attrJobManagerUrl] rfl (by decide) ?_
    simp [jobRequestReplyHead, hversion, hstatus, (hcontact contact rfl).line]

variable {mem : Nat → HashEntry (List Char) GramExtension} {message : List Char}

theorem unpackJobRequestReply_maps {status : Int} (hlo : -2 ^ 31 ≤ status) (hhi : status < 2 ^ 31)
    {jobContact : Option (List Char)} (hes : ExtensionsOk es)
    (htable : unpackMessage fuel mem message = pure table)
    (hmaps : table.Maps fuel ((jobRequestReplyHead status jobContact).map extension ++ es)) :
    unpackJobRequestReplyWithExtensions fuel mem message = pure (status, jobContact, table) := by
  have hcontact : GramTable.find fuel table attrJobManagerUrl =
      some (jobContact.map fun c => ⟨attrJobManagerUrl, c⟩) := by
    cases jobContact with
    | some c => exact hmaps.mem ⟨attrJobManagerUrl, c⟩ (.tail _ (.tail _ (.head _)))
    | none =>
      refine hmaps.only attrJobManagerUrl fun e he heq => ?_
      rcases mem_append.1 he with he | he
      · have hne : ∀ e ∈ (jobRequestReplyHead status none).map extension, e.attr ≠ attrJobManagerUrl := by
          simp only [jobRequestReplyHead, Option.elim_none, map_cons, map_nil, forall_mem_cons]
          exact ⟨(by decide : attrProtocolVersion ≠ attrJobManagerUrl),
            (by decide : attrStatus ≠ attrJobManagerUrl), fun _ h => by cases h⟩
        exact hne e he heq
      · exact (hes.attr e he).2 (heq ▸ (by decide : attrJobManagerUrl ∈ replyAttrs))
  have hversion : ⟨attrProtocolVersion, printInt gramProtocolVersion⟩ ∈
      (jobRequestReplyHead status jobContact).map extension ++ es := .head _
  have hstatus : ⟨attrStatus, printInt status⟩ ∈
      (jobRequestReplyHead status jobContact).map extension ++ es := .tail _ (.head _)
  unfold unpackJobRequestReplyWithExtensions
  rw [htable, pure_bind, hmaps.requireAttribute hversion, pure_bind, failIf_of_not (by simp [strtol_version]),
    pure_bind, hmaps.requireAttribute hstatus, pure_bind, hcontact, ofOption_some, pure_bind, atoi_printInt hlo hhi]
  cases jobContact <;> rfl

/-- The lines in front of the extensions of a status reply. -/
def statusReplyHead (jobStatus failureCode jobFailureCode : Int) : List GramLine :=
  [intLine attrProtocolVersion gramProtocolVersion, intLine attrStatus jobStatus,
    intLine attrFailureCode failureCode, intLine attrJobFailureCode jobFailureCode]

theorem statusReplyHead_ok (jobStatus failureCode jobFailureCode : Int) :
    HeadOk (statusReplyHead jobStatus failureCode jobFailureCode) := by
  refine .of_attrs [attrProtocolVersion, attrStatus, attrFailureCode, attrJobFailureCode] rfl (by decide) ?_
  simp only [statusReplyHead, forall_mem_cons]
  exact ⟨intLine_ok (by decide) _, intLine_ok (by decide) _, intLine_ok (by decide) _, intLine_ok (by decide) _,
    fun _ h => by cases h⟩

theorem unpackStatusReply_maps {jobStatus failureCode jobFailureCode : Int}
    (htable : unpackMessage fuel mem message = pure table)
    (hmaps : table.Maps fuel ((statusReplyHead jobStatus failureCode jobFailureCode).map extension ++ es)) :
    unpackStatusReplyWithExtensions fuel mem message = pure table := by
  set expected := (statusReplyHead jobStatus failureCode jobFailureCode).map extension ++ es
  have hversion : ⟨attrProtocolVersion, printInt gramProtocolVersion⟩ ∈ expected := .head _
  have hstatus : ⟨attrStatus, printInt jobStatus⟩ ∈ expected := .tail _ (.head _)
  have hfailure : ⟨attrFailureCode, printInt failureCode⟩ ∈ expected := .tail _ (.tail _ (.head _))
  have hjob : ⟨attrJobFailureCode, printInt jobFailureCode⟩ ∈ expected := .tail _ (.tail _ (.tail _ (.head _)))
  unfold unpackStatusReplyWithExtensions
  rw [htable, pure_bind, hmaps.requireAttribute hversion, pure_bind, failIf_of_not (by simp [strtol_version]),
    pure_bind, hmaps.requireAttribute hstatus, pure_bind, hmaps.requireAttribute hfailure, pure_bind,
    hmaps.requireAttribute hjob, pure_bind]

/-- The lines in front of the extensions of a status update. -/
def statusUpdateHead (jobContact : List Char) (status failureCode : Int) : List GramLine :=
  [intLine attrProtocolVersion gramProtocolVersion, ⟨attrJobManagerUrl, jobContact, false⟩, intLine attrStatus status,
    intLine attrFailureCode failureCode]

theorem statusUpdateHead_ok {jobContact : List Char} (hcontact : ContactOk jobContact) (status failureCode : Int) :
    HeadOk (statusUpdateHead jobContact status failureCode) := by
  refine .of_attrs [attrProtocolVersion, attrJobManagerUrl, attrStatus, attrFailureCode] rfl (by decide) ?_
  simp only [statusUpdateHead, forall_mem_cons]
  exact ⟨intLine_ok (by decide) _, hcontact.line, intLine_ok (by decide) _, intLine_ok (by decide) _,
    fun _ h => by cases h⟩

theorem unpackStatusUpdate_maps {jobContact : List Char} {status failureCode : Int} (hlo : -2 ^ 31 ≤ failureCode)
    (hhi : failureCode < 2 ^ 31)
    (htable : unpackMessage fuel mem message = pure table)
    (hmaps : table.Maps fuel ((statusUpdateHead jobContact status failureCode).map extension ++ es)) :
    ∃ replaced, unpackStatusUpdateMessageWithExtensions fuel mem message = pure (replaced, table) := by
  set expected := (statusUpdateHead jobContact status failureCode).map extension ++ es
  have hversion : ⟨attrProtocolVersion, printInt gramProtocolVersion⟩ ∈ expected := .head _
  have hcontact : ⟨attrJobManagerUrl, jobContact⟩ ∈ expected := .tail _ (.head _)
  have hstatus : ⟨attrStatus, printInt status⟩ ∈ expected := .tail _ (.tail _ (.head _))
  have hfailure : ⟨attrFailureCode, printInt failureCode⟩ ∈ expected := .tail _ (.tail _ (.tail _ (.head _)))
  obtain ⟨type, htype⟩ := hmaps.optionalAttribute "gt3-failure-type".toList
  obtain ⟨text, htext⟩ := hmaps.optionalAttribute "gt3-failure-message".toList
  obtain ⟨source, hsource⟩ := hmaps.optionalAttribute "gt3-failure-source".toList
  obtain ⟨destination, hdestination⟩ := hmaps.optionalAttribute "gt3-failure-destination".toList
  unfold unpackStatusUpdateMessageWithExtensions
  rw [htable, pure_bind, hmaps.getIntAttribute hversion (by decide) (by decide), pure_bind, failIf_of_not (by simp),
    pure_bind, hmaps.requireAttribute hcontact, pure_bind, hmaps.requireAttribute hstatus, pure_bind,
    hmaps.getIntAttribute hfailure hlo hhi, pure_bind, htype, pure_bind, htext, pure_bind, hsource, pure_bind,
    hdestination, pure_bind]
  exact ⟨_, rfl⟩

end RoundTrip

/-! ## All messages -/

theorem tableExtensions_of_rep {K : Type} {hash : K → Nat → Nat} {keyeq : K → K → Bool} {size : Nat}
    (ok : HashFuncsOk hash keyeq size) {extensions : HashTable K GramExtension}
    {m : K → Option (K × GramExtension)} (hrep : extensions.Rep hash keyeq size m) {n : Nat}
    (hn : extensions.load < n) :
    ∃ es, tableExtensions n extensions = some es ∧ ∀ e, e ∈ es ↔ ∃ k key, m k = some (key, e) := by
  obtain ⟨l, hl⟩ := hrep.refines ok hn
  refine ⟨_, hl.walk_next, fun e => ?_⟩
  rw [mem_map]
  constructor
  · rintro ⟨a, ha, rfl⟩
    exact ⟨(extensions.mem a).key, (extensions.mem a).key, (hl.entries _ _).2 ⟨a, ha, ok.refl _, rfl⟩⟩
  · rintro ⟨k, key, hk⟩
    obtain ⟨a, ha, -, heq⟩ := (hl.entries _ _).1 hk
    exact ⟨a, ha, congrArg Prod.snd heq⟩

section Fits

variable {K : Type} {n : Nat} {extensions : HashTable K GramExtension} {es : List GramExtension}

theorem packJobRequestReply_eq (htable : tableExtensions n extensions = some es) (status : Int)
    (jobContact : Option (List Char)) :
    packJobRequestReplyWithExtensions n extensions status jobContact =
      packedMessage (jobRequestReplyLen es jobContact) (jobRequestReplyHead status jobContact) es := by
  have hhead : packProtocolVersionLine.print (printInt gramProtocolVersion) ++ packStatusLine.print (printInt status) ++
      jobContact.elim [] packJobManagerUrlLine.print =
      (jobRequestReplyHead status jobContact).flatMap GramLine.text := by
    cases jobContact <;> simp [jobRequestReplyHead, intLine, GramLine.text, PackLine.print, packProtocolVersionLine,
      packStatusLine, packJobManagerUrlLine]
  unfold packJobRequestReplyWithExtensions
  rw [htable]
  simp only [Option.bind_eq_bind, Option.bind_some]
  rw [hhead]
  exact OutBuf.put_putExtensions (jobRequestReplyLen es jobContact) _ es

theorem packStatusReply_eq (htable : tableExtensions n extensions = some es)
    (jobStatus failureCode jobFailureCode : Int) :
    packStatusReplyWithExtensions n extensions jobStatus failureCode jobFailureCode =
      packedMessage (statusReplyLen es) (statusReplyHead jobStatus failureCode jobFailureCode) es := by
  have hhead : packProtocolVersionLine.print (printInt gramProtocolVersion) ++
      packStatusLine.print (printInt jobStatus) ++ packFailureCodeLine.print (printInt failureCode) ++
      packJobFailureCodeLine.print (printInt jobFailureCode) =
      (statusReplyHead jobStatus failureCode jobFailureCode).flatMap GramLine.text := by
    simp [statusReplyHead, intLine, GramLine.text, PackLine.print, packProtocolVersionLine, packStatusLine,
      packFailureCodeLine, packJobFailureCodeLine]
  unfold packStatusReplyWithExtensions
  rw [htable]
  simp only [Option.bind_eq_bind, Option.bind_some]
  rw [hhead]
  exact OutBuf.put_putExtensions (statusReplyLen es) _ es

theorem statusUpdateHead_text (jobContact : List Char) (status failureCode : Int) :
    packProtocolVersionLine.print (printInt gramProtocolVersion) ++ packJobManagerUrlLine.print jobContact ++
      packStatusLine.print (printInt status) ++ packFailureCodeLine.print (printInt failureCode) =
      (statusUpdateHead jobContact status failureCode).flatMap GramLine.text := by
  simp [statusUpdateHead, intLine, GramLine.text, PackLine.print, packProtocolVersionLine, packStatusLine,
    packFailureCodeLine, packJobManagerUrlLine]

theorem packStatusUpdate_eq (htable : tableExtensions n extensions = some es) (jobContact : List Char)
    (status failureCode : Int) :
    packStatusUpdateMessageWithExtensions n extensions jobContact status failureCode =
      packedMessage (statusUpdateLen es jobContact status failureCode)
        (statusUpdateHead jobContact status failureCode) es := by
  unfold packStatusUpdateMessageWithExtensions statusUpdateLen
  rw [htable]
  simp only [Option.bind_eq_bind, Option.bind_some]
  rw [statusUpdateHead_text]
  exact OutBuf.putExtensions_eq (by omega) es

/-! ### What is written and what is allocated -/

theorem length_plainLine (attr value : List Char) :
    (⟨attr, value, false⟩ : GramLine).text.length = attr.length + value.length + 4 := by
  have hlengths : ": ".toList.length = 2 ∧ "\r\n".toList.length = 2 := by decide
  simp only [GramLine.text, Bool.false_eq_true, if_false, length_append, hlengths]
  omega

theorem length_replyAttrs : attrProtocolVersion.length = 16 ∧ attrStatus.length = 6 ∧ attrJobManagerUrl.length = 15 ∧
    attrFailureCode.length = 12 ∧ attrJobFailureCode.length = 16 ∧ (printInt gramProtocolVersion).length = 1 := by
  decide

theorem length_formats : packProtocolVersionLine.format.length = 22 ∧ packStatusLine.format.length = 12 ∧
    packJobManagerUrlLine.format.length = 21 ∧ packFailureCodeLine.format.length = 18 ∧
    packJobFailureCodeLine.format.length = 22 := by
  decide

theorem jobRequestReply_fits_iff (es : List GramExtension) (status : Int) (jobContact : Option (List Char)) :
    bytesWritten (jobRequestReplyHead status jobContact) es ≤ jobRequestReplyLen es jobContact ↔
      (printInt status).length + escapesNeeded es ≤ valuesLength es + jobContact.elim 6 fun _ => 8 := by
  obtain ⟨h1, h2, h3, -, -, h6⟩ := length_replyAttrs
  obtain ⟨f1, f2, f3, -, -⟩ := length_formats
  have hlength := length_extensionsText es
  unfold bytesWritten jobRequestReplyLen
  rw [f1, f2, f3]
  cases jobContact with
  | none =>
    simp only [jobRequestReplyHead, intLine, Option.elim_none, flatMap_cons, flatMap_nil, length_append,
      length_nil, length_plainLine, h1, h2, h6]
    omega
  | some contact =>
    simp only [jobRequestReplyHead, intLine, Option.elim_some, flatMap_cons, flatMap_nil, length_append,
      length_nil, length_plainLine, h1, h2, h3, h6]
    omega

theorem statusReply_fits_iff (es : List GramExtension) (jobStatus failureCode jobFailureCode : Int) :
    bytesWritten (statusReplyHead jobStatus failureCode jobFailureCode) es ≤ statusReplyLen es ↔
      (printInt jobStatus).length + (printInt failureCode).length + (printInt jobFailureCode).length +
        escapesNeeded es ≤ valuesLength es + 10 := by
  obtain ⟨h1, h2, -, h4, h5, h6⟩ := length_replyAttrs
  obtain ⟨f1, f2, -, f4, f5⟩ := length_formats
  have hlength := length_extensionsText es
  unfold bytesWritten statusReplyLen
  rw [f1, f2, f4, f5]
  simp only [statusReplyHead, intLine, flatMap_cons, flatMap_nil, length_append, length_nil,
    length_plainLine, h1, h2, h4, h5, h6]
  omega

theorem statusUpdate_fits_iff (es : List GramExtension) (jobContact : List Char) (status failureCode : Int) :
    bytesWritten (statusUpdateHead jobContact status failureCode) es ≤ statusUpdateLen es jobContact status failureCode ↔
      escapesNeeded es ≤ valuesLength es := by
  have hlength := length_extensionsText es
  unfold bytesWritten statusUpdateLen
  rw [statusUpdateHead_text]
  omega

theorem jobRequestReply_roundTrips_iff (htable : tableExtensions n extensions = some es) (hes : ExtensionsOk es)
    {status : Int} (hlo : -2 ^ 31 ≤ status) (hhi : status < 2 ^ 31) {jobContact : Option (List Char)}
    (hcontact : ∀ contact ∈ jobContact, ContactOk contact) :
    RoundTrips (packJobRequestReplyWithExtensions n extensions status jobContact) unpackJobRequestReplyWithExtensions
        (fun table a => a = (status, jobContact, table))
        ((jobRequestReplyHead status jobContact).map extension ++ es) ↔
      (printInt status).length + escapesNeeded es ≤ valuesLength es + jobContact.elim 6 fun _ => 8 := by
  refine (roundTrips_iff (jobRequestReplyHead_ok status hcontact) hes (packJobRequestReply_eq htable status jobContact)
    fun fuel mem message table h hmaps => ?_).trans (jobRequestReply_fits_iff es status jobContact)
  exact ⟨_, unpackJobRequestReply_maps hlo hhi hes h hmaps, rfl⟩

end Fits

/-- For every table of extensions with attributes of their own, the messages make the round trip exactly if they fit:
the quotes and backslashes that the extensions need, two quotes for each and a backslash for each quote or backslash
of a value, are not more than the characters of the values and what the formats of the other lines leave, after
the digits of the numbers. -/
theorem gramExtensions_roundTrip_iff {K : Type} {hash : K → Nat → Nat} {keyeq : K → K → Bool} {size : Nat}
    (ok : HashFuncsOk hash keyeq size) {extensions : HashTable K GramExtension} {m : K → Option (K × GramExtension)}
    (hrep : extensions.Rep hash keyeq size m) {n : Nat} (hn : extensions.load < n) {status failureCode : Int}
    (jobFailureCode : Int)
    (hstatus : -2 ^ 31 ≤ status ∧ status < 2 ^ 31) (hfailure : -2 ^ 31 ≤ failureCode ∧ failureCode < 2 ^ 31)
    {jobContact : List Char} (hcontact : ContactOk jobContact) :
    ∃ es, tableExtensions n extensions = some es ∧ (∀ e, e ∈ es ↔ ∃ k key, m k = some (key, e)) ∧
      (ExtensionsOk es →
        (RoundTrips (packJobRequestReplyWithExtensions n extensions status (some jobContact))
            unpackJobRequestReplyWithExtensions (fun table a => a = (status, some jobContact, table))
            ((jobRequestReplyHead status (some jobContact)).map extension ++ es) ↔
          (printInt status).length + escapesNeeded es ≤ valuesLength es + 8) ∧
        (RoundTrips (packJobRequestReplyWithExtensions n extensions status none)
            unpackJobRequestReplyWithExtensions (fun table a => a = (status, none, table))
            ((jobRequestReplyHead status none).map extension ++ es) ↔
          (printInt status).length + escapesNeeded es ≤ valuesLength es + 6) ∧
        (RoundTrips (packStatusReplyWithExtensions n extensions status failureCode jobFailureCode)
            unpackStatusReplyWithExtensions (fun table a => a = table)
            ((statusReplyHead status failureCode jobFailureCode).map extension ++ es) ↔
          (printInt status).length + (printInt failureCode).length + (printInt jobFailureCode).length +
            escapesNeeded es ≤ valuesLength es + 10) ∧
        (RoundTrips (packStatusUpdateMessageWithExtensions n extensions jobContact status failureCode)
            unpackStatusUpdateMessageWithExtensions (fun table a => a.2 = table)
            ((statusUpdateHead jobContact status failureCode).map extension ++ es) ↔
          escapesNeeded es ≤ valuesLength es)) := by
  obtain ⟨es, htable, hmem⟩ := tableExtensions_of_rep ok hrep hn
  refine ⟨es, htable, hmem, fun hes => ⟨?_, ?_, ?_, ?_⟩⟩
  · exact jobRequestReply_roundTrips_iff htable hes hstatus.1 hstatus.2 (by simpa using hcontact)
  · exact jobRequestReply_roundTrips_iff htable hes hstatus.1 hstatus.2 (by simp)
  · refine (roundTrips_iff (statusReplyHead_ok _ _ _) hes (packStatusReply_eq htable _ _ _) fun _ _ _ _ h hmaps => ?_).trans
      (statusReply_fits_iff es _ _ _)
    exact ⟨_, unpackStatusReply_maps h hmaps, rfl⟩
  · refine (roundTrips_iff (statusUpdateHead_ok hcontact _ _) hes (packStatusUpdate_eq htable _ _ _) fun _ _ _ _ h hmaps => ?_).trans
      (statusUpdate_fits_iff es _ _ _)
    obtain ⟨replaced, hreplaced⟩ := unpackStatusUpdate_maps hfailure.1 hfailure.2 h hmaps
    exact ⟨_, hreplaced, rfl⟩

/-- A table with one extension. -/
def noteTable (value : List Char) : Option (Bool × GramTable) :=
  (hashtableInit blankMem 17).bind fun t =>
    t.insert hashtableStringHash hashtableStringKeyeq 1 "note".toList ⟨"note".toList, value⟩

theorem noteTable_eq (value : List Char) :
    ∃ extensions m, noteTable value = some (true, extensions) ∧
      extensions.Rep hashtableStringHash hashtableStringKeyeq 17 m ∧ extensions.load < 2 ∧
      tableExtensions 2 extensions = some [⟨"note".toList, value⟩] := by
  obtain ⟨t, ht⟩ : ∃ t, hashtableInit blankMem 17 = some t := ⟨_, if_neg (by decide)⟩
  have hempty : GramTable.Holds t [] := HashTable.Rep.init ht
  obtain ⟨extensions, hinsert, hrep, hload, -⟩ :=
    hempty.1.insert (stringFuncs_ok (by decide)) "note".toList ⟨"note".toList, value⟩ (hempty.2.trans (Nat.zero_le 1))
  have hnote : noteTable value = some (true, extensions) := by
    unfold noteTable
    rw [ht]
    exact hinsert
  have hwalk : (noteTable value).bind (fun r => tableExtensions 2 r.2) = some [⟨"note".toList, value⟩] := rfl
  rw [hnote] at hwalk
  exact ⟨extensions, _, hnote, hrep, Nat.lt_succ_of_le (hload.trans (Nat.succ_le_succ hempty.2)), hwalk⟩

theorem note_ok {value : List Char} (hvalue : '\x00' ∉ value) : ExtensionsOk [⟨"note".toList, value⟩] :=
  ⟨nodup_singleton _, by simpa using (by decide : AttrOk "note".toList ∧ "note".toList ∉ replyAttrs), by
    simpa using hvalue⟩

theorem gramExtensions_roundTrip_note :
    ∃ extensions, noteTable "a\"b".toList = some (true, extensions) ∧
      RoundTrips (packStatusUpdateMessageWithExtensions 2 extensions "https://h:1/".toList 4 0)
        unpackStatusUpdateMessageWithExtensions (fun table a => a.2 = table)
        ((statusUpdateHead "https://h:1/".toList 4 0).map extension ++ [⟨"note".toList, "a\"b".toList⟩]) := by
  obtain ⟨extensions, m, hnote, hrep, hload, hwalk⟩ := noteTable_eq "a\"b".toList
  have hcontact : ContactOk "https://h:1/".toList := by unfold ContactOk; decide
  have hstatus : -2 ^ 31 ≤ (4 : Int) ∧ (4 : Int) < 2 ^ 31 := by decide
  have hfailure : -2 ^ 31 ≤ (0 : Int) ∧ (0 : Int) < 2 ^ 31 := by decide
  obtain ⟨es, hes, -, hall⟩ :=
    gramExtensions_roundTrip_iff (stringFuncs_ok (by decide)) hrep hload 0 hstatus hfailure hcontact
  cases hwalk.symm.trans hes
  exact ⟨extensions, hnote, (hall (note_ok (by decide))).2.2.2.2 (by decide)⟩

/-- A status update with an extension that has an empty value is written beyond its block. -/
theorem statusUpdate_empty_value :
    ∃ extensions, noteTable [] = some (true, extensions) ∧ ExtensionsOk [⟨"note".toList, []⟩] ∧
      ContactOk "https://h:1/".toList ∧
      packStatusUpdateMessageWithExtensions 2 extensions "https://h:1/".toList 4 0 = none ∧
      ¬ RoundTrips (packStatusUpdateMessageWithExtensions 2 extensions "https://h:1/".toList 4 0)
        unpackStatusUpdateMessageWithExtensions (fun table a => a.2 = table)
        ((statusUpdateHead "https://h:1/".toList 4 0).map extension ++ [⟨"note".toList, []⟩]) := by
  obtain ⟨extensions, m, hnote, -, -, hwalk⟩ := noteTable_eq []
  have hnone : packStatusUpdateMessageWithExtensions 2 extensions "https://h:1/".toList 4 0 = none := by
    rw [packStatusUpdate_eq hwalk, packedMessage, if_neg (by decide)]
  refine ⟨extensions, hnote, note_ok (by decide), by unfold ContactOk; decide, hnone, ?_⟩
  rintro ⟨message, hmessage, -⟩
  rw [hnone] at hmessage
  cases hmessage

/-! ## The blocks -/

/-- For every table of extensions, whatever their attributes and values are, and all codes: a message is written within its block
exactly if the quotes and backslashes of the extensions are not more than the characters of their values and what the formats
of the other lines leave, after the digits of the numbers. -/
theorem gramExtensions_fit_iff {K : Type} {hash : K → Nat → Nat} {keyeq : K → K → Bool} {size : Nat}
    (ok : HashFuncsOk hash keyeq size) {extensions : HashTable K GramExtension} {m : K → Option (K × GramExtension)}
    (hrep : extensions.Rep hash keyeq size m) {n : Nat} (hn : extensions.load < n) :
    ∃ es, tableExtensions n extensions = some es ∧ (∀ e, e ∈ es ↔ ∃ k key, m k = some (key, e)) ∧
      (∀ (status : Int) (jobContact : Option (List Char)),
        ((packJobRequestReplyWithExtensions n extensions status jobContact).isSome ↔
          bytesWritten (jobRequestReplyHead status jobContact) es ≤ jobRequestReplyLen es jobContact) ∧
        (bytesWritten (jobRequestReplyHead status jobContact) es ≤ jobRequestReplyLen es jobContact ↔
          (printInt status).length + escapesNeeded es ≤ valuesLength es + jobContact.elim 6 fun _ => 8)) ∧
      (∀ status failureCode jobFailureCode : Int,
        ((packStatusReplyWithExtensions n extensions status failureCode jobFailureCode).isSome ↔
          bytesWritten (statusReplyHead status failureCode jobFailureCode) es ≤ statusReplyLen es) ∧
        (bytesWritten (statusReplyHead status failureCode jobFailureCode) es ≤ statusReplyLen es ↔
          (printInt status).length + (printInt failureCode).length + (printInt jobFailureCode).length +
            escapesNeeded es ≤ valuesLength es + 10)) ∧
      (∀ (jobContact : List Char) (status failureCode : Int),
        ((packStatusUpdateMessageWithExtensions n extensions jobContact status failureCode).isSome ↔
          bytesWritten (statusUpdateHead jobContact status failureCode) es ≤ statusUpdateLen es jobContact status failureCode) ∧
        (bytesWritten (statusUpdateHead jobContact status failureCode) es ≤ statusUpdateLen es jobContact status failureCode ↔
          escapesNeeded es ≤ valuesLength es)) := by
  obtain ⟨es, htable, hmem⟩ := tableExtensions_of_rep ok hrep hn
  refine ⟨es, htable, hmem, ?_, ?_, ?_⟩
  · intro status jobContact
    rw [packJobRequestReply_eq htable]
    exact ⟨packedMessage_isSome, jobRequestReply_fits_iff es status jobContact⟩
  · intro status failureCode jobFailureCode
    rw [packStatusReply_eq htable]
    exact ⟨packedMessage_isSome, statusReply_fits_iff es status failureCode jobFailureCode⟩
  · intro jobContact status failureCode
    rw [packStatusUpdate_eq htable]
    exact ⟨packedMessage_isSome, statusUpdate_fits_iff es jobContact status failureCode⟩

theorem gramExtensions_fit_note :
    ∃ extensions es, noteTable "a\"b".toList = some (true, extensions) ∧ tableExtensions 2 extensions = some es ∧
      bytesWritten (statusUpdateHead "https://h:1/".toList 4 0) es ≤ statusUpdateLen es "https://h:1/".toList 4 0 := by
  obtain ⟨extensions, m, hnote, hrep, hload, hwalk⟩ := noteTable_eq "a\"b".toList
  obtain ⟨es, hes, -, -, -, hupdate⟩ := gramExtensions_fit_iff (stringFuncs_ok (by decide)) hrep hload
  cases hwalk.symm.trans hes
  exact ⟨extensions, _, hnote, hes, (hupdate _ 4 0).2.2 (by decide)⟩

/-- One extension whose value is a quote: two bytes too many in a status update, and one in a reply with codes of three digits. -/
theorem quote_value_overflows :
    ∃ extensions es, noteTable "\"".toList = some (true, extensions) ∧ tableExtensions 2 extensions = some es ∧
      bytesWritten (statusUpdateHead "https://h:1/".toList 4 0) es = statusUpdateLen es "https://h:1/".toList 4 0 + 2 ∧
      packStatusUpdateMessageWithExtensions 2 extensions "https://h:1/".toList 4 0 = none ∧
      bytesWritten (statusReplyHead 128 111 111) es = statusReplyLen es + 1 ∧
      packStatusReplyWithExtensions 2 extensions 128 111 111 = none := by
  obtain ⟨extensions, m, hnote, -, -, hwalk⟩ := noteTable_eq "\"".toList
  refine ⟨extensions, _, hnote, hwalk, by decide, ?_, by decide, ?_⟩
  · rw [packStatusUpdate_eq hwalk, packedMessage, if_neg (by decide)]
  · rw [packStatusReply_eq hwalk, packedMessage, if_neg (by decide)]

end Globus
