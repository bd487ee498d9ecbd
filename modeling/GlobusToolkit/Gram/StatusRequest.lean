/-
Status requests of the GRAM protocol (gram/protocol/source/globus_gram_protocol_pack.c): a line with the version and the request in
quotes. They are not read with the scanner of the other messages but with `globus_l_gram_protocol_unquote_string`, which writes to a
block of the size of what it reads. Every request is read back.
-/
import GlobusToolkit.Gram.Message
import GlobusToolkit.Lib.Scanf

namespace Globus

open Lib List

/-! ## The functions -/

/-- `GLOBUS_GRAM_HTTP_PACK_CLIENT_REQUEST_LINE`. -/
def packClientRequestLine : List Char := "%s\r\n".toList

/-- `globus_gram_protocol_pack_status_request`: the bytes of the query. -/
def packStatusRequest (statusRequest : List Char) : Option (List Char) := do
  let size := packProtocolVersionLine.format.length + packClientRequestLine.length + 2 * statusRequest.length
  let query ← OutBuf.put ⟨size, []⟩ (packProtocolVersionLine.print (printInt gramProtocolVersion))
  let query ← query.put (quoteString statusRequest)
  let query ← query.put "\r\n".toList
  return cstr query.text ++ ['\x00']

/-- `*out++ = c`, in a block of `size` bytes. -/
def storeChar (size : Nat) (out : List Char) (c : Char) : Gram (List Char) :=
  if out.length < size then pure (out ++ [c]) else diverge

/-- The loop of `globus_l_gram_protocol_unquote_string` over what is left of the text: whether a quote is still open, and what was
written. -/
def unquoteLoop (size : Nat) (inQuote : Bool) (out : List Char) : List Char → Gram (Bool × List Char)
  | [] => pure (inQuote, out)
  | c :: s =>
    if c = '\x00' then pure (inQuote, out)
    else if inQuote then
      if c = '"' then pure (false, out)
      else if c = '\\' then
        match s with
        | [] => diverge
        | d :: s => do
          let out ← storeChar size out d
          unquoteLoop size true out s
      else do
        let out ← storeChar size out c
        unquoteLoop size true out s
    else if c = '\r' then
      -- end of the line
      match s with
      | [] => diverge
      | d :: s =>
        if d ≠ '\n' then throw .httpUnpackFailed
        else do
          let out ← storeChar size out d
          unquoteLoop size false out s
    else do
      let out ← storeChar size out c
      unquoteLoop size false out s

/-- `globus_l_gram_protocol_unquote_string` on the bytes `inbuf`, with a block of `size` bytes for the result. -/
def unquoteString (size : Nat) (inbuf : List Char) : Gram (List Char) := do
  let (inQuote, out) ← match inbuf with
    | [] => diverge
    | c :: s => if c = '"' then unquoteLoop size true [] s else unquoteLoop size false [] (c :: s)
  failIf inQuote .httpUnpackFailed
  let out ← storeChar size out '\x00'
  return cstr out

/-- The format of the line with the version, as `sscanf` uses it. -/
def scanVersionLine : List Directive := literal (attrProtocolVersion ++ ": ".toList) ++ .int none 32 :: literal "\r\n".toList

/-- `globus_gram_protocol_unpack_status_request`. -/
def unpackStatusRequest (query : List Char) : Gram (List Char) := do
  match strstr "\r\n".toList (cstr query) with
  | none => if '\x00' ∈ query then throw .httpUnpackFailed else diverge
  | some (line, _) =>
    let p := query.drop (line.length + 2)
    match (scanf scanVersionLine (cstr query)).1 with
    | [.int protocolVersion] =>
      failIf (protocolVersion ≠ gramProtocolVersion) .versionMismatch
      unquoteString p.length p
    | _ => throw .httpUnpackFailed

/-! ## Quoting -/

section Unquote

variable {size : Nat}

variable {out : List Char}

theorem storeChar_of_lt {c : Char} (h : out.length < size) : storeChar size out c = pure (out ++ [c]) := if_pos h

theorem unquoteLoop_char {c : Char} (hnul : c ≠ '\x00') (hquote : c ≠ '"') (hbackslash : c ≠ '\\')
    (hlt : out.length < size) (s : List Char) : unquoteLoop size true out (c :: s) = unquoteLoop size true (out ++ [c]) s := by
  rw [unquoteLoop.eq_def]
  dsimp only
  rw [if_neg hnul, if_pos rfl, if_neg hquote, if_neg hbackslash, storeChar_of_lt hlt, pure_bind]

theorem unquoteLoop_escape (hlt : out.length < size) (c : Char) (s : List Char) :
    unquoteLoop size true out ('\\' :: c :: s) = unquoteLoop size true (out ++ [c]) s := by
  rw [unquoteLoop.eq_def]
  dsimp only
  rw [if_neg (by decide), if_pos rfl, if_neg (by decide), if_pos rfl, storeChar_of_lt hlt, pure_bind]

theorem unquoteLoop_escapeText (rest : List Char) : ∀ {v out : List Char}, '\x00' ∉ v → out.length + v.length ≤ size →
    unquoteLoop size true out (escapeText v ++ '"' :: rest) = pure (false, out ++ v)
  | [], out, _, _ => by
    rw [escapeText, flatMap_nil, nil_append, append_nil, unquoteLoop.eq_def]
    rfl
  | c :: v, out, hnul, hle => by
    rw [mem_cons, not_or] at hnul
    rw [length_cons] at hle
    have ih : unquoteLoop size true (out ++ [c]) (escapeText v ++ '"' :: rest) = pure (false, out ++ [c] ++ v) :=
      unquoteLoop_escapeText rest hnul.2 (by rw [length_append, length_singleton]; omega)
    rw [append_assoc] at ih
    rw [escapeText_cons]
    split
    · exact (unquoteLoop_escape (by omega) c _).trans ih
    · next hc =>
      rw [not_or] at hc
      exact (unquoteLoop_char (Ne.symm hnul.1) hc.1 hc.2 (by omega) _).trans ih

theorem unquoteString_quoteString {v : List Char} (hnul : '\x00' ∉ v) (rest : List Char) (hlt : v.length < size) :
    unquoteString size (quoteString v ++ rest) = pure v := by
  have hloop : unquoteLoop size true [] (escapeText v ++ '"' :: rest) = pure (false, v) :=
    unquoteLoop_escapeText rest hnul (by rw [length_nil]; omega)
  have htext : quoteString v ++ rest = '"' :: (escapeText v ++ '"' :: rest) := by simp [quoteString]
  unfold unquoteString
  rw [htext]
  dsimp only
  rw [if_pos rfl, hloop, pure_bind]
  rw [failIf_of_not (by simp), pure_bind, storeChar_of_lt hlt, pure_bind, cstr, takeWhile_ne_append hnul]

end Unquote

/-! ## The round trip -/

/-- The line with the version. -/
def versionLine : List Char := packProtocolVersionLine.print (printInt gramProtocolVersion)

/-- The text of a query. -/
def statusRequestText (s : List Char) : List Char := versionLine ++ quoteString s ++ "\r\n".toList

theorem nul_not_mem_statusRequestText {s : List Char} (hnul : '\x00' ∉ s) : '\x00' ∉ statusRequestText s := by
  have hescape := not_mem_escapeText (by decide) hnul
  have hline : '\x00' ∉ versionLine := by decide
  simpa [statusRequestText, quoteString, hline] using hescape

/-- The query is written to the last byte of its block if all characters of the request need a backslash. -/
theorem packStatusRequest_eq {s : List Char} (hnul : '\x00' ∉ s) :
    packStatusRequest s = some (statusRequestText s ++ ['\x00']) := by
  have hescapes := escapes_le s
  have hquoted := length_quoteString s
  have hlengths : versionLine.length = 21 ∧ packProtocolVersionLine.format.length = 22 ∧ packClientRequestLine.length = 4 ∧
      "\r\n".toList.length = 2 := by decide
  obtain ⟨hversion, hformat, hclient, hcrlf⟩ := hlengths
  unfold packStatusRequest
  simp only [Option.bind_eq_bind]
  rw [← versionLine, OutBuf.put_of_lt (by simp only [length_nil]; omega), Option.bind_some,
    OutBuf.put_of_lt (by simp only [nil_append]; omega), Option.bind_some,
    OutBuf.put_of_lt (by simp only [nil_append, length_append]; omega), Option.bind_some, nil_append]
  rw [← statusRequestText, cstr_eq_self (nul_not_mem_statusRequestText hnul)]
  rfl

theorem scanf_versionLine (rest : List Char) : (scanf scanVersionLine (versionLine ++ rest)).1 = [.int gramProtocolVersion] := by
  have hline : versionLine ++ rest =
      attrProtocolVersion ++ ": ".toList ++ ((Numeral.ofNat 2).digits ++ '\r' :: '\n' :: rest) := by
    simp [versionLine, PackLine.print, packProtocolVersionLine, printInt, gramProtocolVersion]
  rw [hline, scanVersionLine, scanf_literal _ (by simp; decide), scanf_int _ (by simp) (by decide) (by decide),
    scanf_literal_values]
  rfl

theorem strstr_versionLine (rest : List Char) :
    strstr "\r\n".toList (versionLine ++ rest) = some ("protocol-version: 2".toList, rest) := by
  have hline : versionLine ++ rest = "protocol-version: 2".toList ++ ("\r\n".toList ++ rest) := by
    rfl
  have hcr : '\r' ∉ "protocol-version: 2".toList := by decide
  rw [hline]
  refine (strstr_append_of_notMem hcr ['\n'] _).trans ?_
  have hprefix : ['\r', '\n'] <+: "\r\n".toList ++ rest := prefix_append _ _
  rfl

/-- Every status request is read back. -/
theorem statusRequest_roundTrip {s : List Char} (hnul : '\x00' ∉ s) :
    ∃ query, packStatusRequest s = some query ∧ unpackStatusRequest query = pure s := by
  refine ⟨_, packStatusRequest_eq hnul, ?_⟩
  have hcstr : cstr (statusRequestText s ++ ['\x00']) = versionLine ++ (quoteString s ++ "\r\n".toList) := by
    rw [cstr, takeWhile_ne_append (nul_not_mem_statusRequestText hnul), statusRequestText, append_assoc]
  have hdrop : (statusRequestText s ++ ['\x00']).drop ("protocol-version: 2".toList.length + 2) = quoteString s ++ "\r\n\x00".toList := by
    simp only [statusRequestText, append_assoc]
    exact drop_left' rfl
  have hlt : s.length < (quoteString s ++ "\r\n\x00".toList).length := by
    rw [length_append, length_quoteString]
    omega
  unfold unpackStatusRequest
  rw [hcstr, strstr_versionLine]
  dsimp only
  rw [scanf_versionLine, hdrop]
  dsimp only
  exact unquoteString_quoteString hnul _ hlt

theorem statusRequest_roundTrip_quotes :
    ∃ query, packStatusRequest "\"a\\\r\nb\"\\".toList = some query ∧ unpackStatusRequest query = pure "\"a\\\r\nb\"\\".toList :=
  statusRequest_roundTrip (by decide)

end Globus
