/-
Framing and reading of GRAM messages (gram/protocol/source/globus_gram_protocol_frame.c and the read callbacks of
globus_gram_protocol_io.c). A message is sent behind an HTTP header; the reader takes bytes from the connection as
they come, looks for the end of the header, and then waits for as many bytes as the header says.

The buffer of a connection is the list of the `n_read` bytes in it that count.
-/
import GlobusToolkit.Lib.Scanf
import GlobusToolkit.Url.Scan

namespace Globus

open Lib List

/-! ## Framing -/

/-- The errors of framing and reading, some of `GLOBUS_GRAM_PROTOCOL_ERROR_…`. -/
inductive FrameError where
  | invalidJobContact
  | protocolFailed
  | httpUnframeFailed
  | authorization
  | serviceNotFound
  | gatekeeperMisconfigured
  deriving DecidableEq, Repr

def crlf : List Char := ['\r', '\n']

/-- A line of a header, one of `GLOBUS_GRAM_HTTP_…_LINE`, around the conversion in it. -/
structure HttpLine where
  before : List Char
  behind : List Char

def HttpLine.text (l : HttpLine) (arg : List Char) : List Char := l.before ++ arg ++ l.behind

/-- The line as output format. -/
def HttpLine.print (l : HttpLine) (arg : List Char) : List Char := l.text arg ++ crlf

/-- The line as input format. -/
def HttpLine.scan (l : HttpLine) (conversion : Directive) : List Directive :=
  literal l.before ++ conversion :: literal (l.behind ++ crlf)

def httpRequestLine : HttpLine := ⟨"POST ".toList, " HTTP/1.1".toList⟩

def httpHostLine : HttpLine := ⟨"Host: ".toList, []⟩

def httpContentType : List Char := "Content-Type: application/x-globus-gram".toList

def httpContentTypeLine : List Char := httpContentType ++ crlf

def httpContentLengthLine : HttpLine := ⟨"Content-Length: ".toList, []⟩

def httpConnectionLine : List Char := "Connection: Close".toList ++ crlf

/-- `%3d`. -/
def printWidth3 (code : Int) : List Char :=
  List.replicate (3 - (printInt code).length) ' ' ++ printInt code

/-- `GLOBUS_GRAM_HTTP_REPLY_LINE`. -/
def printReplyLine (code : Int) (reason : List Char) : List Char :=
  "HTTP/1.1 ".toList ++ printWidth3 code ++ [' '] ++ reason ++ crlf

/-- `GLOBUS_GRAM_HTTP_PARSE_REPLY_LINE`. -/
def scanReplyLine : List Directive :=
  literal "HTTP/1.1 ".toList ++ .int (some 3) 32 :: (literal [' '] ++
    .set none true (fun c => c ≠ '\r' && c ≠ '\n') :: literal crlf)

/-- `globus_l_gram_protocol_lookup_reason`. -/
def lookupReason (code : Int) : String :=
  match code with
  | 100 => "Continue"
  | 101 => "Switching Protocols"
  | 200 => "OK"
  | 201 => "Created"
  | 202 => "Accepted"
  | 203 => "Non-Authoritative Information"
  | 204 => "No Content"
  | 205 => "Reset Content"
  | 206 => "Partial Content"
  | 300 => "Multiple Choices"
  | 301 => "Moved Permanently"
  | 302 => "Found"
  | 303 => "See Other"
  | 304 => "Not Modified"
  | 305 => "Use Proxy"
  | 307 => "Temporary Redirect"
  | 400 => "Bad Request"
  | 401 => "Unauthorized"
  | 402 => "Payment Required"
  | 403 => "Forbidden"
  | 404 => "Not Found"
  | 405 => "Method Not Allowed"
  | 406 => "Not Acceptable"
  | 407 => "Proxy Authentication Required"
  | 408 => "Request Time-out"
  | 409 => "Conflict"
  | 410 => "Gone"
  | 411 => "Length Required"
  | 412 => "Precondition Failed"
  | 413 => "Request Entity Too Large"
  | 414 => "Request-URI Too Large"
  | 415 => "Unsupported Media Type"
  | 416 => "Requested range not satisfiable"
  | 417 => "Expectation Failed"
  | 500 => "Internal Server Error"
  | 501 => "Not Implemented"
  | 502 => "Bad Gateway"
  | 503 => "Service Unavailable"
  | 504 => "Gateway Time-out"
  | 505 => "HTTP Version not supported"
  | code =>
    if code < 100 ∨ code ≥ 600 then "Internal Server Error"
    else if code < 200 then "Continue"
    else if code < 300 then "OK"
    else if code < 400 then "Multiple Choices"
    else if code < 500 then "Bad Request"
    else "Internal Server Error"

/-- The header of a request. -/
def requestHeader (path host : List Char) (msgsize : Nat) : List Char :=
  httpRequestLine.print path ++ httpHostLine.print host ++ httpContentTypeLine ++
    httpContentLengthLine.print (printInt msgsize) ++ crlf

/-- `globus_gram_protocol_frame_request`. A URL with a path and no host leads to a null pointer. -/
def frameRequest (fuel : Nat) (url msg : List Char) : Option (Except FrameError (List Char)) := do
  match ← (urlParse fuel url).run with
  | .error _ => return .error .invalidJobContact
  | .ok parsed =>
    match parsed.urlPath with
    | none => return .error .invalidJobContact
    | some path =>
      let host ← parsed.host
      return .ok (requestHeader path host msg.length ++ msg)

/-- The header of a reply with a body. -/
def replyHeader (code : Int) (msgsize : Nat) : List Char :=
  printReplyLine code (lookupReason code).toList ++ httpContentTypeLine ++
    httpContentLengthLine.print (printInt msgsize) ++ crlf

/-- `globus_gram_protocol_frame_reply`. -/
def frameReply (code : Int) (msg : List Char) : List Char :=
  if msg = [] then printReplyLine code (lookupReason code).toList ++ httpConnectionLine ++ crlf
  else replyHeader code msg.length ++ msg

/-! ## Reading -/

/-- `GLOBUS_GRAM_PROTOCOL_MAX_MSG_SIZE`, the size of the buffers. -/
def maxMsgSize : Nat := 64000

/-- `globus_l_gram_protocol_parse_request_header`: the length of the payload and the URI. -/
def parseRequestHeader (buf : List Char) : Except FrameError (Nat × Option (List Char)) :=
  let format := httpRequestLine.scan .string ++ httpHostLine.scan .string ++ literal httpContentTypeLine ++
    httpContentLengthLine.scan (.int none 64) ++ literal crlf
  match (scanf format (cstr buf)).1 with
  | [.str uri, .str _, .int n] => .ok ((n % 2 ^ 64).toNat, some uri)
  | _ => .error .protocolFailed

/-- `globus_l_gram_protocol_parse_reply_header`. -/
def parseReplyHeader (buf : List Char) : Except FrameError (Nat × Option (List Char)) :=
  let line := scanf scanReplyLine (cstr buf)
  match line.1 with
  | [.int code, .str _] =>
    if code = 200 then
      match (scanf (literal httpContentTypeLine ++ httpContentLengthLine.scan (.int none 64)) line.2).1 with
      | [.int n] => .ok ((n % 2 ^ 64).toNat, none)
      | _ => .error .httpUnframeFailed
    else if code = 400 then .error .protocolFailed
    else if code = 403 then .error .authorization
    else if code = 404 then .error .serviceNotFound
    else if code = 500 then .error .gatekeeperMisconfigured
    else .error .httpUnframeFailed
  | _ => .error .httpUnframeFailed

/-- The fields of a connection that the read callbacks use. -/
structure Connection where
  buf : List Char
  gotHeader : Bool
  payloadLength : Nat
  uri : Option (List Char)
  deriving DecidableEq, Repr

/-- A connection with these bytes, before the end of the header was found. -/
def Connection.reading (buf : List Char) : Connection := ⟨buf, false, 0, none⟩

def Connection.new : Connection := .reading []

/-- What a read callback does at its end. -/
inductive ReadOutcome where
  /-- another read is registered -/
  | more (connection : Connection)
  /-- the user callback is called, with no error or with one -/
  | callback (buf : List Char) (payloadLength : Nat) (rc : Option FrameError) (uri : Option (List Char))
  /-- the connection is closed and the user does not hear of it -/
  | closed
  deriving DecidableEq, Repr

/-- What comes with the bytes of a read. -/
inductive IoResult where
  | success
  | eof
  | failed
  deriving DecidableEq, Repr

/-- The two read callbacks differ in the header, in what an error leads to and in what they do when the other side
begins with delegation. -/
structure ReadVariant where
  parseHeader : List Char → Except FrameError (Nat × Option (List Char))
  delegation : Connection → ReadOutcome
  failure : Connection → FrameError → ReadOutcome

/-- The part of a read callback behind the header. The bytes of this read are not counted. -/
def readPayload (c : Connection) : ReadOutcome :=
  if c.buf.length < c.payloadLength then .more c else .callback c.buf c.payloadLength none c.uri

/-- A read callback. The terminator behind the bytes has to be inside of the buffer. -/
def readCallback (v : ReadVariant) (c : Connection) (result : IoResult) (bytes : List Char) : Option ReadOutcome :=
  if result = .failed ∨ (result = .eof ∧ !c.gotHeader) then some (v.failure c .protocolFailed)
  else if c.gotHeader then some (readPayload c)
  else if c.buf = [] ∧ (bytes.head? = some '0' ∨ bytes.head? = some 'D') then some (v.delegation c)
  else
    let buf := c.buf ++ bytes
    if maxMsgSize ≤ buf.length then none
    else
      match strstr (crlf ++ crlf) (cstr buf) with
      | none => some (.more { c with buf })
      | some (header, _) =>
        match v.parseHeader buf with
        | .error e => some (v.failure { c with buf, gotHeader := true, payloadLength := 0 } e)
        | .ok (payloadLength, uri) =>
          some (readPayload { buf := buf.drop (header.length + 4), gotHeader := true, payloadLength, uri })

def requestVariant : ReadVariant where
  parseHeader := parseRequestHeader
  delegation := .more
  failure _ _ := .closed

/-- `globus_l_gram_protocol_read_request_callback`. -/
def readRequestCallback : Connection → IoResult → List Char → Option ReadOutcome := readCallback requestVariant

def replyVariant : ReadVariant where
  parseHeader := parseReplyHeader
  delegation c := .callback c.buf c.payloadLength (some .protocolFailed) none
  failure c e := .callback c.buf c.payloadLength (some e) none

/-- `globus_l_gram_protocol_read_reply_callback`, for a connection that is not kept open. -/
def readReplyCallback : Connection → IoResult → List Char → Option ReadOutcome := readCallback replyVariant

/-- The reads of a connection as long as they are registered, with those that are left. -/
def runReads (callback : Connection → IoResult → List Char → Option ReadOutcome) (c : Connection) :
    List (List Char) → Option (ReadOutcome × List (List Char))
  | [] => some (.more c, [])
  | bytes :: reads =>
    match callback c .success bytes with
    | none => none
    | some (.more c) => runReads callback c reads
    | some outcome => some (outcome, reads)

/-- The user callback is called with the message, when all of it was read. -/
def Delivers (callback : Connection → IoResult → List Char → Option ReadOutcome) (reads : List (List Char))
    (msg : List Char) : Prop :=
  ∃ buf uri, runReads callback .new reads = some (.callback buf msg.length none uri, []) ∧ buf.take msg.length = msg

/-! ## The end of the header -/

theorem strstr_crlf_skip {l : List Char} (hl : '\r' ∉ l) (s : List Char) :
    strstr (crlf ++ crlf) (l ++ s) = (strstr (crlf ++ crlf) s).map fun r => (l ++ r.1, r.2) :=
  strstr_append_of_notMem hl _ s

/-- Lines with their ends and an empty line: the end of the header is found there, and not before. -/
theorem strstr_header (rest : List Char) : ∀ {lines : List (List Char)}, lines ≠ [] →
    (∀ l ∈ lines, l ≠ [] ∧ '\r' ∉ l) →
    ∃ header, strstr (crlf ++ crlf) (lines.flatMap (· ++ crlf) ++ crlf ++ rest) = some (header, rest) ∧
      header.length + 4 = (lines.flatMap (· ++ crlf) ++ crlf).length
  | [l], _, hl => by
    refine ⟨l, ?_, by simp [crlf]⟩
    have htext : [l].flatMap (· ++ crlf) ++ crlf ++ rest = l ++ (crlf ++ crlf ++ rest) := by simp
    rw [htext, strstr_crlf_skip (hl l (by simp)).2, strstr_of_prefix (prefix_append _ _), drop_left]
    simp
  | l :: l' :: lines, _, hl => by
    have hnext : ∀ k ∈ l' :: lines, k ≠ [] ∧ '\r' ∉ k := (forall_mem_cons.1 hl).2
    obtain ⟨header, hfind, hlen⟩ := strstr_header rest (cons_ne_nil l' lines) hnext
    obtain ⟨c, l'', hl'⟩ := exists_cons_of_ne_nil (hl l' (by simp)).1
    have hc : c ≠ '\r' := fun h => (hl l' (by simp)).2 (by simp [hl', h])
    refine ⟨l ++ crlf ++ header, ?_, by simp [crlf] at hlen ⊢; omega⟩
    have htext : (l :: l' :: lines).flatMap (· ++ crlf) ++ crlf ++ rest =
        l ++ '\r' :: '\n' :: ((l' :: lines).flatMap (· ++ crlf) ++ crlf ++ rest) := by simp [crlf]
    have hcr : ¬ crlf ++ crlf <+: '\r' :: '\n' :: ((l' :: lines).flatMap (· ++ crlf) ++ crlf ++ rest) := by
      simp [crlf, hl', hc.symm]
    have hlf : ¬ crlf ++ crlf <+: '\n' :: ((l' :: lines).flatMap (· ++ crlf) ++ crlf ++ rest) := by simp [crlf]
    rw [htext, strstr_crlf_skip (hl l (by simp)).2, strstr_cons_of_not_prefix hcr, strstr_cons_of_not_prefix hlf, hfind]
    simp [crlf]

/-! ## Reading in pieces -/

/-- A header: its end is found at its end, and it does not begin like delegation. -/
structure Headed (header : List Char) : Prop where
  first : ∀ c ∈ header.head?, c ≠ '0' ∧ c ≠ 'D'
  nul : '\x00' ∉ header
  find : ∀ rest, ∃ before, strstr (crlf ++ crlf) (header ++ rest) = some (before, rest) ∧
    before.length + 4 = header.length

/-- What the read that completes the header leads to. -/
def ReadVariant.outcome (v : ReadVariant) (header payload : List Char) : ReadOutcome :=
  match v.parseHeader (header ++ payload) with
  | .error e => v.failure ⟨header ++ payload, true, 0, none⟩ e
  | .ok (payloadLength, uri) => readPayload ⟨payload, true, payloadLength, uri⟩

/-- The reads that are left, after an outcome. -/
def ReadOutcome.goOn (callback : Connection → IoResult → List Char → Option ReadOutcome) (reads : List (List Char)) :
    ReadOutcome → Option (ReadOutcome × List (List Char))
  | .more c => runReads callback c reads
  | outcome => some (outcome, reads)

theorem runReads_cons (callback : Connection → IoResult → List Char → Option ReadOutcome) (c : Connection)
    (bytes : List Char) (reads : List (List Char)) : runReads callback c (bytes :: reads) =
      (callback c .success bytes).bind (·.goOn callback reads) := by
  rw [runReads]
  cases callback c .success bytes with
  | none => rfl
  | some outcome => cases outcome <;> rfl

section Run

variable {v : ReadVariant} {header msg : List Char}

theorem cstr_append {s : List Char} (hs : '\x00' ∉ s) (t : List Char) : cstr (s ++ t) = s ++ cstr t := by
  rw [cstr, takeWhile_append_of_pos (ne_of_not_mem hs)]
  rfl

theorem Headed.ne_nil (h : Headed header) : header ≠ [] := by
  rintro rfl
  obtain ⟨before, -, hlen⟩ := h.find []
  simp at hlen

variable {part : List Char}

theorem Headed.find_part (h : Headed header) (hpart : part <+: header)
    (hlt : part.length < header.length) : strstr (crlf ++ crlf) (cstr part) = none := by
  obtain ⟨rest, rfl⟩ := hpart
  have hnul : '\x00' ∉ part := fun hmem => h.nul (by simp [hmem])
  obtain ⟨before, hfind, hlen⟩ := h.find []
  rw [cstr_eq_self hnul]
  cases hs : strstr (crlf ++ crlf) part with
  | none => rfl
  | some r =>
    have heq := eq_of_strstr hs
    have hle := length_le_of_strstr hfind
      (show part ++ rest ++ [] = r.1 ++ (crlf ++ crlf) ++ (r.2 ++ rest) by rw [heq]; simp)
    have hlen' := congrArg List.length heq
    simp [crlf] at hlen' hlen hlt
    omega

theorem Headed.not_delegation (h : Headed header) {part bytes rest : List Char} (hbytes : bytes ≠ [])
    (heq : part ++ bytes ++ rest = header ++ msg) :
    ¬ ((Connection.reading part).buf = [] ∧ (bytes.head? = some '0' ∨ bytes.head? = some 'D')) := by
  rintro ⟨hpart, hhead⟩
  obtain rfl : part = [] := hpart
  obtain ⟨c, bytes, rfl⟩ := exists_cons_of_ne_nil hbytes
  obtain ⟨d, header, rfl⟩ := exists_cons_of_ne_nil h.ne_nil
  obtain rfl : c = d := by simpa using congrArg head? heq
  have hc := h.first c (by simp)
  simp [hc] at hhead

section Step

variable {part bytes rest : List Char} (h : Headed header) (hbytes : bytes ≠ [])
  (heq : part ++ bytes ++ rest = header ++ msg)

include h hbytes heq

theorem Headed.read_part (hlt : (part ++ bytes).length < header.length) :
    readCallback v (.reading part) .success bytes =
      if maxMsgSize ≤ (part ++ bytes).length then none
      else some (.more (.reading (part ++ bytes))) := by
  have hpart : part ++ bytes <+: header :=
    prefix_of_prefix_length_le ⟨rest, heq⟩ (prefix_append header msg) hlt.le
  rw [readCallback, if_neg (by simp), if_neg (by simp [Connection.reading]), if_neg (h.not_delegation hbytes heq)]
  dsimp only [Connection.reading]
  rw [h.find_part hpart hlt]

theorem Headed.read_header {payload : List Char} (hpayload : part ++ bytes = header ++ payload) :
    readCallback v (.reading part) .success bytes =
      if maxMsgSize ≤ (part ++ bytes).length then none else some (v.outcome header payload) := by
  obtain ⟨before, hfind, hlen⟩ := h.find (cstr payload)
  rw [readCallback, if_neg (by simp), if_neg (by simp [Connection.reading]), if_neg (h.not_delegation hbytes heq)]
  dsimp only [Connection.reading]
  rw [hpayload, cstr_append h.nul, hfind, ReadVariant.outcome]
  dsimp only
  rw [hlen, drop_left]
  cases v.parseHeader (header ++ payload) <;> rfl

end Step

/-- The bytes behind the header are never counted: without all of them the message stays where it is. -/
theorem runReads_stuck {c : Connection} (hheader : c.gotHeader) (hlt : c.buf.length < c.payloadLength) :
    ∀ reads, runReads (readCallback v) c reads = some (.more c, [])
  | [] => rfl
  | bytes :: reads => by
    have hread : readCallback v c .success bytes = some (.more c) := by
      rw [readCallback, if_neg (by simp), if_pos hheader, readPayload, if_pos hlt]
    rw [runReads_cons, hread]
    exact runReads_stuck hheader hlt reads

/-- The last of the reads brings more than the payload. -/
def LastReadCovers (reads : List (List Char)) (msg : List Char) : Prop := ∃ last ∈ reads.getLast?, msg.length < last.length

variable {reads : List (List Char)}

/-- The reads up to the one that completes the header, with a part of the payload. -/
theorem Headed.run_eq (h : Headed header) (hlt : part.length < header.length)
    (heq : part ++ reads.flatten = header ++ msg) (hne : ∀ r ∈ reads, r ≠ []) :
    ∃ payload bytes rest, payload ++ rest.flatten = msg ∧ payload.length < bytes.length ∧ bytes :: rest <:+ reads ∧
      runReads (readCallback v) (.reading part) reads = if maxMsgSize ≤ (header ++ payload).length then none
        else (v.outcome header payload).goOn (readCallback v) rest := by
  induction reads generalizing part with
  | nil =>
    have hlen := congrArg List.length heq
    simp at hlen
    omega
  | cons bytes reads ih =>
    have hbytes := hne bytes (by simp)
    rw [flatten_cons, ← append_assoc] at heq
    rw [runReads_cons]
    rcases Nat.lt_or_ge (part ++ bytes).length header.length with hpart | hfull
    · obtain ⟨payload, last, rest, hmsg, hlast, hsuffix, hrun⟩ := ih hpart heq fun r hr => hne r (by simp [hr])
      refine ⟨payload, last, rest, hmsg, hlast, hsuffix.trans (suffix_cons _ _), ?_⟩
      rw [h.read_part hbytes heq hpart]
      by_cases hroom : maxMsgSize ≤ (part ++ bytes).length
      · rw [if_pos hroom, if_pos (by rw [length_append]; omega)]
        rfl
      · rw [if_neg hroom]
        exact hrun
    · obtain ⟨payload, hpayload⟩ := prefix_of_prefix_length_le (prefix_append header msg)
        (show part ++ bytes <+: header ++ msg from ⟨_, heq⟩) hfull
      have hlen := congrArg List.length hpayload
      rw [length_append, length_append] at hlen
      rw [h.read_header hbytes heq hpayload.symm, ← hpayload]
      rw [← hpayload, append_assoc] at heq
      refine ⟨payload, bytes, reads, append_cancel_left heq, by omega, suffix_rfl, ?_⟩
      split <;> rfl

section Delivers

variable (h : Headed header) (heq : reads.flatten = header ++ msg) (hne : ∀ r ∈ reads, r ≠ [])

include h heq hne

theorem Headed.delivers_iff (hparse : ∀ payload, ∃ uri, v.parseHeader (header ++ payload) = .ok (msg.length, uri)) :
    Delivers (readCallback v) reads msg ↔ LastReadCovers reads msg ∧ reads.flatten.length < maxMsgSize := by
  obtain ⟨payload, bytes, rest, rfl, hlt, hsuffix, hrun⟩ :=
    h.run_eq (v := v) (show [].length < _ from length_pos_of_ne_nil h.ne_nil) heq hne
  obtain ⟨uri, hparsed⟩ := hparse payload
  have hlast : reads.getLast? = (bytes :: rest).getLast? := by
    obtain ⟨pre, rfl⟩ := hsuffix
    rw [getLast?_append_of_ne_nil _ (cons_ne_nil _ _)]
  rw [ReadVariant.outcome, hparsed] at hrun
  dsimp only [readPayload] at hrun
  rw [Delivers, Connection.new, hrun, LastReadCovers, hlast, heq]
  cases rest with
  | nil =>
    -- all is there
    rw [flatten_nil, append_nil, if_neg (lt_irrefl _)]
    split
    · next hlong => exact iff_of_false (by simp) fun hr => absurd hr.2 (Nat.not_lt.2 hlong)
    · next hroom =>
      exact iff_of_true ⟨payload, uri, rfl, take_length⟩ ⟨⟨bytes, rfl, hlt⟩, Nat.lt_of_not_le hroom⟩
  | cons next rest =>
    have hnext : 0 < next.length := length_pos_of_ne_nil (hne next (hsuffix.subset (by simp)))
    have hmore : payload.length < (payload ++ (next :: rest).flatten).length := by simp; omega
    rw [if_pos hmore, ReadOutcome.goOn, runReads_stuck rfl hmore]
    refine iff_of_false (by split <;> simp) ?_
    rintro ⟨⟨last, hlast, hcovers⟩, -⟩
    rw [getLast?_cons_cons] at hlast
    have hle := (sublist_flatten_of_mem (mem_of_getLast? hlast)).length_le
    rw [length_append] at hcovers
    omega

theorem Headed.not_delivers (hparse : ∀ payload, ∃ e, v.parseHeader (header ++ payload) = .error e)
    (hfailure : ∀ c e, v.failure c e = .closed) : ¬ Delivers (readCallback v) reads msg := by
  obtain ⟨payload, bytes, rest, -, -, -, hrun⟩ :=
    h.run_eq (v := v) (show [].length < _ from length_pos_of_ne_nil h.ne_nil) heq hne
  obtain ⟨e, hparsed⟩ := hparse payload
  rintro ⟨buf, uri, hcall, -⟩
  rw [Connection.new, hrun, ReadVariant.outcome, hparsed] at hcall
  dsimp only at hcall
  rw [hfailure] at hcall
  split at hcall <;> cases hcall

end Delivers

end Run

/-! ## Requests and replies -/

/-- A line of a header: it is not empty, and nothing in it ends it. -/
structure LineOk (l : List Char) : Prop where
  ne_nil : l ≠ []
  cr : '\r' ∉ l
  nul : '\x00' ∉ l

theorem headed_of_lines {lines : List (List Char)} (hne : lines ≠ []) (hlines : ∀ l ∈ lines, LineOk l)
    (hfirst : ∀ l ∈ lines.head?, ∀ c ∈ l.head?, c ≠ '0' ∧ c ≠ 'D') :
    Headed (lines.flatMap (· ++ crlf) ++ crlf) where
  first := by
    obtain ⟨l, ls, rfl⟩ := exists_cons_of_ne_nil hne
    rw [flatMap_cons, append_assoc, append_assoc]
    exact forall_head?_append (hlines l (by simp)).ne_nil (hfirst l rfl) _
  nul := by
    have hl : ∀ l ∈ lines, '\x00' ∉ l := fun l hl => (hlines l hl).nul
    simpa [crlf] using hl
  find rest := strstr_header rest hne fun l hl => ⟨(hlines l hl).ne_nil, (hlines l hl).cr⟩

/-- The lines of the header of a request. -/
def requestLines (path host : List Char) (msgsize : Nat) : List (List Char) :=
  [httpRequestLine.text path, httpHostLine.text host, httpContentType, httpContentLengthLine.text (printInt msgsize)]

theorem requestHeader_eq (path host : List Char) (msgsize : Nat) :
    requestHeader path host msgsize = (requestLines path host msgsize).flatMap (· ++ crlf) ++ crlf := by
  simp [requestHeader, requestLines, HttpLine.print, httpContentTypeLine]

/-- A word: it is not empty and has no white space, and no null character. -/
structure Word (s : List Char) : Prop where
  ne_nil : s ≠ []
  isspace : ∀ c ∈ s, Lib.isspace c = false
  nul : '\x00' ∉ s

theorem Word.not_mem {s : List Char} (h : Word s) {c : Char} (hc : Lib.isspace c) : c ∉ s := fun hmem => by
  rw [h.isspace c hmem] at hc
  cases hc

section Lines

variable {l : HttpLine} {ds : List Directive} {rest : List Char}

theorem HttpLine.behind_ne_nil (l : HttpLine) : l.behind ++ crlf ≠ [] := by simp [crlf]

theorem HttpLine.head_print {P : Char → Prop} (hne : l.before ≠ []) (h : ∀ c ∈ l.before.head?, P c)
    (arg rest : List Char) : ∀ c ∈ (l.print arg ++ rest).head?, P c := by
  rw [print, text, append_assoc, append_assoc, append_assoc]
  exact forall_head?_append hne h _

theorem scanf_line_string {arg : List Char} (harg : Word arg) (hbehind : ∀ c ∈ (l.behind ++ crlf).head?, isspace c)
    (hrest : ∀ c ∈ rest.head?, isspace c = false) :
    scanf (l.scan .string ++ ds) (l.print arg ++ rest) = (.str arg :: (scanf ds rest).1, (scanf ds rest).2) := by
  have hword : ∀ c ∈ (arg ++ (l.behind ++ crlf ++ rest)).head?, isspace c = false :=
    forall_head?_append harg.ne_nil (fun c hc => harg.isspace c (mem_of_mem_head? hc)) _
  have htext : l.print arg ++ rest = l.before ++ (arg ++ (l.behind ++ crlf ++ rest)) := by
    simp [HttpLine.print, HttpLine.text]
  rw [htext, HttpLine.scan, append_assoc, scanf_literal _ hword, cons_append,
    scanf_string harg.ne_nil harg.isspace (forall_head?_append l.behind_ne_nil hbehind _), scanf_literal _ hrest]

theorem scanf_line_int {n : Nat} (hn : n < 2 ^ 63) (hbehind : ∀ c ∈ (l.behind ++ crlf).head?, c.isDigit = false)
    (behind : List Char) :
    (scanf (l.scan (.int none 64) ++ literal behind) (l.print (printInt n) ++ rest)).1 = [.int n] := by
  have hvalue : (Numeral.ofNat n).value = n := Numeral.value_ofNat n
  have hdigits : ∀ c ∈ ((Numeral.ofNat n).digits ++ (l.behind ++ crlf ++ rest)).head?, isspace c = false :=
    forall_head?_append (Numeral.ofNat n).digits_ne_nil
      (fun c hc => isspace_of_isDigit ((Numeral.ofNat n).isDigit c (mem_of_mem_head? hc))) _
  have htext : l.print (printInt n) ++ rest = l.before ++ ((Numeral.ofNat n).digits ++ (l.behind ++ crlf ++ rest)) := by
    simp [HttpLine.print, HttpLine.text, printInt]
  have hbits : Int.bmod (Numeral.ofNat n).value (2 ^ 64) = (Numeral.ofNat n).value := by
    rw [hvalue]
    exact Int.bmod_eq_of_le (by omega) (by norm_num; omega)
  rw [htext, HttpLine.scan, append_assoc, scanf_literal _ hdigits, cons_append,
    scanf_int _ (forall_head?_append l.behind_ne_nil hbehind _) (by rw [hvalue]; exact hn) hbits, hvalue,
    ← literal_append]
  dsimp only
  rw [scanf_literal_values]

end Lines

theorem toNat_emod_of_lt {n : Nat} (hn : n < 2 ^ 63) : ((n : Int) % 2 ^ 64).toNat = n := by omega

theorem HttpLine.text_ok {l : HttpLine} (hbefore : LineOk l.before) (hcr : '\r' ∉ l.behind) (hnul : '\x00' ∉ l.behind)
    {arg : List Char} (hargcr : '\r' ∉ arg) (hargnul : '\x00' ∉ arg) : LineOk (l.text arg) := by
  refine ⟨?_, ?_, ?_⟩
  · simp [text, hbefore.ne_nil]
  · simp [text, hbefore.cr, hcr, hargcr]
  · simp [text, hbefore.nul, hnul, hargnul]

theorem contentLength_ok (n : Nat) : LineOk (httpContentLengthLine.text (printInt n)) :=
  HttpLine.text_ok ⟨by decide, by decide, by decide⟩ (by decide) (by decide)
    (not_mem_printInt rfl (by decide) n) (not_mem_printInt rfl (by decide) n)

theorem contentType_ok : LineOk httpContentType := ⟨by decide, by decide, by decide⟩

variable {path host : List Char}

theorem requestLines_ok (hpath : ∀ c ∈ path, isspace c = false) (hnul : '\x00' ∉ path)
    (hhost : Word host) (n : Nat) : ∀ l ∈ requestLines path host n, LineOk l := by
  have hcr : '\r' ∉ path := fun hmem => by cases hpath _ hmem
  have hrequest : LineOk (httpRequestLine.text path) :=
    HttpLine.text_ok ⟨by decide, by decide, by decide⟩ (by decide) (by decide) hcr hnul
  have hhost' : LineOk (httpHostLine.text host) :=
    HttpLine.text_ok ⟨by decide, by decide, by decide⟩ (by decide) (by decide) (hhost.not_mem rfl) hhost.nul
  simp only [requestLines, forall_mem_cons]
  exact ⟨hrequest, hhost', contentType_ok, contentLength_ok n, by simp⟩

theorem requestHeader_headed (hpath : ∀ c ∈ path, isspace c = false) (hnul : '\x00' ∉ path)
    (hhost : Word host) (n : Nat) : Headed (requestHeader path host n) := by
  rw [requestHeader_eq]
  refine headed_of_lines (by simp [requestLines]) (requestLines_ok hpath hnul hhost n) fun l hl c hc => ?_
  cases hl
  cases hc
  decide

theorem parseRequestHeader_requestHeader {n : Nat} (hpath : Word path) (hhost : Word host)
    (hn : n < 2 ^ 63) (payload : List Char) :
    requestVariant.parseHeader (requestHeader path host n ++ payload) = .ok (n, some path) := by
  have hnul := (requestHeader_headed hpath.isspace hpath.nul hhost n).nul
  have htext : requestHeader path host n ++ cstr payload = httpRequestLine.print path ++ (httpHostLine.print host ++
      (httpContentTypeLine ++ (httpContentLengthLine.print (printInt n) ++ (crlf ++ cstr payload)))) := by
    simp [requestHeader]
  unfold requestVariant parseRequestHeader
  dsimp only
  rw [cstr_append hnul, htext, append_assoc, append_assoc, append_assoc,
    scanf_line_string hpath (by decide) (HttpLine.head_print (by decide) (by decide) _ _),
    scanf_line_string hhost (by decide) (forall_head?_append (by decide) (by decide) _),
    scanf_literal _ (HttpLine.head_print (by decide) (by decide) _ _), scanf_line_int hn (by decide)]
  dsimp only
  rw [toNat_emod_of_lt hn]

theorem parseRequestHeader_nil (host : List Char) (n : Nat) (payload : List Char) :
    requestVariant.parseHeader (requestHeader [] host n ++ payload) = .error .protocolFailed := by
  rfl

theorem printReplyLine_ok : printReplyLine 200 (lookupReason 200).toList = "HTTP/1.1 200 OK".toList ++ crlf := by decide

theorem replyHeader_headed (n : Nat) : Headed (replyHeader 200 n) := by
  have heq : replyHeader 200 n = ["HTTP/1.1 200 OK".toList, httpContentType,
      httpContentLengthLine.text (printInt n)].flatMap (· ++ crlf) ++ crlf := by
    rw [replyHeader, printReplyLine_ok, httpContentTypeLine, HttpLine.print]
    simp only [flatMap_cons, flatMap_nil, append_nil, append_assoc]
  rw [heq]
  refine headed_of_lines (by simp) ?_ fun l hl c hc => ?_
  · simp only [forall_mem_cons]
    exact ⟨⟨by decide, by decide, by decide⟩, contentType_ok, contentLength_ok n, by simp⟩
  · cases hl
    cases hc
    decide

theorem scanf_replyLine {rest : List Char} (hrest : ∀ c ∈ rest.head?, isspace c = false) :
    scanf scanReplyLine ("HTTP/1.1 200 OK".toList ++ crlf ++ rest) = ([.int 200, .str "OK".toList], rest) := by
  have hnumber : scanInt (-2 ^ 63) (2 ^ 63 - 1) ['2', '0', '0'] = some (200, []) :=
    scanInt_printInt (v := 200) (by norm_num) (by norm_num)
  have hcode : (Directive.int (some 3) 32).scan ('2' :: '0' :: '0' :: ' ' :: 'O' :: 'K' :: (crlf ++ rest)) =
      some (some (.int 200), ' ' :: 'O' :: 'K' :: (crlf ++ rest)) := by
    have hword : ('2' :: '0' :: '0' :: ' ' :: 'O' :: 'K' :: (crlf ++ rest)).dropWhile isspace =
        '2' :: '0' :: '0' :: ' ' :: 'O' :: 'K' :: (crlf ++ rest) := rfl
    have hbits : Int.bmod 200 (2 ^ 32) = 200 := by decide
    rw [Directive.scan, hword]
    simp only [limit, beyond, take_succ_cons, take_zero, drop_succ_cons, drop_zero, hnumber, hbits,
      nil_append]
  have hreason : (Directive.set none true fun c => c ≠ '\r' && c ≠ '\n').scan ('O' :: 'K' :: (crlf ++ rest)) =
      some (some (.str "OK".toList), crlf ++ rest) := rfl
  have hline : "HTTP/1.1 200 OK".toList ++ crlf ++ rest =
      "HTTP/1.1 ".toList ++ ('2' :: '0' :: '0' :: ' ' :: 'O' :: 'K' :: (crlf ++ rest)) := rfl
  have hspace : ' ' :: 'O' :: 'K' :: (crlf ++ rest) = [' '] ++ 'O' :: 'K' :: (crlf ++ rest) := rfl
  have hend : scanf (literal crlf ++ []) (crlf ++ rest) = ([], rest) := scanf_literal crlf hrest
  rw [append_nil] at hend
  rw [hline, scanReplyLine, scanf_literal _ (by simp; decide), scanf_cons hcode, hspace, scanf_literal _ (by simp; decide),
    scanf_cons hreason, hend]
  rfl

theorem parseReplyHeader_replyHeader {n : Nat} (hn : n < 2 ^ 63) (payload : List Char) :
    replyVariant.parseHeader (replyHeader 200 n ++ payload) = .ok (n, none) := by
  have htext : replyHeader 200 n ++ cstr payload = "HTTP/1.1 200 OK".toList ++ crlf ++ (httpContentTypeLine ++
      (httpContentLengthLine.print (printInt n) ++ (crlf ++ cstr payload))) := by
    rw [replyHeader, printReplyLine_ok]
    simp only [append_assoc]
  have hlength : (scanf (httpContentLengthLine.scan (.int none 64) ++ literal [])
      (httpContentLengthLine.print (printInt n) ++ (crlf ++ cstr payload))).1 = [.int n] := scanf_line_int hn (by decide) []
  unfold replyVariant parseReplyHeader
  dsimp only
  rw [cstr_append (replyHeader_headed n).nul, htext, scanf_replyLine (forall_head?_append (by decide) (by decide) _)]
  dsimp only
  rw [if_pos rfl, scanf_literal _ (HttpLine.head_print (by decide) (by decide) _ _)]
  rw [literal, map_nil, append_nil] at hlength
  rw [hlength]
  dsimp only
  rw [toNat_emod_of_lt hn]

theorem HostText.word {host : List Char} (h : HostText host) : Word host := by
  have hspace : ∀ c, isspace c → ¬ (isHostChar c ∨ isIpv6Char c) := by
    intro c hc
    have hcases : c = ' ' ∨ 9 ≤ c.toNat ∧ c.toNat ≤ 13 := by simpa [isspace] using hc
    rcases hcases with rfl | ⟨hlo, hhi⟩
    · decide
    · rw [← Char.ofNat_toNat c]
      interval_cases c.toNat <;> decide
  refine ⟨h.ne_nil, fun c hc => ?_, fun hmem => absurd (h.chars _ hmem) (by decide)⟩
  by_contra hne
  exact hspace c (by simpa using hne) (h.chars c hc)

theorem frameRequest_eq {fuel : Nat} {url msg framed : List Char} (h : frameRequest fuel url msg = some (.ok framed)) :
    ∃ parsed path host, (urlParse fuel url).run = some (.ok parsed) ∧ parsed.urlPath = some path ∧ '\x00' ∉ path ∧
      Word host ∧ framed = requestHeader path host msg.length ++ msg := by
  unfold frameRequest at h
  cases hrun : (urlParse fuel url).run with
  | none => rw [hrun] at h; cases h
  | some r =>
    rw [hrun] at h
    cases r with
    | error e => cases h
    | ok parsed =>
      have htext := urlParse_text parsed hrun
      cases hpath : parsed.urlPath with
      | none => simp [hpath] at h
      | some path =>
        cases hhost : parsed.host with
        | none => simp [hpath, hhost] at h
        | some host =>
          simp only [hpath, hhost, Option.bind_eq_bind, Option.bind_some, Option.pure_def, Option.some.injEq,
            Except.ok.injEq] at h
          exact ⟨parsed, path, host, rfl, hpath, htext.path path hpath, (htext.host host hhost).word, h.symm⟩

/-- The parts of a framed request: its header is accepted, with the length of the message and the path of the URL, and
ends where the first empty line does, exactly if the path is not empty and has no white space. -/
theorem frameRequest_unambiguous_iff {fuel : Nat} {url msg framed path : List Char} {parsed : Url}
    (hsize : msg.length < 2 ^ 63) (hparsed : (urlParse fuel url).run = some (.ok parsed))
    (hpath : parsed.urlPath = some path) (hframed : frameRequest fuel url msg = some (.ok framed)) :
    (parseRequestHeader framed = .ok (msg.length, some path) ∧
      ∃ before, strstr (crlf ++ crlf) framed = some (before, msg)) ↔ path ≠ [] ∧ ∀ c ∈ path, isspace c = false := by
  obtain ⟨parsed', path', host, hparsed', hpath', hnul, hhost, rfl⟩ := frameRequest_eq hframed
  obtain rfl : parsed = parsed' := by simpa [hparsed] using hparsed'
  obtain rfl : path = path' := by simpa [hpath] using hpath'
  constructor
  · rintro ⟨hparse, -⟩
    unfold parseRequestHeader at hparse
    dsimp only at hparse
    split at hparse
    · next values uri name n hvalues =>
      simp only [Except.ok.injEq, Prod.mk.injEq, Option.some.injEq] at hparse
      rw [hparse.2] at hvalues
      simp only [HttpLine.scan, append_assoc] at hvalues
      rcases scanf_literal_cases httpRequestLine.before _ with h | ⟨s', h⟩
      · rw [h] at hvalues
        cases hvalues
      · exact (scanf_string_value (h.symm.trans hvalues)).1
    · cases hparse
  · rintro ⟨hne, hspace⟩
    obtain ⟨before, hfind, -⟩ := (requestHeader_headed hspace hnul hhost msg.length).find msg
    exact ⟨parseRequestHeader_requestHeader ⟨hne, hspace, hnul⟩ hhost hsize msg, before, hfind⟩

theorem frameRequest_unambiguous_root : parseRequestHeader (requestHeader ['/', 'b'] ['a'] 2 ++ ['h', 'i']) =
    .ok (2, some ['/', 'b']) := by
  have hurl : (urlParse 20 "http://a/b".toList).run = some (.ok
      { scheme := "http".toList, schemeType := .http, host := some ['a'], urlPath := some ['/', 'b'] }) := rfl
  have hframed : frameRequest 20 "http://a/b".toList ['h', 'i'] =
      some (.ok (requestHeader ['/', 'b'] ['a'] 2 ++ ['h', 'i'])) := by
    rw [frameRequest, hurl]
    rfl
  exact ((frameRequest_unambiguous_iff (by decide) hurl rfl hframed).2 ⟨by decide, by decide⟩).1

/-- The path `/ b` is read up to its space. -/
theorem frameRequest_space : frameRequest 30 "http://a/%20b".toList ['h', 'i'] =
      some (.ok (requestHeader ['/', ' ', 'b'] ['a'] 2 ++ ['h', 'i'])) ∧
    parseRequestHeader (requestHeader ['/', ' ', 'b'] ['a'] 2 ++ ['h', 'i']) = .error .protocolFailed := by
  decide +kernel

/-- Every read is taken, and the message arrives, exactly if the last read has the end of the header in it and the
buffer has room for the terminator. A request also needs a path. -/
theorem gramRead_delivers_iff {msg : List Char} (hsize : msg.length < 2 ^ 63) {reads : List (List Char)}
    (hne : ∀ r ∈ reads, r ≠ []) :
    (∀ {fuel : Nat} {url : List Char} {parsed : Url} {path : List Char}, (urlParse fuel url).run = some (.ok parsed) →
      parsed.urlPath = some path → (∀ c ∈ path, isspace c = false) →
      frameRequest fuel url msg = some (.ok reads.flatten) →
      (Delivers readRequestCallback reads msg ↔
        path ≠ [] ∧ LastReadCovers reads msg ∧ reads.flatten.length < maxMsgSize)) ∧
    (msg ≠ [] → reads.flatten = frameReply 200 msg →
      (Delivers readReplyCallback reads msg ↔ LastReadCovers reads msg ∧ reads.flatten.length < maxMsgSize)) := by
  constructor
  · intro fuel url parsed path hparsed hpath hspace hframed
    obtain ⟨parsed', path', host, hparsed', hpath', hnul, hhost, hheader⟩ := frameRequest_eq hframed
    obtain rfl : parsed = parsed' := by simpa [hparsed] using hparsed'
    obtain rfl : path = path' := by simpa [hpath] using hpath'
    have hheaded := requestHeader_headed hspace hnul hhost msg.length
    by_cases hempty : path = []
    · subst hempty
      have hparse : ∀ payload, ∃ e, requestVariant.parseHeader (requestHeader [] host msg.length ++ payload) = .error e :=
        fun payload => ⟨.protocolFailed, parseRequestHeader_nil _ msg.length payload⟩
      exact iff_of_false (hheaded.not_delivers hheader hne hparse fun _ _ => rfl) (by simp)
    · have hparse : ∀ payload, ∃ uri, requestVariant.parseHeader (requestHeader path host msg.length ++ payload) =
          .ok (msg.length, uri) :=
        fun payload => ⟨some path, parseRequestHeader_requestHeader ⟨hempty, hspace, hnul⟩ hhost hsize payload⟩
      rw [and_iff_right hempty]
      exact hheaded.delivers_iff hheader hne hparse
  · intro hmsg hframed
    rw [frameReply, if_neg hmsg] at hframed
    have hparse : ∀ payload, ∃ uri, replyVariant.parseHeader (replyHeader 200 msg.length ++ payload) =
        .ok (msg.length, uri) := fun payload => ⟨none, parseReplyHeader_replyHeader hsize payload⟩
    exact (replyHeader_headed msg.length).delivers_iff hframed hne hparse

/-- A message of two bytes that comes in two reads, the first of which ends inside of the header. -/
theorem gramRead_delivers_two_reads :
    Delivers readRequestCallback
      [(requestHeader ['/', 'b'] ['a'] 2).take 9, (requestHeader ['/', 'b'] ['a'] 2).drop 9 ++ ['h', 'i']] ['h', 'i'] ∧
    Delivers readReplyCallback [(replyHeader 200 2).take 9, (replyHeader 200 2).drop 9 ++ ['h', 'i']] ['h', 'i'] := by
  have hurl : (urlParse 20 "http://a/b".toList).run = some (.ok
      { scheme := "http".toList, schemeType := .http, host := some ['a'], urlPath := some ['/', 'b'] }) := rfl
  have hcut : ∀ header : List Char, [header.take 9, header.drop 9 ++ ['h', 'i']].flatten = header ++ ['h', 'i'] := by
    simp [← append_assoc]
  constructor
  · refine ((gramRead_delivers_iff (by decide) (by decide)).1 hurl rfl (by decide) ?_).2
      ⟨by decide, ⟨_, rfl, by decide⟩, by decide⟩
    rw [hcut, frameRequest, hurl]
    rfl
  · exact ((gramRead_delivers_iff (by decide) (by decide)).2 (by decide) (hcut _)).2 ⟨⟨_, rfl, by decide⟩, by decide⟩

/-- A reply of two bytes, cut in front of the last one: that byte is read and not counted. -/
theorem gramRead_not_delivered :
    [replyHeader 200 2 ++ ['a'], ['b']].flatten = frameReply 200 ['a', 'b'] ∧
    ¬ Delivers readReplyCallback [replyHeader 200 2 ++ ['a'], ['b']] ['a', 'b'] := by
  have hframe : [replyHeader 200 2 ++ ['a'], ['b']].flatten = replyHeader 200 2 ++ ['a', 'b'] := by simp
  have hreply : frameReply 200 ['a', 'b'] = replyHeader 200 2 ++ ['a', 'b'] := if_neg (by decide)
  refine ⟨hframe.trans hreply.symm, fun h => ?_⟩
  have hparse : ∀ payload, ∃ uri, replyVariant.parseHeader (replyHeader 200 2 ++ payload) = .ok (2, uri) :=
    fun payload => ⟨none, parseReplyHeader_replyHeader (by decide) payload⟩
  obtain ⟨⟨last, hlast, hlt⟩, -⟩ := ((replyHeader_headed 2).delivers_iff hframe (by simp) hparse).1 h
  cases hlast
  simp at hlt

end Globus
