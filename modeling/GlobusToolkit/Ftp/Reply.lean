/-
Reading replies from the control channel (gridftp/control/source/globus_ftp_control_client.c). What is read is appended to
the response buffer; the end of a reply is looked for there, a null character is put behind the reply, and the rest is copied
back from the read buffer. The functions of the security library are parameters, memory is never short, lengths are natural
numbers, and the control connection is not being closed.
-/
import GlobusToolkit.Ftp.Radix
import GlobusToolkit.Lib.Lines
import GlobusToolkit.Lib.Machine

namespace Globus.Ftp.Control

open Lib List

/-! ## The response buffer -/

/-- `globus_ftp_control_response_class_t`. -/
inductive ResponseClass where
  | positivePreliminary
  | positiveCompletion
  | positiveIntermediate
  | transientNegativeCompletion
  | permanentNegativeCompletion
  | unknown
  deriving DecidableEq

/-- `globus_ftp_control_response_t`, with the memory of the buffer. -/
structure Response where
  code : Int
  responseClass : ResponseClass
  buffer : List Char
  bufferSize : Nat
  length : Nat

/-- The character at an index of the buffer. A line that is shorter than a code makes the search look behind its end, for a
space that counts only behind three digits. -/
def Response.at (r : Response) (i : Nat) : Char := r.buffer.getD i '\x00'

/-- `memcpy` into a buffer. -/
def memcpy (buffer : List Char) (i : Nat) (src : List Char) : List Char :=
  buffer.take i ++ src ++ buffer.drop (i + src.length)

/-- `malloc`, with what is in the memory. -/
def malloc (junk : Nat → Char) (n : Nat) : List Char := List.ofFn fun i : Fin n => junk i

/-- The part of `globus_l_ftp_control_read_cb` that stores what was read; the buffer is doubled, or 100000 bytes are added
to a large one. -/
def Response.store (junk : Nat → Char) (r : Response) (buf : List Char) : Response :=
  if buf.length < r.bufferSize - r.length then
    { r with buffer := memcpy r.buffer r.length buf, length := r.length + buf.length }
  else
    let newSize := max (r.length + buf.length + 1) (if r.length < 1000000 then r.length * 2 else r.length + 100000)
    { r with
      buffer := memcpy (memcpy (malloc junk newSize) 0 (r.buffer.take r.length)) r.length buf
      bufferSize := newSize
      length := r.length + buf.length }

/-! ## The end of a reply -/

/-- `globus_l_ftp_control_get_current_line_start`. -/
def Response.currentLineStart (r : Response) : Nat → Nat
  | 0 => 0
  | 1 => 0
  | index + 2 => if r.at (index + 1) = '\n' ∧ r.at index = '\r' then index + 2 else r.currentLineStart (index + 1)

/-- Three digits, from an index on. -/
def Response.digitsAt (r : Response) (i : Nat) : Bool := (r.at i).isDigit && (r.at (i + 1)).isDigit && (r.at (i + 2)).isDigit

/-- The loop of `globus_l_ftp_control_check_final_line_fast`. -/
def Response.finalLineLoop (r : Response) : Nat → Nat → Nat → Bool
  | 0, _, _ => false
  | fuel + 1, i, lineStart =>
    if i < r.length - 1 then
      if r.at i = '\r' ∧ r.at (i + 1) = '\n' then
        if i - lineStart ≥ 4 ∧ r.at (lineStart + 3) = ' ' ∧ r.digitsAt lineStart then true
        else r.finalLineLoop fuel (i + 2) (i + 2)
      else r.finalLineLoop fuel (i + 1) lineStart
    else false

/-- `globus_l_ftp_control_check_final_line_fast`. -/
def Response.checkFinalLineFast (r : Response) (hint : Nat) : Bool :=
  r.finalLineLoop r.length (r.currentLineStart hint) (r.currentLineStart hint)

/-- What the search for the end of a reply has found: a text that is no reply, nothing, or where the last line begins and
where it ends. -/
inductive Search where
  | notReply
  | incomplete
  | found (start stop : Nat)

/-- The loop of `globus_l_ftp_control_end_of_reply`, as often as there are characters, with the index behind `last`. -/
def Response.search (r : Response) : Nat → Nat → Nat → Bool → Search
  | 0, _, _, _ => .incomplete
  | fuel + 1, current, start, first =>
    if r.at (current - 1) = '\r' ∧ r.at current = '\n' then
      if first ∧ (current < 5 ∨ ¬ (r.digitsAt start ∧ (r.at (start + 3) = ' ' ∨ r.at (start + 3) = '-'))) then .notReply
      else if r.at (start + 3) = ' ' ∧ r.digitsAt start then .found start (current + 1)
      else r.search fuel (current + 1) (current + 1) false
    else r.search fuel (current + 1) start first

/-- The class by the first digit of the code. -/
def classOf : Char → ResponseClass
  | '1' => .positivePreliminary
  | '2' => .positiveCompletion
  | '3' => .positiveIntermediate
  | '4' => .transientNegativeCompletion
  | '5' => .permanentNegativeCompletion
  | _ => .unknown

/-- The end of `globus_l_ftp_control_end_of_reply`: the null character, the code and the class. -/
def Response.setCode (r : Response) (start found : Nat) : Response :=
  let r := { r with buffer := r.buffer.set (found - 1) '\x00' }
  { r with
    code := ((scanInt (-2 ^ 31) (2 ^ 31 - 1) (cstr (r.buffer.drop start))).map Prod.fst).getD r.code
    responseClass := classOf (r.at start) }

/-- Room is made for the null character behind a reply. -/
def Response.makeRoom (junk : Nat → Char) (r : Response) (found : Nat) : Response :=
  let buffer := if r.bufferSize < r.length + 1 then r.buffer ++ malloc junk 1 else r.buffer
  { r with
    bufferSize := max r.bufferSize (r.length + 1)
    buffer := memcpy buffer (found + 1) ((buffer.drop found).take (r.length - found))
    length := r.length + 1 }

/-- The security library: `gss_unwrap`. -/
abbrev GssUnwrap := List Byte → Option (List Byte)

/-- A token without the null character at its end. -/
def unterminated (token : List Byte) : List Byte := if token.getLast? = some 0 then token.dropLast else token

/-- The lines of a protected reply are decoded: the texts of the tokens, from the one whose line begins at `start` on. -/
def Response.unwrapLines (gssUnwrap : GssUnwrap) (found : Nat) :
    Nat → Nat → Nat → Response → Option (List (List Byte)) × Response
  | 0, _, _, r => (some [], r)
  | fuel + 1, current, start, r =>
    if current < found then
      if r.at current = '\n' then
        let r := { r with buffer := r.buffer.set (current - 1) '\x00' }
        match radixDecode 0 0 (r.buffer.drop (start + 4)) with
        | .error _ => (none, r)
        | .ok wrapped =>
          match gssUnwrap wrapped with
          | none => (none, r)
          | some token =>
            let rest := unwrapLines gssUnwrap found fuel (current + 1) (current + 1) r
            (rest.1.map (unterminated token :: ·), rest.2)
      else unwrapLines gssUnwrap found fuel (current + 1) start r
    else (some [], r)

/-- A protected reply is replaced by what it protects. -/
def Response.unwrap (gssUnwrap : GssUnwrap) (junk : Nat → Char) (r : Response) (found : Nat) : Option Nat × Response :=
  match r.unwrapLines gssUnwrap found found 0 0 with
  | (none, r) => (none, r)
  | (some tokens, r) =>
    let text := tokens.flatten.map fun b => Char.ofNat b.toNat
    let rest := (r.buffer.drop found).take (r.length - found)
    let outBuf := malloc junk (max (r.length * 2) (text.length * 4 + rest.length))
    let r := { r with
      buffer := memcpy (memcpy outBuf 0 text) (text.length + 1) rest
      bufferSize := r.length + 4
      length := text.length + 1 + rest.length }
    (some (text.length + 1), r.setCode (text.length - (tokens.getLastD []).length) (text.length + 1))

/-- `globus_l_ftp_control_end_of_reply`: the index behind the reply and its null character, 0 if there is none yet, or an
error, and the response. -/
def Response.endOfReply (gssUnwrap : GssUnwrap) (junk : Nat → Char) (r : Response) (hint : Nat) : Option Nat × Response :=
  if hint ≠ 0 ∧ r.length > hint ∧ ¬ r.checkFinalLineFast hint then (some 0, r)
  else
    match r.search (r.length - 1) 1 0 true with
    | .notReply => (none, r)
    | .incomplete => (some 0, r)
    | .found start found =>
      if r.at start = '6' then r.unwrap gssUnwrap junk found
      else (some (found + 1), (r.makeRoom junk found).setCode start (found + 1))

/-! ## Reading -/

/-- `GLOBUS_FTP_CONTROL_READ_BUFFER_SIZE`. -/
def readBufferSize : Nat := 1000

/-- A call of the callback of a reader: with the response, or with an error. -/
structure Delivery (ρ : Type*) where
  reader : ρ
  response : Option Response

/-- The control connection: the response, the readers that wait, whether a read is registered, and the calls of the
callbacks. -/
structure Connection (ρ : Type*) where
  response : Response
  readers : List ρ
  registered : Bool
  delivered : List (Delivery ρ)

variable {ρ : Type*}

/-- The callback of a reader is called. -/
def Connection.call (c : Connection ρ) (element : ρ) (response : Option Response) : Connection ρ :=
  { c with delivered := c.delivered ++ [⟨element, response⟩] }

/-- The end of `globus_l_ftp_control_read_cb` after an error; `globus_l_ftp_control_read_next` registers the next read. -/
def Connection.returnError (c : Connection ρ) : Connection ρ :=
  match c.readers with
  | [] => c
  | element :: readers => { c.call element none with readers, registered := readers ≠ [] }

/-- What is behind the reply is copied from the read buffer to the beginning of the response buffer. -/
def Response.next (r : Response) (readBuffer : List Char) (left : Nat) : Response :=
  { r with
    buffer := memcpy r.buffer 0 ((readBuffer.drop (readBuffer.length - left)).take left)
    length := left }

section

variable (gssUnwrap : GssUnwrap) (junk : Nat → Char)

/-- The loop of `globus_l_ftp_control_read_cb` over the replies, after `globus_l_ftp_control_end_of_reply` was called. -/
def Connection.readLoop (readBuffer : List Char) : Nat → Connection ρ → Option Nat × Response → Connection ρ
  | 0, c, _ => c
  | _ + 1, c, (none, response) => { c with response }.returnError
  | _ + 1, c, (some 0, response) => { c with response, registered := true }
  | fuel + 1, c, (some (last + 1), response) =>
    match c.readers with
    | [] => c
    | element :: readers =>
      let left := response.length - (last + 1)
      if response.responseClass = .positivePreliminary then
        let next := response.next readBuffer left
        let c := { c.call element (some response) with response := next }
        c.readLoop readBuffer fuel (next.endOfReply gssUnwrap junk 0)
      else
        let response := { response with length := last + 1 }
        let next := response.next readBuffer left
        let c := { c.call element (some response) with response := next, readers }
        if readers = [] then { c with registered := false }
        else c.readLoop readBuffer fuel (next.endOfReply gssUnwrap junk 0)

/-- `globus_l_ftp_control_read_cb`, for a read that failed or one that read something. -/
def Connection.readCb (c : Connection ρ) : Option (List Char) → Connection ρ
  | none => c.returnError
  | some buf =>
    let response := c.response.store junk buf
    { c with response }.readLoop gssUnwrap junk buf (response.length + 1)
      (response.endOfReply gssUnwrap junk (response.length - buf.length))

/-- A read that is registered completes. -/
def Connection.step (c : Connection ρ) (result : Option (List Char)) : Option (Connection ρ) :=
  if c.registered ∧ ∀ buf ∈ result, buf.length ≤ readBufferSize then some (c.readCb gssUnwrap junk result) else none

end

/-- `GLOBUS_I_FTP_CONTROL_BUF_SIZE`. -/
def bufSize : Nat := 200

/-- `globus_l_ftp_control_response_init`. -/
def responseInit (junk : Nat → Char) : Response := ⟨0, .unknown, malloc junk bufSize, bufSize, 0⟩

/-- The connection with its readers; the first of them has registered a read. -/
def Connection.start (junk : Nat → Char) (readers : List ρ) : Connection ρ :=
  ⟨responseInit junk, readers, decide (readers.length ≠ 0), []⟩

/-! ## Replies -/

/-- A line that begins with a code and a space. -/
def isFinalLine : List Char → Bool
  | a :: b :: c :: d :: _ => a.isDigit && b.isDigit && c.isDigit && d = ' '
  | _ => false

/-- A line that begins with a code and a space or a minus sign. -/
def opensReply : List Char → Bool
  | a :: b :: c :: d :: _ => a.isDigit && b.isDigit && c.isDigit && (d = ' ' || d = '-')
  | _ => false

/-- A reply: the lines in front of the last one, and the last one, which is the first that begins with a code and a space. -/
structure Reply where
  front : List (List Char)
  last : List Char
  isLine : ∀ l ∈ front ++ [last], IsLine l
  opens : ∀ l ∈ (front ++ [last]).head?, opensReply l
  notFinal : ∀ l ∈ front, isFinalLine l = false
  final : isFinalLine last

namespace Reply

def lines (r : Reply) : List (List Char) := r.front ++ [r.last]

/-- The lines as they are sent. -/
def text (r : Reply) : List Char := linesText r.lines

def code (r : Reply) : Nat := Nat.ofDigitChars 10 (r.last.take 3) 0

def digit (r : Reply) : Char := r.last.headD '\x00'

end Reply

/-! ## The search -/

/-- The end of a line is at an index. -/
def EndsAt (t : List Char) (i : Nat) : Prop := t.getD i '\x00' = '\r' ∧ t.getD (i + 1) '\x00' = '\n'

namespace Response

variable {r : Response} {l w more : List Char} {front : List (List Char)} {i start fuel : Nat} {first : Bool}

theorem at_add (h : r.buffer.drop i = w) (j : Nat) : r.at (i + j) = w.getD j '\x00' := by
  rw [Response.at, ← h, getD_eq_getElem?_getD, getD_eq_getElem?_getD, getElem?_drop]

/-- The code is looked for in the buffer, and not only in the line. -/
theorem code_iff (r : Response) (start : Nat) :
    (r.at (start + 3) = ' ' ∧ r.digitsAt start ↔ isFinalLine (r.buffer.drop start)) ∧
      (r.digitsAt start ∧ (r.at (start + 3) = ' ' ∨ r.at (start + 3) = '-') ↔ opensReply (r.buffer.drop start)) := by
  have h0 : r.at start = (r.buffer.drop start).getD 0 '\x00' := at_add rfl 0
  have h1 : r.at (start + 1) = (r.buffer.drop start).getD 1 '\x00' := at_add rfl 1
  have h2 : r.at (start + 2) = (r.buffer.drop start).getD 2 '\x00' := at_add rfl 2
  have h3 : r.at (start + 3) = (r.buffer.drop start).getD 3 '\x00' := at_add rfl 3
  rw [digitsAt, h0, h1, h2, h3]
  match r.buffer.drop start with
  | [] | [a] | [a, b] | [a, b, c] => simp [isFinalLine, opensReply]
  | a :: b :: c :: d :: l =>
    simp only [isFinalLine, opensReply, getD_cons_zero, getD_cons_succ, Bool.and_eq_true, Bool.or_eq_true, decide_eq_true_eq]
    tauto

theorem code_append_eol (l more : List Char) :
    isFinalLine (l ++ eol ++ more) = isFinalLine l ∧ opensReply (l ++ eol ++ more) = opensReply l := by
  match l, more with
  | [], [] | [], [_] | [], _ :: _ :: _ | [_], [] | [_], _ :: _ | [_, _], _ | [_, _, _], _ =>
    simp [eol, isFinalLine, opensReply]
  | a :: b :: c :: d :: l, _ => exact ⟨rfl, rfl⟩

theorem length_of_opensReply (h : opensReply l) : 4 ≤ l.length := by
  match l with
  | [] | [a] | [a, b] | [a, b, c] => cases h
  | a :: b :: c :: d :: l => simp

theorem opensReply_of_isFinalLine (h : isFinalLine l) : opensReply l := by
  match l with
  | [] | [a] | [a, b] | [a, b, c] => cases h
  | a :: b :: c :: d :: l =>
    simp only [isFinalLine, Bool.and_eq_true, decide_eq_true_eq] at h
    simp [opensReply, h]

theorem not_endsAt (h : r.buffer.drop start = w ++ more) (hw : IsLine w) (hle : start ≤ i)
    (hlt : i + 1 < start + w.length) : ¬ EndsAt r.buffer i := by
  obtain ⟨k, rfl⟩ := Nat.exists_eq_add_of_le hle
  have hat : ∀ (j : Nat) (hj : j < w.length), r.at (start + j) = w[j] := fun j hj => by
    rw [at_add h, getD_eq_getElem?_getD, getElem?_append_left hj, getElem?_eq_getElem hj, Option.getD_some]
  rintro ⟨hcr, hnl⟩
  have hk : w.drop k = eol ++ w.drop (k + 2) := by
    rw [drop_eq_getElem_cons (by omega), drop_eq_getElem_cons (by omega), ← hat k, ← hat (k + 1)]
    exact congrArg₂ (fun c d => c :: d :: w.drop (k + 2)) hcr hnl
  exact hw ⟨w.take k, w.drop (k + 2), by rw [append_assoc, ← hk, take_append_drop]⟩

theorem not_endsAt_line (h : r.buffer.drop start = l ++ eol ++ more) (hl : IsLine l) (hle : start ≤ i)
    (hlt : i < start + l.length) : ¬ EndsAt r.buffer i := by
  have hcr : r.buffer.drop start = l ++ ['\r'] ++ '\n' :: more := by simpa [eol] using h
  refine not_endsAt hcr hl.concat_cr hle ?_
  rw [length_append, length_singleton]
  omega

/-- Characters at which no line ends are passed. -/
theorem search_skip : ∀ {m fuel : Nat}, (∀ j, i ≤ j → j < i + m → ¬ EndsAt r.buffer j) →
    r.search (fuel + m) (i + 1) start first = r.search fuel (i + m + 1) start first
  | 0, fuel, _ => rfl
  | m + 1, fuel, h => by
    rw [← Nat.add_assoc, Nat.add_right_comm, search_skip fun j h1 h2 => h j h1 (by omega), search, Nat.add_sub_cancel]
    exact if_neg (h (i + m) (by omega) (by omega))

theorem eol_at (h : r.buffer.drop start = l ++ eol ++ w) :
    r.at (start + l.length) = '\r' ∧ r.at (start + l.length + 1) = '\n' := by
  have hend : r.buffer.drop (start + l.length) = eol ++ w := by
    rw [← drop_drop, h, append_assoc, drop_left]
  exact ⟨at_add hend 0, at_add hend 1⟩

/-- The character in front of a line but the first is the end of another line. -/
theorem search_next (h : r.at i = '\n') :
    r.search fuel (i + 1) (i + 1) false = r.search (fuel - 1) (i + 2) (i + 1) false := by
  cases fuel with
  | zero => rfl
  | succ fuel =>
    rw [search, Nat.add_sub_cancel, if_neg, Nat.add_sub_cancel]
    rintro ⟨hcr, -⟩
    rw [h] at hcr
    cases hcr

theorem search_line (h : r.buffer.drop start = l ++ eol ++ more) (hl : IsLine l)
    (hfirst : first = true → start = 0 ∧ opensReply l) (n : Nat) :
    r.search (n + (l.length + 2) - 1) (start + 1) start first =
      if isFinalLine l then .found start (start + (l.length + 2))
      else r.search (n - 1) (start + (l.length + 2) + 1) (start + (l.length + 2)) false := by
  have hend := eol_at h
  rw [show n + (l.length + 2) - 1 = n + 1 + l.length by omega,
    search_skip fun j => not_endsAt_line h hl, search, Nat.add_sub_cancel, if_pos hend, if_neg]
  · simp only [(code_iff r start).1, h, (code_append_eol l more).1, search_next hend.2]
    rfl
  · rintro ⟨hf, hbad⟩
    obtain ⟨rfl, hopen⟩ := hfirst hf
    have hlen := length_of_opensReply hopen
    rcases hbad with hshort | hnot
    · omega
    · exact hnot ((code_iff r 0).2.2 (by rwa [h, (code_append_eol l more).2]))

theorem search_tail (h : r.buffer.drop start = w ++ more) (hw : IsLine w) :
    r.search (w.length - 1) (start + 1) start first = .incomplete := by
  rw [← Nat.zero_add (w.length - 1), search_skip fun j h1 h2 => not_endsAt h hw h1 (by omega)]
  rfl

/-- So are lines that are not final. -/
theorem search_lines : ∀ {front : List (List Char)} {start : Nat} {first : Bool},
    r.buffer.drop start = linesText front ++ more → (∀ l ∈ front, IsLine l) → (∀ l ∈ front, isFinalLine l = false) →
    (first = true → start = 0 ∧ ∀ l ∈ front.head?, opensReply l) → ∀ n,
    r.search (n + (linesText front).length - 1) (start + 1) start first =
      r.search (n - 1) (start + (linesText front).length + 1) (start + (linesText front).length) (first && front.isEmpty)
  | [], start, first, _, _, _, _, n => by simp
  | l :: front, start, first, h, hls, hnot, hfirst, n => by
    rw [linesText_cons, append_assoc] at h
    have hdrop : r.buffer.drop (start + (l.length + 2)) = linesText front ++ more := by
      rw [← drop_drop, h]
      exact drop_left' (by simp [eol])
    have hfuel : n + (l.length + 2 + (linesText front).length) = n + (linesText front).length + (l.length + 2) := by omega
    rw [length_linesText_cons, hfuel, search_line h (hls l mem_cons_self) fun hf => ⟨(hfirst hf).1, (hfirst hf).2 l rfl⟩,
      if_neg (by simp [hnot l]), search_lines hdrop (forall_mem_cons.1 hls).2
        (forall_mem_cons.1 hnot).2 (by simp), Nat.add_assoc start, isEmpty_cons, Bool.and_false, Bool.false_and]

end Response

/-! ## Final lines in a text -/

/-- A line begins at an index. -/
def BeginsAt (t : List Char) (i : Nat) : Prop := i = 0 ∨ ∃ j, i = j + 2 ∧ EndsAt t j

/-- A final line, from its code to its end. -/
structure FinalLine (t : List Char) (start stop : Nat) : Prop where
  begins : BeginsAt t start
  code : isFinalLine (t.drop start)
  le : start + 4 ≤ stop
  ends : EndsAt t stop

/-- A complete final line is in the first `n` characters. -/
def HasFinalLine (t : List Char) (n : Nat) : Prop := ∃ start stop, FinalLine t start stop ∧ stop + 2 ≤ n

/-- So is one that begins at or behind `line` and ends at or behind `i`. -/
def FinalFrom (t : List Char) (n line i : Nat) : Prop := ∃ start stop, FinalLine t start stop ∧ line ≤ start ∧ i ≤ stop ∧ stop + 2 ≤ n

section

variable {t : List Char} {n line i start : Nat}

theorem le_of_endsAt (hcode : isFinalLine (t.drop start)) (hle : start ≤ i) (hi : EndsAt t i) : start + 4 ≤ i := by
  obtain ⟨k, rfl⟩ := Nat.exists_eq_add_of_le hle
  have hcr : (t.drop start).getD k '\x00' = '\r' := by
    rw [← hi.1, getD_eq_getElem?_getD, getD_eq_getElem?_getD, getElem?_drop]
  generalize t.drop start = u at hcode hcr
  match u, hcode with
  | a :: b :: c :: d :: u, hcode =>
    simp only [isFinalLine, Bool.and_eq_true, decide_eq_true_eq] at hcode
    by_contra hlt
    have hk : k < 4 := by omega
    interval_cases k <;> simp_all

theorem BeginsAt.eq (hline : BeginsAt t line) (hno : ∀ j, line ≤ j → j < i → ¬ EndsAt t j) (hstart : BeginsAt t start)
    (hle : line ≤ start) (hi : start ≤ i + 1) : start = line := by
  rcases hstart with rfl | ⟨j, rfl, hj⟩
  · omega
  · by_contra hne
    by_cases hlj : line ≤ j
    · exact hno j hlj (by omega) hj
    · rcases hline with h | ⟨j', h, hj'⟩
      · omega
      · -- a line does not begin inside the end of another
        obtain rfl : j = j' + 1 := by omega
        exact absurd (hj'.2.symm.trans hj.1) (by decide)

theorem finalFrom_skip (h : ¬ EndsAt t i) : FinalFrom t n line i ↔ FinalFrom t n line (i + 1) := by
  constructor
  · rintro ⟨start, stop, hf, hs, he, hn⟩
    refine ⟨start, stop, hf, hs, ?_, hn⟩
    rcases he.eq_or_lt with rfl | hlt
    · exact absurd hf.ends h
    · exact hlt
  · rintro ⟨start, stop, hf, hs, he, hn⟩
    exact ⟨start, stop, hf, hs, by omega, hn⟩

theorem finalFrom_line (hline : BeginsAt t line) (hno : ∀ j, line ≤ j → j < i → ¬ EndsAt t j) (hle : line ≤ i)
    (hi : EndsAt t i) (hn : i + 2 ≤ n) :
    FinalFrom t n line i ↔ isFinalLine (t.drop line) ∨ FinalFrom t n (i + 2) (i + 2) := by
  constructor
  · rintro ⟨start, stop, hf, hs, he, hn⟩
    by_cases hsi : start ≤ i + 1
    · obtain rfl := hline.eq hno hf.begins hs hsi
      exact .inl hf.code
    · have := hf.le
      exact .inr ⟨start, stop, hf, by omega, by omega, hn⟩
  · rintro (hcode | ⟨start, stop, hf, hs, he, hn⟩)
    · exact ⟨line, i, ⟨hline, hcode, le_of_endsAt hcode hle hi, hi⟩, le_rfl, le_rfl, hn⟩
    · exact ⟨start, stop, hf, by omega, by omega, hn⟩

end

/-! ## The fast check -/

namespace Response

variable {r : Response} {i line hint fuel : Nat} {first : Bool}

theorem finalLineLoop_iff : ∀ {fuel i line : Nat}, BeginsAt r.buffer line → (∀ j, line ≤ j → j < i → ¬ EndsAt r.buffer j) →
    line ≤ i → r.length ≤ i + fuel → (r.finalLineLoop fuel i line = true ↔ FinalFrom r.buffer r.length line i)
  | 0, i, line, _, _, _, hfuel => by
    refine iff_of_false (by simp [finalLineLoop]) ?_
    rintro ⟨start, stop, -, -, he, hn⟩
    omega
  | fuel + 1, i, line, hline, hno, hle, hfuel => by
    rw [finalLineLoop]
    split
    case isTrue hi =>
      split
      case isTrue hend =>
        rw [finalFrom_line hline hno hle hend (by omega),
          ← finalLineLoop_iff (.inr ⟨i, rfl, hend⟩) (fun j h1 h2 => by omega) le_rfl (show _ ≤ i + 2 + fuel by omega),
          ← (code_iff r line).1]
        have hfour : r.at (line + 3) = ' ' ∧ r.digitsAt line → i - line ≥ 4 := fun hcode => by
          have := le_of_endsAt ((code_iff r line).1.1 hcode) hle hend
          omega
        by_cases hcode : r.at (line + 3) = ' ' ∧ r.digitsAt line
        · rw [if_pos ⟨hfour hcode, hcode⟩]
          simp [hcode]
        · simp [hcode]
      case isFalse hend =>
        rw [finalFrom_skip hend]
        refine finalLineLoop_iff hline (fun j h1 h2 => ?_) (by omega) (by omega)
        rcases Nat.lt_succ_iff_lt_or_eq.1 h2 with h2 | rfl
        · exact hno j h1 h2
        · exact hend
    case isFalse hi =>
      refine iff_of_false (by simp) ?_
      rintro ⟨start, stop, -, -, he, hn⟩
      omega

theorem currentLineStart_begins (r : Response) : ∀ hint : Nat,
    BeginsAt r.buffer (r.currentLineStart hint) ∧ r.currentLineStart hint ≤ hint
  | 0 => ⟨.inl rfl, le_rfl⟩
  | 1 => ⟨.inl rfl, Nat.zero_le 1⟩
  | hint + 2 => by
    rw [currentLineStart]
    split
    · next heol => exact ⟨.inr ⟨hint, rfl, heol.2, heol.1⟩, le_rfl⟩
    · obtain ⟨hbegins, hle⟩ := currentLineStart_begins r (hint + 1)
      exact ⟨hbegins, hle.trans (Nat.le_succ _)⟩

theorem checkFinalLineFast_finalFrom (r : Response) (hint : Nat) : r.checkFinalLineFast hint = true ↔
    FinalFrom r.buffer r.length (r.currentLineStart hint) (r.currentLineStart hint) :=
  finalLineLoop_iff (r.currentLineStart_begins hint).1 (fun j h1 h2 => by omega) le_rfl (Nat.le_add_left _ _)

/-- Nothing is overlooked in front of the line that the hint is in. -/
theorem checkFinalLineFast_hasFinalLine (hnot : ¬ HasFinalLine r.buffer hint) :
    r.checkFinalLineFast hint = true ↔ HasFinalLine r.buffer r.length := by
  obtain ⟨hbegins, hle⟩ := r.currentLineStart_begins hint
  rw [checkFinalLineFast_finalFrom]
  generalize r.currentLineStart hint = line at hbegins hle ⊢
  constructor
  · rintro ⟨start, stop, hf, -, -, hn⟩
    exact ⟨start, stop, hf, hn⟩
  · rintro ⟨start, stop, hf, hn⟩
    have hstart : line ≤ start := by
      by_contra hlt
      rcases hbegins with rfl | ⟨j, rfl, hj⟩
      · omega
      · -- the final line would end where the line of the hint begins
        have hne : start ≠ j + 1 := fun heq => by
          have := (heq ▸ hf.begins).eq (i := j + 1) (fun k h1 h2 => by omega) (.inr ⟨j, rfl, hj⟩) (by omega) (by omega)
          omega
        exact hnot ⟨start, j, ⟨hf.begins, hf.code, le_of_endsAt hf.code (by omega) hj, hj⟩, hle⟩
    have := hf.le
    exact ⟨start, stop, hf, hstart, by omega, hn⟩

/-- The first line begins with a code and a space or a minus sign. -/
def FirstLineOpens (r : Response) : Prop :=
  ∀ i, EndsAt r.buffer i → (∀ j < i, ¬ EndsAt r.buffer j) → i + 2 ≤ r.length → 4 ≤ i ∧ opensReply r.buffer

theorem search_iff (hopens : r.FirstLineOpens) : ∀ {fuel i line : Nat} {first : Bool}, BeginsAt r.buffer line →
    (∀ j, line ≤ j → j < i → ¬ EndsAt r.buffer j) → line ≤ i → fuel = r.length - 1 - i → (first = true → line = 0) →
    ((∃ start stop, r.search fuel (i + 1) line first = .found start stop) ↔ FinalFrom r.buffer r.length line i)
  | 0, i, line, first, _, _, _, hfuel, _ => by
    refine iff_of_false (by simp [search]) ?_
    rintro ⟨start, stop, -, -, he, hn⟩
    omega
  | fuel + 1, i, line, first, hline, hno, hle, hfuel, hfirst => by
    rw [search, Nat.add_sub_cancel]
    split
    case isTrue hend =>
      have hgood : ¬ (first = true ∧ (i + 1 < 5 ∨
          ¬ (r.digitsAt line ∧ (r.at (line + 3) = ' ' ∨ r.at (line + 3) = '-')))) := by
        rintro ⟨hf, hbad⟩
        obtain rfl := hfirst hf
        obtain ⟨hfour, hopen⟩ := hopens i hend (fun j hj => hno j (Nat.zero_le j) hj) (by omega)
        exact hbad.elim (by omega) fun h => h ((code_iff r 0).2.2 hopen)
      rw [if_neg hgood, finalFrom_line hline hno hle hend (by omega), ← (code_iff r line).1]
      split
      case isTrue hcode => exact iff_of_true ⟨_, _, rfl⟩ (.inl hcode)
      case isFalse hcode =>
        rw [search_next hend.2, or_iff_right hcode]
        exact search_iff hopens (.inr ⟨i, rfl, hend⟩) (fun j h1 h2 => by omega) le_rfl (by omega) (by simp)
    case isFalse hend =>
      rw [finalFrom_skip hend]
      refine search_iff hopens hline (fun j h1 h2 => ?_) (by omega) (by omega) hfirst
      rcases Nat.lt_succ_iff_lt_or_eq.1 h2 with h2 | rfl
      · exact hno j h1 h2
      · exact hend

/-- Behind a hint in front of which there is no complete final line, the fast check finds one exactly if there is one; so does
the search, where the first line is well formed. -/
theorem checkFinalLineFast_iff (hnot : ¬ HasFinalLine r.buffer hint) :
    (r.checkFinalLineFast hint = true ↔ HasFinalLine r.buffer r.length) ∧
      (r.FirstLineOpens → ((∃ start stop, r.search (r.length - 1) 1 0 true = .found start stop) ↔
        HasFinalLine r.buffer r.length)) := by
  refine ⟨checkFinalLineFast_hasFinalLine hnot, fun hopens => ?_⟩
  refine (search_iff hopens (.inl rfl) (fun j h1 h2 => by omega) le_rfl rfl fun _ => rfl).trans ?_
  simp [FinalFrom, HasFinalLine]

/-- Two lines that begin a reply, and its final line. -/
def greeting : Response :=
  let buffer := "220-a\r\n b\r\n220 c\r\n".toList
  ⟨0, .unknown, buffer, buffer.length, buffer.length⟩

theorem checkFinalLineFast_greeting : greeting.checkFinalLineFast 9 = true ∧
    ∃ start stop, greeting.search (greeting.length - 1) 1 0 true = .found start stop := by
  have hnot : ¬ HasFinalLine greeting.buffer 9 := by
    rintro ⟨start, stop, hfinal, hstop⟩
    have := hfinal.le
    have hstart : start ≤ 3 := by omega
    interval_cases start <;> exact absurd hfinal.code (by decide)
  have hfinal : HasFinalLine greeting.buffer greeting.length :=
    ⟨11, 16, ⟨.inr ⟨9, rfl, rfl, rfl⟩, by decide, by decide, rfl, rfl⟩, by decide⟩
  have hopens : greeting.FirstLineOpens := by
    refine fun i hi _ _ => ⟨?_, by decide⟩
    by_contra hlt
    have hi3 : i ≤ 3 := by omega
    interval_cases i <;> exact absurd hi.1 (by decide)
  obtain ⟨hfast, hsearch⟩ := checkFinalLineFast_iff (r := greeting) hnot
  exact ⟨hfast.2 hfinal, (hsearch hopens).2 hfinal⟩

end Response

/-! ## Storing and taking out -/

theorem memcpy_append (a b src : List Char) : memcpy (a ++ b) a.length src = a ++ (src ++ b.drop src.length) := by
  rw [memcpy, take_left, ← drop_drop, drop_left, append_assoc]

theorem memcpy_zero (b src : List Char) : memcpy b 0 src = src ++ b.drop src.length := memcpy_append [] b src

theorem length_memcpy {buffer src : List Char} {i : Nat} (h : i + src.length ≤ buffer.length) :
    (memcpy buffer i src).length = buffer.length := by
  rw [memcpy, length_append, length_append, length_take_of_le (by omega), length_drop]
  omega

theorem length_malloc (junk : Nat → Char) (n : Nat) : (malloc junk n).length = n := length_ofFn

namespace Response

/-- What was read and belongs to no reply yet is at the front of the buffer, which has room behind it. -/
structure Holds (r : Response) (content : List Char) : Prop where
  prefix_buffer : content <+: r.buffer
  length_eq : r.length = content.length
  size_eq : r.buffer.length = r.bufferSize
  room : content.length < r.bufferSize

variable {r : Response} {content buf rest : List Char} {reply : Reply} {hint : Nat}

theorem holds_memcpy {b : List Char} (hpre : content <+: b) (hroom : content.length + buf.length < b.length)
    (hbuffer : r.buffer = memcpy b content.length buf) (hsize : r.bufferSize = b.length)
    (hlength : r.length = content.length + buf.length) : r.Holds (content ++ buf) := by
  obtain ⟨more, rfl⟩ := hpre
  refine ⟨?_, by rw [hlength, length_append], ?_, by rwa [hsize, length_append]⟩
  · rw [hbuffer, memcpy_append, ← append_assoc]
    exact prefix_append _ _
  · rw [hbuffer, length_memcpy hroom.le, hsize]

theorem Holds.store (h : r.Holds content) (junk : Nat → Char) (buf : List Char) : (r.store junk buf).Holds (content ++ buf) := by
  obtain ⟨hpre, hlength, hsize, hroom⟩ := h
  unfold Response.store
  split
  · next hfits => exact holds_memcpy hpre (by omega) (by rw [hlength]) hsize.symm (by rw [hlength])
  · generalize hnew : max (r.length + buf.length + 1) (if r.length < 1000000 then r.length * 2 else r.length + 100000) = newSize
    have hle : r.length + buf.length + 1 ≤ newSize := hnew ▸ le_max_left _ _
    have htake : r.buffer.take r.length = content := by rw [hlength, ← prefix_iff_eq_take.1 hpre]
    have hlen := length_malloc junk newSize
    have hfirst : (memcpy (malloc junk newSize) 0 content).length = newSize := by rw [length_memcpy (by omega), hlen]
    have hpre' : content <+: memcpy (malloc junk newSize) 0 content := memcpy_zero _ content ▸ prefix_append _ _
    exact holds_memcpy hpre' (by omega) (by rw [htake, hlength]) hfirst.symm (by rw [hlength])

/-- A reply is at the front of the buffer, with a null character behind it. -/
structure Carries (r : Response) (reply : Reply) : Prop where
  text_eq : r.buffer.take (reply.text.length + 1) = reply.text ++ ['\x00']
  code_eq : r.code = reply.code
  class_eq : r.responseClass = classOf reply.digit

theorem text_eq (reply : Reply) : reply.text = linesText reply.front ++ (reply.last ++ eol) := by
  rw [Reply.text, Reply.lines, linesText_append, linesText_cons, linesText_nil, append_nil]

theorem length_text (reply : Reply) : reply.text.length = (linesText reply.front).length + (reply.last.length + 2) := by
  rw [text_eq, length_append, length_append]
  rfl

theorem isLine_front (reply : Reply) : ∀ l ∈ reply.front, IsLine l := fun l hl => reply.isLine l (mem_append_left _ hl)

theorem opens_front (reply : Reply) : ∀ l ∈ reply.front.head?, opensReply l := fun l hl =>
  reply.opens l (by rw [head?_append, Option.mem_def.1 hl]; rfl)

theorem isLine_last (reply : Reply) : IsLine reply.last := reply.isLine _ (mem_append_right _ (mem_singleton_self _))

theorem Holds.exists_buffer_eq (h : r.Holds (reply.text ++ rest)) :
    ∃ more, r.buffer = linesText reply.front ++ (reply.last ++ eol ++ more) := by
  obtain ⟨more, hmore⟩ := h.prefix_buffer
  exact ⟨rest ++ more, by rw [← hmore, text_eq]; simp only [append_assoc]⟩

/-- The fast check does not overlook a reply that ends behind the hint. -/
theorem Holds.checkFinalLineFast (h : r.Holds (reply.text ++ rest)) (hhint : hint < reply.text.length) :
    r.checkFinalLineFast hint = true := by
  obtain ⟨more, hbuffer⟩ := h.exists_buffer_eq
  obtain ⟨hbegins, hle⟩ := r.currentLineStart_begins hint
  have hdrop : r.buffer.drop (linesText reply.front).length = reply.last ++ eol ++ more := by
    rw [hbuffer, drop_left]
  have hlength := length_text reply
  have hfront : BeginsAt r.buffer (linesText reply.front).length := by
    rcases eq_nil_or_concat reply.front with hnil | ⟨front, l, hfront⟩
    · exact .inl (by rw [hnil]; rfl)
    · rw [hfront, concat_eq_append, linesText_append] at hbuffer ⊢
      have hl : r.buffer.drop (linesText front).length = l ++ eol ++ (reply.last ++ eol ++ more) := by
        rw [hbuffer, append_assoc, drop_left]
        simp
      exact .inr ⟨_, by simp [eol, Nat.add_assoc], eol_at hl⟩
  have hfour := length_of_opensReply (opensReply_of_isFinalLine reply.final)
  rw [checkFinalLineFast_finalFrom]
  refine ⟨_, _, ⟨hfront, ?_, Nat.add_le_add_left hfour _, eol_at hdrop⟩, ?_⟩
  · rw [hdrop, (code_append_eol _ _).1]
    exact reply.final
  · have hstart : r.currentLineStart hint ≤ (linesText reply.front).length := by
      by_contra hlt
      exact hlt (hfront.eq (fun j => not_endsAt_line hdrop (isLine_last reply)) hbegins (by omega) (by omega)).le
    refine ⟨hstart, hstart.trans (Nat.le_add_right _ _), ?_⟩
    rw [h.length_eq, length_append]
    omega

theorem Holds.endOfReply_of_prefix (h : r.Holds content) (gssUnwrap : GssUnwrap) (junk : Nat → Char)
    (hpre : content <+: reply.text) (hne : content ≠ reply.text) : r.endOfReply gssUnwrap junk hint = (some 0, r) := by
  obtain ⟨more, hmore⟩ := h.prefix_buffer
  obtain ⟨k, w, hk, rfl, hw⟩ := exists_take_of_prefix reply.isLine hpre hne
  have hfront : (reply.front ++ [reply.last]).take k = reply.front.take k :=
    take_append_of_le_length (by simpa using Nat.le_of_lt_succ (by simpa using hk))
  rw [hfront] at h hmore
  have hsearch : r.search (r.length - 1) 1 0 true = .incomplete := by
    have hdrop : r.buffer.drop 0 = linesText (reply.front.take k) ++ (w ++ more) := by rw [← append_assoc]; exact hmore.symm
    have hopens : ∀ l ∈ (reply.front.take k).head?, opensReply l := fun l hl => by
      rw [head?_take] at hl
      split at hl
      · cases hl
      · exact opens_front reply l hl
    rw [h.length_eq, length_append, Nat.add_comm, search_lines hdrop (fun l hl => isLine_front reply l (mem_of_mem_take hl))
      (fun l hl => reply.notFinal l (mem_of_mem_take hl)) fun _ => ⟨rfl, hopens⟩]
    exact search_tail (by rw [← drop_drop, hdrop, drop_left]) hw
  unfold Response.endOfReply
  rw [hsearch]
  split <;> rfl

theorem Holds.endOfReply_of_nil (h : r.Holds []) (gssUnwrap : GssUnwrap) (junk : Nat → Char) :
    r.endOfReply gssUnwrap junk hint = (some 0, r) := by
  unfold Response.endOfReply
  rw [h.length_eq]
  split <;> rfl

theorem cstr_cons_isDigit {c : Char} (h : c.isDigit) (s : List Char) : cstr (c :: s) = c :: cstr s :=
  takeWhile_cons_of_pos (by
    rw [decide_eq_true_eq]
    rintro rfl
    cases h)

theorem scanInt_code {l : List Char} (hfinal : isFinalLine l) (s : List Char) :
    (scanInt (-2 ^ 31) (2 ^ 31 - 1) (cstr (l ++ s))).map Prod.fst = some (Nat.ofDigitChars 10 (l.take 3) 0 : Int) := by
  match l with
  | [] | [a] | [a, b] | [a, b, c] => cases hfinal
  | a :: b :: c :: d :: l =>
    simp only [isFinalLine, Bool.and_eq_true, decide_eq_true_eq] at hfinal
    obtain ⟨⟨⟨ha, hb⟩, hc⟩, rfl⟩ := hfinal
    have hdigits : ∀ x ∈ [a, b, c], x.isDigit = true := by simp [ha, hb, hc]
    have hcstr : cstr (a :: b :: c :: ' ' :: l ++ s) = [a, b, c] ++ ' ' :: cstr (l ++ s) := by
      simp only [cons_append, nil_append, cstr_cons_isDigit ha, cstr_cons_isDigit hb, cstr_cons_isDigit hc]
      rfl
    have hbound : Numeral.value ⟨[a, b, c], by simp, hdigits⟩ ≤ 999 := by
      simp only [Char.isDigit, Bool.and_eq_true, decide_eq_true_eq, ge_iff_le, UInt32.le_iff_toNat_le] at ha hb hc
      have ha' : a.toNat ≤ 57 := ha.2
      have hb' : b.toNat ≤ 57 := hb.2
      have hc' : c.toNat ≤ 57 := hc.2
      have hzero : '0'.toNat = 48 := rfl
      simp only [Numeral.value, Nat.ofDigitChars, foldl_cons, foldl_nil]
      omega
    rw [hcstr, scanInt_numeral ⟨[a, b, c], by simp, hdigits⟩ (by simp) (by omega) (by omega)]
    rfl

theorem makeRoom_buffer (h : r.Holds (reply.text ++ rest)) (junk : Nat → Char) : ∃ more,
    ((r.makeRoom junk reply.text.length).buffer.set reply.text.length '\x00') = reply.text ++ '\x00' :: more ∧
      (reply.text ++ '\x00' :: more).length = r.bufferSize := by
  obtain ⟨more, hmore⟩ := h.prefix_buffer
  have hsize := h.size_eq
  have hroom := h.room
  obtain ⟨x, y, hxy⟩ : ∃ x y, rest ++ more = x :: y := by
    refine exists_cons_of_ne_nil fun hnil => ?_
    obtain ⟨rfl, rfl⟩ := append_eq_nil_iff.1 hnil
    rw [← hsize, ← hmore] at hroom
    simp at hroom
  have hbuffer : r.buffer = reply.text ++ [x] ++ y := by rw [← hmore, append_assoc, hxy]; simp
  have hrest : (r.buffer.drop reply.text.length).take (r.length - reply.text.length) = rest := by
    rw [← hmore, append_assoc, drop_left, h.length_eq, length_append, Nat.add_sub_cancel_left, take_left]
  have hcopy : (r.makeRoom junk reply.text.length).buffer = reply.text ++ x :: (rest ++ y.drop rest.length) := by
    have hfits : ¬ r.bufferSize < r.length + 1 := by rw [h.length_eq]; omega
    have hlen : (reply.text ++ [x]).length = reply.text.length + 1 := by simp
    unfold makeRoom
    dsimp only
    rw [if_neg hfits, hrest, ← hlen, hbuffer, memcpy_append]
    simp
  refine ⟨rest ++ y.drop rest.length, ?_, ?_⟩
  · rw [hcopy, set_append_right _ _ le_rfl, Nat.sub_self]
    rfl
  · have hy := congrArg List.length hxy
    have hlen := congrArg List.length hbuffer
    simp only [length_append, length_cons, length_nil, length_drop] at hy hlen hroom ⊢
    omega

theorem exists_last_eq (reply : Reply) : ∃ l, reply.last = reply.digit :: l := by
  have hfinal := reply.final
  rw [Reply.digit]
  rcases hl : reply.last with _ | ⟨d, l⟩
  · rw [hl] at hfinal
    cases hfinal
  · exact ⟨l, rfl⟩

theorem setCode_carries {more : List Char} (h : r.buffer.set reply.text.length '\x00' = reply.text ++ '\x00' :: more) :
    (r.setCode (linesText reply.front).length (reply.text.length + 1)).Carries reply := by
  have hlast : (reply.text ++ '\x00' :: more).drop (linesText reply.front).length = reply.last ++ (eol ++ '\x00' :: more) := by
    rw [text_eq, append_assoc, drop_left, append_assoc]
  obtain ⟨l, hl⟩ := exists_last_eq reply
  unfold setCode
  dsimp only
  rw [Nat.add_sub_cancel, h]
  refine ⟨?_, ?_, ?_⟩
  · rw [take_length_add_append]
    rfl
  · dsimp only
    rw [hlast, scanInt_code reply.final, Option.getD_some]
    rfl
  · dsimp only
    rw [Response.at, text_eq, hl]
    simp

/-- A reply that is whole is found, and the rest is behind its null character. -/
theorem Holds.endOfReply_of_reply (h : r.Holds (reply.text ++ rest)) (gssUnwrap : GssUnwrap) (junk : Nat → Char)
    (hplain : reply.digit ≠ '6') (hhint : hint < reply.text.length) :
    ∃ r', r.endOfReply gssUnwrap junk hint = (some (reply.text.length + 1), r') ∧ r'.Carries reply ∧
      r'.length = reply.text.length + 1 + rest.length ∧ r'.buffer.length = r'.bufferSize ∧ rest.length < r'.bufferSize := by
  obtain ⟨more, hdrop⟩ : ∃ more, r.buffer.drop 0 = _ := h.exists_buffer_eq
  obtain ⟨more', hbuffer, hlen⟩ := makeRoom_buffer h junk
  have hroom := h.room
  have hlength := h.length_eq
  rw [length_append] at hroom hlength
  have hsearch : r.search (r.length - 1) 1 0 true = .found (linesText reply.front).length reply.text.length := by
    have htail : r.buffer.drop (0 + (linesText reply.front).length) = reply.last ++ eol ++ more := by
      rw [← drop_drop, hdrop, drop_left]
    rw [hlength, length_text, Nat.add_right_comm, Nat.add_assoc, Nat.add_comm,
      search_lines hdrop (isLine_front reply) reply.notFinal fun _ => ⟨rfl, opens_front reply⟩,
      search_line htail (isLine_last reply), if_pos reply.final, Nat.zero_add]
    intro hf
    have hnil : reply.front = [] := by simpa using hf
    exact ⟨by rw [hnil]; rfl, reply.opens _ (by rw [hnil]; rfl)⟩
  have hdigit : r.at (linesText reply.front).length = reply.digit := by
    obtain ⟨l, hl⟩ := exists_last_eq reply
    rw [drop_zero] at hdrop
    rw [Response.at, hdrop, hl]
    simp
  refine ⟨(r.makeRoom junk reply.text.length).setCode (linesText reply.front).length (reply.text.length + 1), ?_,
    setCode_carries hbuffer, ?_, ?_, ?_⟩
  · unfold Response.endOfReply
    rw [if_neg fun hc => hc.2.2 (h.checkFinalLineFast hhint), hsearch]
    dsimp only
    rw [if_neg (by rwa [hdigit])]
  · show r.length + 1 = _
    omega
  · show ((r.makeRoom junk reply.text.length).buffer.set (reply.text.length + 1 - 1) '\x00').length = max r.bufferSize (r.length + 1)
    rw [Nat.add_sub_cancel, hbuffer, hlen]
    omega
  · show _ < max r.bufferSize (r.length + 1)
    omega

theorem next_holds {pre : List Char} (hsize : r.buffer.length = r.bufferSize) (hroom : rest.length < r.bufferSize) :
    (r.next (pre ++ rest) rest.length).Holds rest := by
  have hcopy : ((pre ++ rest).drop ((pre ++ rest).length - rest.length)).take rest.length = rest := by
    rw [length_append, Nat.add_sub_cancel, drop_left, take_length]
  show Holds _ ([] ++ rest)
  exact holds_memcpy ( nil_prefix) (by simpa [hsize] using hroom) (congrArg (memcpy r.buffer 0) hcopy) hsize.symm
    (Nat.zero_add _).symm

end Response

/-! ## Delivery -/

/-- Who gets which reply: a preliminary one goes to the reader that is first, who stays. -/
def assign : List Reply → List ρ → List (ρ × Reply)
  | [], _ => []
  | _ :: _, [] => []
  | reply :: replies, reader :: readers =>
    (reader, reply) :: assign replies (if classOf reply.digit = .positivePreliminary then reader :: readers else readers)

/-- A callback was called with a reply. -/
structure Delivery.Gives (d : Delivery ρ) (a : ρ × Reply) : Prop where
  reader : d.reader = a.1
  carries : ∃ r, d.response = some r ∧ r.Carries a.2

/-- The replies that are still to come, and the calls that were made. -/
structure Connection.Expects (c : Connection ρ) (all : List (ρ × Reply)) (replies : List Reply) : Prop where
  given : ∃ before, List.Forall₂ Delivery.Gives c.delivered before ∧ all = before ++ assign replies c.readers
  enough : (assign replies c.readers).length = replies.length
  plain : ∀ r ∈ replies, r.digit ≠ '6'

/-- Between two reads: nothing, or a part of the first reply only, is in the buffer, and a read is registered if a reader
waits. -/
structure Connection.Waits (c : Connection ρ) (all : List (ρ × Reply)) (future : List Char) (replies : List Reply) : Prop
    extends c.Expects all replies where
  content : ∃ content, c.response.Holds content ∧ content ++ future = (replies.map Reply.text).flatten ∧
    ∀ r ∈ replies.head?, content.length < r.text.length
  registered_eq : c.registered = decide (c.readers ≠ [])

theorem Reply.text_pos (r : Reply) : 0 < r.text.length := by
  rw [Response.text_eq, length_append, length_append, eol]
  exact Nat.add_pos_right _ (Nat.add_pos_right _ (Nat.succ_pos 1))

theorem assign_ne_nil {reply : Reply} {replies : List Reply} {readers : List ρ}
    (h : (assign (reply :: replies) readers).length = (reply :: replies).length) : readers ≠ [] := by
  rintro rfl
  cases h

variable {c : Connection ρ} {all : List (ρ × Reply)} {reply : Reply} {replies : List Reply} {reader : ρ} {readers : List ρ}

theorem Connection.Expects.call (h : c.Expects all (reply :: replies)) (hreaders : c.readers = reader :: readers)
    {r : Response} (hr : r.Carries reply) (next : Response) {readers' : List ρ}
    (hnext : readers' = if classOf reply.digit = .positivePreliminary then reader :: readers else readers) :
    Connection.Expects { c.call reader (some r) with response := next, readers := readers' } all replies := by
  obtain ⟨before, hgiven, hall⟩ := h.given
  have henough := h.enough
  rw [hreaders, assign, ← hnext] at hall henough
  refine ⟨⟨before ++ [(reader, reply)], ?_, ?_⟩, Nat.succ.inj henough, (forall_mem_cons.1 h.plain).2⟩
  · exact rel_append hgiven (.cons ⟨rfl, r, rfl, hr⟩ .nil)
  · rw [hall, append_assoc]
    rfl

section

variable (gssUnwrap : GssUnwrap) (junk : Nat → Char)

theorem Connection.Expects.wait (h : c.Expects all replies) (hne : c.readers ≠ []) {content future : List Char}
    (hholds : c.response.Holds content) (hcontent : content ++ future = (replies.map Reply.text).flatten)
    (hpart : ∀ r ∈ replies.head?, content.length < r.text.length) :
    Connection.Waits { c with registered := true } all future replies where
  given := h.given
  enough := h.enough
  plain := h.plain
  content := ⟨content, hholds, hcontent, hpart⟩
  registered_eq := by simp [hne]

/-- The replies that are whole are delivered. What is in the buffer is old at first, and what was just read comes behind it;
the old part ends inside the first reply, so that the rest behind a reply is at the end of the read buffer. -/
theorem Connection.readLoop_waits {future : List Char} : ∀ {fuel hint : Nat} {c : Connection ρ} {replies : List Reply}
    {old cur pre : List Char}, c.response.Holds (old ++ cur) → old ++ cur ++ future = (replies.map Reply.text).flatten →
    (∀ r ∈ replies.head?, old.length < r.text.length ∧ hint < r.text.length) → (old ++ cur).length < fuel →
    c.Expects all replies → c.readers ≠ [] →
    ∃ replies', (c.readLoop gssUnwrap junk (pre ++ cur) fuel (c.response.endOfReply gssUnwrap junk hint)).Waits all future replies'
  | 0, _, _, _, _, _, _, _, _, _, hfuel, _, _ => absurd hfuel (Nat.not_lt_zero _)
  | fuel + 1, hint, c, [], old, cur, pre, hholds, hcontent, _, _, hexp, hne => by
    obtain ⟨hnil, -⟩ := append_eq_nil_iff.1 hcontent
    have hholds' : c.response.Holds [] := hnil ▸ hholds
    rw [hholds'.endOfReply_of_nil, readLoop]
    exact ⟨[], hexp.wait hne hholds hcontent nofun⟩
  | fuel + 1, hint, c, reply :: replies, old, cur, pre, hholds, hcontent, hpart, hfuel, hexp, hne => by
    obtain ⟨hold, hhint⟩ := hpart reply rfl
    have hprefix : reply.text <+: old ++ cur ++ future := ⟨(replies.map Reply.text).flatten, hcontent.symm⟩
    by_cases hlen : (old ++ cur).length < reply.text.length
    · have hpre : old ++ cur <+: reply.text := prefix_of_prefix_length_le (prefix_append _ _) hprefix hlen.le
      have hneq : old ++ cur ≠ reply.text := fun heq => by
        rw [heq] at hlen
        exact lt_irrefl _ hlen
      rw [hholds.endOfReply_of_prefix gssUnwrap junk hpre hneq, readLoop]
      refine ⟨reply :: replies, hexp.wait hne hholds hcontent ?_⟩
      rintro r hr
      cases hr
      exact hlen
    · -- the first reply is whole; it ends in what was just read
      obtain ⟨rest, hrest⟩ := prefix_of_prefix_length_le hprefix (prefix_append _ _) (Nat.le_of_not_lt hlen)
      obtain ⟨pre', hpre'⟩ : old <+: reply.text :=
        prefix_of_prefix_length_le (prefix_append _ cur) (hrest ▸ prefix_append _ _) hold.le
      obtain rfl : cur = pre' ++ rest := by
        rw [← hpre', append_assoc] at hrest
        exact (append_cancel_left hrest).symm
      rw [← hrest] at hholds hcontent
      have hfuture : rest ++ future = (replies.map Reply.text).flatten := by
        rw [map_cons, flatten_cons, append_assoc] at hcontent
        exact append_cancel_left hcontent
      have hpos := reply.text_pos
      have hfuel' : ([] ++ rest).length < fuel := by
        rw [← hrest, length_append] at hfuel
        rw [nil_append]
        omega
      obtain ⟨r, hend, hcarries, hlength, hsize, hroom⟩ :=
        hholds.endOfReply_of_reply gssUnwrap junk (hexp.plain reply mem_cons_self) hhint
      obtain ⟨reader, readers, hreaders⟩ := exists_cons_of_ne_nil hne
      have hleft : r.length - (reply.text.length + 1) = rest.length := by omega
      have hnext : ∀ r ∈ replies.head?, ([] : List Char).length < r.text.length ∧ 0 < r.text.length :=
        fun r _ => ⟨r.text_pos, r.text_pos⟩
      have hread : pre ++ (pre' ++ rest) = pre ++ pre' ++ rest := (append_assoc _ _ _).symm
      rw [hend, readLoop, hreaders, hread]
      dsimp only
      rw [hleft]
      split
      · next hprelim =>
        rw [hcarries.class_eq] at hprelim
        exact readLoop_waits (Response.next_holds hsize hroom) hfuture hnext hfuel'
          (hexp.call hreaders hcarries _ (by rw [if_pos hprelim, ← hreaders]; rfl)) hne
      · next hfinal =>
        rw [hcarries.class_eq] at hfinal
        have hcarries' : Response.Carries { r with length := reply.text.length + 1 } reply :=
          ⟨hcarries.text_eq, hcarries.code_eq, hcarries.class_eq⟩
        generalize hr' : { r with length := reply.text.length + 1 } = r' at hcarries'
        have hholds' : (r'.next (pre ++ pre' ++ rest) rest.length).Holds ([] ++ rest) :=
          Response.next_holds (by rw [← hr']; exact hsize) (by rw [← hr']; exact hroom)
        have hexp' := hexp.call hreaders hcarries' (r'.next (pre ++ pre' ++ rest) rest.length) (if_neg hfinal).symm
        split
        · next hlast =>
          subst hlast
          -- no reader is left, and no reply either
          obtain rfl : replies = [] := by
            cases replies with
            | nil => rfl
            | cons _ _ => cases hexp'.enough
          exact ⟨[], ⟨hexp'.given, hexp'.enough, hexp'.plain⟩, ⟨rest, hholds', hfuture, nofun⟩, rfl⟩
        · next hmore => exact readLoop_waits hholds' hfuture hnext hfuel' hexp' hmore

theorem Connection.Waits.readCb {buf future : List Char} (h : c.Waits all (buf ++ future) replies) (hne : c.readers ≠ []) :
    ∃ replies', (c.readCb gssUnwrap junk (some buf)).Waits all future replies' := by
  obtain ⟨content, hholds, hcontent, hpart⟩ := h.content
  have hstore := hholds.store junk buf
  have hlength : (c.response.store junk buf).length = content.length + buf.length := by
    rw [hstore.length_eq, length_append]
  have hhint : (c.response.store junk buf).length - buf.length = content.length := by omega
  unfold Connection.readCb
  dsimp only
  rw [hhint]
  show ∃ replies', (Connection.readLoop gssUnwrap junk ([] ++ buf) _ _ _).Waits all future replies'
  exact Connection.readLoop_waits (c := { c with response := c.response.store junk buf }) gssUnwrap junk hstore
    (by rw [append_assoc, hcontent]) (fun r hr => ⟨hpart r hr, hpart r hr⟩) (by rw [hlength, length_append]; omega)
    ⟨h.given, h.enough, h.plain⟩ hne

theorem responseInit_holds (junk : Nat → Char) : (responseInit junk).Holds [] :=
  ⟨ nil_prefix, rfl, length_malloc junk bufSize, Nat.zero_lt_succ _⟩

theorem Connection.Waits.exec : ∀ {bufs : List (List Char)} {c : Connection ρ} {replies : List Reply},
    c.Waits all bufs.flatten replies → (∀ buf ∈ bufs, buf ≠ [] ∧ buf.length ≤ readBufferSize) →
    ∃ c', exec (Connection.step gssUnwrap junk) c (bufs.map some) = some c' ∧ ∃ replies', c'.Waits all [] replies'
  | [], c, replies, h, _ => ⟨c, rfl, replies, h⟩
  | buf :: bufs, c, replies, h, hbufs => by
    obtain ⟨hbuf, hsize⟩ := hbufs buf mem_cons_self
    -- as long as there is something to read, a reply is to come, and a reader waits for it
    have hne : c.readers ≠ [] := by
      obtain ⟨content, -, hcontent, -⟩ := h.content
      cases replies with
      | nil =>
        rw [flatten_cons] at hcontent
        obtain ⟨-, hnil⟩ := append_eq_nil_iff.1 hcontent
        exact absurd (append_eq_nil_iff.1 hnil).1 hbuf
      | cons reply replies => exact assign_ne_nil h.enough
    obtain ⟨replies', h'⟩ : ∃ replies', (c.readCb gssUnwrap junk (some buf)).Waits all bufs.flatten replies' :=
      Connection.Waits.readCb gssUnwrap junk h hne
    have hstep : c.step gssUnwrap junk (some buf) = some (c.readCb gssUnwrap junk (some buf)) := by
      rw [Connection.step, if_pos]
      refine ⟨by rw [h.registered_eq, decide_eq_true hne], ?_⟩
      rintro b hb
      cases hb
      exact hsize
    obtain ⟨c', hrun, hc'⟩ := Connection.Waits.exec h' (forall_mem_cons.1 hbufs).2
    refine ⟨c', ?_, hc'⟩
    rw [map_cons, Lib.exec, foldlM_cons, hstep]
    exact hrun

/-- However the replies are cut into reads, with enough readers each reply is delivered whole, in order and with its code. -/
theorem replies_delivered (replies : List Reply) (readers : List ρ) (bufs : List (List Char))
    (hplain : ∀ r ∈ replies, r.digit ≠ '6') (henough : (assign replies readers).length = replies.length)
    (hcut : bufs.flatten = (replies.map Reply.text).flatten)
    (hbufs : ∀ buf ∈ bufs, buf ≠ [] ∧ buf.length ≤ readBufferSize) :
    ∃ c, exec (Connection.step gssUnwrap junk) (Connection.start junk readers) (bufs.map some) = some c ∧
      List.Forall₂ Delivery.Gives c.delivered (assign replies readers) := by
  have hstart : (Connection.start junk readers).Waits (assign replies readers) bufs.flatten replies :=
    ⟨⟨⟨[], .nil, rfl⟩, henough, hplain⟩, ⟨[], responseInit_holds junk, hcut, fun r _ => r.text_pos⟩,
      by simp [Connection.start]⟩
  obtain ⟨c, hrun, replies', hc⟩ := Connection.Waits.exec gssUnwrap junk hstart hbufs
  refine ⟨c, hrun, ?_⟩
  -- nothing is left to come
  obtain ⟨content, -, hcontent, hpart⟩ := hc.content
  obtain ⟨before, hgiven, hall⟩ := hc.given
  cases replies' with
  | nil =>
    rw [hall, assign, append_nil]
    exact hgiven
  | cons reply replies' =>
    have hlen := congrArg List.length hcontent
    have := hpart reply rfl
    simp only [append_nil, map_cons, flatten_cons, length_append] at hlen
    omega

end

def openingReply : Reply := ⟨[], "150 Opening".toList, by decide, by decide, by decide, by decide⟩

def closingReply : Reply := ⟨["226-Closing".toList, [], " 226 ".toList], "226 Done".toList, by decide, by decide, by decide, by decide⟩

/-- A reply over two lines and an empty one, cut inside the end of a line and inside the last code. -/
def cutReplies : List (List Char) :=
  ["150 Opening\r".toList, "\n226-Closing\r\n\r\n 226 \r\n22".toList, "6 Done\r\n".toList]

theorem replies_delivered_cut : cutReplies.flatten = ([openingReply, closingReply].map Reply.text).flatten ∧
    (∀ buf ∈ cutReplies, buf ≠ [] ∧ buf.length ≤ readBufferSize) ∧
    ∃ c, exec (Connection.step (fun _ => none) fun _ => 'x') (Connection.start (fun _ => 'x') [7]) (cutReplies.map some) = some c ∧
      List.Forall₂ Delivery.Gives c.delivered [(7, openingReply), (7, closingReply)] := by
  have hcut : cutReplies.flatten = ([openingReply, closingReply].map Reply.text).flatten := by decide
  have hbufs : ∀ buf ∈ cutReplies, buf ≠ [] ∧ buf.length ≤ readBufferSize := by decide
  exact ⟨hcut, hbufs, replies_delivered _ _ [openingReply, closingReply] [7] cutReplies (by decide) (by decide) hcut hbufs⟩

end Globus.Ftp.Control
