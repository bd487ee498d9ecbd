/-
Messages of the GRAM protocol (gram/protocol/source/globus_gram_protocol_pack.c): lines of an attribute and a value.
Messages are packed into a block of memory of a size that is computed first, and unpacked to a hash table. A message
is the list of its bytes, with the null character behind the last line. A function has no result if it writes or
reads outside of its block. No pointer passed is null and allocation succeeds, so that the errors for these cases do
not occur.
-/
import GlobusToolkit.Common.HashTableRun

namespace Globus

open Lib List

/-! ## The data -/

/-- The error codes `GLOBUS_GRAM_PROTOCOL_ERROR_…`. -/
inductive GramError where
  | versionMismatch
  | httpUnpackFailed
  deriving DecidableEq

/-- `globus_gram_protocol_extension_t`. -/
structure GramExtension where
  attr : List Char
  value : List Char
  deriving DecidableEq

abbrev GramTable := HashTable (List Char) GramExtension

/-- A function on messages: no result after a fault, else an error or a value. -/
abbrev Gram := Partial GramError

/-- `GLOBUS_GRAM_PROTOCOL_VERSION`. -/
def gramProtocolVersion : Int := 2

/-- The format of a line, one of `GLOBUS_GRAM_HTTP_PACK_…_LINE`. -/
structure PackLine where
  attr : List Char
  conversion : List Char

/-- The text of the format. -/
def PackLine.format (l : PackLine) : List Char := l.attr ++ ": ".toList ++ l.conversion ++ "\r\n".toList

/-- The line with its argument. -/
def PackLine.print (l : PackLine) (arg : List Char) : List Char :=
  l.attr ++ ": ".toList ++ arg ++ "\r\n".toList

/-! The attributes `GLOBUS_GRAM_ATTR_…`, and that of the failure code of a job. -/

def attrProtocolVersion : List Char := "protocol-version".toList

def attrJobStateMask : List Char := "job-state-mask".toList

def attrCallbackUrl : List Char := "callback-url".toList

def attrRsl : List Char := "rsl".toList

def attrStatus : List Char := "status".toList

def attrJobManagerUrl : List Char := "job-manager-url".toList

def attrFailureCode : List Char := "failure-code".toList

def attrJobFailureCode : List Char := "job-failure-code".toList

/-! The formats of the lines. -/

def packProtocolVersionLine : PackLine := ⟨attrProtocolVersion, "%d".toList⟩

def packJobStateMaskLine : PackLine := ⟨attrJobStateMask, "%d".toList⟩

def packCallbackUrlLine : PackLine := ⟨attrCallbackUrl, "%s".toList⟩

def packStatusLine : PackLine := ⟨attrStatus, "%d".toList⟩

def packFailureCodeLine : PackLine := ⟨attrFailureCode, "%d".toList⟩

def packJobFailureCodeLine : PackLine := ⟨attrJobFailureCode, "%d".toList⟩

def packJobManagerUrlLine : PackLine := ⟨attrJobManagerUrl, "%s".toList⟩

/-! ## Packing -/

/-- A block of memory and the string at its beginning, without the null character. -/
structure OutBuf where
  size : Nat
  text : List Char

/-- The string is continued, with a null character at its new end. -/
def OutBuf.put (b : OutBuf) (s : List Char) : Option OutBuf :=
  if b.text.length + s.length < b.size then some { b with text := b.text ++ s } else none

def escapeText (s : List Char) : List Char := s.flatMap fun c => if c = '"' ∨ c = '\\' then ['\\', c] else [c]

/-- What `globus_l_gram_protocol_quote_string` writes. -/
def quoteString (s : List Char) : List Char := '"' :: (escapeText s ++ ['"'])

/-! ## Unpacking -/

/-- The loop over a quoted value in `globus_gram_protocol_unpack_message`: what is in front of the quote that ends
it, or of a null character, and the rest of the message from there on. The loop does not look for the end of the
message. -/
def scanQuoted (escaped : Bool) : List Char → Option (List Char × List Char)
  | [] => none
  | c :: s =>
    if c = '\x00' ∨ (escaped = false ∧ c = '"') then some ([], c :: s)
    else (scanQuoted (!escaped && c == '\\') s).map fun r => (c :: r.1, r.2)

/-- The value behind an attribute: its text, what is behind the text, and the rest of the message. -/
def scanValue : List Char → Option (List Char × List Char × List Char)
  | '"' :: s => (scanQuoted false s).map fun r => (r.1, r.2, r.2.tail)
  | s =>
    let value := s.takeWhile fun c => c ≠ '\r' ∧ c ≠ '\x00'
    some (value, s.drop value.length, s.drop value.length)

/-- The loop that takes the backslashes out of a value. A backslash at its end takes the character behind. -/
def unescapeValue (behind : List Char) : List Char → Option (List Char)
  | [] => some []
  | [c] => if c ≠ '\\' then some [c] else behind.head?.map ([·])
  | c :: d :: s =>
    if c ≠ '\\' then (unescapeValue behind (d :: s)).map (c :: ·) else (unescapeValue behind s).map (d :: ·)

/-- At the end of a line, unless the message is at its end. -/
def scanLineEnd (c : Char) : List Char → Gram (List Char)
  | [] => pure []
  | d :: s => if d ≠ c then throw .httpUnpackFailed else pure s

/-- One time around the loop of `globus_gram_protocol_unpack_message`: an attribute with its value and the rest of the
message, or none if the loop is left. -/
def unpackLine (message : List Char) : Gram (Option (GramExtension × List Char)) := do
  let attr := message.takeWhile fun c => c ≠ ':' ∧ c ≠ '\x00'
  match message with
  | [] => return none
  | '\x00' :: _ => return none
  | _ =>
    match message.drop attr.length with
    | [] => return none
    | c :: s =>
      failIf (c ≠ ':') .httpUnpackFailed
      failIf (s.head? ≠ some ' ') .httpUnpackFailed
      let (value, behind, rest) ← ofOption (scanValue s.tail)
      let rest ← scanLineEnd '\r' rest
      let rest ← scanLineEnd '\n' rest
      let value ← ofOption (unescapeValue behind value)
      return some (⟨attr, cstr value⟩, rest)

section Table

variable (fuel : Nat)

/-- The loop of `globus_gram_protocol_unpack_message`. That an attribute is in the table already is not noticed. -/
def unpackBody (at' : GramTable × List Char) : Gram ((GramTable × List Char) ⊕ GramTable) := do
  match ← unpackLine at'.2 with
  | none => return .inr at'.1
  | some (extension, rest) =>
    let (_, table) ← ofOption
      (at'.1.insert hashtableStringHash hashtableStringKeyeq fuel extension.attr extension)
    return .inl (table, rest)

/-- `globus_gram_protocol_unpack_message`, with what is in the memory of the hash table. -/
def unpackMessage (mem : Nat → HashEntry (List Char) GramExtension) (message : List Char) : Gram GramTable := do
  let table ← ofOption (hashtableInit mem 17)
  loopE (unpackBody fuel) fuel (table, message)

/-- `globus_hashtable_lookup` with a string. -/
def GramTable.find (table : GramTable) (attr : List Char) : Option (Option GramExtension) :=
  table.lookup hashtableStringHash hashtableStringKeyeq fuel attr

/-- `globus_l_gram_protocol_get_string_attribute`. -/
def getStringAttribute (table : GramTable) (attr : List Char) : Gram (List Char) := do
  match ← ofOption (GramTable.find fuel table attr) with
  | none => throw .httpUnpackFailed
  | some extension => return extension.value

/-- `globus_l_gram_protocol_get_int_attribute`. -/
def getIntAttribute (table : GramTable) (attr : List Char) : Gram Int := do
  match ← ofOption (GramTable.find fuel table attr) with
  | none => throw .httpUnpackFailed
  | some extension => return atoi extension.value

end Table

/-! ## Attributes -/

/-- What the name of an attribute has to be like. -/
def AttrOk (attr : List Char) : Prop := attr ≠ [] ∧ ':' ∉ attr ∧ '\x00' ∉ attr

instance (attr : List Char) : Decidable (AttrOk attr) := inferInstanceAs (Decidable (_ ∧ _))

/-- The attributes that the protocol itself uses. -/
def standardAttrs : List (List Char) :=
  [attrProtocolVersion, attrJobStateMask, attrCallbackUrl, attrRsl, attrStatus, attrJobManagerUrl, attrFailureCode,
    attrJobFailureCode]

theorem standardAttrs_ok : ∀ attr ∈ standardAttrs, AttrOk attr := by decide

/-! ## Quoting -/

theorem escapeText_cons (c : Char) (s : List Char) :
    escapeText (c :: s) = if c = '"' ∨ c = '\\' then '\\' :: c :: escapeText s else c :: escapeText s := by
  unfold escapeText
  rw [flatMap_cons]
  split <;> rfl

theorem not_mem_escapeText {c : Char} (hc : c ≠ '\\') {v : List Char} (h : c ∉ v) : c ∉ escapeText v := by
  intro hmem
  obtain ⟨d, hd, hcase⟩ := mem_flatMap.1 hmem
  have hne : c ≠ d := fun heq => h (heq ▸ hd)
  split at hcase <;> simp [hc, hne] at hcase

theorem scanQuoted_escapeText (rest : List Char) : ∀ {v : List Char}, '\x00' ∉ v →
    scanQuoted false (escapeText v ++ '"' :: rest) = some (escapeText v, '"' :: rest)
  | [], _ => by rw [escapeText, flatMap_nil, nil_append, scanQuoted, if_pos (.inr ⟨rfl, rfl⟩)]
  | c :: v, h => by
    rw [mem_cons, not_or] at h
    have ih := scanQuoted_escapeText rest h.2
    have hc : c ≠ '\x00' := fun heq => h.1 heq.symm
    rw [escapeText_cons]
    split
    · -- the backslash is passed and then the character behind it
      next hesc =>
      have hnext : scanQuoted true (c :: (escapeText v ++ '"' :: rest)) =
          some (c :: escapeText v, '"' :: rest) := by
        rw [scanQuoted, if_neg (by simp [hc]), Bool.not_true, Bool.false_and, ih]
        rfl
      exact (congrArg (Option.map _) hnext).trans rfl
    · next hesc =>
      rw [not_or] at hesc
      rw [cons_append, scanQuoted, if_neg (by simp [hc, hesc.1]), beq_false_of_ne hesc.2, Bool.and_false, ih]
      rfl

theorem unescapeValue_cons {c : Char} (hc : c ≠ '\\') (behind s : List Char) :
    unescapeValue behind (c :: s) = (unescapeValue behind s).map (c :: ·) := by
  cases s with
  | nil => exact if_pos hc
  | cons d s => rw [unescapeValue, if_pos hc]

theorem unescapeValue_escapeText (behind : List Char) : ∀ v : List Char,
    unescapeValue behind (escapeText v) = some v
  | [] => rfl
  | c :: v => by
    have ih := unescapeValue_escapeText behind v
    rw [escapeText_cons]
    split
    · rw [unescapeValue, if_neg (by simp), ih]
      rfl
    · next hesc =>
      rw [not_or] at hesc
      rw [unescapeValue_cons hesc.2, ih]
      rfl

theorem unescapeValue_of_not_mem (behind : List Char) : ∀ {v : List Char}, '\\' ∉ v →
    unescapeValue behind v = some v
  | [], _ => rfl
  | c :: v, h => by
    rw [mem_cons, not_or] at h
    rw [unescapeValue_cons (fun heq => h.1 heq.symm), unescapeValue_of_not_mem behind h.2]
    rfl

/-! ## Lines -/

/-- A line of a message. -/
structure GramLine where
  attr : List Char
  value : List Char
  quoted : Bool

def GramLine.text (l : GramLine) : List Char :=
  l.attr ++ ": ".toList ++ (if l.quoted then quoteString l.value else l.value) ++ "\r\n".toList

theorem GramLine.text_append (l : GramLine) (rest : List Char) :
    l.text ++ rest = l.attr ++ ':' :: ' ' :: ((if l.quoted then quoteString l.value else l.value) ++ '\r' :: '\n' :: rest) := by
  simp [GramLine.text]

def GramLine.extension (l : GramLine) : GramExtension := ⟨l.attr, l.value⟩

/-- A line that can be read back. -/
structure GramLine.Ok (l : GramLine) : Prop where
  attr : AttrOk l.attr
  value_nul : '\x00' ∉ l.value
  plain : l.quoted = false → '"' ∉ l.value ∧ '\\' ∉ l.value ∧ '\r' ∉ l.value

theorem scanValue_of_ne {s : List Char} (h : s.head? ≠ some '"') :
    scanValue s = some (s.takeWhile (fun c => c ≠ '\r' ∧ c ≠ '\x00'),
      s.drop (s.takeWhile (fun c => c ≠ '\r' ∧ c ≠ '\x00')).length,
      s.drop (s.takeWhile (fun c => c ≠ '\r' ∧ c ≠ '\x00')).length) := by
  unfold scanValue
  split
  · exact absurd rfl h
  · rfl

theorem GramLine.Ok.scanValue {l : GramLine} (h : l.Ok) (rest : List Char) :
    ∃ value behind, scanValue ((if l.quoted then quoteString l.value else l.value) ++ '\r' :: rest) =
      some (value, behind, '\r' :: rest) ∧ unescapeValue behind value = some l.value := by
  cases hq : l.quoted with
  | true =>
    refine ⟨escapeText l.value, '"' :: '\r' :: rest, ?_, unescapeValue_escapeText _ _⟩
    have hscan := scanQuoted_escapeText ('\r' :: rest) h.value_nul
    rw [if_pos rfl, quoteString, cons_append, append_assoc]
    show (scanQuoted false (escapeText l.value ++ '"' :: '\r' :: rest)).map _ = _
    rw [hscan]
    rfl
  | false =>
    obtain ⟨hquote, hbackslash, hcr⟩ := h.plain hq
    refine ⟨l.value, '\r' :: rest, ?_, unescapeValue_of_not_mem _ hbackslash⟩
    have hhead : (l.value ++ '\r' :: rest).head? ≠ some '"' := by
      cases hv : l.value with
      | nil => simp
      | cons c v =>
        rw [hv, mem_cons, not_or] at hquote
        simpa using fun heq : c = '"' => hquote.1 heq.symm
    have htake : (l.value ++ '\r' :: rest).takeWhile (fun c => c ≠ '\r' ∧ c ≠ '\x00') = l.value := by
      rw [takeWhile_append_of_pos, takeWhile_cons_of_neg (by simp), append_nil]
      intro c hc
      exact decide_eq_true ⟨ne_of_mem_of_not_mem hc hcr, ne_of_mem_of_not_mem hc h.value_nul⟩
    rw [if_neg (by simp), scanValue_of_ne hhead, htake, drop_left]

/-- What is done in `unpackLine` behind the attribute: the value that is stored and the rest of the message. -/
def readValue (s : List Char) : Gram (List Char × List Char) := do
  let (value, behind, rest) ← ofOption (scanValue s)
  let rest ← scanLineEnd '\r' rest
  let rest ← scanLineEnd '\n' rest
  let value ← ofOption (unescapeValue behind value)
  return (cstr value, rest)

theorem unpackLine_attr {attr : List Char} (hcolon : ':' ∉ attr) (hnul : '\x00' ∉ attr) (s : List Char) :
    unpackLine (attr ++ ':' :: ' ' :: s) = readValue s >>= fun r => pure (some (⟨attr, r.1⟩, r.2)) := by
  have htake : (attr ++ ':' :: ' ' :: s).takeWhile (fun c => c ≠ ':' ∧ c ≠ '\x00') = attr := by
    rw [takeWhile_append_of_pos, takeWhile_cons_of_neg (by simp), append_nil]
    intro c hc
    exact decide_eq_true ⟨ne_of_mem_of_not_mem hc hcolon, ne_of_mem_of_not_mem hc hnul⟩
  unfold unpackLine
  dsimp only
  rw [htake, drop_left]
  split
  · next heq => simp at heq
  · next heq =>
    -- the first character of the line is no null character
    cases attr with
    | nil => cases heq
    | cons c attr => exact absurd (List.cons.inj heq).1 (ne_of_mem_of_not_mem mem_cons_self hnul)
  · dsimp only
    rw [failIf_of_not (by simp), pure_bind, failIf_of_not (by simp), pure_bind, tail_cons, readValue]
    simp only [bind_assoc, pure_bind]

theorem GramLine.Ok.unpackLine {l : GramLine} (h : l.Ok) (rest : List Char) :
    unpackLine (l.text ++ rest) = pure (some (l.extension, rest)) := by
  obtain ⟨value, behind, hscan, hvalue⟩ := h.scanValue ('\n' :: rest)
  rw [l.text_append, unpackLine_attr h.attr.2.1 h.attr.2.2, readValue, hscan]
  show (ofOption (unescapeValue behind value) >>= _) >>= _ = _
  rw [hvalue, ofOption_some, pure_bind, cstr_eq_self h.value_nul]
  rfl

/-- The line with a number. -/
def intLine (attr : List Char) (v : Int) : GramLine := ⟨attr, printInt v, false⟩

theorem intLine_ok {attr : List Char} (hattr : attr ∈ standardAttrs) (v : Int) : (intLine attr v).Ok :=
  ⟨standardAttrs_ok attr hattr, not_mem_printInt (by decide) (by decide) v, fun _ =>
    ⟨not_mem_printInt (by decide) (by decide) v, not_mem_printInt (by decide) (by decide) v,
      not_mem_printInt (by decide) (by decide) v⟩⟩

/-! ### Lengths -/

/-- The characters of a value that are written with a backslash. -/
def escapes (v : List Char) : Nat := v.countP fun c => c = '"' ∨ c = '\\'

theorem length_escapeText : ∀ v : List Char, (escapeText v).length = v.length + escapes v
  | [] => rfl
  | c :: v => by
    rw [escapeText_cons, escapes, countP_cons, length_cons]
    have ih := length_escapeText v
    rw [escapes] at ih
    split
    · next h => rw [if_pos (decide_eq_true h), length_cons, length_cons]; omega
    · next h => rw [if_neg (by simpa using h), length_cons]; omega

theorem length_quoteString (v : List Char) : (quoteString v).length = v.length + escapes v + 2 := by
  rw [quoteString, length_cons, length_append, length_escapeText, length_singleton]

theorem escapes_le (v : List Char) : escapes v ≤ v.length := countP_le_length

theorem PackLine.length_print (l : PackLine) (arg : List Char) :
    (l.print arg).length = l.attr.length + arg.length + 4 := by
  simp [PackLine.print]; omega

theorem OutBuf.put_of_lt {b : OutBuf} {s : List Char} (h : b.text.length + s.length < b.size) :
    b.put s = some ⟨b.size, b.text ++ s⟩ := if_pos h

/-! ## Messages -/

/-- The message of some lines. -/
def linesMessage (lines : List GramLine) : List Char := lines.flatMap GramLine.text ++ ['\x00']

/-- The map that the first extension of each attribute makes. -/
def extensionMap (es : List GramExtension) (k : List Char) : Option (List Char × GramExtension) :=
  (es.find? fun e => e.attr == k).map fun e => (e.attr, e)

theorem mapInsert_extensionMap (es : List GramExtension) (e : GramExtension) :
    mapInsert hashtableStringKeyeq (extensionMap es) e.attr e = extensionMap (es ++ [e]) := by
  funext k
  have hsnoc : extensionMap (es ++ [e]) k =
      (extensionMap es k).or (if e.attr = k then some (e.attr, e) else none) := by
    unfold extensionMap
    rw [find?_append, find?_singleton]
    cases es.find? fun e => e.attr == k with
    | some x => rfl
    | none =>
      by_cases hk : e.attr = k <;> simp [hk]
  rw [hsnoc]
  unfold mapInsert
  split
  · next hnone =>
    unfold mapSet
    by_cases hk : e.attr = k
    · have hnone' : extensionMap es k = none := hk ▸ Option.isNone_iff_eq_none.1 hnone
      rw [if_pos (hashtableStringKeyeq_iff.2 hk), if_pos hk, hnone']
      rfl
    · rw [if_neg (fun h => hk (hashtableStringKeyeq_iff.1 h)), if_neg hk, Option.or_none]
  · next hsome =>
    by_cases hk : e.attr = k
    · rw [if_pos hk, ← hk]
      obtain ⟨x, hx⟩ := Option.ne_none_iff_exists'.1 fun h => hsome (Option.isNone_iff_eq_none.2 h)
      rw [hx]
      rfl
    · rw [if_neg hk, Option.or_none]

/-- A table that the unpacking of some lines leaves. -/
def GramTable.Holds (table : GramTable) (es : List GramExtension) : Prop :=
  table.Rep hashtableStringHash hashtableStringKeyeq 17 (extensionMap es) ∧ table.load ≤ es.length

/-- Memory with no strings in it. -/
def blankMem : Nat → HashEntry (List Char) GramExtension := fun _ => ⟨[], ⟨[], []⟩, none, none⟩

section Unpack

variable {fuel : Nat} {lines : List GramLine}

variable {es : List GramExtension}

theorem unpackBody_line {message rest : List Char} {e : GramExtension} (hline : unpackLine message = pure (some (e, rest)))
    {table : GramTable} (h : table.Holds es) (hfuel : es.length ≤ fuel) :
    ∃ table', unpackBody fuel (table, message) = pure (.inl (table', rest)) ∧ table'.Holds (es ++ [e]) := by
  obtain ⟨hrep, hload⟩ := h
  obtain ⟨table', hinsert, hrep', hload', -⟩ := hrep.insert (stringFuncs_ok (by decide)) e.attr e (hload.trans hfuel)
  rw [mapInsert_extensionMap] at hrep'
  refine ⟨table', ?_, hrep', by rw [length_append, length_singleton]; omega⟩
  unfold unpackBody
  rw [hline, pure_bind]
  dsimp only
  rw [hinsert]
  rfl

theorem unpackMessage_loop : ∀ {lines : List GramLine} {n : Nat} {es : List GramExtension} {table : GramTable},
    (∀ l ∈ lines, l.Ok) → table.Holds es → es.length + lines.length ≤ fuel → lines.length < n →
    ∃ table', loopE (unpackBody fuel) n (table, linesMessage lines) = pure table' ∧
      table'.Holds (es ++ lines.map GramLine.extension)
  | _, 0, _, _, _, _, _, hn => by cases hn
  | [], n + 1, es, table, _, h, _, _ => ⟨table, loopE_done rfl, by simpa using h⟩
  | l :: lines, n + 1, es, table, hok, h, hfuel, hn => by
    rw [length_cons] at hfuel hn
    have hle : es.length ≤ fuel := by omega
    obtain ⟨table₁, hstep, h₁⟩ := unpackBody_line ((hok l mem_cons_self).unpackLine (linesMessage lines)) h hle
    obtain ⟨table', hloop, h'⟩ := unpackMessage_loop (forall_mem_cons.1 hok).2 h₁
      (by rw [length_append, length_singleton]; omega) (Nat.lt_of_succ_lt_succ hn)
    have htext : linesMessage (l :: lines) = l.text ++ linesMessage lines := by
      simp [linesMessage]
    rw [append_assoc] at h'
    exact ⟨table', by rw [htext, loopE_next hstep, hloop], h'⟩

/-- A message of lines is unpacked to a table of their extensions, of which the first of each attribute counts. -/
theorem unpackMessage_lines (hok : ∀ l ∈ lines, l.Ok) (mem : Nat → HashEntry (List Char) GramExtension)
    (hfuel : lines.length < fuel) :
    ∃ table, unpackMessage fuel mem (linesMessage lines) = pure table ∧
      table.Holds (lines.map GramLine.extension) := by
  obtain ⟨table, hinit⟩ : ∃ t, hashtableInit mem 17 = some t := ⟨_, if_neg (by decide)⟩
  have hempty : GramTable.Holds table [] := HashTable.Rep.init hinit
  have hle : ([] : List GramExtension).length + lines.length ≤ fuel := by rw [length_nil]; omega
  obtain ⟨table', hloop, h'⟩ := unpackMessage_loop hok hempty hle hfuel
  refine ⟨table', ?_, h'⟩
  unfold unpackMessage
  rw [hinit, ofOption_some, pure_bind]
  exact hloop

theorem GramTable.Holds.find {table : GramTable} (h : table.Holds es)
    (hfuel : es.length ≤ fuel) (k : List Char) :
    GramTable.find fuel table k = some (es.find? fun e => e.attr == k) := by
  unfold GramTable.find
  rw [h.1.lookup (stringFuncs_ok (by decide)) k (h.2.trans hfuel), extensionMap, Option.map_map]
  exact congrArg some (by simp [Function.comp_def])

theorem find?_attr (hnodup : (es.map GramExtension.attr).Nodup) {e : GramExtension}
    (he : e ∈ es) : (es.find? fun e' => e'.attr == e.attr) = some e := by
  obtain ⟨xs, ys, rfl⟩ := append_of_mem he
  rw [map_append, map_cons] at hnodup
  have hnot := (nodup_cons.1 (nodup_middle.1 hnodup)).1
  rw [find?_append, find?_cons_of_pos (by simp), find?_eq_none.2, Option.none_or]
  intro x hx heq
  exact hnot (mem_append_left _ (mem_map.2 ⟨x, hx, eq_of_beq heq⟩))

/-- The table has the extensions `es` and no other attribute. -/
structure GramTable.Maps (fuel : Nat) (table : GramTable) (es : List GramExtension) : Prop where
  mem : ∀ e ∈ es, GramTable.find fuel table e.attr = some (some e)
  only : ∀ k, (∀ e ∈ es, e.attr ≠ k) → GramTable.find fuel table k = some none

section Attributes

variable {table : GramTable} {es : List GramExtension} {k : List Char}

theorem GramTable.Holds.maps (h : table.Holds es) (hfuel : es.length ≤ fuel)
    (hnodup : (es.map GramExtension.attr).Nodup) : table.Maps fuel es where
  mem _ he := by rw [h.find hfuel, find?_attr hnodup he]
  only k hk := by
    rw [h.find hfuel, find?_eq_none.2]
    intro e he heq
    exact hk e he (eq_of_beq heq)

theorem GramTable.Maps.getStringAttribute (h : table.Maps fuel es) {v : List Char} (he : ⟨k, v⟩ ∈ es) :
    getStringAttribute fuel table k = pure v := by
  unfold Globus.getStringAttribute
  rw [h.mem _ he]
  rfl

theorem GramTable.Maps.getIntAttribute (h : table.Maps fuel es) {v : Int} (he : ⟨k, printInt v⟩ ∈ es)
    (hlo : -2 ^ 31 ≤ v) (hhi : v < 2 ^ 31) : getIntAttribute fuel table k = pure v := by
  unfold Globus.getIntAttribute
  rw [h.mem _ he, ofOption_some, pure_bind]
  dsimp only
  rw [atoi_printInt hlo hhi]

end Attributes

end Unpack

end Globus
