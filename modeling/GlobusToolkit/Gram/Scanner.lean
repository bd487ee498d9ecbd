/-
`globus_gram_protocol_unpack_message` on any bytes (gram/protocol/source/globus_gram_protocol_pack.c). The loop over a quoted value looks
for a quote or a null character and not for the end of the message, and the loop that takes the backslashes out of a value takes the
character behind the value for a backslash at its end. So there are messages that are read beyond their end, and messages that are
accepted with a value that is not closed or has a character from outside. They are described here by their text.
-/
import GlobusToolkit.Gram.Message

namespace Globus

open Lib List

/-! ## Texts of values -/

/-- Text in which each backslash has a character behind it, and `stop` holds of none of the others. -/
inductive Escaped (stop : Char → Prop) : List Char → Prop
  | nil : Escaped stop []
  | char {c : Char} {s : List Char} (hc : c ≠ '\\') (hstop : ¬ stop c) (h : Escaped stop s) : Escaped stop (c :: s)
  | escape (c : Char) {s : List Char} (h : Escaped stop s) : Escaped stop ('\\' :: c :: s)

/-- The text of a value in quotes. -/
abbrev QuotedText := Escaped (· = '"')

/-- Text with no null character and no quote that would end a value. -/
def OpenText (u : List Char) : Prop := '\x00' ∉ u ∧ (QuotedText u ∨ ∃ v, QuotedText v ∧ u = v ++ ['\\'])

/-- The text of a value without quotes. -/
def PlainText (v : List Char) : Prop := v.head? ≠ some '"' ∧ '\r' ∉ v ∧ '\x00' ∉ v

/-- A value that is complete, with its text; one in quotes that ends with a null character; or one without quotes with a
backslash at its end. -/
inductive ValueKind where
  | sound (text : List Char)
  | unclosed
  | dangling

/-- The value at the beginning of a text, and what is behind it. -/
inductive Value : List Char → ValueKind → List Char → Prop
  | quoted {v : List Char} (t : List Char) (hv : QuotedText v) (hnul : '\x00' ∉ v) : Value ('"' :: (v ++ '"' :: t)) (.sound v) t
  | unclosed {u : List Char} (t : List Char) (hu : OpenText u) : Value ('"' :: (u ++ '\x00' :: t)) .unclosed t
  | plain {v t : List Char} (hv : Escaped (fun _ => False) v) (hplain : PlainText v)
      (ht : ∀ c ∈ t.head?, c = '\r' ∨ c = '\x00') : Value (v ++ t) (.sound v) t
  | dangling {v t : List Char} {c : Char} (hv : Escaped (fun _ => False) v) (hplain : PlainText (v ++ ['\\']))
      (hc : c = '\r' ∨ c = '\x00') : Value (v ++ ['\\'] ++ c :: t) .dangling (c :: t)

/-- The end of a line, or of the message instead, and what is behind it. -/
inductive LineEnd : List Char → List Char → Prop
  | crlf (t : List Char) : LineEnd ('\r' :: '\n' :: t) t
  | cr : LineEnd ['\r'] []
  | stop : LineEnd [] []

/-- The line at the beginning of a message: the kind of its value, and the rest of the message. -/
inductive Line : List Char → ValueKind → List Char → Prop
  | mk {attr s t rest : List Char} {k : ValueKind} (hcolon : ':' ∉ attr) (hnul : '\x00' ∉ attr) (hv : Value s k t) (ht : LineEnd t rest) :
      Line (attr ++ ':' :: ' ' :: s) k rest

/-- There are no more lines. -/
def AtEnd (message : List Char) : Prop := message.head? = some '\x00' ∨ (':' ∉ message ∧ '\x00' ∉ message)

/-- Behind some lines there is a quote with none that closes it, or the message ends with a value without quotes and a backslash. -/
inductive Overrun : List Char → Prop
  | quote {attr u : List Char} (hcolon : ':' ∉ attr) (hnul : '\x00' ∉ attr) (hu : OpenText u) : Overrun (attr ++ ':' :: ' ' :: '"' :: u)
  | backslash {attr v : List Char} (hcolon : ':' ∉ attr) (hnul : '\x00' ∉ attr) (hv : Escaped (fun _ => False) v)
      (hplain : PlainText (v ++ ['\\'])) : Overrun (attr ++ ':' :: ' ' :: (v ++ ['\\']))
  | line {message rest : List Char} {k : ValueKind} (h : Line message k rest) (hrest : Overrun rest) : Overrun message

/-- The message is some lines up to its end. -/
inductive Accepted : List Char → Prop
  | stop {message : List Char} (h : AtEnd message) : Accepted message
  | line {message rest : List Char} {k : ValueKind} (h : Line message k rest) (hrest : Accepted rest) : Accepted message

/-- The message is some lines, and the value of one of them is not complete. -/
inductive Spoiled : List Char → Prop
  | here {message rest : List Char} {k : ValueKind} (h : Line message k rest) (hk : ∀ v, k ≠ .sound v) (hrest : Accepted rest) :
      Spoiled message
  | later {message rest : List Char} {k : ValueKind} (h : Line message k rest) (hrest : Spoiled rest) : Spoiled message

/-! ## The loops over a value -/

/-- A text up to the first character that stops it, or with a backslash at its end. -/
theorem exists_escaped (stop : Char → Prop) : ∀ s : List Char, ∃ v t, s = v ++ t ∧ Escaped stop v ∧
    (t = [] ∨ t = ['\\'] ∨ ∃ c t', t = c :: t' ∧ stop c)
  | [] => ⟨[], [], rfl, .nil, .inl rfl⟩
  | [c] => by
    by_cases hc : c = '\\'
    · exact ⟨[], [c], rfl, .nil, .inr (.inl (by rw [hc]))⟩
    · by_cases hstop : stop c
      · exact ⟨[], [c], rfl, .nil, .inr (.inr ⟨c, [], rfl, hstop⟩)⟩
      · exact ⟨[c], [], rfl, .char hc hstop .nil, .inl rfl⟩
  | c :: d :: s => by
    by_cases hc : c = '\\'
    · obtain ⟨v, t, rfl, hv, ht⟩ := exists_escaped stop s
      exact ⟨c :: d :: v, t, rfl, hc ▸ .escape d hv, ht⟩
    · by_cases hstop : stop c
      · exact ⟨[], c :: d :: s, rfl, .nil, .inr (.inr ⟨c, d :: s, rfl, hstop⟩)⟩
      · obtain ⟨v, t, heq, hv, ht⟩ := exists_escaped stop (d :: s)
        exact ⟨c :: v, t, by rw [heq]; rfl, .char hc hstop hv, ht⟩

variable {v : List Char}

theorem scanQuoted_escaped (hv : QuotedText v) (hnul : '\x00' ∉ v) (rest : List Char) :
    scanQuoted false (v ++ rest) = (scanQuoted false rest).map fun r => (v ++ r.1, r.2) := by
  induction hv with
  | nil => simp
  | @char c s hc hstop h ih =>
    rw [mem_cons, not_or] at hnul
    rw [cons_append, scanQuoted, if_neg (by simp [Ne.symm hnul.1, hstop]), beq_false_of_ne hc, Bool.and_false, ih hnul.2,
      Option.map_map]
    rfl
  | @escape c s h ih =>
    simp only [mem_cons, not_or] at hnul
    rw [cons_append, cons_append, scanQuoted, if_neg (by simp), scanQuoted, if_neg (by simp [Ne.symm hnul.2.1])]
    show ((scanQuoted false (s ++ rest)).map _).map _ = _
    rw [ih hnul.2.2, Option.map_map, Option.map_map]
    rfl

theorem scanQuoted_closed (hv : QuotedText v) (hnul : '\x00' ∉ v) (t : List Char) :
    scanQuoted false (v ++ '"' :: t) = some (v, '"' :: t) := by
  rw [scanQuoted_escaped hv hnul, scanQuoted, if_pos (.inr ⟨rfl, rfl⟩)]
  simp

theorem scanQuoted_open {u : List Char} (hu : OpenText u) : scanQuoted false u = none := by
  obtain ⟨hnul, hu | ⟨v, hv, rfl⟩⟩ := hu
  · have h := scanQuoted_escaped hu hnul []
    rwa [append_nil] at h
  · rw [scanQuoted_escaped hv (fun h => hnul (mem_append_left _ h))]
    rfl

theorem scanQuoted_unclosed {u : List Char} (hu : OpenText u) (t : List Char) :
    scanQuoted false (u ++ '\x00' :: t) = some (u, '\x00' :: t) := by
  obtain ⟨hnul, hu | ⟨v, hv, rfl⟩⟩ := hu
  · rw [scanQuoted_escaped hu hnul, scanQuoted, if_pos (.inl rfl)]
    simp
  · rw [append_assoc, scanQuoted_escaped hv (fun h => hnul (mem_append_left _ h))]
    rfl

theorem unescapeValue_escaped {stop : Char → Prop} (hv : Escaped stop v) :
    ∃ x, (∀ c ∈ x, c ∈ v) ∧ ∀ behind t, unescapeValue behind (v ++ t) = (unescapeValue behind t).map (x ++ ·) := by
  induction hv with
  | nil => exact ⟨[], by simp, by simp⟩
  | @char c s hc hstop h ih =>
    obtain ⟨x, hx, hunescape⟩ := ih
    refine ⟨c :: x, ?_, fun behind t => ?_⟩
    · intro d hd
      rcases mem_cons.1 hd with rfl | hd
      · exact mem_cons_self
      · exact mem_cons_of_mem _ (hx d hd)
    · rw [cons_append, unescapeValue_cons hc, hunescape, Option.map_map]
      rfl
  | @escape c s h ih =>
    obtain ⟨x, hx, hunescape⟩ := ih
    refine ⟨c :: x, ?_, fun behind t => ?_⟩
    · intro d hd
      rcases mem_cons.1 hd with rfl | hd
      · simp
      · simp [hx d hd]
    · rw [cons_append, cons_append, unescapeValue, if_neg (by simp), hunescape, Option.map_map]
      rfl

/-! ## The value of a line -/

theorem LineEnd.scan {t rest : List Char} (h : LineEnd t rest) : (scanLineEnd '\r' t >>= scanLineEnd '\n') = pure rest := by
  cases h <;> rfl

theorem exists_lineEnd (t : List Char) :
    (∃ rest, LineEnd t rest) ∨ (scanLineEnd '\r' t >>= scanLineEnd '\n') = throw .httpUnpackFailed := by
  match t with
  | [] => exact .inl ⟨[], .stop⟩
  | c :: t =>
    by_cases hc : c = '\r'
    · subst hc
      match t with
      | [] => exact .inl ⟨[], .cr⟩
      | d :: t =>
        by_cases hd : d = '\n'
        · subst hd
          exact .inl ⟨t, .crlf t⟩
        · refine .inr ?_
          show scanLineEnd '\n' (d :: t) = _
          rw [scanLineEnd, if_pos hd]
    · refine .inr ?_
      rw [scanLineEnd, if_pos hc]
      rfl

theorem scanValue_plain {v t : List Char} (hplain : PlainText v) (ht : ∀ c ∈ t.head?, c = '\r' ∨ c = '\x00') :
    scanValue (v ++ t) = some (v, t, t) := by
  obtain ⟨hhead, hcr, hnul⟩ := hplain
  have hquote : (v ++ t).head? ≠ some '"' := by
    cases v with
    | cons c v => exact hhead
    | nil =>
      intro h
      rcases ht '"' h with h | h <;> cases h
  have htake : (v ++ t).takeWhile (fun c => c ≠ '\r' ∧ c ≠ '\x00') = v := by
    refine takeWhile_append_of_head ?_ ?_
    · intro c hc
      exact decide_eq_true ⟨ne_of_mem_of_not_mem hc hcr, ne_of_mem_of_not_mem hc hnul⟩
    · intro c hc
      rcases ht c hc with rfl | rfl <;> rfl
  rw [scanValue_of_ne hquote, htake, drop_left]

theorem readValue_of_scan {s v behind t x : List Char} (hscan : scanValue s = some (v, behind, t))
    (hvalue : unescapeValue behind v = some x) :
    readValue s = (scanLineEnd '\r' t >>= scanLineEnd '\n') >>= fun rest => pure (cstr x, rest) := by
  unfold readValue
  rw [hscan, ofOption_some, pure_bind]
  simp only [hvalue, ofOption_some, pure_bind, bind_assoc]

variable {k : ValueKind}

theorem Value.readValue {s t : List Char} (h : Value s k t) :
    ∃ x, readValue s = ((scanLineEnd '\r' t >>= scanLineEnd '\n') >>= fun rest => pure (x, rest)) ∧
      ∀ v, k = .sound v → unescapeValue [] v = some x := by
  have hsound : ∀ {stop : Char → Prop} {v : List Char}, Escaped stop v → '\x00' ∉ v →
      ∃ x, cstr x = x ∧ ∀ behind, unescapeValue behind v = some x := by
    intro stop v hv hnul
    obtain ⟨x, hx, hunescape⟩ := unescapeValue_escaped hv
    refine ⟨x, cstr_eq_self fun h => hnul (hx _ h), fun behind => ?_⟩
    simpa [Globus.unescapeValue] using hunescape behind []
  cases h with
  | @quoted v t hv hnul =>
    obtain ⟨x, hx, hunescape⟩ := hsound hv hnul
    have hscan : scanValue ('"' :: (v ++ '"' :: t)) = some (v, '"' :: t, t) := by
      show (scanQuoted false (v ++ '"' :: t)).map _ = _
      rw [scanQuoted_closed hv hnul]
      rfl
    refine ⟨x, by rw [readValue_of_scan hscan (hunescape _), hx], ?_⟩
    rintro _ ⟨⟩
    exact hunescape []
  | @unclosed u t hu =>
    have hscan : scanValue ('"' :: (u ++ '\x00' :: t)) = some (u, '\x00' :: t, t) := by
      show (scanQuoted false (u ++ '\x00' :: t)).map _ = _
      rw [scanQuoted_unclosed hu]
      rfl
    have hvalue : ∃ x, unescapeValue ('\x00' :: t) u = some x := by
      obtain ⟨-, hu | ⟨v, hv, rfl⟩⟩ := hu
      · obtain ⟨x, -, hunescape⟩ := unescapeValue_escaped hu
        exact ⟨x, by simpa [Globus.unescapeValue] using hunescape ('\x00' :: t) []⟩
      · obtain ⟨x, -, hunescape⟩ := unescapeValue_escaped hv
        exact ⟨_, hunescape ('\x00' :: t) ['\\']⟩
    obtain ⟨x, hx⟩ := hvalue
    exact ⟨cstr x, readValue_of_scan hscan hx, by rintro _ ⟨⟩⟩
  | @plain v t hv hplain ht =>
    obtain ⟨x, hx, hunescape⟩ := hsound hv hplain.2.2
    refine ⟨x, by rw [readValue_of_scan (scanValue_plain hplain ht) (hunescape _), hx], ?_⟩
    rintro _ ⟨⟩
    exact hunescape []
  | @dangling v t c hv hplain hc =>
    obtain ⟨x, -, hunescape⟩ := unescapeValue_escaped hv
    have hscan := scanValue_plain (t := c :: t) hplain (by rintro _ ⟨⟩; exact hc)
    exact ⟨_, readValue_of_scan hscan (hunescape (c :: t) ['\\']), by rintro _ ⟨⟩⟩

theorem readValue_open {u : List Char} (hu : OpenText u) : readValue ('"' :: u) = diverge := by
  have hscan : scanValue ('"' :: u) = none := by
    show (scanQuoted false u).map _ = _
    rw [scanQuoted_open hu]
    rfl
  unfold readValue
  rw [hscan]
  rfl

theorem readValue_backslash (hv : Escaped (fun _ => False) v) (hplain : PlainText (v ++ ['\\'])) :
    readValue (v ++ ['\\']) = diverge := by
  obtain ⟨x, -, hunescape⟩ := unescapeValue_escaped hv
  have hscan : scanValue (v ++ ['\\']) = some (v ++ ['\\'], [], []) := by
    simpa using scanValue_plain (t := []) hplain (by simp)
  have hvalue : unescapeValue [] (v ++ ['\\']) = none := hunescape [] ['\\']
  unfold readValue
  rw [hscan, ofOption_some, pure_bind]
  show ofOption (unescapeValue [] (v ++ ['\\'])) >>= _ = _
  rw [hvalue]
  rfl

theorem value_cases (s : List Char) : (∃ u, OpenText u ∧ s = '"' :: u) ∨
    (∃ v, Escaped (fun _ => False) v ∧ PlainText (v ++ ['\\']) ∧ s = v ++ ['\\']) ∨ ∃ k t, Value s k t := by
  by_cases hquote : s.head? = some '"'
  · obtain ⟨s, rfl⟩ := head?_eq_some_iff.1 hquote
    -- the text in front of the first null character, if there is one
    obtain ⟨u, r, rfl, hnul, hr⟩ : ∃ u r, s = u ++ r ∧ '\x00' ∉ u ∧ (r = [] ∨ ∃ t, r = '\x00' :: t) := by
      by_cases hmem : '\x00' ∈ s
      · obtain ⟨u, t, rfl, hu⟩ := eq_append_cons_of_mem hmem
        exact ⟨u, _, rfl, hu, .inr ⟨t, rfl⟩⟩
      · exact ⟨s, [], by simp, hmem, .inl rfl⟩
    obtain ⟨v, t, rfl, hv, ht⟩ := exists_escaped (· = '"') u
    have hopen : t = [] ∨ t = ['\\'] → OpenText (v ++ t) := by
      rintro (rfl | rfl)
      · exact ⟨hnul, .inl (by simpa using hv)⟩
      · exact ⟨hnul, .inr ⟨v, hv, rfl⟩⟩
    have hcases : OpenText (v ++ t) ∨ ∃ t', t = '"' :: t' := by
      rcases ht with ht | ht | ⟨c, t', rfl, rfl⟩
      · exact .inl (hopen (.inl ht))
      · exact .inl (hopen (.inr ht))
      · exact .inr ⟨t', rfl⟩
    rcases hcases with hu | ⟨t', rfl⟩
    · rcases hr with rfl | ⟨t', rfl⟩
      · exact .inl ⟨v ++ t, hu, by simp⟩
      · exact .inr (.inr ⟨_, _, .unclosed t' hu⟩)
    · refine .inr (.inr ⟨.sound v, t' ++ r, ?_⟩)
      have h := Value.quoted (t' ++ r) hv fun h => hnul (mem_append_left _ h)
      simpa using h
  · -- the text up to the end of the line
    obtain ⟨v, t, rfl, hv, ht⟩ := exists_append_of_class (fun c => decide (c ≠ '\r' ∧ c ≠ '\x00')) s
    have hplain : PlainText v := by
      refine ⟨fun h => hquote ?_, fun h => by simpa using hv _ h, fun h => by simpa using hv _ h⟩
      rw [head?_append, h]
      rfl
    have ht' : ∀ c ∈ t.head?, c = '\r' ∨ c = '\x00' := by
      intro c hc
      have h := ht c hc
      simp only [ne_eq, decide_eq_false_iff_not, not_and_or, not_not] at h
      exact h
    obtain ⟨w, u, rfl, hescaped, hu⟩ := exists_escaped (fun _ => False) v
    rcases hu with rfl | rfl | ⟨c, t', -, ⟨⟩⟩
    · rw [append_nil] at hplain ⊢
      exact .inr (.inr ⟨_, _, .plain hescaped hplain ht'⟩)
    · cases t with
      | nil => exact .inr (.inl ⟨w, hescaped, hplain, by simp⟩)
      | cons c t => exact .inr (.inr ⟨_, _, .dangling hescaped hplain (ht' c rfl)⟩)

theorem Value.sound_of_sound {s v t t' : List Char} (h : Value s (.sound v) t) (h' : Value s k t') :
    ∃ v', k = .sound v' := by
  cases h' with
  | quoted => exact ⟨_, rfl⟩
  | plain => exact ⟨_, rfl⟩
  | @unclosed u t' hu =>
    have hscan := scanQuoted_unclosed hu t'
    generalize hs : '"' :: (u ++ '\x00' :: t') = s at h
    cases h with
    | quoted t hv hnul =>
      rw [(List.cons.inj hs).2, scanQuoted_closed hv hnul] at hscan
      cases hscan
    | @plain v t hv hplain ht =>
      cases v with
      | nil => rcases ht '"' (by rw [← nil_append t, ← hs]; rfl) with h | h <;> cases h
      | cons c v => exact absurd (congrArg head? hs.symm) hplain.1
  | @dangling w t' c hw hplain' hc =>
    have hscan := scanValue_plain (t := c :: t') hplain' (by rintro _ ⟨⟩; exact hc)
    generalize hs : w ++ ['\\'] ++ c :: t' = s at h hscan
    cases h with
    | quoted t hv hnul =>
      refine absurd ?_ hplain'.1
      have hhead := congrArg head? hs
      rwa [head?_append, Option.or_of_isSome (by simp)] at hhead
    | @plain v t hv hplain ht =>
      -- with a backslash at its end the text alone is not enough
      obtain ⟨x, -, hx⟩ := unescapeValue_escaped hv
      obtain ⟨y, -, hy⟩ := unescapeValue_escaped hw
      rw [scanValue_plain hplain ht] at hscan
      cases hscan
      have hsome := hx [] []
      rw [append_nil, hy [] ['\\']] at hsome
      cases hsome

/-! ## Lines -/

/-- The value of the line that `e` was stored for is complete, and its text alone gives what was stored. -/
def SoundLine (message : List Char) (e : GramExtension) : Prop :=
  ∃ s v t, message = e.attr ++ ':' :: ' ' :: s ∧ Value s (.sound v) t ∧ unescapeValue [] v = some e.value

theorem Line.unpackLine {message rest : List Char} (h : Line message k rest) :
    ∃ e, unpackLine message = pure (some (e, rest)) ∧ (SoundLine message e ↔ ∃ v, k = .sound v) := by
  obtain @⟨attr, s, t, rest, k, hcolon, hnul, hv, ht⟩ := h
  obtain ⟨x, hx, hsound⟩ := hv.readValue
  refine ⟨⟨attr, x⟩, ?_, ?_, ?_⟩
  · rw [unpackLine_attr hcolon hnul, hx, ht.scan]
    rfl
  · rintro ⟨s', v, t', heq, hv', -⟩
    cases append_cancel_left heq
    exact hv'.sound_of_sound hv
  · rintro ⟨v, rfl⟩
    exact ⟨s, v, t, rfl, hv, hsound v rfl⟩

theorem AtEnd.unpackLine {message : List Char} (h : AtEnd message) : unpackLine message = pure none := by
  rcases h with h | ⟨hcolon, hnul⟩
  · obtain ⟨message, rfl⟩ := head?_eq_some_iff.1 h
    rfl
  · have htake : message.takeWhile (fun c => c ≠ ':' ∧ c ≠ '\x00') = message := by
      refine takeWhile_eq_self_iff.2 fun c hc => ?_
      exact decide_eq_true ⟨ne_of_mem_of_not_mem hc hcolon, ne_of_mem_of_not_mem hc hnul⟩
    unfold Globus.unpackLine
    dsimp only
    rw [htake, drop_length]
    split <;> rfl

theorem unpackLine_malformed {attr s : List Char} {c : Char} (hattr : ∀ a ∈ attr, a ≠ ':' ∧ a ≠ '\x00')
    (hc : (c = ':' ∧ s.head? ≠ some ' ') ∨ (c = '\x00' ∧ attr ≠ [])) :
    unpackLine (attr ++ c :: s) = throw .httpUnpackFailed := by
  have htake : (attr ++ c :: s).takeWhile (fun c => c ≠ ':' ∧ c ≠ '\x00') = attr := by
    refine takeWhile_append_of_head (fun a ha => decide_eq_true (hattr a ha)) ?_
    rintro _ ⟨⟩
    rcases hc with ⟨rfl, -⟩ | ⟨rfl, -⟩ <;> rfl
  unfold unpackLine
  dsimp only
  rw [htake, drop_left]
  split
  · next heq => simp at heq
  · next heq =>
    cases attr with
    | nil =>
      rcases hc with ⟨rfl, -⟩ | ⟨-, hne⟩
      · cases heq
      · exact absurd rfl hne
    | cons a attr => exact absurd (List.cons.inj heq).1 (hattr a mem_cons_self).2
  · dsimp only
    rcases hc with ⟨rfl, hs⟩ | ⟨rfl, -⟩
    · rw [failIf_of_not (by simp), pure_bind, failIf, if_pos hs]
      rfl
    · rfl

/-- All that one time around the loop can do. -/
theorem unpackLine_cases (message : List Char) :
    (AtEnd message ∧ unpackLine message = pure none) ∨ unpackLine message = throw .httpUnpackFailed ∨
    (Overrun message ∧ unpackLine message = diverge) ∨
    ∃ k rest e, Line message k rest ∧ unpackLine message = pure (some (e, rest)) := by
  obtain ⟨attr, r, rfl, hattr, hr⟩ := exists_append_of_class (fun c => decide (c ≠ ':' ∧ c ≠ '\x00')) message
  simp only [decide_eq_true_eq] at hattr
  have hcolon : ':' ∉ attr := fun h => (hattr _ h).1 rfl
  have hnul : '\x00' ∉ attr := fun h => (hattr _ h).2 rfl
  match r with
  | [] =>
    have hend : AtEnd (attr ++ []) := .inr (by simp [hcolon, hnul])
    exact .inl ⟨hend, hend.unpackLine⟩
  | c :: s =>
    have hc : c = ':' ∨ c = '\x00' := by
      have h := hr c rfl
      simpa [or_iff_not_imp_left] using h
    rcases hc with rfl | rfl
    · by_cases hs : s.head? = some ' '
      · obtain ⟨s, rfl⟩ := head?_eq_some_iff.1 hs
        rcases value_cases s with ⟨u, hu, rfl⟩ | ⟨v, hv, hplain, rfl⟩ | ⟨k, t, hv⟩
        · exact .inr (.inr (.inl ⟨.quote hcolon hnul hu, by rw [unpackLine_attr hcolon hnul, readValue_open hu]; rfl⟩))
        · exact .inr (.inr (.inl ⟨.backslash hcolon hnul hv hplain, by
            rw [unpackLine_attr hcolon hnul, readValue_backslash hv hplain]; rfl⟩))
        · rcases exists_lineEnd t with ⟨rest, ht⟩ | ht
          · obtain ⟨e, he, -⟩ := (Line.mk hcolon hnul hv ht).unpackLine
            exact .inr (.inr (.inr ⟨k, rest, e, .mk hcolon hnul hv ht, he⟩))
          · obtain ⟨x, hx, -⟩ := hv.readValue
            refine .inr (.inl ?_)
            rw [unpackLine_attr hcolon hnul, hx, ht]
            rfl
      · exact .inr (.inl (unpackLine_malformed hattr (.inl ⟨rfl, hs⟩)))
    · by_cases hne : attr = []
      · subst hne
        exact .inl ⟨.inl rfl, AtEnd.unpackLine (.inl rfl)⟩
      · exact .inr (.inl (unpackLine_malformed hattr (.inr ⟨rfl, hne⟩)))

/-! ### What a line does to a message -/

section Step

variable {message rest : List Char} {e : GramExtension}

theorem line_of_unpackLine (h : unpackLine message = pure (some (e, rest))) : ∃ k, Line message k rest := by
  rcases unpackLine_cases message with ⟨-, h'⟩ | h' | ⟨-, h'⟩ | ⟨k, rest', e', hline, h'⟩ <;> rw [h] at h' <;> cases h'
  exact ⟨k, hline⟩

theorem Overrun.unpackLine (h : Overrun message) :
    unpackLine message = diverge ∨ ∃ e rest, unpackLine message = pure (some (e, rest)) ∧ Overrun rest := by
  cases h with
  | quote hcolon hnul hu =>
    rw [unpackLine_attr hcolon hnul, readValue_open hu]
    exact .inl rfl
  | backslash hcolon hnul hv hplain =>
    rw [unpackLine_attr hcolon hnul, readValue_backslash hv hplain]
    exact .inl rfl
  | line hline hrest =>
    obtain ⟨e, he, -⟩ := hline.unpackLine
    exact .inr ⟨e, _, he, hrest⟩

theorem Accepted.unpackLine (h : Accepted message) :
    unpackLine message = pure none ∨ ∃ e rest, unpackLine message = pure (some (e, rest)) ∧ Accepted rest := by
  cases h with
  | stop hend => exact .inl hend.unpackLine
  | line hline hrest =>
    obtain ⟨e, he, -⟩ := hline.unpackLine
    exact .inr ⟨e, _, he, hrest⟩

theorem Spoiled.unpackLine (h : Spoiled message) : ∃ e rest, unpackLine message = pure (some (e, rest)) ∧
    ((¬ SoundLine message e ∧ Accepted rest) ∨ Spoiled rest) := by
  cases h with
  | here hline hk hrest =>
    obtain ⟨e, he, hsound⟩ := hline.unpackLine
    refine ⟨e, _, he, .inl ⟨fun hs => ?_, hrest⟩⟩
    obtain ⟨v, hv⟩ := hsound.1 hs
    exact hk v hv
  | later hline hrest =>
    obtain ⟨e, he, -⟩ := hline.unpackLine
    exact ⟨e, _, he, .inr hrest⟩

theorem Spoiled.accepted (h : Spoiled message) : Accepted message := by
  induction h with
  | here hline _ hrest => exact .line hline hrest
  | later hline _ ih => exact .line hline ih

variable (h : unpackLine message = pure (some (e, rest)))
include h

theorem overrun_line_iff : Overrun message ↔ Overrun rest := by
  constructor
  · intro hover
    rcases hover.unpackLine with h' | ⟨e', rest', h', hrest⟩ <;> rw [h] at h' <;> cases h'
    exact hrest
  · intro hrest
    obtain ⟨k, hline⟩ := line_of_unpackLine h
    exact .line hline hrest

theorem accepted_line_iff : Accepted message ↔ Accepted rest := by
  constructor
  · intro haccepted
    rcases haccepted.unpackLine with h' | ⟨e', rest', h', hrest⟩ <;> rw [h] at h' <;> cases h'
    exact hrest
  · intro hrest
    obtain ⟨k, hline⟩ := line_of_unpackLine h
    exact .line hline hrest

theorem spoiled_line_iff :
    Spoiled message ↔ (¬ SoundLine message e ∧ Accepted rest) ∨ Spoiled rest := by
  constructor
  · intro hspoiled
    obtain ⟨e', rest', h', hcases⟩ := hspoiled.unpackLine
    rw [h] at h'
    cases h'
    exact hcases
  · obtain ⟨k, hline⟩ := line_of_unpackLine h
    obtain ⟨e', h', hsound⟩ := hline.unpackLine
    rw [h] at h'
    cases h'
    rintro (⟨hs, hrest⟩ | hrest)
    · exact .here hline (fun v hv => hs (hsound.2 ⟨v, hv⟩)) hrest
    · exact .later hline hrest

end Step

theorem Line.length_lt {message rest : List Char} (h : Line message k rest) : rest.length < message.length := by
  obtain @⟨attr, s, t, rest, k, -, -, hv, ht⟩ := h
  have hvalue : t.length ≤ s.length := by
    cases hv <;> simp only [length_append, length_cons] <;> omega
  have hend : rest.length ≤ t.length := by
    cases ht with
    | crlf => simp only [length_cons]; omega
    | cr => simp
    | stop => exact le_rfl
  simp only [length_append, length_cons]
  omega

/-! ## Whole messages -/

section Run

variable {fuel : Nat}

theorem unpackLoop_cases : ∀ {n : Nat} {message : List Char} {es : List GramExtension} {table : GramTable}, table.Holds es →
    es.length + message.length ≤ fuel → message.length < n →
    (Overrun message ∧ loopE (unpackBody fuel) n (table, message) = diverge) ∨
    (¬ Overrun message ∧ ¬ Accepted message ∧ ∃ err, loopE (unpackBody fuel) n (table, message) = throw err) ∨
    (¬ Overrun message ∧ Accepted message ∧ ∃ table', loopE (unpackBody fuel) n (table, message) = pure table')
  | 0, _, _, _, _, _, hn => by cases hn
  | n + 1, message, es, table, h, hfuel, hn => by
    rcases unpackLine_cases message with ⟨hend, hline⟩ | hline | ⟨hover, hline⟩ | ⟨k, rest, e, hl, hline⟩
    · refine .inr (.inr ⟨fun hover => ?_, .stop hend, table, loopE_done (by rw [unpackBody, hline]; rfl)⟩)
      rcases hover.unpackLine with h' | ⟨e, rest, h', -⟩ <;> rw [hline] at h' <;> cases h'
    · refine .inr (.inl ⟨fun hover => ?_, fun haccepted => ?_, _, loopE_throw (by rw [unpackBody, hline]; rfl)⟩)
      · rcases hover.unpackLine with h' | ⟨e, rest, h', -⟩ <;> rw [hline] at h' <;> cases h'
      · rcases haccepted.unpackLine with h' | ⟨e, rest, h', -⟩ <;> rw [hline] at h' <;> cases h'
    · exact .inl ⟨hover, loopE_diverge (by rw [unpackBody, hline]; rfl)⟩
    · have hlt := hl.length_lt
      obtain ⟨table', hbody, h'⟩ := unpackBody_line hline h (show es.length ≤ fuel by omega)
      rw [overrun_line_iff hline, accepted_line_iff hline, loopE_next hbody]
      exact unpackLoop_cases h' (by rw [length_append, length_singleton]; omega) (by omega)

theorem unpackMessage_cases (mem : Nat → HashEntry (List Char) GramExtension) {message : List Char} (hfuel : message.length < fuel) :
    (Overrun message ∧ unpackMessage fuel mem message = diverge) ∨
    (¬ Overrun message ∧ ¬ Accepted message ∧ ∃ err, unpackMessage fuel mem message = throw err) ∨
    (¬ Overrun message ∧ Accepted message ∧ ∃ table, unpackMessage fuel mem message = pure table) := by
  obtain ⟨table, hinit⟩ : ∃ t, hashtableInit mem 17 = some t := ⟨_, if_neg (by decide)⟩
  have hempty : GramTable.Holds table [] := HashTable.Rep.init hinit
  have hunpack : unpackMessage fuel mem message = loopE (unpackBody fuel) fuel (table, message) := by
    unfold unpackMessage
    rw [hinit, ofOption_some, pure_bind]
  rw [hunpack]
  exact unpackLoop_cases hempty (by rw [length_nil]; omega) hfuel

/-- A time around the loop in which a line is stored. -/
def LineStep (message rest : List Char) : Prop := ∃ e, unpackLine message = pure (some (e, rest))

/-- All lines that are stored are sound if no value of an accepted message spoils it. -/
theorem soundLines_iff {message : List Char} (h : Accepted message) :
    (∀ m e rest, Relation.ReflTransGen LineStep message m → unpackLine m = pure (some (e, rest)) → SoundLine m e) ↔
      ¬ Spoiled message := by
  induction h with
  | @stop message hend =>
    have hnone := hend.unpackLine
    constructor
    · rintro - hspoiled
      obtain ⟨e, rest, h', -⟩ := hspoiled.unpackLine
      rw [hnone] at h'
      cases h'
    · rintro - m e rest hreach hm
      rcases hreach.cases_head with rfl | ⟨m', ⟨e', h'⟩, -⟩
      · rw [hnone] at hm
        cases hm
      · rw [hnone] at h'
        cases h'
  | @line message rest k hline hrest ih =>
    obtain ⟨e, he, -⟩ := hline.unpackLine
    rw [spoiled_line_iff he, not_or, ← ih]
    constructor
    · intro hall
      refine ⟨fun hs => hs.1 (hall message e rest .refl he), fun m e' rest' hreach => ?_⟩
      exact hall m e' rest' (.head ⟨e, he⟩ hreach)
    · rintro ⟨hsound, hall⟩ m e' rest' hreach hm
      rcases hreach.cases_head with rfl | ⟨m', ⟨e'', h'⟩, hreach⟩
      · rw [he] at hm
        cases hm
        exact not_not.1 fun hs => hsound ⟨hs, hrest⟩
      · rw [he] at h'
        cases h'
        exact hall m e' rest' hreach hm

/-- A message is read within its bounds, and if it is accepted each value stored was complete and gives what was stored by itself,
exactly if the message has no value that runs over its end and is not accepted with a value that is not complete. -/
theorem unpackMessage_sound_iff (mem : Nat → HashEntry (List Char) GramExtension) {message : List Char} (hfuel : message.length < fuel) :
    ((unpackMessage fuel mem message).run ≠ none ∧
      ∀ table, unpackMessage fuel mem message = pure table → ∀ m e rest, Relation.ReflTransGen LineStep message m →
        unpackLine m = pure (some (e, rest)) → SoundLine m e) ↔
      ¬ Overrun message ∧ ¬ Spoiled message := by
  rcases unpackMessage_cases mem hfuel with ⟨hover, hrun⟩ | ⟨hover, hnot, err, hrun⟩ | ⟨hover, hacc, table, hrun⟩
  · constructor
    · rintro ⟨hne, -⟩
      exact absurd (by rw [hrun]; rfl) hne
    · rintro ⟨hnot, -⟩
      exact absurd hover hnot
  · constructor
    · rintro -
      exact ⟨hover, fun h => hnot h.accepted⟩
    · rintro -
      refine ⟨by rw [hrun]; rintro ⟨⟩, fun table h => ?_⟩
      rw [hrun] at h
      cases h
  · rw [← soundLines_iff hacc]
    constructor
    · rintro ⟨-, hsound⟩
      exact ⟨hover, hsound table hrun⟩
    · rintro ⟨-, hsound⟩
      exact ⟨by rw [hrun]; rintro ⟨⟩, fun _ _ => hsound⟩

end Run

/-! ## Messages as they are packed -/

theorem quotedText_escapeText : ∀ v : List Char, QuotedText (escapeText v)
  | [] => .nil
  | c :: v => by
    have ih := quotedText_escapeText v
    rw [escapeText_cons]
    split
    · exact .escape c ih
    · next hc =>
      rw [not_or] at hc
      exact .char hc.2 hc.1 ih

theorem escaped_of_not_mem : ∀ {v : List Char}, '\\' ∉ v → Escaped (fun _ => False) v
  | [], _ => .nil
  | c :: v, h => by
    rw [mem_cons, not_or] at h
    exact .char (Ne.symm h.1) not_false (escaped_of_not_mem h.2)

theorem GramLine.Ok.soundLine {l : GramLine} (h : l.Ok) (rest : List Char) : SoundLine (l.text ++ rest) l.extension := by
  cases hq : l.quoted with
  | true =>
    have hnul : '\x00' ∉ escapeText l.value := not_mem_escapeText (by decide) h.value_nul
    refine ⟨_, escapeText l.value, '\r' :: '\n' :: rest, l.text_append rest, ?_, unescapeValue_escapeText [] l.value⟩
    have hv := Value.quoted ('\r' :: '\n' :: rest) (quotedText_escapeText l.value) hnul
    simpa [hq, quoteString] using hv
  | false =>
    obtain ⟨hquote, hbackslash, hcr⟩ := h.plain hq
    refine ⟨_, l.value, '\r' :: '\n' :: rest, l.text_append rest, ?_, unescapeValue_of_not_mem [] hbackslash⟩
    have hhead : l.value.head? ≠ some '"' := fun h => hquote (mem_of_mem_head? h)
    have hv := Value.plain (t := '\r' :: '\n' :: rest) (escaped_of_not_mem hbackslash) ⟨hhead, hcr, h.value_nul⟩ (by simp)
    simpa [hq] using hv

theorem linesMessage_sound : ∀ {lines : List GramLine}, (∀ l ∈ lines, l.Ok) →
    ¬ Overrun (linesMessage lines) ∧ ¬ Spoiled (linesMessage lines)
  | [], _ => by
    have hnone : unpackLine (linesMessage []) = pure none := AtEnd.unpackLine (.inl rfl)
    constructor
    · intro h
      rcases h.unpackLine with h' | ⟨e, rest, h', -⟩ <;> rw [hnone] at h' <;> cases h'
    · intro h
      obtain ⟨e, rest, h', -⟩ := h.unpackLine
      rw [hnone] at h'
      cases h'
  | l :: lines, hok => by
    have hl := hok l mem_cons_self
    have htext : linesMessage (l :: lines) = l.text ++ linesMessage lines := by
      simp [linesMessage]
    have hline := hl.unpackLine (linesMessage lines)
    obtain ⟨hover, hspoiled⟩ := linesMessage_sound (forall_mem_cons.1 hok).2
    rw [htext, overrun_line_iff hline, spoiled_line_iff hline]
    refine ⟨hover, ?_⟩
    rintro (⟨hs, -⟩ | h)
    · exact hs (hl.soundLine _)
    · exact hspoiled h


theorem unpackMessage_sound_note :
    ∃ message, message = linesMessage [⟨"note".toList, "a\"b\\".toList, true⟩] ∧ (unpackMessage 40 blankMem message).run ≠ none ∧
      ∀ table, unpackMessage 40 blankMem message = pure table → ∀ m e rest, Relation.ReflTransGen LineStep message m →
        unpackLine m = pure (some (e, rest)) → SoundLine m e := by
  have hok : ∀ l ∈ [(⟨"note".toList, "a\"b\\".toList, true⟩ : GramLine)], l.Ok := by
    intro l hl
    cases mem_singleton.1 hl
    exact ⟨by decide, by decide, by rintro ⟨⟩⟩
  exact ⟨_, rfl, (unpackMessage_sound_iff blankMem (by decide)).2 (linesMessage_sound hok)⟩

/-- A value that is not closed is read beyond the end of the message, or accepted when a null character is there; and a backslash
in front of the end of the line takes the CR. -/
theorem unpackMessage_unsound :
    (unpackMessage 12 blankMem "a: \"b".toList).run = none ∧
    (∃ table, unpackMessage 12 blankMem "a: \"b\x00".toList = pure table ∧
      GramTable.find 12 table "a".toList = some (some ⟨"a".toList, "b".toList⟩)) ∧
    ∃ table, unpackMessage 12 blankMem "a: b\\\r\n".toList = pure table ∧
      GramTable.find 12 table "a".toList = some (some ⟨"a".toList, "b\r".toList⟩) := by
  refine ⟨rfl, ⟨_, rfl, rfl⟩, _, rfl, rfl⟩

end Globus
