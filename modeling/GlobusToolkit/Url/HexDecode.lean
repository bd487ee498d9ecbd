/-
Percent encoding of strings (common/source/library/globus_url.c). `globus_url_string_hex_decode` works in the buffer of the string
with a pointer to read and one to write, which never overtakes the first: what is left in the buffer is the text decoded from left to
right. An encoded string has printable characters only and is decoded into the string it was made from.
-/
import GlobusToolkit.Url.RoundTrip

namespace Globus

open Lib List

/-! ## Decoding in place -/

/-- One time around the loop of `globus_url_string_hex_decode`: the character to write, and where the last one read stands. -/
def hexDecodeChar (buf : List Char) (s : Nat) : Char × Nat :=
  if charAt buf s = '%' then
    if charAt buf (s + 1) = '%' then ('%', s + 1)
    else if isxdigit (charAt buf (s + 1)) && isxdigit (charAt buf (s + 2)) then
      (hexByte (charAt buf (s + 1)) (charAt buf (s + 2)), s + 2)
    else ('%', s)
  else (charAt buf s, s)

theorem le_hexDecodeChar (buf : List Char) (s : Nat) : s ≤ (hexDecodeChar buf s).2 := by
  unfold hexDecodeChar
  split_ifs <;> simp

/-- The loop of `globus_url_string_hex_decode`, which reads at `s` and writes at `d`. -/
def hexDecodeLoop (buf : List Char) (s d : Nat) : List Char :=
  if _h : charAt buf s = '\x00' then buf.set d '\x00'
  else hexDecodeLoop (buf.set d (hexDecodeChar buf s).1) ((hexDecodeChar buf s).2 + 1) (d + 1)
termination_by buf.length - s
decreasing_by
  have hlt := lt_of_charAt _h
  have hle := le_hexDecodeChar buf s
  rw [length_set]
  omega

/-- `globus_url_string_hex_decode` in the buffer of a string: nothing is done without a percent sign in the string. -/
def hexDecodeInPlace (buf : List Char) : List Char :=
  let s := (buf.takeWhile fun c => c ≠ '%' && c ≠ '\x00').length
  if charAt buf s = '%' then hexDecodeLoop buf s s else buf

/-- `globus_url_string_hex_decode`, up to a null character that it may have written. -/
def urlStringHexDecode (s : List Char) : List Char := cstr (decode s)
where
  decode : List Char → List Char
  | '%' :: '%' :: s => '%' :: decode s
  | '%' :: a :: b :: s => if isxdigit a && isxdigit b then hexByte a b :: decode s else '%' :: decode (a :: b :: s)
  | c :: s => c :: decode s
  | [] => []

section InPlace

theorem hexDecodeChar_drop (buf : List Char) (s : Nat) :
    hexDecodeChar buf s = ((hexDecodeChar (buf.drop s) 0).1, s + (hexDecodeChar (buf.drop s) 0).2) := by
  have hat0 : charAt buf s = charAt (buf.drop s) 0 := charAt_add buf s 0
  simp only [hexDecodeChar, hat0, charAt_add buf s, Nat.zero_add]
  split_ifs <;> rfl

/-- One step: what was written grows by a character, and what is still to be read is as it was. -/
theorem hexDecodeLoop_step {buf w v out : List Char} {s d : Nat} {c t : Char} (hds : d ≤ s) (hbuf : buf.drop s = c :: w ++ v)
    (hc : c ≠ '\x00') (hchar : hexDecodeChar (c :: w ++ v) 0 = (t, w.length))
    (hrest : ∀ (buf' : List Char) (s' d' : Nat), buf'.drop s' = v → d' ≤ s' →
      ∃ junk, hexDecodeLoop buf' s' d' = buf'.take d' ++ (out ++ '\x00' :: junk)) :
    ∃ junk, hexDecodeLoop buf s d = buf.take d ++ (t :: out ++ '\x00' :: junk) := by
  have hne : charAt buf s ≠ '\x00' := by
    have hat : charAt buf s = charAt (buf.drop s) 0 := charAt_add buf s 0
    rw [hat, hbuf]
    exact hc
  have hlt := lt_of_charAt hne
  have hdrop : buf.drop (s + w.length + 1) = v := by
    rw [Nat.add_assoc, ← drop_drop, hbuf, ← length_cons (a := c), drop_left]
  obtain ⟨junk, hjunk⟩ := hrest (buf.set d t) (s + w.length + 1) (d + 1)
    (by rw [drop_set_of_lt (by omega), hdrop]) (by omega)
  refine ⟨junk, ?_⟩
  rw [hexDecodeLoop, dif_neg hne, hexDecodeChar_drop, hbuf, hchar, hjunk, take_add_one, take_set_of_le (le_refl d),
    getElem?_set_self (by omega)]
  simp

/-- The loop leaves the decoded text behind what was written before. -/
theorem hexDecodeLoop_text (text : List Char) {rest : List Char} (hnul : '\x00' ∉ text) : ∀ (buf : List Char) (s d : Nat),
    buf.drop s = text ++ '\x00' :: rest → d ≤ s →
      ∃ junk, hexDecodeLoop buf s d = buf.take d ++ (urlStringHexDecode.decode text ++ '\x00' :: junk) := by
  induction text using urlStringHexDecode.decode.induct with
  | case1 text ih =>
    intro buf s d hbuf hds
    simp only [mem_cons, not_or] at hnul
    exact hexDecodeLoop_step (w := ['%']) hds hbuf (by decide) rfl (ih hnul.2.2)
  | case2 a b text ha hhex ih =>
    intro buf s d hbuf hds
    simp only [mem_cons, not_or] at hnul
    rw [urlStringHexDecode.decode.eq_2 _ _ _ ha, if_pos hhex]
    refine hexDecodeLoop_step (w := [a, b]) hds hbuf (by decide) ?_ (ih hnul.2.2.2)
    show (if '%' = '%' then if a = '%' then _ else if isxdigit a && isxdigit b then _ else _ else _) = _
    rw [if_pos rfl, if_neg ha, if_pos hhex]
    rfl
  | case3 a b text ha hhex ih =>
    intro buf s d hbuf hds
    simp only [mem_cons, not_or] at hnul ih
    rw [urlStringHexDecode.decode.eq_2 _ _ _ ha, if_neg hhex]
    refine hexDecodeLoop_step (w := []) hds hbuf (by decide) ?_ (ih hnul.2)
    show (if '%' = '%' then if a = '%' then _ else if isxdigit a && isxdigit b then _ else _ else _) = _
    rw [if_pos rfl, if_neg ha, if_neg hhex]
    rfl
  | case4 c text h1 h2 ih =>
    intro buf s d hbuf hds
    simp only [mem_cons, not_or] at hnul
    rw [urlStringHexDecode.decode.eq_3 _ _ h1 h2]
    refine hexDecodeLoop_step (w := []) hds hbuf (Ne.symm hnul.1) ?_ (ih hnul.2)
    by_cases hc : c = '%'
    · subst hc
      -- there are not two characters behind the percent sign, and the null character is no digit
      rcases text with - | ⟨a, - | ⟨b, text⟩⟩
      · rfl
      · have ha : a ≠ '%' := fun ha => h1 [] rfl (by rw [ha])
        have hhex : ¬ (isxdigit a && isxdigit '\x00') = true := by simp [isxdigit]
        show (if '%' = '%' then if a = '%' then _ else if isxdigit a && isxdigit '\x00' then _ else _ else _) = _
        rw [if_pos rfl, if_neg ha, if_neg hhex]
        rfl
      · exact absurd rfl (h2 a b text rfl)
    · exact if_neg hc
  | case5 =>
    intro buf s d hbuf hds
    have hat : charAt buf s = '\x00' := by
      rw [show charAt buf s = charAt (buf.drop s) 0 from charAt_add buf s 0, hbuf]
      rfl
    have hlen := congrArg List.length hbuf
    simp only [length_drop, length_append, length_cons, length_nil] at hlen
    rw [hexDecodeLoop, dif_pos hat]
    exact ⟨buf.drop (d + 1), by rw [set_eq_take_append_cons_drop, if_pos (by omega)]; rfl⟩

end InPlace

theorem hexDecode_append {pre : List Char} (hpre : '%' ∉ pre) (text : List Char) :
    urlStringHexDecode.decode (pre ++ text) = pre ++ urlStringHexDecode.decode text := by
  induction pre with
  | nil => rfl
  | cons c pre ih =>
    rw [mem_cons, not_or] at hpre
    rw [cons_append, urlStringHexDecode.decode.eq_3 _ _ (fun _ h => absurd h.symm hpre.1) (fun _ _ _ h => absurd h.symm hpre.1),
      ih hpre.2, cons_append]

theorem decode_eq_self {s : List Char} (h : '%' ∉ s) : urlStringHexDecode.decode s = s := by
  have happend := hexDecode_append h []
  rwa [append_nil, urlStringHexDecode.decode, append_nil] at happend

theorem hexDecodeInPlace_eq {text : List Char} (hnul : '\x00' ∉ text) (rest : List Char) :
    ∃ junk, hexDecodeInPlace (text ++ '\x00' :: rest) = urlStringHexDecode.decode text ++ '\x00' :: junk := by
  obtain ⟨pre, post, rfl, hpre, hpost⟩ := exists_append_of_class (fun c => c ≠ '%' && c ≠ '\x00') text
  have hpercent : '%' ∉ pre := not_mem_of_class hpre (by decide)
  rw [mem_append, not_or] at hnul
  have htake : ((pre ++ post ++ '\x00' :: rest).takeWhile fun c => c ≠ '%' && c ≠ '\x00') = pre := by
    rw [append_assoc]
    refine takeWhile_append_of_head hpre fun c hc => ?_
    cases post with
    | nil => simp only [nil_append, head?_cons, Option.mem_def, Option.some.injEq] at hc; subst hc; rfl
    | cons a post => exact hpost c hc
  have hat : charAt (pre ++ post ++ '\x00' :: rest) pre.length = charAt (post ++ '\x00' :: rest) 0 := by
    rw [append_assoc]; exact charAt_append pre _ 0
  simp only [hexDecodeInPlace, htake, hat, hexDecode_append hpercent]
  cases post with
  | nil =>
    have hend : charAt ('\x00' :: rest) 0 ≠ '%' := (by decide : '\x00' ≠ '%')
    exact ⟨rest, by rw [nil_append, if_neg hend, urlStringHexDecode.decode, append_nil]⟩
  | cons c post =>
    have hc : c = '%' := by
      have h := hpost c rfl
      have hne : c ≠ '\x00' := fun h => hnul.2 (by simp [h])
      simpa [hne] using h
    obtain ⟨junk, hjunk⟩ := hexDecodeLoop_text (c :: post) hnul.2 (pre ++ c :: post ++ '\x00' :: rest) pre.length pre.length
      (by rw [append_assoc, drop_left]) le_rfl
    rw [append_assoc, take_left, ← append_assoc, ← append_assoc] at hjunk
    have hat0 : charAt (c :: post ++ '\x00' :: rest) 0 = '%' := hc
    exact ⟨junk, by rw [if_pos hat0, hjunk]⟩

theorem cstr_hexDecodeInPlace {text : List Char} (hnul : '\x00' ∉ text) (rest : List Char) :
    cstr (hexDecodeInPlace (text ++ '\x00' :: rest)) = urlStringHexDecode text := by
  obtain ⟨junk, hjunk⟩ := hexDecodeInPlace_eq hnul rest
  rw [hjunk, urlStringHexDecode, cstr, cstr, takeWhile_append]
  split
  · next h => rw [takeWhile_cons_of_neg (by simp), append_nil, (takeWhile_sublist _).eq_of_length h]
  · rfl

/-! ## Encoded strings -/

section Encoded

variable {enc s : List Char}

/-- The digits of an escape. -/
def isUpperHex (c : Char) : Bool := c ∈ "0123456789ABCDEF".toList

theorem hexChar_isUpperHex : ∀ {n : Nat}, n < 16 → isUpperHex (hexChar n) := by decide

theorem isxdigit_ne_percent {a : Char} (h : isxdigit a) : a ≠ '%' := by
  rintro rfl
  exact absurd h (by decide)

theorem hexDecode_tokenText : ∀ {ts : List Token}, (∀ t ∈ ts, t.Ok (· != '%')) →
    urlStringHexDecode.decode (tokenText ts) = ts.map Token.value
  | [], _ => rfl
  | .plain c :: ts, h => by
    have hc : c ≠ '%' := bne_iff_ne.1 (h (.plain c) mem_cons_self)
    have hrest := hexDecode_tokenText (forall_mem_cons.1 h).2
    show urlStringHexDecode.decode (c :: tokenText ts) = c :: _
    rw [urlStringHexDecode.decode.eq_3 _ _ (fun _ heq => absurd heq hc) (fun _ _ _ heq => absurd heq hc), hrest]
  | .escape a b :: ts, h => by
    obtain ⟨ha, hb⟩ : isxdigit a ∧ isxdigit b := h _ mem_cons_self
    have hrest := hexDecode_tokenText (forall_mem_cons.1 h).2
    show urlStringHexDecode.decode ('%' :: a :: b :: tokenText ts) = hexByte a b :: _
    rw [urlStringHexDecode.decode.eq_2 _ _ _ (isxdigit_ne_percent ha), if_pos (by rw [ha, hb]; rfl), hrest]

/-- What a byte is encoded as: itself, or an escape. -/
theorem encodeToken_cases (enc : List Char) {c : Char} (hc : c.toNat < 256) :
    (encodeToken enc c = .plain c ∧ c ≠ '%' ∧ 0x1F < c.toNat ∧ c.toNat < 0x7F) ∨
      ∃ a b, encodeToken enc c = .escape a b ∧ isUpperHex a ∧ isUpperHex b ∧ isxdigit a ∧ isxdigit b := by
  unfold encodeToken
  split
  · exact .inr ⟨_, _, rfl, hexChar_isUpperHex (by omega), hexChar_isUpperHex (by omega), (hexDigit_hexChar (by omega)).2,
      (hexDigit_hexChar (by omega)).2⟩
  · next hplain =>
    simp only [not_or, not_le] at hplain
    exact .inl ⟨rfl, hplain.2.2.1, hplain.1, by omega⟩

/-- Every percent sign of the encoded string begins an escape. -/
theorem percent_urlStringHexEncode (hs : IsBytes s) {pre post : List Char}
    (h : urlStringHexEncode enc s = pre ++ '%' :: post) :
    ∃ a b t, post = a :: b :: t ∧ isUpperHex a ∧ isUpperHex b := by
  rw [urlStringHexEncode_eq] at h
  induction s generalizing pre with
  | nil => simp at h
  | cons c s ih =>
    have hc := hs c mem_cons_self
    have ih := @ih (forall_mem_cons.1 hs).2
    rw [map_cons, tokenText_cons] at h
    rcases encodeToken_cases enc hc.2 with ⟨htok, hne, -⟩ | ⟨a, b, htok, ha, hb, hxa, hxb⟩
    · rw [htok] at h
      cases pre with
      | nil => exact absurd (List.cons.inj h).1 hne
      | cons d pre => exact ih (List.cons.inj h).2
    · rw [htok] at h
      rcases pre with - | ⟨p, - | ⟨q, - | ⟨r, pre⟩⟩⟩
      · exact ⟨a, b, _, (List.cons.inj h).2.symm, ha, hb⟩
      · exact absurd (List.cons.inj (List.cons.inj h).2).1 (isxdigit_ne_percent hxa)
      · exact absurd (List.cons.inj (List.cons.inj (List.cons.inj h).2).2).1 (isxdigit_ne_percent hxb)
      · exact ih (List.cons.inj (List.cons.inj (List.cons.inj h).2).2).2

theorem printable_urlStringHexEncode (hs : IsBytes s) :
    ∀ c ∈ urlStringHexEncode enc s, 0x1F < c.toNat ∧ c.toNat < 0x7F := by
  have hhex : ∀ a, isUpperHex a → 0x1F < a.toNat ∧ a.toNat < 0x7F := by
    intro a ha
    simp only [isUpperHex, decide_eq_true_eq] at ha
    have hall : ∀ a ∈ "0123456789ABCDEF".toList, 0x1F < a.toNat ∧ a.toNat < 0x7F := by decide
    exact hall a ha
  rw [urlStringHexEncode_eq]
  intro c hc
  obtain ⟨t, ht, hct⟩ := mem_flatMap.1 hc
  obtain ⟨d, hd, rfl⟩ := mem_map.1 ht
  rcases encodeToken_cases enc (hs d hd).2 with ⟨htok, -, hprint⟩ | ⟨a, b, htok, ha, hb, -⟩
  · rw [htok, Token.text, mem_singleton] at hct
    exact hct ▸ hprint
  · rw [htok, Token.text] at hct
    simp only [mem_cons, not_mem_nil, or_false] at hct
    rcases hct with rfl | rfl | rfl
    · decide
    · exact hhex _ ha
    · exact hhex _ hb

/-- Decoding an encoded string in its buffer gives the string back, whatever characters are to be encoded; the encoded string is
printable, and each percent sign in it begins an escape with two digits. -/
theorem urlStringHexDecode_encode (s enc : List Char) (hs : IsBytes s) (rest : List Char) :
    cstr (hexDecodeInPlace (urlStringHexEncode enc s ++ '\x00' :: rest)) = s ∧
      (∀ c ∈ urlStringHexEncode enc s, 0x1F < c.toNat ∧ c.toNat < 0x7F) ∧
      ∀ pre post, urlStringHexEncode enc s = pre ++ '%' :: post →
        ∃ a b t, post = a :: b :: t ∧ isUpperHex a ∧ isUpperHex b := by
  refine ⟨?_, printable_urlStringHexEncode hs, fun pre post => percent_urlStringHexEncode hs⟩
  have hnul : '\x00' ∉ urlStringHexEncode enc s := fun h => absurd (printable_urlStringHexEncode hs _ h).1 (by decide)
  have hok : ∀ t ∈ s.map (encodeToken enc), t.Ok (· != '%') := by
    intro t ht
    obtain ⟨c, hc, rfl⟩ := mem_map.1 ht
    rcases encodeToken_cases enc (hs c hc).2 with ⟨htok, hne, -⟩ | ⟨a, b, htok, -, -, hxa, hxb⟩
    · rw [htok]; exact bne_iff_ne.2 hne
    · rw [htok]; exact ⟨hxa, hxb⟩
  have hs0 : '\x00' ∉ s := fun h => absurd (hs _ h).1 (by decide)
  rw [cstr_hexDecodeInPlace hnul, urlStringHexDecode, urlStringHexEncode_eq, hexDecode_tokenText hok, hs.map_value, cstr_eq_self hs0]

/-- A text with a percent sign, a digit and a byte that is no character of ASCII, where digits are encoded too. -/
theorem urlStringHexDecode_encode_digits :
    cstr (hexDecodeInPlace (urlStringHexEncode "%4".toList ['4', '%', Char.ofNat 0xE9, 'A'] ++ ['\x00'])) =
      ['4', '%', Char.ofNat 0xE9, 'A'] :=
  (urlStringHexDecode_encode ['4', '%', Char.ofNat 0xE9, 'A'] "%4".toList (by unfold IsBytes; decide) []).1

end Encoded

end Globus
