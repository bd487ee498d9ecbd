/-
Contact strings: a numeric address and perhaps a port (common/source/library/globus_libc.c). The printer takes the bytes of an address
as an array of integers. It writes an IPv6 address with an IPv4 address at its end where the first bytes say so, and puts `::` for the
first run of three groups of zeros or more. Every text it writes is one of the address, and the reader gives the array and the port
back.
-/
import GlobusToolkit.Lib.Inet

namespace Globus

open Lib List

/-! ## Printing -/

/-- The conversion `%X`. -/
def upperHex (n : Nat) : List Char := (Nat.toDigits 16 n).map Char.toUpper

/-- The conversion `%.2X`. -/
def upperHex2 (n : Nat) : List Char := replicate (2 - (upperHex n).length) '0' ++ upperHex n

/-- `x & 0xff`. -/
def lowByte (x : Int) : Nat := (x % 256).toNat

section Printer

variable (host : Nat → Int)

/-- The loop that counts the zeros at the beginning. -/
def leadingZeros (h : Nat) : Nat := if h < 16 ∧ host h = 0 then leadingZeros (h + 1) else h
termination_by 16 - h

/-- The loop that passes groups of zeros. -/
def skipZeros (h : Nat) : Nat := if h < 15 ∧ host h = 0 ∧ host (h + 1) = 0 then skipZeros (h + 2) else h
termination_by 16 - h

theorem le_skipZeros (h : Nat) : h ≤ skipZeros host h := by
  rw [skipZeros]
  split_ifs
  · have := le_skipZeros (h + 2); omega
  · exact le_rfl
termination_by 16 - h

/-- What is printed for the two bytes at `h`. -/
def groupText (h : Nat) : List Char :=
  if lowByte (host h) = 0 then upperHex (lowByte (host (h + 1)))
  else upperHex (lowByte (host h)) ++ upperHex2 (lowByte (host (h + 1)))

/-- The loop over the groups: the parts of the text are put behind each other in `layout`. -/
def groupLoop (h : Nat) (compressed : Bool) (layout : List (List Char)) : List (List Char) :=
  if h < 16 then
    if !compressed ∧ host h = 0 ∧ h < 11 ∧ host (h + 1) = 0 ∧ host (h + 2) = 0 ∧ host (h + 3) = 0 ∧ host (h + 4) = 0 ∧
        host (h + 5) = 0 then
      -- compress 3 or more 0s into ::
      groupLoop (skipZeros host (h + 6)) true (layout ++ [if h = 0 then "::".toList else ":".toList])
    else groupLoop (h + 2) compressed (layout ++ [groupText host h] ++ if h < 14 then [":".toList] else [])
  else layout
termination_by 16 - h
decreasing_by
  · have := le_skipZeros host (h + 6); omega
  · omega

/-- The dotted form of four bytes, as it fits in `ipv4`. -/
def quadText (h : Nat) : List Char :=
  (printInt (host h) ++ '.' :: printInt (host (h + 1)) ++ '.' :: printInt (host (h + 2)) ++ '.' :: printInt (host (h + 3))).take 19

/-- The part of `globus_libc_ints_to_contact_string` for 16 bytes: the parts written, and where a dotted form begins. -/
def layoutIpv6 (layout : List (List Char)) : List (List Char) × Option Nat :=
  let h := leadingZeros host 0
  if h = 12 then (layout ++ ["::".toList], some h)
  else if h = 10 ∧ host 10 = 0xff ∧ host 11 = 0xff then (layout ++ ["::FFFF:".toList], some 12)
  else if h = 16 then (layout ++ ["0::0".toList], none)
  else (groupLoop host 0 false layout, none)

/-- `globus_libc_ints_to_contact_string`. -/
def intsToContactString (count : Int) (port : Nat) : List Char :=
  let needBracket := count = 16 ∧ port ≠ 0
  let layout := if needBracket then ["[".toList] else []
  let (layout, quad) :=
    if count = 16 then layoutIpv6 host layout else (layout, if count = 4 then some 0 else none)
  let layout := layout ++ (quad.map (quadText host)).toList
  let layout := if needBracket then layout ++ ["]".toList] else layout
  let layout := if port ≠ 0 ∧ 0 < layout.length then layout ++ [':' :: printInt port] else layout
  layout.flatten

end Printer

/-! ## Reading -/

/-- What `globus_libc_contact_string_to_ints` passes back. -/
structure ContactInts where
  host : List Int
  count : Nat
  port : Nat
deriving DecidableEq

/-- The conversion `%hu` of the text behind the colon, if there is one; the port stays 0 otherwise. -/
def scanPort (s : Option (List Char)) : Nat :=
  match s.bind (scanInt (-(2 ^ 64 - 1)) (2 ^ 64 - 1)) with
  | some (v, _) => (v % 2 ^ 16).toNat
  | none => 0

/-- The end of `globus_libc_contact_string_to_ints`: the address is copied to the array, which was cleared. -/
def contactInts (count : Nat) (s : Option (List Char)) (paddr : List Nat) : ContactInts :=
  ⟨paddr.map Int.ofNat ++ replicate (16 - count) 0, count, scanPort s⟩

/-- The part of `globus_libc_contact_string_to_ints` for IPv6. -/
def contactIpv6 : List Char → Option ContactInts
  | '[' :: pbuf =>
    match memchr ']' pbuf with
    | none => none
    | some i =>
      (inetPton6 (pbuf.take i)).map (contactInts 16 (match pbuf.drop (i + 1) with | ':' :: t => some t | _ => none))
  -- cant have a port without [] notation
  | pbuf => (inetPton6 pbuf).map (contactInts 16 none)

/-- `globus_libc_contact_string_to_ints`; `none` is the error "unable to parse ip". -/
def contactStringToInts (contactString : List Char) : Option ContactInts :=
  let buf := contactString.take 255
  let s := memchr ':' buf
  let p := memchr '.' buf
  if s = none ∨ ∃ i ∈ s, ∃ j ∈ p, j < i then
    -- this must be ipv4
    (inetPton4 (match s with | some i => buf.take i | none => buf)).map
      (contactInts 4 (s.map fun i => buf.drop (i + 1)))
  else contactIpv6 buf

/-! ## Numbers of a byte -/

theorem upperHex_isGroup : ∀ {n : Nat}, n < 256 → upperHex n ≠ [] ∧ (upperHex n).length ≤ 2 ∧ (∀ c ∈ upperHex n, isxdigit c) ∧
    hexValue (upperHex n) = n := by
  decide +kernel

theorem upperHex2_isGroup : ∀ {n : Nat}, n < 256 → (upperHex2 n).length = 2 ∧ (∀ c ∈ upperHex2 n, isxdigit c) ∧
    hexValue (upperHex2 n) = n := by
  decide +kernel

theorem length_toDigits_byte : ∀ {n : Nat}, n < 256 → (Nat.toDigits 10 n).length ≤ 3 := by
  decide +kernel

theorem printInt_isOctet {x : Int} (h0 : 0 ≤ x) (h255 : x ≤ 255) : IsOctet (printInt x) x.toNat := by
  obtain ⟨n, rfl⟩ := Int.eq_ofNat_of_zero_le h0
  exact ⟨(Numeral.ofNat n).digits_ne_nil, length_toDigits_byte (by omega), (Numeral.ofNat n).isDigit, Numeral.value_ofNat n, by
    rw [Int.toNat_natCast]; omega⟩

/-! ## The parts of the text -/

section Parts

variable {host : Nat → Int}

/-- An array whose first entries are bytes. -/
def IsByteArray (host : Nat → Int) (n : Nat) : Prop := ∀ i < n, 0 ≤ host i ∧ host i ≤ 255

/-- The group of the bytes `2 * m` and `2 * m + 1`. -/
def groupValue (host : Nat → Int) (m : Nat) : Nat := (256 * host (2 * m) + host (2 * m + 1)).toNat

theorem lowByte_of_byte {x : Int} (h0 : 0 ≤ x) (h255 : x ≤ 255) : (lowByte x : Int) = x ∧ lowByte x < 256 := by
  unfold lowByte
  omega

theorem groupText_isGroup (hb : IsByteArray host 16) {m : Nat} (hm : m < 8) :
    IsGroup (groupText host (2 * m)) (groupValue host m) := by
  obtain ⟨ha0, ha⟩ := hb (2 * m) (by omega)
  obtain ⟨hb0, hb⟩ := hb (2 * m + 1) (by omega)
  obtain ⟨hax, halt⟩ := lowByte_of_byte ha0 ha
  obtain ⟨hbx, hblt⟩ := lowByte_of_byte hb0 hb
  obtain ⟨a1, a2, a3, a4⟩ := upperHex_isGroup halt
  obtain ⟨b1, b2, b3, b4⟩ := upperHex_isGroup hblt
  obtain ⟨c1, c2, c3⟩ := upperHex2_isGroup hblt
  unfold groupText groupValue
  split_ifs with hzero
  · exact ⟨b1, by omega, b3, by rw [b4]; omega⟩
  · refine ⟨append_ne_nil_of_left_ne_nil a1 _, by rw [length_append]; omega, fun c hc => ?_, ?_⟩
    · rcases mem_append.1 hc with hc | hc
      · exact a3 c hc
      · exact c2 c hc
    · rw [hexValue_append, a4, c3, c1]
      omega

theorem groupBytes_groupValue (hb : IsByteArray host 16) :
    groupBytes ((range 8).map (groupValue host)) = (range 16).map fun i => (host i).toNat := by
  have hgroup : ∀ m < 8, [groupValue host m / 256, groupValue host m % 256] = [(host (2 * m)).toNat, (host (2 * m + 1)).toNat] := by
    intro m hm
    obtain ⟨ha0, ha⟩ := hb (2 * m) (by omega)
    obtain ⟨hb0, hb⟩ := hb (2 * m + 1) (by omega)
    unfold groupValue
    congr 1
    · omega
    · congr 1; omega
  rw [groupBytes, flatMap_map, flatMap_congr fun m hm => hgroup m (mem_range.1 hm)]
  rfl

/-- The texts of the groups from `i` to `j`. -/
def groupTexts (host : Nat → Int) (i n : Nat) : List (List Char) := (range' i n).map fun m => groupText host (2 * m)

theorem groupTexts_forall₂ (hb : IsByteArray host 16) {i n : Nat} (hn : i + n ≤ 8) :
    List.Forall₂ IsGroup (groupTexts host i n) ((range' i n).map (groupValue host)) := by
  rw [groupTexts, forall₂_map_left_iff, forall₂_map_right_iff, forall₂_same]
  intro m hm
  rw [mem_range'_1] at hm
  exact groupText_isGroup hb (by omega)

theorem flatMap_colon_append (ps : List (List Char)) (p : List Char) :
    ps.flatMap (· ++ [':']) ++ p = [':'].intercalate (ps ++ [p]) := by
  induction ps with
  | nil => simp
  | cons q ps ih =>
    obtain ⟨r, rs, hrs⟩ := exists_cons_of_ne_nil (append_ne_nil_of_right_ne_nil ps (cons_ne_nil p []))
    rw [flatMap_cons, append_assoc, ih, cons_append, hrs, intercalate_cons_cons]

theorem flatMap_colon_colon {ps : List (List Char)} (h : ps ≠ []) :
    ps.flatMap (· ++ [':']) ++ [':'] = [':'].intercalate ps ++ "::".toList := by
  obtain ⟨qs, q, rfl⟩ := eq_nil_or_concat ps |>.resolve_left h
  rw [concat_eq_append, ← flatMap_colon_append, flatMap_append]
  simp

end Parts

/-! ## The loop -/

section GroupLoop

variable {host : Nat → Int}

/-- The group is zero. -/
def ZeroGroup (host : Nat → Int) (m : Nat) : Prop := host (2 * m) = 0 ∧ host (2 * m + 1) = 0

theorem skipZeros_spec (host : Nat → Int) {i : Nat} (hi : i ≤ 8) :
    ∃ j, skipZeros host (2 * i) = 2 * j ∧ i ≤ j ∧ j ≤ 8 ∧ ∀ m, i ≤ m → m < j → ZeroGroup host m := by
  rw [skipZeros]
  split_ifs with hzero
  · obtain ⟨j, hj, hij, hj8, hz⟩ := skipZeros_spec host (i := i + 1) (by omega)
    refine ⟨j, by rw [← hj]; rfl, by omega, hj8, fun m h1 h2 => ?_⟩
    rcases Nat.eq_or_lt_of_le h1 with rfl | h1
    · exact hzero.2
    · exact hz m h1 h2
  · exact ⟨i, rfl, le_rfl, hi, fun m h1 h2 => by omega⟩
termination_by 8 - i

theorem groupTexts_succ (host : Nat → Int) (i n : Nat) : groupTexts host i (n + 1) = groupText host (2 * i) :: groupTexts host (i + 1) n := by
  rw [groupTexts, range'_succ, map_cons, groupTexts]

theorem groupTexts_concat (host : Nat → Int) (n : Nat) : groupTexts host 0 (n + 1) = groupTexts host 0 n ++ [groupText host (2 * n)] := by
  rw [groupTexts, range'_concat, map_append, groupTexts]
  simp

/-- Behind a `::` all groups are printed. -/
theorem groupLoop_compressed (host : Nat → Int) {i : Nat} (hi : i ≤ 8) (layout : List (List Char)) :
    (groupLoop host (2 * i) true layout).flatten = layout.flatten ++ [':'].intercalate (groupTexts host i (8 - i)) := by
  rw [groupLoop]
  by_cases hlt : 2 * i < 16
  · rw [if_pos hlt, if_neg (by simp)]
    rcases Nat.lt_or_ge i 7 with h7 | h7
    · have ih := groupLoop_compressed host (i := i + 1) (by omega) (layout ++ [groupText host (2 * i)] ++ [":".toList])
      obtain ⟨n, hn⟩ : ∃ n, 8 - (i + 1) = n + 1 := ⟨6 - i, by omega⟩
      rw [if_pos (by omega), show 2 * i + 2 = 2 * (i + 1) from rfl, ih, show 8 - i = n + 1 + 1 by omega, hn,
        groupTexts_succ host i, groupTexts_succ, intercalate_cons_cons]
      simp
    · obtain rfl : i = 7 := by omega
      rw [if_neg (by omega), groupLoop, if_neg (by omega)]
      simp [groupTexts]
  · obtain rfl : i = 8 := by omega
    simp [groupTexts]
termination_by 8 - i

/-- What the loop has printed at the end: all groups, or those in front of a run of zeros and those behind it. -/
def LoopText (host : Nat → Int) (text : List Char) : Prop :=
  text = [':'].intercalate (groupTexts host 0 8) ∨
    ∃ k j, k + 3 ≤ j ∧ j ≤ 8 ∧ (∀ m, k ≤ m → m < j → ZeroGroup host m) ∧
      text = [':'].intercalate (groupTexts host 0 k) ++ "::".toList ++ [':'].intercalate (groupTexts host j (8 - j))

/-- As long as there was no `::`, each group was printed with a colon behind it. -/
theorem groupLoop_uncompressed (host : Nat → Int) (before : List Char) {i : Nat} (hi : i < 8) (layout : List (List Char))
    (hlayout : layout.flatten = before ++ (groupTexts host 0 i).flatMap (· ++ [':'])) :
    ∃ text, (groupLoop host (2 * i) false layout).flatten = before ++ text ∧ LoopText host text := by
  rw [groupLoop, if_pos (by omega)]
  split
  · next hzero =>
    obtain ⟨-, h0, hle, h1, h2, h3, h4, h5⟩ := hzero
    obtain ⟨j, hj, hij, hj8, hz⟩ := skipZeros_spec host (i := i + 3) (by omega)
    have hskip : skipZeros host (2 * i + 6) = 2 * j := by rw [← hj]; rfl
    rw [hskip, groupLoop_compressed host hj8, flatten_append, flatten_singleton, hlayout]
    refine ⟨(groupTexts host 0 i).flatMap (· ++ [':']) ++ (if 2 * i = 0 then "::".toList else ":".toList) ++
      [':'].intercalate (groupTexts host j (8 - j)), by simp only [append_assoc], .inr ⟨i, j, hij, hj8, fun m hm hmj => ?_, ?_⟩⟩
    · rcases (by omega : m = i ∨ m = i + 1 ∨ m = i + 2 ∨ i + 3 ≤ m) with rfl | rfl | rfl | hm
      · exact ⟨h0, h1⟩
      · exact ⟨h2, h3⟩
      · exact ⟨h4, h5⟩
      · exact hz m hm hmj
    · congr 1
      cases i with
      | zero => rfl
      | succ n => rw [if_neg (by omega)]; exact flatMap_colon_colon (by rw [groupTexts_succ]; simp)
  · rcases Nat.lt_or_ge i 7 with h7 | h7
    · rw [if_pos (by omega)]
      refine groupLoop_uncompressed host before (i := i + 1) (by omega) _ ?_
      rw [groupTexts_concat, flatMap_append, flatten_append, flatten_append, hlayout]
      simp
    · obtain rfl : i = 7 := by omega
      rw [if_neg (by omega), groupLoop, if_neg (by omega), append_nil, flatten_append, hlayout]
      refine ⟨[':'].intercalate (groupTexts host 0 8), ?_, .inl rfl⟩
      rw [groupTexts_concat host 7, ← flatMap_colon_append]
      simp
termination_by 8 - i

theorem range_eight_split {k j : Nat} (hkj : k ≤ j) (hj : j ≤ 8) :
    range 8 = range' 0 k ++ range' k (j - k) ++ range' j (8 - j) := by
  have h1 := range'_append_1 (s := 0) (m := k) (n := j - k)
  have h2 := range'_append_1 (s := 0) (m := j) (n := 8 - j)
  rw [Nat.zero_add, Nat.add_sub_cancel' hkj] at h1
  rw [Nat.zero_add, Nat.add_sub_cancel' hj] at h2
  rw [h1, h2, range_eq_range']

theorem groupValue_zeros {k n : Nat} (hz : ∀ m, k ≤ m → m < k + n → ZeroGroup host m) :
    (range' k n).map (groupValue host) = replicate n 0 := by
  rw [eq_replicate_iff]
  refine ⟨by simp, fun g hg => ?_⟩
  obtain ⟨m, hm, rfl⟩ := mem_map.1 hg
  obtain ⟨h1, h2⟩ := hz m (mem_range'_1.1 hm).1 (mem_range'_1.1 hm).2
  rw [groupValue, h1, h2]
  rfl

theorem LoopText.ipv6Text {text : List Char} (h : LoopText host text) (hb : IsByteArray host 16) :
    Ipv6Text text ((range 8).map (groupValue host)) := by
  rcases h with rfl | ⟨k, j, hkj, hj, hz, rfl⟩
  · exact .full (tailPieces_of_forall₂ (groupTexts_forall₂ hb (by omega)) (by rw [groupTexts_succ]; simp)) (by simp)
  · have hgroups : (range 8).map (groupValue host) =
        (range' 0 k).map (groupValue host) ++ replicate (j - k) 0 ++ (range' j (8 - j)).map (groupValue host) := by
      have hzeros := @groupValue_zeros host k (j - k) fun m h1 h2 => hz m h1 (by omega)
      rw [← hzeros, ← map_append, ← map_append, ← range_eight_split (by omega) hj]
    have hr : groupTexts host j (8 - j) = [] ∧ (range' j (8 - j)).map (groupValue host) = [] ∨
        TailPieces (groupTexts host j (8 - j)) ((range' j (8 - j)).map (groupValue host)) := by
      rcases Nat.eq_or_lt_of_le hj with rfl | hlt
      · exact .inl ⟨rfl, rfl⟩
      · refine .inr (tailPieces_of_forall₂ (groupTexts_forall₂ hb (by omega)) ?_)
        rw [show 8 - j = (7 - j) + 1 by omega, groupTexts_succ]
        simp
    have htext := Ipv6Text.compressed (groupTexts_forall₂ hb (i := 0) (n := k) (by omega)) hr
      (by simp only [length_map, length_range']; omega)
    simp only [length_map, length_range'] at htext
    rwa [show 8 - (k + (8 - j)) = j - k by omega, ← hgroups] at htext

end GroupLoop

/-! ## Addresses that are printed with a dotted form -/

section Dotted

variable {host : Nat → Int}

theorem leadingZeros_spec (host : Nat → Int) {h : Nat} (hh : h ≤ 16) :
    h ≤ leadingZeros host h ∧ leadingZeros host h ≤ 16 ∧ ∀ i, h ≤ i → i < leadingZeros host h → host i = 0 := by
  rw [leadingZeros]
  split_ifs with hzero
  · obtain ⟨h1, h2, h3⟩ := leadingZeros_spec host (h := h + 1) (by omega)
    refine ⟨by omega, h2, fun i hi hlt => ?_⟩
    rcases Nat.eq_or_lt_of_le hi with rfl | hi
    · exact hzero.2
    · exact h3 i hi hlt
  · exact ⟨le_rfl, hh, fun i hi hlt => by omega⟩
termination_by 16 - h

theorem quadText_ipv4Text {h : Nat} (hb : ∀ i < 4, 0 ≤ host (h + i) ∧ host (h + i) ≤ 255) :
    Ipv4Text (quadText host h) [(host h).toNat, (host (h + 1)).toNat, (host (h + 2)).toNat, (host (h + 3)).toNat] := by
  have hoctet : ∀ i < 4, IsOctet (printInt (host (h + i))) (host (h + i)).toNat := fun i hi =>
    printInt_isOctet (hb i hi).1 (hb i hi).2
  have h0 := hoctet 0 (by omega)
  have h1 := hoctet 1 (by omega)
  have h2 := hoctet 2 (by omega)
  have h3 := hoctet 3 (by omega)
  have htext := Ipv4Text.mk h0 h1 h2 h3
  have hlen := h0.length_le
  have hlen1 := h1.length_le
  have hlen2 := h2.length_le
  have hlen3 := h3.length_le
  unfold quadText
  rw [take_of_length_le]
  · simpa [intercalate_cons_cons] using htext
  · simp only [length_append, length_cons, Nat.add_zero] at *
    omega

theorem groups_of_zeros (hb : IsByteArray host 16) {n : Nat} (hn : n ≤ 6) (hz : ∀ i < 2 * n, host i = 0) :
    (range 8).map (groupValue host) =
      replicate n 0 ++ (range' n (6 - n)).map (groupValue host) ++
        [256 * (host 12).toNat + (host 13).toNat, 256 * (host 14).toNat + (host 15).toNat] := by
  have hlast : [256 * (host 12).toNat + (host 13).toNat, 256 * (host 14).toNat + (host 15).toNat] =
      [groupValue host 6, groupValue host 7] := by
    obtain ⟨ha, -⟩ := hb 12 (by omega)
    obtain ⟨hc, -⟩ := hb 13 (by omega)
    obtain ⟨hd, -⟩ := hb 14 (by omega)
    obtain ⟨he, -⟩ := hb 15 (by omega)
    simp only [groupValue, Nat.reduceMul, Nat.reduceAdd, List.cons.injEq, and_true]
    omega
  have hzeros := @groupValue_zeros host 0 n fun m _ hm => ⟨hz (2 * m) (by omega), hz (2 * m + 1) (by omega)⟩
  rw [← hzeros, hlast]
  rcases (by omega : n = 0 ∨ n = 1 ∨ n = 2 ∨ n = 3 ∨ n = 4 ∨ n = 5 ∨ n = 6) with rfl | rfl | rfl | rfl | rfl | rfl | rfl <;> rfl

end Dotted

/-! ## The address -/

section Address

variable {host : Nat → Int}

/-- The part of the printer for 16 bytes, with the dotted form that may follow it. -/
def addressText (host : Nat → Int) (layout : List (List Char)) : List (List Char) :=
  (layoutIpv6 host layout).1 ++ ((layoutIpv6 host layout).2.map (quadText host)).toList

theorem addressText_ipv6Text (hb : IsByteArray host 16) (layout : List (List Char)) :
    ∃ text, (addressText host layout).flatten = layout.flatten ++ text ∧
      Ipv6Text text ((range 8).map (groupValue host)) := by
  obtain ⟨-, hle, hz⟩ := leadingZeros_spec host (h := 0) (by omega)
  have hquad : Ipv4Text (quadText host 12) [(host 12).toNat, (host 13).toNat, (host 14).toNat, (host 15).toNat] :=
    quadText_ipv4Text fun i hi => hb (12 + i) (by omega)
  unfold addressText layoutIpv6
  dsimp only
  split_ifs with h12 h10 h16
  · rw [h12] at hz ⊢
    refine ⟨"::".toList ++ quadText host 12, by simp, ?_⟩
    have htext := Ipv6Text.compressed .nil (.inr (.quad hquad)) (by simp)
    rw [groups_of_zeros hb (n := 6) (by omega) fun i hi => hz i (by omega) hi]
    simpa using htext
  · obtain ⟨h10, hff0, hff1⟩ := h10
    rw [h10] at hz
    refine ⟨"::FFFF:".toList ++ quadText host 12, by simp, ?_⟩
    have hffff : IsGroup "FFFF".toList 65535 := ⟨by decide, by decide, by decide, by decide⟩
    have htext := Ipv6Text.compressed .nil (.inr (.cons hffff (.quad hquad))) (by simp)
    have hgroup : groupValue host 5 = 65535 := by
      rw [groupValue, show 2 * 5 = 10 from rfl, show 10 + 1 = 11 from rfl, hff0, hff1]; rfl
    rw [groups_of_zeros hb (n := 5) (by omega) fun i hi => hz i (by omega) hi]
    simpa [intercalate_cons_cons, hgroup] using htext
  · rw [h16] at hz
    refine ⟨"0::0".toList, by simp, ?_⟩
    have hzero : IsGroup "0".toList 0 := ⟨by decide, by decide, by decide, by decide⟩
    have htext := Ipv6Text.compressed (.cons hzero .nil) (.inr (.group hzero)) (by simp)
    rw [range_eq_range', groupValue_zeros fun m _ hm => ⟨hz _ (by omega) (by omega), hz _ (by omega) (by omega)⟩]
    exact htext
  · obtain ⟨text, htext, hloop⟩ := groupLoop_uncompressed host layout.flatten (i := 0) (by omega) layout (by simp [groupTexts])
    exact ⟨text, by simpa using htext, hloop.ipv6Text hb⟩

theorem intsToContactString_ipv6 (hb : IsByteArray host 16) (port : Nat) :
    ∃ text, Ipv6Text text ((range 8).map (groupValue host)) ∧
      intsToContactString host 16 port = if port = 0 then text else '[' :: (text ++ ']' :: ':' :: printInt port) := by
  by_cases hport : port = 0
  · obtain ⟨text, htext, hipv6⟩ := addressText_ipv6Text hb []
    refine ⟨text, hipv6, ?_⟩
    rw [if_pos hport, ← nil_append text, ← flatten_nil, ← htext]
    simp [intsToContactString, hport, addressText]
  · obtain ⟨text, htext, hipv6⟩ := addressText_ipv6Text hb ["[".toList]
    refine ⟨text, hipv6, ?_⟩
    have hflatten : (addressText host ["[".toList]).flatten = '[' :: text := by simpa using htext
    have hstring : intsToContactString host 16 port =
        (addressText host ["[".toList] ++ ["]".toList] ++ [':' :: printInt port]).flatten := by
      simp [intsToContactString, hport, addressText]
    rw [if_neg hport, hstring, flatten_append, flatten_append, hflatten]
    simp

theorem intsToContactString_ipv4 (port : Nat) :
    intsToContactString host 4 port = if port = 0 then quadText host 0 else quadText host 0 ++ ':' :: printInt port := by
  by_cases hport : port = 0
  · simp [intsToContactString, hport]
  · simp [intsToContactString, hport]

end Address

/-! ## Reading it back -/

section Reading

variable {host : Nat → Int} {port : Nat}

theorem scanPort_printInt (hport : port ≤ 65535) : scanPort (some (printInt port)) = port := by
  rw [scanPort, Option.bind_some, scanInt_printInt (by omega) (by omega)]
  show ((port : Int) % 2 ^ 16).toNat = port
  omega

theorem length_printPort_le (hport : port ≤ 65535) : (printInt port).length ≤ 5 := by
  exact (Nat.length_toDigits_le_iff (by decide) (by decide)).2 (by omega)

theorem contactStringToInts_of_colon {u v : List Char} (hcolon : ':' ∉ u) (hdot : '.' ∉ u) (hlen : (u ++ ':' :: v).length ≤ 255) :
    contactStringToInts (u ++ ':' :: v) = contactIpv6 (u ++ ':' :: v) := by
  have hnot : ¬ (memchr ':' (u ++ ':' :: v) = none ∨
      ∃ i ∈ memchr ':' (u ++ ':' :: v), ∃ j ∈ memchr '.' (u ++ ':' :: v), j < i) := by
    rw [memchr_append hcolon]
    rintro (h | ⟨i, hi, j, hj, hlt⟩)
    · cases h
    · cases hi
      have hle : u.length ≤ (u ++ ':' :: v).idxOf '.' := by
        rw [idxOf_append_of_notMem hdot]
        omega
      cases (Option.ite_none_right_eq_some.1 hj).2
      omega
  unfold contactStringToInts
  rw [take_of_length_le hlen]
  exact if_neg hnot

theorem contactInts_ipv6 (hb : IsByteArray host 16) (s : Option (List Char)) :
    contactInts 16 s ((range 16).map fun i => (host i).toNat) = ⟨(range 16).map host, 16, scanPort s⟩ := by
  have hhost : ((range 16).map fun i => (host i).toNat).map Int.ofNat = (range 16).map host := by
    rw [map_map]
    apply map_congr_left
    intro i hi
    exact Int.toNat_of_nonneg (hb i (mem_range.1 hi)).1
  rw [contactInts, hhost]
  simp

theorem contactStringToInts_ipv6 (hb : IsByteArray host 16) (hport : port ≤ 65535) {text : List Char}
    (htext : Ipv6Text text ((range 8).map (groupValue host))) :
    contactStringToInts (if port = 0 then text else '[' :: (text ++ ']' :: ':' :: printInt port)) =
      some ⟨(range 16).map host, 16, port⟩ := by
  have hlen := htext.length_le
  obtain ⟨u, v, rfl, hcolon, hdot⟩ := htext.exists_colon
  have hpton : inetPton6 (u ++ ':' :: v) = some ((range 16).map fun i => (host i).toNat) := by
    rw [inetPton6, inetGroups_eq_some.2 htext, Option.map_some, groupBytes_groupValue hb]
  split_ifs with hzero
  · have hbracket : ∀ pbuf, u ++ ':' :: v ≠ '[' :: pbuf := by
      intro pbuf heq
      have hmem : '[' ∉ u ++ ':' :: v := htext.not_mem (by decide) (by decide) (by decide)
      exact hmem (heq ▸ mem_cons_self ..)
    rw [contactStringToInts_of_colon hcolon hdot (by omega)]
    unfold contactIpv6
    split
    · next heq => exact absurd heq (hbracket _)
    · rw [hpton, Option.map_some, contactInts_ipv6 hb, hzero]
      rfl
  · have hbracket : ']' ∉ u ++ ':' :: v := htext.not_mem (by decide) (by decide) (by decide)
    have hwhole : '[' :: (u ++ ':' :: v ++ ']' :: ':' :: printInt port) =
        ('[' :: u) ++ ':' :: (v ++ ']' :: ':' :: printInt port) := by simp
    have hlen' : (('[' :: u) ++ ':' :: (v ++ ']' :: ':' :: printInt port)).length ≤ 255 := by
      have := length_printPort_le hport
      simp only [length_append, length_cons] at hlen ⊢
      omega
    rw [hwhole, contactStringToInts_of_colon (by simpa using hcolon) (by simpa using hdot) hlen', ← hwhole, contactIpv6,
      memchr_append hbracket]
    dsimp only
    rw [take_left, hpton, Option.map_some, drop_length_add_append, drop_one, tail_cons, contactInts_ipv6 hb]
    show some (ContactInts.mk _ _ (scanPort (some (printInt port)))) = _
    rw [scanPort_printInt hport]

theorem contactStringToInts_ipv4 {text : List Char} {bytes : List Nat} (htext : Ipv4Text text bytes) (hport : port ≤ 65535) :
    contactStringToInts (if port = 0 then text else text ++ ':' :: printInt port) =
      some ⟨bytes.map Int.ofNat ++ replicate 12 0, 4, port⟩ := by
  have hlen := htext.length_le
  have hcolon : ':' ∉ text := htext.not_mem (by decide) (by decide)
  have hpton : inetPton4 text = some bytes := inetPton4_eq_some.2 htext
  split_ifs with hzero
  · unfold contactStringToInts
    rw [take_of_length_le (by omega)]
    dsimp only
    rw [memchr_eq_none hcolon, if_pos (.inl rfl), hpton, Option.map_some, hzero]
    rfl
  · have hlen' : (text ++ ':' :: printInt port).length ≤ 255 := by
      have := length_printPort_le hport
      simp only [length_append, length_cons]
      omega
    -- the dots of the address are in front of the colon
    have hdot : ∃ j ∈ memchr '.' (text ++ ':' :: printInt port), j < text.length := by
      have hidx := idxOf_lt_length_of_mem htext.dot_mem
      refine ⟨text.idxOf '.', ?_, hidx⟩
      rw [memchr, if_pos (mem_append_left _ htext.dot_mem), idxOf_append_of_mem htext.dot_mem]
      rfl
    unfold contactStringToInts
    rw [take_of_length_le hlen']
    dsimp only
    rw [memchr_append hcolon, if_pos (.inr ⟨_, rfl, hdot⟩)]
    dsimp only
    rw [take_left, hpton, Option.map_some, Option.map_some, drop_length_add_append, drop_succ_cons,
      drop_zero, contactInts, scanPort_printInt hport]

/-- What is printed for 16 bytes is a text of their address, with one `::` at most, and for 16 bytes as for 4 the reader gives the
numbers and the port back. -/
theorem contactString_roundTrip (host : Nat → Int) {port : Nat} (hport : port ≤ 65535) :
    (IsByteArray host 16 → ∃ text gs,
      intsToContactString host 16 port = (if port = 0 then text else '[' :: (text ++ ']' :: ':' :: printInt port)) ∧
      Ipv6Text text gs ∧ groupBytes gs = (range 16).map (fun i => (host i).toNat) ∧
      (∀ a b a' b', text = a ++ ':' :: ':' :: b → text = a' ++ ':' :: ':' :: b' → a = a') ∧
      contactStringToInts (intsToContactString host 16 port) = some ⟨(range 16).map host, 16, port⟩) ∧
    (IsByteArray host 4 →
      contactStringToInts (intsToContactString host 4 port) = some ⟨(range 4).map host ++ replicate 12 0, 4, port⟩) := by
  constructor
  · intro hb
    obtain ⟨text, htext, hstring⟩ := intsToContactString_ipv6 hb port
    refine ⟨text, _, hstring, htext, groupBytes_groupValue hb, ?_, ?_⟩
    · intro a b a' b' h h'
      exact htext.double_unique h h'
    · rw [hstring]
      exact contactStringToInts_ipv6 hb hport htext
  · intro hb
    have hquad := quadText_ipv4Text (h := 0) fun i hi => by simpa using hb i hi
    have hhost : ∀ i < 4, ((host i).toNat : Int) = host i := fun i hi => Int.toNat_of_nonneg (hb i hi).1
    rw [intsToContactString_ipv4, contactStringToInts_ipv4 hquad hport]
    simp [range_succ, hhost]

/-- The address `fe80::1` with the port of GridFTP. -/
theorem contactString_roundTrip_link : ∃ host : Nat → Int, (∀ i, host i = [0xfe, 0x80, 0, 0, 0, 0, 0, 0, 0, 0, 0, 0, 0, 0, 0, 1].getD i 0) ∧
    IsByteArray host 16 ∧ contactStringToInts (intsToContactString host 16 2811) = some ⟨(range 16).map host, 16, 2811⟩ := by
  have hb : IsByteArray (fun i => [0xfe, 0x80, 0, 0, 0, 0, 0, 0, 0, 0, 0, 0, 0, 0, 0, 1].getD i 0) 16 := by
    unfold IsByteArray
    decide
  obtain ⟨-, -, -, -, -, -, hread⟩ := (contactString_roundTrip _ (show 2811 ≤ 65535 by decide)).1 hb
  exact ⟨_, fun _ => rfl, hb, hread⟩

end Reading

end Globus
