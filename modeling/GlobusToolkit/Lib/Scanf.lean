/-
Formatted input. A format is a list of directives; `scanf` follows them as long as they match and gives the values
that were assigned, and what is left of the input. Numbers are read as `long` and cut to the width of their type.
-/
import GlobusToolkit.Lib.CString
import Mathlib.Data.List.DropRight

namespace Lib

open List

/-- A directive of a format. -/
inductive Directive where
  /-- white space in the format: any white space in the input, or none -/
  | space
  /-- another character of the format -/
  | char (c : Char)
  /-- `%d`, with the bits of its type -/
  | int (width : Option Nat) (bits : Nat)
  /-- `%s` -/
  | string
  /-- `%[...]`, or `%*[...]`, where nothing is assigned -/
  | set (width : Option Nat) (assign : Bool) (member : Char → Bool)

/-- What a conversion assigns. -/
inductive ScanValue where
  | int (v : Int)
  | str (s : List Char)
  deriving DecidableEq, Repr

/-- The input that a conversion with this width may look at. -/
def limit : Option Nat → List Char → List Char
  | none, s => s
  | some w, s => s.take w

/-- The input behind that. -/
def beyond : Option Nat → List Char → List Char
  | none, _ => []
  | some w, s => s.drop w

/-- The value and the rest of the input, or a failure. -/
def Directive.scan : Directive → List Char → Option (Option ScanValue × List Char)
  | .space, s => some (none, s.dropWhile isspace)
  | .char c, s => if s.head? = some c then some (none, s.tail) else none
  | .int width bits, s =>
    let t := s.dropWhile isspace
    match scanInt (-2 ^ 63) (2 ^ 63 - 1) (limit width t) with
    | none => none
    | some (v, rest) => some (some (.int (Int.bmod v (2 ^ bits))), rest ++ beyond width t)
  | .string, s =>
    let t := s.dropWhile isspace
    let word := t.takeWhile (!isspace ·)
    if word = [] then none else some (some (.str word), t.drop word.length)
  | .set width assign member, s =>
    let word := (limit width s).takeWhile member
    if word = [] then none else some (if assign then some (.str word) else none, s.drop word.length)

open Directive (char int scan set)

/-- The values that are assigned before the first failure, and the input that is left there. -/
def scanf : List Directive → List Char → List ScanValue × List Char
  | [], s => ([], s)
  | d :: ds, s =>
    match d.scan s with
    | none => ([], s)
    | some (v, rest) => (v.toList ++ (scanf ds rest).1, (scanf ds rest).2)

/-- The directives of a piece of a format without conversions. -/
def literal (s : List Char) : List Directive := s.map fun c => if isspace c then .space else .char c

theorem literal_append (s t : List Char) : literal (s ++ t) = literal s ++ literal t := map_append

section Scanf

variable {ds : List Directive} {s rest : List Char}

theorem scanf_cons {d : Directive} {v : Option ScanValue} (h : d.scan s = some (v, rest)) :
    scanf (d :: ds) s = (v.toList ++ (scanf ds rest).1, (scanf ds rest).2) := by
  rw [scanf, h]

theorem scanf_cons_none {d : Directive} (h : d.scan s = none) : scanf (d :: ds) s = ([], s) := by
  rw [scanf, h]

theorem scanf_space : scanf (.space :: ds) s = scanf ds (s.dropWhile isspace) := by
  rfl

theorem scanf_char (c : Char) : scanf (.char c :: ds) (c :: rest) = scanf ds rest := by
  have hscan : (char c).scan (c :: rest) = some (none, rest) := by simp [scan]
  rw [scanf_cons hscan]
  rfl

theorem scanf_string (hne : s ≠ []) (hs : ∀ c ∈ s, isspace c = false) (hrest : ∀ c ∈ rest.head?, isspace c) :
    scanf (.string :: ds) (s ++ rest) = (.str s :: (scanf ds rest).1, (scanf ds rest).2) := by
  have hhead : (s ++ rest).dropWhile isspace = s ++ rest := by
    refine dropWhile_isspace_of_head fun c hc => ?_
    cases s with
    | nil => exact absurd rfl hne
    | cons d s => exact hs c (by simp_all)
  have hword : (s ++ rest).takeWhile (!isspace ·) = s :=
    takeWhile_append_of_head (by simpa using hs) (by simpa using hrest)
  refine scanf_cons (v := some (.str s)) ?_
  rw [scan, hhead, hword, if_neg hne, drop_left]

variable {bits : Nat}

theorem scanf_signed (n : Signed) (hrest : ∀ c ∈ rest.head?, c.isDigit = false) (hlo : -2 ^ 63 ≤ n.value)
    (hhi : n.value < 2 ^ 63) (hbits : Int.bmod n.value (2 ^ bits) = n.value) :
    scanf (.int none bits :: ds) (n.text ++ rest) = (.int n.value :: (scanf ds rest).1, (scanf ds rest).2) := by
  refine scanf_cons (v := some (.int n.value)) ?_
  rw [scan, dropWhile_isspace_of_head (n.isspace_head rest)]
  dsimp only [limit, beyond]
  rw [scanInt_signed n hrest (by omega) (by omega)]
  dsimp only
  rw [hbits, append_nil]

theorem scanf_int (n : Numeral) (hrest : ∀ c ∈ rest.head?, c.isDigit = false) (hlt : n.value < 2 ^ 63)
    (hbits : Int.bmod n.value (2 ^ bits) = n.value) :
    scanf (.int none bits :: ds) (n.digits ++ rest) = (.int n.value :: (scanf ds rest).1, (scanf ds rest).2) :=
  scanf_signed ⟨false, n⟩ hrest (by change (-2 ^ 63 : Int) ≤ n.value; omega)
    (by change (n.value : Int) < 2 ^ 63; omega) hbits

theorem scanf_set {width : Option Nat} {assign : Bool} {member : Char → Bool} (hne : s ≠ [])
    (hwidth : ∀ w ∈ width, s.length ≤ w) (hs : ∀ c ∈ s, member c) (hrest : ∀ c ∈ rest.head?, member c = false) :
    scanf (.set width assign member :: ds) (s ++ rest) =
      ((if assign then [.str s] else []) ++ (scanf ds rest).1, (scanf ds rest).2) := by
  have hword : (limit width (s ++ rest)).takeWhile member = s := by
    cases width with
    | none => exact takeWhile_append_of_head hs hrest
    | some w =>
      rw [limit, take_append, take_of_length_le (hwidth w rfl)]
      refine takeWhile_append_of_head hs fun c hc => hrest c ?_
      rw [head?_take] at hc
      split at hc
      · cases hc
      · exact hc
  have hscan : (set width assign member).scan (s ++ rest) =
      some (if assign then some (.str s) else none, rest) := by
    rw [scan, hword, if_neg hne, drop_left]
  rw [scanf_cons hscan]
  cases assign <;> rfl

theorem literal_cons_append (c : Char) (t : List Char) :
    literal (c :: t) ++ ds = (if isspace c then .space else .char c) :: (literal t ++ ds) :=
  rfl

/-- A format without conversions matches its own text, also when white space at its front has been read already. -/
theorem scanf_literal_aux (hrest : ∀ c ∈ rest.head?, isspace c = false) : ∀ t : List Char,
    scanf (literal t ++ ds) (t ++ rest) = scanf ds rest ∧
    scanf (literal t ++ ds) ((t ++ rest).dropWhile isspace) = scanf ds rest
  | [] => ⟨rfl, by rw [nil_append, dropWhile_isspace_of_head hrest]; rfl⟩
  | c :: t => by
    obtain ⟨hfirst, hsecond⟩ := scanf_literal_aux hrest t
    rw [literal_cons_append, cons_append]
    by_cases hc : isspace c
    · rw [if_pos hc, scanf_space, scanf_space, dropWhile_idempotent, dropWhile_cons_of_pos hc]
      exact ⟨hsecond, hsecond⟩
    · rw [if_neg hc, dropWhile_cons_of_neg hc, scanf_char]
      exact ⟨hfirst, hfirst⟩

theorem scanf_literal (t : List Char) (hrest : ∀ c ∈ rest.head?, isspace c = false) :
    scanf (literal t ++ ds) (t ++ rest) = scanf ds rest :=
  (scanf_literal_aux hrest t).1

theorem scanf_literal_cases : ∀ t s : List Char,
    (scanf (literal t ++ ds) s).1 = [] ∨ ∃ s', (scanf (literal t ++ ds) s).1 = (scanf ds s').1
  | [], s => .inr ⟨s, rfl⟩
  | c :: t, s => by
    rw [literal_cons_append]
    by_cases hc : isspace c
    · rw [if_pos hc, scanf_space]
      exact scanf_literal_cases t _
    · rw [if_neg hc]
      by_cases hs : s.head? = some c
      · have hscan : (char c).scan s = some (none, s.tail) := by simp [scan, hs]
        rw [scanf_cons hscan]
        exact scanf_literal_cases t s.tail
      · exact .inl (by rw [scanf_cons_none (by simp [scan, hs])])

theorem scanf_literal_values (t s : List Char) : (scanf (literal t) s).1 = [] := by
  rw [← append_nil (literal t)]
  rcases @scanf_literal_cases [] t s with h | ⟨_, h⟩ <;> exact h

theorem scanf_string_value {word : List Char} {vs : List ScanValue} (h : (scanf (.string :: ds) s).1 = .str word :: vs) :
    (word ≠ [] ∧ ∀ c ∈ word, isspace c = false) ∧
    ∃ ws rest, s = ws ++ (word ++ rest) ∧ (∀ c ∈ ws, isspace c) ∧ ∀ c ∈ rest.head?, isspace c := by
  obtain ⟨ws, t, rfl, hws, ht⟩ := exists_append_of_class isspace s
  obtain ⟨word', rest, rfl, hword, hrest⟩ := exists_append_of_class (!isspace ·) t
  simp only [scanf, scan, dropWhile_append_of_head hws ht, takeWhile_append_of_head hword hrest] at h
  split at h
  · cases h
  · next hscan =>
    split at hscan
    · cases hscan
    · next hne =>
      cases hscan
      cases h
      exact ⟨⟨hne, by simpa using hword⟩, ws, rest, rfl, hws, by simpa using hrest⟩

theorem Directive.scan_int_append {width : Option Nat} {ws : List Char} (hws : ∀ c ∈ ws, isspace c) :
    (int width bits).scan (ws ++ s) = (int width bits).scan s := by
  simp only [scan, dropWhile_append_of_pos hws]

end Scanf

/-! ## Input that ends too soon -/

/-- The directive assigns a value. -/
def Directive.assigns : Directive → Bool
  | .int _ _ => true
  | .string => true
  | .set _ assign _ => assign
  | _ => false

/-- The directive takes the character `c` from the input. -/
def Directive.takes (c : Char) : Directive → Bool
  | .char d => d = c
  | _ => false

theorem scanSign_suffix (s : List Char) : (scanSign s).2 <:+ s := by
  unfold scanSign
  split
  · exact suffix_cons _ _
  · exact suffix_cons _ _
  · exact suffix_rfl

theorem scanInt_some {lo hi v : Int} {s rest : List Char} (h : scanInt lo hi s = some (v, rest)) :
    rest <:+ s ∧ ∃ c ∈ s, c.isDigit = true := by
  have hsuffix : (scanSign (s.dropWhile isspace)).2 <:+ s := (scanSign_suffix _).trans (dropWhile_suffix _)
  simp only [scanInt] at h
  split at h
  · cases h
  · next hne =>
    cases h
    obtain ⟨c, hc⟩ := exists_mem_of_ne_nil _ hne
    exact ⟨(dropWhile_suffix _).trans hsuffix, c, hsuffix.mem (( takeWhile_prefix _).mem hc),
      mem_takeWhile_imp hc⟩

section Suffix

variable {d : Directive} {v : Option ScanValue} {s rest : List Char}

theorem limit_append_beyond : ∀ (width : Option Nat) (s : List Char), limit width s ++ beyond width s = s
  | none, s => append_nil s
  | some w, s => take_append_drop w s

theorem Directive.suffix_of_scan (h : d.scan s = some (v, rest)) : rest <:+ s := by
  cases d with
  | space => cases h; exact dropWhile_suffix _
  | char c =>
    simp only [scan] at h
    split at h
    · cases h; exact tail_suffix s
    · cases h
  | int width bits =>
    simp only [scan] at h
    split at h
    · cases h
    · next hscan =>
      cases h
      obtain ⟨u, hu⟩ := (scanInt_some hscan).1
      refine List.IsSuffix.trans ⟨u, ?_⟩ (dropWhile_suffix isspace)
      rw [← append_assoc, hu, limit_append_beyond]
  | string =>
    simp only [scan] at h
    split at h
    · cases h
    · cases h; exact (drop_suffix _ _).trans (dropWhile_suffix _)
  | set width assign member =>
    simp only [scan] at h
    split at h
    · cases h
    · cases h; exact drop_suffix _ _

theorem Directive.length_of_scan (h : d.scan s = some (v, rest)) : v.toList.length ≤ if d.assigns then 1 else 0 := by
  cases d with
  | space => cases h; simp
  | char c =>
    simp only [scan] at h
    split at h <;> cases h
    simp
  | int width bits => cases v <;> simp [assigns]
  | string => cases v <;> simp [assigns]
  | set width assign member =>
    simp only [scan] at h
    split at h <;> cases h
    cases assign <;> simp [assigns]

theorem Directive.count_of_scan (c : Char) (h : d.scan s = some (v, rest)) :
    (if d.takes c then 1 else 0) + rest.count c ≤ s.count c := by
  have hsuffix : rest.count c ≤ s.count c := (suffix_of_scan h).sublist.count_le c
  cases d with
  | char e =>
    simp only [scan] at h
    split at h
    · next hhead =>
      cases h
      obtain ⟨t, rfl⟩ := head?_eq_some_iff.1 hhead
      by_cases hc : e = c <;> simp [takes, hc, Nat.add_comm]
    · cases h
  | _ => simpa [takes] using hsuffix

/-- Where a format assigns more values than its first part does, the first part has matched. It has taken the
characters it names from the input. -/
theorem scanf_append_cases (c : Char) (ds₂ : List Directive) : ∀ (ds₁ : List Directive) (s : List Char),
    (scanf (ds₁ ++ ds₂) s).1.length ≤ ds₁.countP Directive.assigns ∨
    ∃ rest, rest <:+ s ∧ ds₁.countP (Directive.takes c) + rest.count c ≤ s.count c ∧ (scanf ds₂ rest).1 ≠ []
  | [], s => by
    by_cases h : (scanf ds₂ s).1 = []
    · exact .inl (by simp [h])
    · exact .inr ⟨s, suffix_rfl, by simp, h⟩
  | d :: ds₁, s => by
    cases hscan : d.scan s with
    | none =>
      rw [cons_append, scanf_cons_none hscan]
      exact .inl (Nat.zero_le _)
    | some r =>
      obtain ⟨v, rest⟩ := r
      have hlength := Directive.length_of_scan hscan
      have hcount := Directive.count_of_scan c hscan
      rw [cons_append, scanf_cons hscan, countP_cons, countP_cons, length_append]
      rcases scanf_append_cases c ds₂ ds₁ rest with h | ⟨rest', hsuffix, h, hne⟩
      · exact .inl (by omega)
      · exact .inr ⟨rest', hsuffix.trans (Directive.suffix_of_scan hscan), by omega, hne⟩

end Suffix

theorem exists_isDigit_of_scanf {width : Option Nat} {bits : Nat} {ds : List Directive} {s : List Char}
    (h : (scanf (.int width bits :: ds) s).1 ≠ []) : ∃ c ∈ s, c.isDigit = true := by
  have hscan : (int width bits).scan s ≠ none := fun hnone => h (by rw [scanf_cons_none hnone])
  simp only [scan] at hscan
  split at hscan
  · exact absurd rfl hscan
  · next hint =>
    obtain ⟨-, c, hc, hdigit⟩ := scanInt_some hint
    have hmem := mem_append_left (beyond width (s.dropWhile isspace)) hc
    rw [limit_append_beyond] at hmem
    exact ⟨c, (dropWhile_suffix _).mem hmem, hdigit⟩

end Lib
