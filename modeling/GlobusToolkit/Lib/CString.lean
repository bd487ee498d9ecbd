/-
C strings as lists of characters without the terminating null: searching for a character, and the
integer conversions of the formatted input and output functions. An input conversion skips white
space, takes an optional sign and at least one digit, and a value outside the type is clamped to its
bounds, as `strtoll` does.
-/
import Mathlib.Data.List.TakeWhile
import Mathlib.Data.Nat.Digits.Defs
import Mathlib.Tactic

namespace Lib

open Option

open List

-- Ahead of the instance that tries all characters.
instance (priority := 2000) decidableForallMemChar {P : Char → Prop} [DecidablePred P] (s : List Char) :
    Decidable (∀ c ∈ s, P c) := List.decidableBAll P s

instance (priority := 2000) decidableForallMemHeadChar {P : Char → Prop} [DecidablePred P] (o : Option Char) :
    Decidable (∀ c ∈ o, P c) :=
  match o with
  | none => isTrue (by simp)
  | some c => decidable_of_iff (P c) (by simp)

theorem forall_head?_append {α : Type*} {P : α → Prop} {s : List α} (hne : s ≠ []) (h : ∀ c ∈ s.head?, P c)
    (t : List α) : ∀ c ∈ (s ++ t).head?, P c := by
  obtain ⟨c, s, rfl⟩ := exists_cons_of_ne_nil hne
  exact h

section TakeWhile

variable {α : Type*} {p : α → Bool} {s rest : List α}

theorem takeWhile_append_of_head (hs : ∀ c ∈ s, p c) (hrest : ∀ c ∈ rest.head?, p c = false) :
    (s ++ rest).takeWhile p = s := by
  rw [takeWhile_append_of_pos hs]
  cases rest with
  | nil => simp
  | cons c rest => simp [hrest c (by simp)]

theorem dropWhile_append_of_head (hs : ∀ c ∈ s, p c) (hrest : ∀ c ∈ rest.head?, p c = false) :
    (s ++ rest).dropWhile p = rest := by
  rw [dropWhile_append_of_pos hs]
  cases rest with
  | nil => simp
  | cons c rest => simp [hrest c (by simp)]

/-- Every list is one whose elements have a property, and a rest that begins with one that has not. -/
theorem exists_append_of_class (p : α → Bool) (s : List α) :
    ∃ u v, s = u ++ v ∧ (∀ c ∈ u, p c) ∧ ∀ c ∈ v.head?, p c = false := by
  refine ⟨s.takeWhile p, s.dropWhile p, takeWhile_append_dropWhile.symm, fun c hc => mem_takeWhile_imp hc, fun c hc => ?_⟩
  have h := head?_dropWhile_not p s
  rw [mem_def.1 hc] at h
  simpa using h

/-- The longest such list is the only one that ends in front of an element without the property. -/
theorem append_inj_of_class {u v u' v' : List α} (h : u ++ v = u' ++ v') (hu : ∀ c ∈ u, p c) (hv : ∀ c ∈ v.head?, p c = false)
    (hu' : ∀ c ∈ u', p c) (hv' : ∀ c ∈ v'.head?, p c = false) : u = u' ∧ v = v' := by
  have htake := congrArg (List.takeWhile p) h
  have hdrop := congrArg (List.dropWhile p) h
  rw [takeWhile_append_of_head hu hv, takeWhile_append_of_head hu' hv'] at htake
  rw [dropWhile_append_of_head hu hv, dropWhile_append_of_head hu' hv'] at hdrop
  exact ⟨htake, hdrop⟩

end TakeWhile

/-! ## Searching -/

/-- `strchr`: the rest of the string from the first `c` on. -/
def strchr (c : Char) (s : List Char) : Option (List Char) :=
  match s.dropWhile (· ≠ c) with
  | [] => none
  | t => some t

variable {c : Char} {s : List Char}

theorem ne_of_not_mem (h : c ∉ s) : ∀ a ∈ s, decide (a ≠ c) = true := by
  intro a ha
  simp only [ne_eq, decide_eq_true_eq]
  rintro rfl; exact h ha

theorem strchr_eq_none (h : c ∉ s) : strchr c s = none := by
  rw [strchr, dropWhile_eq_nil_iff.2 (ne_of_not_mem h)]

theorem dropWhile_ne_append (h : c ∉ s) (t : List Char) :
    (s ++ c :: t).dropWhile (· ≠ c) = c :: t := by
  rw [dropWhile_append_of_pos (ne_of_not_mem h)]
  simp

theorem takeWhile_ne_append (h : c ∉ s) (t : List Char) :
    (s ++ c :: t).takeWhile (· ≠ c) = s := by
  rw [takeWhile_append_of_pos (ne_of_not_mem h)]
  simp

theorem strchr_append (h : c ∉ s) (t : List Char) :
    strchr c (s ++ c :: t) = some (c :: t) := by
  rw [strchr, dropWhile_ne_append h]

theorem strchr_tail_lt {s t : List Char} (h : strchr c s = some t) : t.tail.length < s.length := by
  unfold strchr at h
  split at h
  · cases h
  · next hne =>
    cases h
    have hle : (s.dropWhile (· ≠ c)).length ≤ s.length := (dropWhile_sublist _).length_le
    have hpos : 0 < (s.dropWhile (· ≠ c)).length := length_pos_of_ne_nil (by simpa using hne)
    rw [length_tail]; omega

/-- What stands in front of the last `c` (`strrchr`). -/
def beforeLast (c : Char) (s : List Char) : List Char := ((s.reverse.dropWhile (· ≠ c)).drop 1).reverse

/-- What stands behind the last `c`. -/
def afterLast (c : Char) (s : List Char) : List Char := (s.reverse.takeWhile (· ≠ c)).reverse

theorem beforeLast_append_afterLast (h : c ∈ s) :
    beforeLast c s ++ c :: afterLast c s = s := by
  obtain ⟨u, v, hs, hu⟩ := eq_append_cons_of_mem (mem_reverse.2 h)
  rw [beforeLast, afterLast, hs, dropWhile_ne_append hu, takeWhile_ne_append hu, ← reverse_reverse s, hs]
  simp

theorem not_mem_afterLast (c : Char) (s : List Char) : c ∉ afterLast c s := by
  intro h
  have := mem_takeWhile_imp (mem_reverse.1 h)
  simp at this

/-- `memchr`: the index of the first `c`. -/
def memchr (c : Char) (s : List Char) : Option Nat := if c ∈ s then some (s.idxOf c) else none

theorem memchr_eq_none (h : c ∉ s) : memchr c s = none := if_neg h

theorem memchr_append (h : c ∉ s) (t : List Char) :
    memchr c (s ++ c :: t) = some s.length := by
  rw [memchr, if_pos (by simp), idxOf_append_of_notMem h, idxOf_cons_self, Nat.add_zero]

/-- `strstr`: what stands before and behind the first `pat`. -/
def strstr (pat : List Char) : List Char → Option (List Char × List Char)
  | [] => if pat = [] then some ([], []) else none
  | c :: s =>
    if pat <+: c :: s then some ([], (c :: s).drop pat.length)
    else (strstr pat s).map fun r => (c :: r.1, r.2)

variable {pat : List Char}

theorem eq_of_strstr : ∀ {s u v : List Char}, strstr pat s = some (u, v) → s = u ++ pat ++ v
  | [], u, v, h => by
    rw [strstr] at h
    split_ifs at h with hp
    cases h; simp [hp]
  | c :: s, u, v, h => by
    rw [strstr] at h
    split_ifs at h with hp
    · cases h
      obtain ⟨t, ht⟩ := hp
      rw [← ht]; simp
    · obtain ⟨⟨u', v'⟩, h1, h2⟩ := map_eq_some_iff.1 h
      cases h2
      rw [eq_of_strstr h1]; simp

/-- No other `pat` begins earlier. -/
theorem length_le_of_strstr : ∀ {s u v u' v' : List Char}, strstr pat s = some (u, v) →
    s = u' ++ pat ++ v' → u.length ≤ u'.length
  | [], u, v, u', v', h, _ => by
    rw [strstr] at h
    split_ifs at h
    cases h; simp
  | c :: s, u, v, u', v', h, heq => by
    rw [strstr] at h
    split_ifs at h with hp
    · cases h; simp
    · obtain ⟨⟨u₁, v₁⟩, h1, h2⟩ := map_eq_some_iff.1 h
      cases h2
      cases u' with
      | nil => exact absurd ⟨v', by simpa using heq.symm⟩ hp
      | cons d u' =>
        simp only [cons_append, List.cons.injEq] at heq
        have := length_le_of_strstr h1 heq.2
        simpa using this

theorem not_infix_of_strstr : ∀ {s : List Char}, strstr pat s = none → ¬ pat <:+: s
  | [], h => by
    rw [strstr] at h
    split_ifs at h with hp
    simpa using hp
  | c :: s, h => by
    rw [strstr] at h
    split_ifs at h with hp
    rw [infix_cons_iff, not_or]
    exact ⟨hp, not_infix_of_strstr (by simpa using h)⟩

variable {pat s : List Char}

theorem strstr_of_prefix (h : pat <+: s) : strstr pat s = some ([], s.drop pat.length) := by
  cases s with
  | nil =>
    obtain rfl := prefix_nil.1 h
    rfl
  | cons c s => rw [strstr, if_pos h]

theorem strstr_cons_of_not_prefix (h : ¬ pat <+: c :: s) :
    strstr pat (c :: s) = (strstr pat s).map fun r => (c :: r.1, r.2) := by
  rw [strstr, if_neg h]

theorem strstr_append_of_notMem {l : List Char} (hl : c ∉ l) (pat s : List Char) :
    strstr (c :: pat) (l ++ s) = (strstr (c :: pat) s).map fun r => (l ++ r.1, r.2) := by
  induction l with
  | nil => simp
  | cons d l ih =>
    rw [mem_cons, not_or] at hl
    have hd : ¬ c :: pat <+: d :: (l ++ s) := fun h => hl.1 (cons_prefix_cons.1 h).1
    rw [cons_append, strstr_cons_of_not_prefix hd, ih hl.2, Option.map_map]
    rfl

theorem strstr_self (pat : List Char) : strstr pat pat = some ([], []) := by
  rw [ strstr_of_prefix (prefix_refl pat), drop_length]

/-- Text without `c` does not begin in front of a `c` and end behind it. -/
theorem prefix_of_prefix_append {pat u rest : List Char} (hc : c ∉ pat) (hrest : ∀ d ∈ rest.head?, d = c)
    (h : pat <+: u ++ rest) : pat <+: u := by
  rcases prefix_or_prefix_of_prefix h (prefix_append u rest) with h' | ⟨t, rfl⟩
  · exact h'
  · cases t with
    | nil => simp
    | cons d t =>
      obtain ⟨r, rfl⟩ := (prefix_append_right_inj u).1 h
      exact absurd (by simp [hrest d (by simp)]) hc

theorem strstr_append_of_some {pat rest : List Char} (hc : c ∉ pat) (hrest : ∀ d ∈ rest.head?, d = c) :
    ∀ {e x y : List Char}, strstr pat e = some (x, y) → strstr pat (e ++ rest) = some (x, y ++ rest)
  | [], x, y, h => by
    rw [strstr] at h
    split_ifs at h with hp
    cases h
    subst hp
    cases rest with
    | nil => rfl
    | cons d rest => simp [strstr]
  | d :: e, x, y, h => by
    rw [strstr] at h
    rw [cons_append, strstr]
    split_ifs at h with hp
    · cases h
      have hp' : pat <+: d :: (e ++ rest) := hp.trans (prefix_append (d :: e) rest)
      rw [if_pos hp', ← cons_append, drop_append_of_le_length hp.length_le]
    · obtain ⟨⟨u, v⟩, h1, h2⟩ := map_eq_some_iff.1 h
      cases h2
      have hp' : ¬ pat <+: d :: (e ++ rest) := fun hpre => hp (prefix_of_prefix_append hc hrest hpre)
      rw [if_neg hp', strstr_append_of_some hc hrest h1]
      rfl

theorem strstr_append_of_none (hc : c ∉ pat) (rest : List Char) :
    ∀ {e : List Char}, strstr pat e = none →
    strstr pat (e ++ c :: rest) = (strstr pat rest).map fun r => (e ++ c :: r.1, r.2)
  | [], h => by
    rw [strstr] at h
    split_ifs at h with hp
    have hp' : ¬ pat <+: c :: rest := fun hpre => by
      cases pat with
      | nil => exact hp rfl
      | cons d pat => exact hc (by simp [(cons_prefix_cons.1 hpre).1])
    rw [nil_append, strstr, if_neg hp']
    rfl
  | d :: e, h => by
    rw [strstr] at h
    split_ifs at h with hp
    have hp' : ¬ pat <+: d :: (e ++ c :: rest) := fun hpre =>
      hp (prefix_of_prefix_append hc (by simp) (u := d :: e) hpre)
    rw [cons_append, strstr, if_neg hp', strstr_append_of_none hc rest (by simpa using h), Option.map_map]
    rfl

theorem intercalate_cons (sep : Char) (x : List Char) : ∀ xs : List (List Char),
    [sep].intercalate (x :: xs) = x ++ xs.flatMap (sep :: ·)
  | [] => by simp
  | y :: xs => by
    rw [intercalate_cons_cons, intercalate_cons sep y xs]
    simp

theorem dropLast_flatMap_append (sep : Char) : ∀ l : List (List Char),
    (l.flatMap (· ++ [sep])).dropLast = [sep].intercalate l
  | [] => rfl
  | [x] => by simp
  | x :: y :: l => by
    rw [flatMap_cons, dropLast_append_of_ne_nil (by simp), dropLast_flatMap_append sep (y :: l),
      intercalate_cons_cons]

theorem strstr_eq_none_iff : strstr pat s = none ↔ ¬ pat <:+: s := by
  refine ⟨not_infix_of_strstr, fun h => ?_⟩
  cases hs : strstr pat s with
  | none => rfl
  | some r => exact absurd ⟨r.1, r.2, (eq_of_strstr hs).symm⟩ h

/-- The loop that replaces the first `pat`, with what stands before and behind it, as long as there is
one. -/
def strstrLoop (pat : List Char) (edit : List Char → List Char → List Char)
    (hlt : ∀ u v, (edit u v).length < (u ++ pat ++ v).length) (s : List Char) : List Char :=
  match _h : strstr pat s with
  | none => s
  | some (u, v) => strstrLoop pat edit hlt (edit u v)
termination_by s.length
decreasing_by rw [eq_of_strstr _h]; exact hlt u v

/-- What every replacement keeps holds at the end, when there is no `pat` left. -/
theorem strstrLoop_inv (P : List Char → Prop) {edit : List Char → List Char → List Char}
    (hlt : ∀ u v, (edit u v).length < (u ++ pat ++ v).length)
    (hstep : ∀ u v, strstr pat (u ++ pat ++ v) = some (u, v) → P (u ++ pat ++ v) → P (edit u v))
    (s : List Char) (hs : P s) : P (strstrLoop pat edit hlt s) ∧ ¬ pat <:+: strstrLoop pat edit hlt s := by
  rw [strstrLoop]
  split
  · next h => exact ⟨hs, not_infix_of_strstr h⟩
  · next u v h =>
    have heq := eq_of_strstr h
    have hdec : (edit u v).length < s.length := by rw [heq]; exact hlt u v
    rw [heq] at h hs
    exact strstrLoop_inv P hlt hstep (edit u v) (hstep u v h hs)
termination_by s.length

/-! ## Comparing -/

/-- The sign of `strcmp`, which compares the characters as unsigned numbers. -/
def strcmp (s t : List Char) : Ordering := List.compareLex (compareOn Char.toNat) s t

instance : Std.TransCmp strcmp := inferInstanceAs (Std.TransCmp (List.compareLex (compareOn Char.toNat)))

theorem strcmp_cons (c : Char) (s t : List Char) : strcmp (c :: s) (c :: t) = strcmp s t := by
  have hc : compareOn Char.toNat c c = .eq := Std.ReflCmp.compare_self
  unfold strcmp
  rw [List.compareLex_cons_cons, hc]
  rfl

theorem eq_of_strcmp : ∀ {s t : List Char}, strcmp s t = .eq → s = t
  | [], [], _ => rfl
  | [], _ :: _, h => by cases h
  | _ :: _, [], h => by cases h
  | a :: s, b :: t, h => by
    unfold strcmp at h
    rw [List.compareLex_cons_cons, Ordering.then_eq_eq] at h
    rw [Char.toNat_inj.1 (Nat.compare_eq_eq.1 h.1), eq_of_strcmp h.2]

theorem strcmp_isGE_total (s t : List Char) : (strcmp s t).isGE ∨ (strcmp t s).isGE := by
  rw [@Std.OrientedCmp.eq_swap _ strcmp _ t s]
  cases strcmp s t <;> simp

theorem strcmp_append_isGE : ∀ s t : List Char, (strcmp (s ++ t) s).isGE
  | [], [] => rfl
  | [], _ :: _ => rfl
  | c :: s, t => by
    rw [cons_append, strcmp_cons]
    exact strcmp_append_isGE s t

theorem length_le_of_strcmp_isGE {s t p : List Char} (hs : s <+: p) (ht : t <+: p) (h : (strcmp s t).isGE) :
    t.length ≤ s.length := by
  by_contra hlt
  obtain ⟨r, rfl⟩ := prefix_of_prefix_length_le hs ht (by omega)
  have := eq_of_strcmp (Std.OrientedCmp.isGE_antisymm h (strcmp_append_isGE s r))
  exact hlt (by rw [← this])

/-! ## Bytes in hexadecimal -/

/-- The string up to its null character. -/
def cstr (s : List Char) : List Char := s.takeWhile (· ≠ '\x00')

theorem cstr_eq_self (h : '\x00' ∉ s) : cstr s = s :=
  takeWhile_eq_self_iff.2 (ne_of_not_mem h)

/-- `isxdigit` in the C locale. -/
def isxdigit (c : Char) : Bool := c.isDigit || ('a' ≤ c && c ≤ 'f') || ('A' ≤ c && c ≤ 'F')

/-- The value of a hexadecimal digit. -/
def hexDigit (c : Char) : Nat :=
  if c.isDigit then c.toNat - 48 else if 'a' ≤ c then c.toNat - 87 else c.toNat - 55

/-- The byte that two hexadecimal digits stand for, as `strtol` with base 16 reads them. -/
def hexByte (a b : Char) : Char := Char.ofNat (16 * hexDigit a + hexDigit b)

/-! ## Decimal numerals -/

/-- A decimal numeral: one digit or more. -/
structure Numeral where
  digits : List Char
  digits_ne_nil : digits ≠ []
  isDigit : ∀ c ∈ digits, c.isDigit = true

/-- The number a numeral stands for. -/
def Numeral.value (n : Numeral) : Nat := Nat.ofDigitChars 10 n.digits 0

/-- The numeral without leading zeros. -/
def Numeral.ofNat (n : Nat) : Numeral :=
  ⟨Nat.toDigits 10 n, Nat.toDigits_ne_nil, fun _ hc => Nat.isDigit_of_mem_toDigits (by decide) (by decide) hc⟩

@[simp] theorem Numeral.value_ofNat (n : Nat) : (Numeral.ofNat n).value = n := Nat.ofDigitChars_ten_toDigits

theorem Numeral.not_mem (n : Numeral) (hc : c.isDigit = false) : c ∉ n.digits := fun h => by
  rw [n.isDigit c h] at hc; cases hc

/-- The output of `%d` and its wider variants. -/
def printInt : Int → List Char
  | .ofNat n => (Numeral.ofNat n).digits
  | .negSucc n => '-' :: (Numeral.ofNat (n + 1)).digits

/-- `isspace` in the C locale. -/
def isspace (c : Char) : Bool := c = ' ' || (9 ≤ c.toNat && c.toNat ≤ 13)

/-- The sign of an integer in the input, and what follows it. -/
def scanSign : List Char → Bool × List Char
  | '-' :: s => (true, s)
  | '+' :: s => (false, s)
  | s => (false, s)

/-- The input conversion `%d` (and its wider variants) for a type with the bounds `lo` and `hi`: the
value and the rest of the input, or a matching failure. -/
def scanInt (lo hi : Int) (s : List Char) : Option (Int × List Char) :=
  let r := scanSign (s.dropWhile isspace)
  let digits := r.2.takeWhile Char.isDigit
  if digits = [] then none
  else
    let n : Int := Nat.ofDigitChars 10 digits 0
    some (max lo (min hi (if r.1 then -n else n)), r.2.dropWhile Char.isDigit)

theorem isspace_of_isDigit (h : c.isDigit = true) : isspace c = false := by
  simp only [Char.isDigit, Bool.and_eq_true, decide_eq_true_eq, ge_iff_le, UInt32.le_iff_toNat_le] at h
  have hlo : 48 ≤ c.toNat := h.1
  have hne : c ≠ ' ' := by rintro rfl; exact absurd hlo (by decide)
  simp [isspace, hne]; omega

theorem scanSign_of_isDigit (h : c.isDigit = true) (s : List Char) : scanSign (c :: s) = (false, c :: s) := by
  unfold scanSign
  split
  · next heq => cases heq; cases h
  · next heq => cases heq; cases h
  · rfl

/-- A numeral with or without a minus sign in front of it. -/
structure Signed where
  negative : Bool
  numeral : Numeral

namespace Signed

def value (n : Signed) : Int := if n.negative then -n.numeral.value else n.numeral.value

/-- The sign and the digits. -/
def sign (n : Signed) : List Char := if n.negative then ['-'] else []

def text (n : Signed) : List Char := n.sign ++ n.numeral.digits

def ofInt : Int → Signed
  | .ofNat n => ⟨false, .ofNat n⟩
  | .negSucc n => ⟨true, .ofNat (n + 1)⟩

@[simp] theorem text_ofInt : ∀ v : Int, (ofInt v).text = printInt v
  | .ofNat _ => rfl
  | .negSucc _ => rfl

@[simp] theorem value_ofInt : ∀ v : Int, (ofInt v).value = v
  | .ofNat n => by simp [ofInt, value]
  | .negSucc n => by simp [ofInt, value]; omega

theorem text_ne_nil (n : Signed) : n.text ≠ [] := append_ne_nil_of_right_ne_nil _ n.numeral.digits_ne_nil

theorem not_mem (n : Signed) (hdigit : c.isDigit = false) (hminus : c ≠ '-') : c ∉ n.text := by
  have hsign : c ∉ n.sign := by
    unfold sign
    split <;> simp [hminus]
  exact fun h => (mem_append.1 h).elim hsign (n.numeral.not_mem hdigit)

theorem isspace_head (n : Signed) (rest : List Char) : ∀ c ∈ (n.text ++ rest).head?, isspace c = false := by
  intro c hc
  obtain ⟨d, digits, hd⟩ := exists_cons_of_ne_nil n.numeral.digits_ne_nil
  have hdig : d.isDigit = true := n.numeral.isDigit d (by simp [hd])
  unfold text sign at hc
  split at hc
  · obtain rfl : '-' = c := by simpa using hc
    decide
  · obtain rfl : d = c := by simpa [hd] using hc
    exact isspace_of_isDigit hdig

theorem scanSign_text (n : Signed) (rest : List Char) :
    scanSign (n.text ++ rest) = (n.negative, n.numeral.digits ++ rest) := by
  obtain ⟨negative, digits, hne, hdig⟩ := n
  cases negative with
  | true => rfl
  | false =>
    obtain ⟨c, ds, rfl⟩ := exists_cons_of_ne_nil hne
    exact scanSign_of_isDigit (hdig c (by simp)) _

end Signed

theorem dropWhile_isspace_of_head (h : ∀ c ∈ s.head?, isspace c = false) : s.dropWhile isspace = s :=
  dropWhile_append_of_head (s := []) (by simp) h

theorem scanInt_signed {lo hi : Int} (n : Signed) {rest : List Char} (hrest : ∀ c ∈ rest.head?, c.isDigit = false)
    (hlo : lo ≤ n.value) (hhi : n.value ≤ hi) : scanInt lo hi (n.text ++ rest) = some (n.value, rest) := by
  have hsign : scanSign ((n.text ++ rest).dropWhile isspace) = (n.negative, n.numeral.digits ++ rest) := by
    rw [dropWhile_isspace_of_head (n.isspace_head rest), n.scanSign_text]
  have htake : (n.numeral.digits ++ rest).takeWhile Char.isDigit = n.numeral.digits :=
    takeWhile_append_of_head n.numeral.isDigit hrest
  have hdrop : (n.numeral.digits ++ rest).dropWhile Char.isDigit = rest :=
    dropWhile_append_of_head n.numeral.isDigit hrest
  unfold Signed.value Numeral.value at hlo hhi ⊢
  simp only [scanInt, hsign, htake, hdrop, if_neg n.numeral.digits_ne_nil, min_eq_right hhi, max_eq_right hlo]

theorem scanInt_numeral {lo hi : Int} (n : Numeral) {rest : List Char} (hrest : ∀ c ∈ rest.head?, c.isDigit = false)
    (hlo : lo ≤ n.value) (hhi : n.value ≤ hi) : scanInt lo hi (n.digits ++ rest) = some ((n.value : Int), rest) :=
  scanInt_signed ⟨false, n⟩ hrest hlo hhi

theorem scanSign_length_le (s : List Char) : (scanSign s).2.length ≤ s.length := by
  unfold scanSign
  split <;> simp

theorem scanInt_length_lt {lo hi v : Int} {s rest : List Char} (h : scanInt lo hi s = some (v, rest)) :
    rest.length < s.length := by
  simp only [scanInt] at h
  split at h
  · cases h
  · next hne =>
    simp only [Option.some.injEq, Prod.mk.injEq] at h
    have h1 : (s.dropWhile isspace).length ≤ s.length := (dropWhile_sublist _).length_le
    have h2 := scanSign_length_le (s.dropWhile isspace)
    have h3 := congrArg List.length
      (takeWhile_append_dropWhile (p := Char.isDigit) (l := (scanSign (s.dropWhile isspace)).2))
    have h4 := length_pos_of_ne_nil hne
    rw [length_append, h.2] at h3
    omega

/-! ## Printing and reading back -/

theorem not_mem_printInt (hdigit : c.isDigit = false) (hminus : c ≠ '-') (v : Int) : c ∉ printInt v := by
  rw [← Signed.text_ofInt]
  exact (Signed.ofInt v).not_mem hdigit hminus

/-- The text of a number of 32 bits is not longer than that of the least one. -/
theorem length_printInt_le {v : Int} (hlo : -2 ^ 31 ≤ v) (hhi : v < 2 ^ 31) : (printInt v).length ≤ 11 := by
  cases v with
  | ofNat n =>
    have hlt : n < 10 ^ 11 := by norm_num at hhi ⊢; omega
    exact Nat.toDigits_length 10 n 11 (by decide) hlt
  | negSucc n =>
    have hlt : n + 1 < 10 ^ 10 := by norm_num at hlo ⊢; omega
    rw [printInt, length_cons]
    exact Nat.succ_le_succ (Nat.toDigits_length 10 (n + 1) 10 (by decide) hlt)

theorem scanInt_printInt {lo hi v : Int} (hlo : lo ≤ v) (hhi : v ≤ hi) : scanInt lo hi (printInt v) = some (v, []) := by
  have h : scanInt lo hi ((Signed.ofInt v).text ++ []) = some ((Signed.ofInt v).value, []) :=
    scanInt_signed _ (by simp) (by simpa using hlo) (by simpa using hhi)
  rwa [append_nil, Signed.text_ofInt, Signed.value_ofInt] at h

/-- `atoi`, which reads a `long` and takes its lower 32 bits. -/
def atoi (s : List Char) : Int :=
  match scanInt (-2 ^ 63) (2 ^ 63 - 1) s with
  | some (v, _) => Int.bmod v (2 ^ 32)
  | none => 0

theorem atoi_printInt {v : Int} (hlo : -2 ^ 31 ≤ v) (hhi : v < 2 ^ 31) : atoi (printInt v) = v := by
  unfold atoi
  rw [scanInt_printInt (by omega) (by omega)]
  exact Int.bmod_eq_of_le (by norm_num at hlo ⊢; omega) (by norm_num at hhi ⊢; omega)

end Lib
