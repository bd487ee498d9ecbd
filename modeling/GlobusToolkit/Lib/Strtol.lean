/-
`strtol` with base 10, and with base 0: then the text says whether it is octal, decimal or hexadecimal.
-/
import GlobusToolkit.Lib.CString

namespace Lib

/-- The value with base 10. -/
def strtol (s : List Char) : Int := ((scanInt (-2 ^ 63) (2 ^ 63 - 1) s).map Prod.fst).getD 0

/-- A digit in a base of at most sixteen. -/
def isDigitOf (base : Nat) (c : Char) : Bool := isxdigit c && hexDigit c < base

def digitsValue (base : Nat) (digits : List Char) : Nat := digits.foldl (fun n c => base * n + hexDigit c) 0

/-- The base of a number, and the text from its digits on. -/
def scanBase : List Char → Nat × List Char
  | '0' :: x :: c :: s => if (x = 'x' || x = 'X') && isxdigit c then (16, c :: s) else (8, '0' :: x :: c :: s)
  | '0' :: s => (8, '0' :: s)
  | s => (10, s)

/-- The value, kept in the range of a `long`, and the text behind it, which is the whole one if there is no number. -/
def strtol0 (s : List Char) : Int × List Char :=
  let (negative, t) := scanSign (s.dropWhile isspace)
  let (base, u) := scanBase t
  let digits := u.takeWhile (isDigitOf base)
  let value : Int := if negative then -(digitsValue base digits : Int) else digitsValue base digits
  if digits = [] then (0, s) else (max (-2 ^ 63) (min (2 ^ 63 - 1) value), u.dropWhile (isDigitOf base))

theorem hexDigit_of_isDigit {c : Char} (h : c.isDigit) : hexDigit c = c.toNat - 48 := if_pos h

theorem isDigitOf_ten {c : Char} (h : c.isDigit) : isDigitOf 10 c := by
  have hlt : c.toNat - 48 < 10 := by
    have hle : c.toNat ≤ 57 := (Char.isDigit_iff_toNat.1 h).2
    omega
  simp [isDigitOf, isxdigit, h, hexDigit_of_isDigit h, hlt]

theorem digitsValue_ten {digits : List Char} (h : ∀ c ∈ digits, c.isDigit) :
    digitsValue 10 digits = Nat.ofDigitChars 10 digits 0 := by
  refine List.foldl_ext _ _ _ fun n c hc => ?_
  rw [hexDigit_of_isDigit (h c hc)]
  rfl

theorem head?_toDigits {n : Nat} (hn : 0 < n) : (Nat.toDigits 10 n).head? ≠ some '0' := by
  induction n using Nat.strong_induction_on with
  | _ n ih =>
    by_cases hle : 10 ≤ n
    · rw [Nat.toDigits_of_base_le (by decide) hle, List.head?_append_of_ne_nil _ Nat.toDigits_ne_nil]
      exact ih (n / 10) (Nat.div_lt_self hn (by decide)) (Nat.div_pos hle (by decide))
    · interval_cases n <;> decide

theorem scanBase_of_head {s : List Char} (h : s.head? ≠ some '0') : scanBase s = (10, s) := by
  unfold scanBase
  split
  · exact absurd rfl h
  · exact absurd rfl h
  · rfl

/-- The digits of a number are read in base ten, and zero in any base. -/
theorem scanBase_toDigits (n : Nat) : ∃ base, scanBase (Nat.toDigits 10 n) = (base, Nat.toDigits 10 n) ∧
    (∀ c ∈ Nat.toDigits 10 n, isDigitOf base c) ∧ digitsValue base (Nat.toDigits 10 n) = n := by
  by_cases hn : n = 0
  · subst hn
    exact ⟨8, by decide⟩
  · have hdigit : ∀ c ∈ Nat.toDigits 10 n, c.isDigit := fun c => Nat.isDigit_of_mem_toDigits (by decide) (by decide)
    refine ⟨10, scanBase_of_head (head?_toDigits (Nat.pos_of_ne_zero hn)), fun c hc => isDigitOf_ten (hdigit c hc), ?_⟩
    rw [digitsValue_ten hdigit, Nat.ofDigitChars_ten_toDigits]

theorem strtol0_printInt {v : Int} (hlo : -2 ^ 63 ≤ v) (hhi : v < 2 ^ 63) : strtol0 (printInt v) = (v, []) := by
  have hspace : (printInt v).dropWhile isspace = printInt v := by
    refine dropWhile_isspace_of_head ?_
    simpa using (Signed.ofInt v).isspace_head []
  have hsign : scanSign (printInt v) = ((Signed.ofInt v).negative, (Signed.ofInt v).numeral.digits) := by
    simpa using (Signed.ofInt v).scanSign_text []
  obtain ⟨n, hn, hv⟩ : ∃ n, (Signed.ofInt v).numeral.digits = Nat.toDigits 10 n ∧
      v = if (Signed.ofInt v).negative then -(n : Int) else n := by
    cases v with
    | ofNat n => exact ⟨n, rfl, rfl⟩
    | negSucc n => exact ⟨n + 1, rfl, rfl⟩
  obtain ⟨base, hbase, hdigits, hvalue⟩ := scanBase_toDigits n
  unfold strtol0
  rw [hspace, hsign, hn]
  simp only [hbase, List.takeWhile_eq_self_iff.2 hdigits, List.dropWhile_eq_nil_iff.2 hdigits, Nat.toDigits_ne_nil, if_false, hvalue]
  rw [← hv, min_eq_right (by omega), max_eq_right hlo]

end Lib
