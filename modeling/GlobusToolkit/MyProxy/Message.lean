/-
The texts of the MyProxy protocol (myproxy/source/myproxy.c): lines `NAME=value`, of which each value is looked for by the name
of its field in the whole text.
-/
import GlobusToolkit.Lib.Strtol

namespace Globus.MyProxy

open Lib List

/-! ## Reading a field -/

/-- The results of `convert_message`: -1, -2, or the length of a value. -/
inductive Converted where
  | error
  | notFound
  | found (line : List Char)
  deriving DecidableEq

/-- The loop of `convert_message`: the values it comes upon. The search goes on at the end of the line of a value. -/
def convertLoop (varname : List Char) : Nat → List Char → List (List Char)
  | 0, _ => []
  | fuel + 1, buffer =>
    match strstr varname buffer with
    | none => []
    | some (_, start) => start.takeWhile (· ≠ '\n') :: convertLoop varname fuel (start.dropWhile (· ≠ '\n'))

/-- The result for the values: a second one is an error unless the flags allow it. -/
def Converted.ofValues (allowMultiple : Bool) : List (List Char) → Converted
  | [] => .notFound
  | [value] => .found value
  | values => if allowMultiple then .found (['\n'].intercalate values) else .error

/-- `convert_message`. -/
def convertMessage (allowMultiple : Bool) (buffer varname : List Char) : Converted :=
  .ofValues allowMultiple (convertLoop varname (buffer.length + 1) buffer)

/-- `string_to_int`: the text must be one number of type `long`, which is cut to an `int`. -/
def stringToInt (string : List Char) : Option Int32 :=
  let r := strtol0 string
  if string = [] ∨ r.1 = -2 ^ 63 ∨ r.1 = 2 ^ 63 - 1 ∨ r.2 ≠ [] then none else some (.ofInt r.1)

/-- `encode_integer`. -/
def encodeInteger (value : Int32) : List Char := printInt value.toInt

theorem stringToInt_encodeInteger (v : Int32) : stringToInt (encodeInteger v) = some v := by
  have hlo := v.le_toInt
  have hhi := v.toInt_lt
  have hne : printInt v.toInt ≠ [] := by
    rw [← Signed.text_ofInt]
    exact Signed.text_ne_nil _
  unfold stringToInt encodeInteger
  rw [strtol0_printInt (by omega) (by omega), if_neg, Int32.ofInt_toInt]
  simp only [hne, ne_eq, not_true_eq_false, or_false, false_or, not_or]
  omega

/-! ## Lines -/

/-- A text of lines. -/
def textOf (lines : List (List Char)) : List Char := lines.flatMap (· ++ ['\n'])

theorem textOf_cons (line : List Char) (lines : List (List Char)) : textOf (line :: lines) = line ++ '\n' :: textOf lines := by
  simp [textOf]

theorem textOf_append (l l' : List (List Char)) : textOf (l ++ l') = textOf l ++ textOf l' := flatMap_append

theorem length_le_textOf (lines : List (List Char)) : lines.length ≤ (textOf lines).length := by
  induction lines with
  | nil => rfl
  | cons line lines ih =>
    rw [textOf_cons, length_append, length_cons, length_cons]
    omega

section

variable {varname : List Char}

/-- What stands in front of the first match does not matter. -/
theorem convertLoop_congr {s t u : List Char} (h : strstr varname s = (strstr varname t).map fun r => (u ++ r.1, r.2)) (fuel : Nat) :
    convertLoop varname fuel s = convertLoop varname fuel t := by
  cases fuel with
  | zero => rfl
  | succ fuel =>
    rw [convertLoop, convertLoop, h]
    cases strstr varname t <;> rfl

/-- A line is searched once: its value is what follows the first match in it. -/
theorem convertLoop_textOf (hname : '\n' ∉ varname) (hne : varname ≠ []) : ∀ {lines : List (List Char)} {fuel : Nat},
    (∀ line ∈ lines, '\n' ∉ line) → lines.length < fuel →
    convertLoop varname fuel (textOf lines) = lines.filterMap fun line => (strstr varname line).map Prod.snd
  | [], fuel + 1, _, _ => by
    rw [convertLoop]
    simp [textOf, strstr, hne]
  | line :: lines, fuel + 1, hlines, hfuel => by
    have hline : '\n' ∉ line := hlines line (by simp)
    have hrest : ∀ l ∈ lines, '\n' ∉ l := fun l hl => hlines l (by simp [hl])
    rw [textOf_cons]
    cases hstr : strstr varname line with
    | none =>
      rw [convertLoop_congr (u := line ++ ['\n']) (t := textOf lines) (by simp [strstr_append_of_none hname _ hstr]) (fuel + 1),
        convertLoop_textOf hname hne hrest (Nat.lt_of_succ_lt hfuel), filterMap_cons, hstr]
      rfl
    | some r =>
      obtain ⟨u, v⟩ := r
      have hv : '\n' ∉ v := fun h => hline (by rw [eq_of_strstr hstr]; simp [h])
      have hskip : convertLoop varname fuel ('\n' :: textOf lines) = convertLoop varname fuel (textOf lines) :=
        convertLoop_congr (u := ['\n']) (strstr_append_of_none (e := []) hname _ (by simp [strstr, hne])) fuel
      rw [convertLoop, strstr_append_of_some hname (by simp) hstr]
      simp only
      rw [takeWhile_ne_append hv, dropWhile_ne_append hv, hskip,
        convertLoop_textOf hname hne hrest (Nat.lt_of_succ_lt_succ hfuel), filterMap_cons, hstr]
      rfl

theorem convertMessage_textOf {allowMultiple : Bool} {lines : List (List Char)} (hname : '\n' ∉ varname) (hne : varname ≠ [])
    (hlines : ∀ line ∈ lines, '\n' ∉ line) :
    convertMessage allowMultiple (textOf lines) varname =
      .ofValues allowMultiple (lines.filterMap fun line => (strstr varname line).map Prod.snd) := by
  rw [convertMessage, convertLoop_textOf hname hne hlines (Nat.lt_succ_of_le (length_le_textOf lines))]

/-- A match does not begin in front of `s` if the pattern begins at no character there. -/
theorem strstr_append_of_forall_suffix {s : List Char} : ∀ {w : List Char}, (∀ t, t ≠ [] → t <:+ w → ¬ varname <+: t ++ s) →
    strstr varname (w ++ s) = (strstr varname s).map fun r => (w ++ r.1, r.2)
  | [], _ => by simp
  | c :: w, h => by
    have hw : ∀ t, t ≠ [] → t <:+ w → ¬ varname <+: t ++ s := fun t ht hsuffix => h t ht (hsuffix.trans (suffix_cons c w))
    have hc : ¬ varname <+: c :: (w ++ s) := h (c :: w) (by simp) suffix_rfl
    rw [cons_append, strstr_cons_of_not_prefix hc, strstr_append_of_forall_suffix hw, Option.map_map]
    rfl

/-- Names end at their only `=`, so that a name is found behind another one only in the value, or as a suffix of it. -/
theorem strstr_name_append {q w s : List Char} (hq : '=' ∉ q) (hw : '=' ∉ w) (hne : ¬ q ++ ['='] <:+ w ++ ['=']) :
    strstr (q ++ ['=']) (w ++ ['='] ++ s) = (strstr (q ++ ['=']) s).map fun r => (w ++ ['='] ++ r.1, r.2) := by
  refine strstr_append_of_forall_suffix fun t ht hsuffix hprefix => ?_
  obtain ⟨t, c, rfl⟩ := (eq_nil_or_concat t).resolve_left ht
  rw [concat_eq_append] at *
  obtain ⟨u, hu⟩ := hsuffix
  rw [← append_assoc] at hu
  obtain ⟨hut, hc⟩ := append_inj' hu rfl
  obtain rfl : c = '=' := by simpa using hc
  have ht : '=' ∉ t := fun h => hw (by rw [← hut]; simp [h])
  -- Both texts have their first `=` at the same place.
  obtain ⟨rest, hrest⟩ := hprefix
  have hsame : q = t := by
    rw [append_assoc, append_assoc] at hrest
    have := congrArg (List.takeWhile (· ≠ '=')) hrest
    rwa [singleton_append, singleton_append, takeWhile_ne_append hq, takeWhile_ne_append ht] at this
  exact hne ⟨u, by rw [hsame, ← append_assoc, hut]⟩

end

end Globus.MyProxy
