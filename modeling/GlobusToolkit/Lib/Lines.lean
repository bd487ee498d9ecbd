/-
Lines that are ended by a carriage return and a line feed, one behind the other in a text, and the places in the text where
lines begin.
-/
import Mathlib.Data.List.Infix
import Mathlib.Tactic

namespace Lib

open List

/-- The end of a line. -/
def eol : List Char := ['\r', '\n']

def linesText (ls : List (List Char)) : List Char := ls.flatMap (· ++ eol)

/-- The end of a line is not inside. -/
def IsLine (l : List Char) : Prop := ¬ eol <:+: l

instance (l : List Char) : Decidable (IsLine l) := inferInstanceAs (Decidable (¬ eol <:+: l))

@[simp]
theorem linesText_nil : linesText [] = [] := rfl

@[simp]
theorem linesText_cons (l : List Char) (ls : List (List Char)) : linesText (l :: ls) = l ++ eol ++ linesText ls := rfl

theorem length_linesText_cons (l : List Char) (ls : List (List Char)) :
    (linesText (l :: ls)).length = l.length + 2 + (linesText ls).length := by
  rw [linesText_cons, length_append, length_append]
  rfl

theorem linesText_append (ls ls' : List (List Char)) : linesText (ls ++ ls') = linesText ls ++ linesText ls' :=
  flatMap_append

variable {l s : List Char} {ls : List (List Char)}

theorem IsLine.of_infix (h : IsLine l) (hs : s <:+: l) : IsLine s := fun hi => h (hi.trans hs)

/-- The first part of a line's end is part of no line's end yet. -/
theorem IsLine.concat_cr (h : IsLine l) : IsLine (l ++ ['\r']) := by
  rintro ⟨u, v, huv⟩
  rcases eq_nil_or_concat v with rfl | ⟨v, d, rfl⟩
  · have := congrArg getLast? huv
    simp [eol] at this
  · rw [concat_eq_append, ← append_assoc] at huv
    exact h ⟨u, v, append_inj_left' huv rfl⟩

theorem exists_take_of_prefix (hls : ∀ l ∈ ls, IsLine l) (hpre : s <+: linesText ls) (hne : s ≠ linesText ls) :
    ∃ k r, k < ls.length ∧ s = linesText (ls.take k) ++ r ∧ IsLine r := by
  induction ls generalizing s with
  | nil => exact absurd (prefix_nil.1 hpre) hne
  | cons l ls ih =>
    rw [linesText_cons] at hpre hne
    by_cases hlen : s.length < (l ++ eol).length
    · have hpre' : s <+: l ++ ['\r'] := by
        refine prefix_of_prefix_length_le hpre ⟨'\n' :: linesText ls, by simp [eol]⟩ ?_
        simp [eol] at hlen ⊢
        omega
      exact ⟨0, s, Nat.succ_pos _, rfl, (hls l mem_cons_self).concat_cr.of_infix hpre'.isInfix⟩
    · obtain ⟨s', rfl⟩ := prefix_of_prefix_length_le (prefix_append _ _) hpre (Nat.le_of_not_lt hlen)
      obtain ⟨k, r, hk, rfl, hr⟩ := ih (forall_mem_cons.1 hls).2
        ((prefix_append_right_inj _).1 hpre) (fun h => hne (by rw [h]))
      exact ⟨k + 1, r, Nat.succ_lt_succ hk, by simp, hr⟩

end Lib
