/-
The words of a text: what stands between characters of a class, such as `strcspn` and `strspn` step over.
-/
import Mathlib.Data.List.Basic

namespace Lib

open List

variable {α : Type*} {p : α → Bool} {u s t : List α} {c : α}

/-- The words of a text, without empty ones. -/
def words (p : α → Bool) (s : List α) : List (List α) := (s.splitOnP p).filter fun w => !w.isEmpty

@[simp] theorem words_nil : words p [] = [] := rfl

theorem words_append_cons (hc : p c) (s t : List α) : words p (s ++ c :: t) = words p s ++ words p t := by
  rw [words, splitOnP_append_cons _ _ hc, filter_append]
  rfl

theorem words_of_forall_not (hne : s ≠ []) (hs : ∀ c ∈ s, p c = false) : words p s = [s] := by
  simp [words, splitOnP_eq_singleton hs, hne]

theorem words_append_of_forall : ∀ {s : List α}, (∀ c ∈ s, p c) → ∀ t, words p (s ++ t) = words p t
  | [], _, _ => rfl
  | c :: s, hs, t => by
    have hc : words p ([] ++ c :: (s ++ t)) = [] ++ words p (s ++ t) := words_append_cons (hs c (by simp)) [] _
    exact hc.trans (words_append_of_forall (fun d hd => hs d (by simp [hd])) t)

theorem words_word_append (hne : u ≠ []) (hu : ∀ c ∈ u, p c = false) (ht : ∀ c ∈ t.head?, p c) :
    words p (u ++ t) = u :: words p t := by
  cases t with
  | nil => simp [words_of_forall_not hne hu]
  | cons c t =>
    have hc : p c := ht c (by simp)
    have hskip : words p ([c] ++ t) = words p t := words_append_of_forall (by simpa using hc) t
    rw [words_append_cons hc, words_of_forall_not hne hu, ← hskip]
    rfl

theorem flatten_words (s : List α) : (words p s).flatten = s.filter fun c => !p c := by
  rw [words, flatten_filter_not_isEmpty]
  induction s with
  | nil => rfl
  | cons c s ih =>
    rw [splitOnP_cons_eq_if_modifyHead]
    split
    · next hc => simpa [hc] using ih
    · next hc =>
      obtain ⟨w, ws, hws⟩ := exists_cons_of_ne_nil (splitOnP_ne_nil p s)
      rw [hws] at ih ⊢
      rw [filter_cons_of_pos (by simpa using hc), ← ih]
      rfl

/-- Words written with a separator between each two of them, and separators behind. -/
theorem words_intercalate_append (hc : p c) (ht : ∀ d ∈ t, p d) : ∀ {us : List (List α)},
    (∀ u ∈ us, u ≠ [] ∧ ∀ d ∈ u, p d = false) → words p ([c].intercalate us ++ t) = us
  | [], _ => by simpa using words_append_of_forall ht []
  | [u], hus => by
    obtain ⟨hne, hu⟩ := hus u (by simp)
    have hnil : words p t = [] := by simpa using words_append_of_forall ht []
    rw [intercalate_singleton, words_word_append hne hu fun d hd => ht d (mem_of_mem_head? hd), hnil]
  | u :: v :: us, hus => by
    obtain ⟨hne, hu⟩ := hus u (by simp)
    have htext : [c].intercalate (u :: v :: us) ++ t = u ++ c :: ([c].intercalate (v :: us) ++ t) := by
      simp [intercalate_cons_cons]
    rw [htext, words_append_cons hc, words_of_forall_not hne hu,
      words_intercalate_append hc ht fun w hw => hus w (by simp [hw])]
    rfl

end Lib
