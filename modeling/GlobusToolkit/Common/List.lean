/-
The list operations of `globus_list` (common/source/library/globus_list.c) that the server uses on its
path restrictions: cutting a string at a delimiter, and the merge sort by a relation. The sort rearranges
its list, and whenever the relation is transitive and total every entry is related to all behind it.
-/
import GlobusToolkit.Lib.CString
import Mathlib.Data.List.Sort

namespace Globus

open Lib List

/-! ## Cutting a string -/

/-- The loop of `globus_list_from_string`: every piece goes to the front of the list. What follows the
last delimiter is a piece if it is not empty. -/
def listFromStringLoop (delim : Char) (ignored entry : List Char) (list : List (List Char)) : List (List Char) :=
  match _h : strchr delim entry with
  | some ptr =>
    let piece := (entry.take (entry.length - ptr.length)).dropWhile (· ∈ ignored)
    listFromStringLoop delim ignored ptr.tail (piece :: list)
  | none => if entry = [] then list else entry :: list
termination_by entry.length
decreasing_by exact strchr_tail_lt _h

/-- `globus_list_from_string`; without characters to ignore, `ignored` is empty. -/
def listFromString (inString : List Char) (delim : Char) (ignored : List Char) : List (List Char) :=
  listFromStringLoop delim ignored inString []

variable {delim : Char}

theorem listFromStringLoop_cons {k : List Char} (hk : delim ∉ k) (s : List Char)
    (list : List (List Char)) :
    listFromStringLoop delim [] (k ++ delim :: s) list = listFromStringLoop delim [] s (k :: list) := by
  rw [listFromStringLoop]
  split
  · next ptr h =>
    rw [strchr_append hk] at h
    cases h
    have hpiece : k.dropWhile (fun _ => false) = k := by cases k <;> simp
    simp [hpiece]
  · next h => rw [strchr_append hk] at h; cases h

theorem listFromStringLoop_last {k : List Char} (hk : delim ∉ k) (hne : k ≠ [])
    (list : List (List Char)) : listFromStringLoop delim [] k list = k :: list := by
  rw [listFromStringLoop]
  split
  · next h => rw [strchr_eq_none hk] at h; cases h
  · rw [if_neg hne]

theorem listFromStringLoop_intercalate : ∀ (ks : List (List Char)) (list : List (List Char)),
    (∀ k ∈ ks, delim ∉ k ∧ k ≠ []) → ks ≠ [] →
      listFromStringLoop delim [] ([delim].intercalate ks) list = ks.reverse ++ list
  | [], _, _, hne => absurd rfl hne
  | [k], list, h, _ => by
    rw [intercalate_singleton, listFromStringLoop_last (h k (by simp)).1 (h k (by simp)).2]
    rfl
  | k :: l :: ks, list, h, _ => by
    have htail : ∀ m ∈ l :: ks, delim ∉ m ∧ m ≠ [] := (forall_mem_cons.1 h).2
    show listFromStringLoop delim [] (k ++ delim :: [delim].intercalate (l :: ks)) list = _
    rw [listFromStringLoop_cons (h k (by simp)).1, listFromStringLoop_intercalate (l :: ks) (k :: list) htail (by simp)]
    simp

theorem listFromString_intercalate {ks : List (List Char)} (h : ∀ k ∈ ks, delim ∉ k ∧ k ≠ [])
    (hne : ks ≠ []) : listFromString ([delim].intercalate ks) delim [] = ks.reverse := by
  unfold listFromString
  rw [listFromStringLoop_intercalate ks [] h hne, append_nil]

/-! ## Sorting -/

/-- `globus_list_sort_destructive`: the halves are sorted and merged, the head of the left one first if
it is related to the head of the right one (`globus_list_sort_merge_destructive`). -/
def listSortDestructive {α : Type*} (relation : α → α → Bool) (head : List α) : List α :=
  if _h : head.length < 2 then head
  else
    let half := head.length / 2
    List.merge (listSortDestructive relation (head.take half)) (listSortDestructive relation (head.drop half)) relation
termination_by head.length
decreasing_by
  all_goals simp only [length_take, length_drop]; omega

section Sorting

variable {α : Type*} {relation : α → α → Bool}

theorem listSortDestructive_perm (head : List α) : (listSortDestructive relation head).Perm head := by
  rw [listSortDestructive]
  split
  · exact List.Perm.refl head
  · next h =>
    have hleft := listSortDestructive_perm (head.take (head.length / 2))
    have hright := listSortDestructive_perm (head.drop (head.length / 2))
    have happ := hleft.append hright
    rw [take_append_drop] at happ
    exact (merge_perm_append relation).trans happ
termination_by head.length
decreasing_by
  all_goals simp only [length_take, length_drop]; omega

theorem listSortDestructive_pairwise (htrans : ∀ a b c, relation a b → relation b c → relation a c)
    (htotal : ∀ a b, relation a b || relation b a) (head : List α) :
    (listSortDestructive relation head).Pairwise (fun a b => relation a b) := by
  rw [listSortDestructive]
  split
  · next h =>
    match head, h with
    | [], _ => exact List.Pairwise.nil
    | [a], _ => exact pairwise_singleton _ a
  · next h =>
    exact pairwise_merge htrans htotal _ _
      (listSortDestructive_pairwise htrans htotal (head.take (head.length / 2)))
      (listSortDestructive_pairwise htrans htotal (head.drop (head.length / 2)))
termination_by head.length
decreasing_by
  all_goals simp only [length_take, length_drop]; omega

end Sorting

end Globus
