/-
`globus_l_gfs_normalize_path` (gridftp/server/src/globus_i_gfs_data.c): the components of an absolute
path are read from left to right and written to `out_path`, which holds those kept so far. A `..`
walks `out_ptr` back to the last slash and ends the string there; at the root the slash stays.

After every component `out_path` is the path of a stack of components and `out_ptr` stands behind it
(on the first slash for the empty stack), so the result is the path the components resolve to.
-/
import GlobusToolkit.Lib.CString
import GlobusToolkit.Lib.Path

namespace Globus

open Lib List

/-! ## The function -/

/-- The errors of the server that name what was wrong. -/
inductive GfsError where
  | parameter (name : String)
  | generic (reason : String)
  deriving DecidableEq, Repr

/-- The string at `out_path` up to its null character, and the offset of `out_ptr` in it. -/
structure OutPath where
  text : List Char
  ptr : Nat

/-- `out_ptr` walks back to a slash or to the beginning. Behind the text is the null character. -/
def walkToSlash (text : List Char) : Nat → Nat
  | 0 => 0
  | n + 1 => if text[n + 1]? = some '/' then n + 1 else walkToSlash text n

/-- The case of a `..`. -/
def OutPath.pop (out : OutPath) : OutPath :=
  let ptr := walkToSlash out.text out.ptr
  if ptr = 0 then { text := out.text.take 1, ptr } else { text := out.text.take ptr, ptr }

/-- A slash and the component, from `out_ptr` on. -/
def OutPath.push (out : OutPath) (comp : List Char) : OutPath where
  text := out.text.take out.ptr ++ '/' :: comp
  ptr := out.ptr + 1 + comp.length

/-- The `switch` over the length of the component. -/
def normalizeComponent (out : OutPath) (comp : List Char) : OutPath :=
  match comp with
  | [] => out
  | ['.'] => out
  | ['.', '.'] => out.pop
  | _ => out.push comp

/-- The loop over the components of the rest of the path at `in_ptr`. -/
def normalizeLoop (inPtr : List Char) (out : OutPath) : OutPath :=
  if inPtr = [] then out
  else
    match _ : strchr '/' inPtr with
    | none => normalizeComponent out inPtr
    | some nextSep =>
      normalizeLoop nextSep.tail (normalizeComponent out (inPtr.take (inPtr.length - nextSep.length)))
  termination_by inPtr.length
  decreasing_by exact strchr_tail_lt ‹_›

/-- `globus_l_gfs_normalize_path`. -/
def gfsNormalizePath : List Char → Except GfsError (List Char)
  | '/' :: r => .ok (normalizeLoop r { text := ['/'], ptr := 0 }).text
  | _ => .error (.parameter "path")

/-! ## The loop -/

theorem normalizeLoop_joinPath : ∀ (ks : List (List Char)) (k : List Char) (out : OutPath), '/' ∉ k →
    (∀ l ∈ ks, '/' ∉ l) → normalizeLoop (k ++ joinPath '/' ks) out = (k :: ks).foldl normalizeComponent out
  | [], k, out, hk, _ => by
    rw [joinPath_nil, append_nil, normalizeLoop]
    split_ifs with hnil
    · subst hnil; rfl
    · rw [strchr_eq_none hk]; rfl
  | l :: ks, k, out, hk, h => by
    have hsep := strchr_append hk (l ++ joinPath '/' ks)
    have hlen : (k ++ '/' :: (l ++ joinPath '/' ks)).length - ('/' :: (l ++ joinPath '/' ks)).length = k.length := by
      simp
    rw [joinPath_cons, normalizeLoop, if_neg (by simp), hsep]
    show normalizeLoop (l ++ joinPath '/' ks) (normalizeComponent out (List.take _ _)) = _
    rw [hlen, take_left, normalizeLoop_joinPath ks l _ (h l (by simp)) fun m hm => h m (by simp [hm])]
    rfl

/-! ## The stack -/

/-- The buffer holds the path of the stack. -/
structure OutPath.Holds (out : OutPath) (st : List (List Char)) : Prop where
  text : out.text = pathOf '/' st
  ptr : out.ptr = (joinPath '/' st).length
  slash_not_mem : ∀ c ∈ st, '/' ∉ c

theorem walkToSlash_append (u : List Char) {c : List Char} (hc : '/' ∉ c) : ∀ n ≤ c.length + 1,
    walkToSlash (u ++ '/' :: c) (u.length + n) = u.length
  | 0, _ => by
    cases u with
    | nil => rfl
    | cons a u => simp [walkToSlash]
  | n + 1, hn => by
    have hskip : (u ++ '/' :: c)[u.length + n + 1]? ≠ some '/' := by
      rw [Nat.add_assoc, getElem?_append_right (by omega), Nat.add_sub_cancel_left, getElem?_cons_succ]
      exact fun h => hc (mem_of_getElem? h)
    rw [← Nat.add_assoc, walkToSlash, if_neg hskip]
    exact walkToSlash_append u hc n (by omega)

variable {out : OutPath} {st : List (List Char)}

namespace OutPath

theorem Holds.take_ptr (h : out.Holds st) :
    out.text.take out.ptr = joinPath '/' st := by
  rw [h.text, h.ptr, pathOf]
  split_ifs with hst
  · subst hst; rfl
  · exact take_length

theorem Holds.push (h : out.Holds st) {c : List Char}
    (hc : '/' ∉ c) : (out.push c).Holds (st ++ [c]) := by
  refine ⟨?_, ?_, ?_⟩
  · show out.text.take out.ptr ++ '/' :: c = _
    rw [h.take_ptr, pathOf_of_ne_nil (by simp), joinPath_append]
    simp
  · show out.ptr + 1 + c.length = _
    rw [h.ptr, joinPath_append]
    simp; omega
  · exact forall_mem_append.2 ⟨h.slash_not_mem, forall_mem_singleton.2 hc⟩

theorem Holds.pop (h : out.Holds st) :
    out.pop.Holds st.dropLast := by
  obtain ⟨htext, hptr, hst⟩ := h
  rcases eq_nil_or_concat st with rfl | ⟨st, c, rfl⟩
  · refine ⟨?_, ?_, by simp⟩ <;> simp [pop, htext, hptr, walkToSlash]
  rw [concat_eq_append] at *
  rw [dropLast_concat]
  have hjoin : joinPath '/' (st ++ [c]) = joinPath '/' st ++ '/' :: c := by simp [joinPath_append]
  rw [pathOf_of_ne_nil (by simp), hjoin] at htext
  have hwalk : walkToSlash out.text out.ptr = (joinPath '/' st).length := by
    rw [htext, hptr, hjoin, length_append]
    exact walkToSlash_append _ (hst c (by simp)) _ (by simp)
  refine ⟨?_, ?_, fun d hd => hst d (by simp [hd])⟩
  · unfold pop
    simp only [hwalk]
    rw [htext]
    cases st with
    | nil => rfl
    | cons d st => rw [if_neg (by simp), pathOf_of_ne_nil (by simp)]; exact take_left
  · unfold pop
    simp only [hwalk]
    split_ifs <;> rfl

theorem Holds.step (h : out.Holds st) {k : List Char} (hk : '/' ∉ k) :
    (normalizeComponent out k).Holds (if k = [] ∨ k = dot then st else resolveStep dotDot st k) := by
  unfold normalizeComponent
  split
  · simpa using h
  · simpa using h
  · simpa [resolveStep] using h.pop
  · next hnil hdot hdotDot =>
    rw [if_neg (by rintro (h | h); exacts [hnil h, hdot h]), resolveStep, if_neg hdotDot]
    exact h.push hk

theorem Holds.run : ∀ {out : OutPath} {st : List (List Char)}, out.Holds st → ∀ ks : List (List Char),
    (∀ k ∈ ks, '/' ∉ k) →
    (ks.foldl normalizeComponent out).Holds
      (((ks.filter (· ≠ [])).filter (· ≠ dot)).foldl (resolveStep dotDot) st)
  | _, _, h, [], _ => h
  | out, st, h, k :: ks, hks => by
    have hrun := (h.step (hks k (by simp))).run ks fun l hl => hks l (by simp [hl])
    by_cases hskip : k = [] ∨ k = dot
    · rcases hskip with rfl | rfl <;> simpa using hrun
    · rw [not_or] at hskip
      simpa [hskip.1, hskip.2] using hrun

/-! ## Exactness -/

end OutPath

theorem gfsNormalizePath_eq (r : List Char) : gfsNormalizePath ('/' :: r) = .ok (normalPath ('/' :: r)) := by
  obtain ⟨ks, hne, hks, heq⟩ := exists_joinPath '/' r
  obtain ⟨k, ks, rfl⟩ := exists_cons_of_ne_nil hne
  have hr : r = k ++ joinPath '/' ks := tail_eq_of_cons_eq heq
  have hinit : OutPath.Holds { text := ['/'], ptr := 0 } [] := ⟨rfl, rfl, by simp⟩
  have hrun := hinit.run (k :: ks) hks
  rw [gfsNormalizePath, hr, normalizeLoop_joinPath ks k _ (hks k (by simp)) fun l hl => hks l (by simp [hl]),
    hrun.text, ← hr, heq, normalPath, names, components_joinPath hks]
  rfl

/-- On every absolute path the function returns the slash-joined stack of its components; that path is
normal, not longer than the one given, and its own normal form. -/
theorem gfsNormalizePath_exact (r : List Char) :
    ∃ q, gfsNormalizePath ('/' :: r) = .ok q ∧
      q = '/' :: ['/'].intercalate (normalForm dot dotDot (components '/' ('/' :: r))) ∧
      IsNormal q ∧ q.length ≤ ('/' :: r).length ∧ gfsNormalizePath q = .ok q := by
  refine ⟨_, gfsNormalizePath_eq r, pathOf_eq _, isNormal_normalPath _, length_normalPath_le r, ?_⟩
  have hnormal := (isNormal_normalPath ('/' :: r)).normalPath_eq
  obtain ⟨r', hr'⟩ : ∃ r', normalPath ('/' :: r) = '/' :: r' := ⟨_, pathOf_eq _⟩
  rw [hr'] at hnormal ⊢
  rw [gfsNormalizePath_eq, hnormal]

end Globus
