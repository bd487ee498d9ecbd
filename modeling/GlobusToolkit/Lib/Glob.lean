/-
Glob patterns: `*` stands for any characters, also slashes, `?` for one, and a backslash takes its meaning from the
character behind it. What is left of a pattern behind a text is a list of patterns again, so that the names a pattern takes
in below a directory can be read off the pattern.
-/
import GlobusToolkit.Lib.Path

namespace Lib

open List

/-- `fnmatch` without flags, for patterns without brackets. -/
def globMatch : List Char → List Char → Bool
  | [], s => s.isEmpty
  | ['\\'], _ => false
  | '\\' :: c :: pat, s => s.head? == some c && globMatch pat s.tail
  | c :: pat, s =>
    if c = '*' then s.tails.any (globMatch pat)
    else s.head?.any (fun d => c == '?' || c == d) && globMatch pat s.tail

/-- What is left of a pattern behind a character. -/
def globStep (d : Char) : List Char → List (List Char)
  | [] => []
  | ['\\'] => []
  | '\\' :: c :: pat => if d = c then [pat] else []
  | c :: pat => if c = '*' then (c :: pat) :: globStep d pat else if c = '?' ∨ c = d then [pat] else []

/-- What is left of a pattern behind a text. -/
def globRests (pat s : List Char) : List (List Char) := s.foldl (fun pats d => pats.flatMap (globStep d)) [pat]

/-- A text for a pattern, with an `x` for each wildcard. No name is matched by a backslash at the end. -/
def globSample : List Char → List Char
  | [] => []
  | ['\\'] => ['/']
  | '\\' :: c :: pat => c :: globSample pat
  | c :: pat => (if c = '*' ∨ c = '?' then 'x' else c) :: globSample pat

variable {pat s t : List Char}

theorem globMatch_cons {d : Char} : globMatch pat (d :: s) = true ↔ ∃ r ∈ globStep d pat, globMatch r s = true := by
  fun_induction globStep d pat with
  | case1 => simp [globMatch]
  | case2 => simp [globMatch]
  | case3 pat => simp [globMatch]
  | case4 c pat hc => simp [globMatch, hc]
  | case5 pat h h' ih => simp [globMatch, tails, ih, or_comm]
  | case6 c pat h h' hstar hc => rcases hc with rfl | rfl <;> simp [globMatch, hstar]
  | case7 c pat h h' hstar hc => simp_all [globMatch]

theorem exists_globMatch_append : ∀ {s : List Char} {pats : List (List Char)},
    (∃ pat ∈ pats, globMatch pat (s ++ t) = true) ↔
      ∃ r ∈ s.foldl (fun pats d => pats.flatMap (globStep d)) pats, globMatch r t = true
  | [], pats => Iff.rfl
  | d :: s, pats => by
    rw [foldl_cons, ← exists_globMatch_append]
    simp only [cons_append, globMatch_cons, mem_flatMap]
    constructor
    · rintro ⟨pat, hpat, r, hr, h⟩
      exact ⟨r, ⟨pat, hpat, hr⟩, h⟩
    · rintro ⟨r, ⟨pat, hpat, hr⟩, h⟩
      exact ⟨pat, hpat, r, hr, h⟩

theorem globMatch_append : globMatch pat (s ++ t) = true ↔ ∃ r ∈ globRests pat s, globMatch r t = true := by
  rw [globRests, ← exists_globMatch_append]
  simp

theorem globMatch_globSample (h : '/' ∉ globSample pat) : globMatch pat (globSample pat) = true := by
  fun_induction globSample pat with
  | case1 => rfl
  | case2 => simp at h
  | case3 c pat ih => simp_all [globMatch]
  | case4 c pat hne hne' ih =>
    rw [mem_cons, not_or] at h
    by_cases hstar : c = '*'
    · subst hstar
      simp only [globMatch, if_true, true_or, any_eq_true, mem_tails]
      exact ⟨_, suffix_cons _ _, ih h.2⟩
    · by_cases hany : c = '?' <;> simp_all [globMatch]

/-- Without a wildcard, nothing else is matched; a slash of the pattern stands in everything that is. -/
theorem globSample_of_globMatch (h : globMatch pat s = true) :
    ('x' ∉ globSample pat → s = globSample pat) ∧ ('/' ∈ globSample pat → '/' ∈ s) := by
  fun_induction globSample pat generalizing s with
  | case1 => simpa [globMatch] using h
  | case2 => simp [globMatch] at h
  | case3 c pat ih =>
    cases s with
    | nil => simp [globMatch] at h
    | cons d s =>
      obtain ⟨rfl, hrest⟩ : d = c ∧ globMatch pat s = true := by simpa [globMatch] using h
      obtain ⟨hwild, hslash⟩ := ih hrest
      simp only [mem_cons, not_or, cons.injEq, true_and]
      exact ⟨fun hx => hwild hx.2, Or.imp_right hslash⟩
  | case4 c pat hne hne' ih =>
    by_cases hstar : c = '*'
    · subst hstar
      obtain ⟨t, ht, h⟩ : ∃ t, t <:+ s ∧ globMatch pat t = true := by simpa [globMatch] using h
      simpa using fun hmem => ht.subset ((ih h).2 hmem)
    · cases s with
      | nil => simp [globMatch, hstar] at h
      | cons d s =>
        have hd : (c = '?' ∨ c = d) ∧ globMatch pat s = true := by simpa [globMatch, hstar] using h
        obtain ⟨hwild, hslash⟩ := ih hd.2
        rcases hd.1 with rfl | rfl
        · simpa using fun hmem => .inr (hslash hmem)
        · by_cases hany : c = '?'
          · simpa [hany] using hslash
          · simp only [hstar, hany, or_self, if_false, mem_cons, not_or, cons.injEq, true_and]
            exact ⟨fun hx => hwild hx.2, Or.imp_right hslash⟩

/-- A pattern matches a name exactly if its sample is one. -/
theorem exists_isName_globMatch : (∃ n, IsName n ∧ globMatch pat n = true) ↔ IsName (globSample pat) := by
  constructor
  · rintro ⟨n, hn, h⟩
    obtain ⟨hwild, hslash⟩ := globSample_of_globMatch h
    by_cases hx : 'x' ∈ globSample pat
    · exact ⟨⟨ne_nil_of_mem hx, fun hmem => hn.sep_not_mem (hslash hmem)⟩, fun h => absurd (h ▸ hx) (by decide),
        fun h => absurd (h ▸ hx) (by decide)⟩
    · exact hwild hx ▸ hn
  · exact fun h => ⟨_, h, globMatch_globSample h.sep_not_mem⟩

end Lib
