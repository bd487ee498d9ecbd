/-
The patterns of signing policies (gsi/callback/source/library/oldgaa/oldgaa_utils.c) and the comparison of distinguished
names that they use (gsi/cert_utils/source/library/globus_gsi_cert_utils.c): names are compared without case, after `UID=`,
`E=` and `Email=` have been replaced by their long forms. Memory is never short, and the arguments are not null.
-/
import GlobusToolkit.Lib.Casecmp
import GlobusToolkit.Lib.Expand

namespace Globus.Gsi

open Lib List

/-! ## The functions -/

/-- The loop of `globus_l_gsi_cert_utils_normalize_dn`, with the number of characters that `i` still skips. -/
def normalizeLoop : Nat → List Char → List Char
  | _, [] => []
  | i + 1, _ :: dn => normalizeLoop i dn
  | 0, c :: dn =>
    if c = '/' then
      if startsWithKey dn "UID=".toList then c :: ("USERID=".toList ++ normalizeLoop 4 dn)
      else if startsWithKey dn "E=".toList then c :: ("emailAddress=".toList ++ normalizeLoop 2 dn)
      else if startsWithKey dn "Email=".toList then c :: ("emailAddress=".toList ++ normalizeLoop 6 dn)
      else c :: normalizeLoop 0 dn
    else c :: normalizeLoop 0 dn

/-- `globus_l_gsi_cert_utils_normalize_dn`. -/
def normalizeDn (dn : List Char) : List Char := normalizeLoop 0 dn

/-- `globus_i_gsi_cert_utils_dn_cmp`. -/
def dnCmp (dn1 dn2 : List Char) : Ordering :=
  match strcasecmp dn1 dn2 with
  | .eq => .eq
  | _ => strcasecmp (normalizeDn dn1) (normalizeDn dn2)

/-- `oldgaa_regex_matches_string`: a star stands for any text, but only the last one of the pattern. -/
def regexMatchesString (string regex : List Char) : Int :=
  if dnCmp string regex = .eq then 1
  else if '*' ∈ regex then
    let index := (beforeLast '*' regex).length
    let afterStar := regex.length - index - 1
    if string.length > index + afterStar then
      -- `tmp_str`: the string up to where the star is, the star, and the end of the string.
      let tmpStr := string.take index ++ '*' :: string.drop (string.length - afterStar)
      if dnCmp regex tmpStr = .eq then 1 else 0
    else 0
  else 0

/-! ## The comparison -/

/-- The keys and their long forms, without case. -/
def keyTable : List (List Char × List Char) :=
  [("uid=".toList, "userid=".toList), ("e=".toList, "emailaddress=".toList), ("email=".toList, "emailaddress=".toList)]

theorem isTable_keyTable : IsTable '/' keyTable where
  sep_not_mem := by decide
  keys_apart := by decide
  names_apart := by decide

theorem star_not_mem_keyTable : ∀ entry ∈ keyTable, '*' ∉ entry.1 ∧ '*' ∉ entry.2 := by decide

/-- The normalized name, without case. -/
def canonicalDn (dn : List Char) : List Char := expand '/' keyTable (lower dn)

theorem findKey_keyTable (dn : List Char) : findKey keyTable (lower dn) =
    if startsWithKey dn "UID=".toList then some ("uid=".toList, "userid=".toList)
    else if startsWithKey dn "E=".toList then some ("e=".toList, "emailaddress=".toList)
    else if startsWithKey dn "Email=".toList then some ("email=".toList, "emailaddress=".toList) else none := by
  have hkey : ∀ key : List Char, decide (lower key <+: lower dn) = startsWithKey dn key := fun key => by
    rw [← Bool.coe_iff_coe, decide_eq_true_iff, startsWithKey_iff]
  have h1 := hkey "UID=".toList
  have h2 := hkey "E=".toList
  have h3 := hkey "Email=".toList
  rw [show lower "UID=".toList = "uid=".toList by decide] at h1
  rw [show lower "E=".toList = "e=".toList by decide] at h2
  rw [show lower "Email=".toList = "email=".toList by decide] at h3
  simp only [findKey, keyTable, find?_cons, find?_nil, h1, h2, h3]
  cases startsWithKey dn "UID=".toList <;> cases startsWithKey dn "E=".toList <;>
    cases startsWithKey dn "Email=".toList <;> rfl

theorem lower_normalizeLoop (dn : List Char) : ∀ i, lower (normalizeLoop i dn) = expandGo '/' keyTable i (lower dn) := by
  induction dn with
  | nil => intro i; cases i <;> rfl
  | cons c dn ih =>
    intro i
    cases i with
    | succ i => exact ih i
    | zero =>
      rw [lower_cons, normalizeLoop, expandGo]
      simp only [toLower_eq_iff (d := '/') (by decide), findKey_keyTable]
      by_cases hc : c = '/'
      · simp only [if_pos hc]
        split
        · rw [lower_cons, lower_append, ih]; rfl
        · split
          · rw [lower_cons, lower_append, ih]; rfl
          · split
            · rw [lower_cons, lower_append, ih]; rfl
            · rw [lower_cons, ih]
      · simp only [if_neg hc]
        rw [lower_cons, ih]

theorem lower_normalizeDn (dn : List Char) : lower (normalizeDn dn) = canonicalDn dn := lower_normalizeLoop dn 0

/-- Two names are equal exactly if they have one canonical form. -/
theorem dnCmp_eq_iff {dn1 dn2 : List Char} : dnCmp dn1 dn2 = .eq ↔ canonicalDn dn1 = canonicalDn dn2 := by
  have hnormal : strcasecmp (normalizeDn dn1) (normalizeDn dn2) = .eq ↔ canonicalDn dn1 = canonicalDn dn2 := by
    rw [strcasecmp_eq_iff, lower_normalizeDn, lower_normalizeDn]
  unfold dnCmp
  split
  · next h => exact ⟨fun _ => by rw [canonicalDn, strcasecmp_eq_iff.1 h]; rfl, fun _ => rfl⟩
  · exact hnormal

theorem dnCmp_comm {dn1 dn2 : List Char} : dnCmp dn1 dn2 = .eq ↔ dnCmp dn2 dn1 = .eq := by
  rw [dnCmp_eq_iff, dnCmp_eq_iff, eq_comm]

/-! ## Patterns -/

/-- The pattern with a text for each of its stars, in order. -/
def fillStars : List Char → List (List Char) → List Char
  | [], _ => []
  | c :: r, [] => c :: r
  | c :: r, w :: ws => if c = '*' then w ++ fillStars r ws else c :: fillStars r (w :: ws)

theorem fillStars_replicate : ∀ r : List Char, fillStars r (List.replicate (r.count '*') ['*']) = r
  | [] => rfl
  | c :: r => by
    rw [count_cons]
    have ih := fillStars_replicate r
    by_cases hc : c = '*'
    · subst hc
      simp only [beq_self_eq_true, if_true, replicate_succ, fillStars]
      rw [ih]
      rfl
    · simp only [beq_iff_eq, hc, if_false, Nat.add_zero]
      cases hn : r.count '*' with
      | zero => rfl
      | succ n =>
        rw [hn, replicate_succ] at ih
        rw [replicate_succ, fillStars, if_neg hc, ih]

/-- A text for the star between `x` and `y`, and every other star for itself. -/
def textAt (x w y : List Char) : List (List Char) :=
  List.replicate (x.count '*') ['*'] ++ w :: List.replicate (y.count '*') ['*']

theorem length_textAt (x w y : List Char) : (textAt x w y).length = (x ++ '*' :: y).count '*' := by
  rw [textAt, count_append, count_cons_self, length_append, length_cons, length_replicate, length_replicate]

theorem fillStars_textAt (y w : List Char) : ∀ x : List Char, fillStars (x ++ '*' :: y) (textAt x w y) = x ++ w ++ y
  | [] => by simp [textAt, fillStars, fillStars_replicate]
  | c :: x => by
    have ih := fillStars_textAt y w x
    rw [textAt] at ih ⊢
    rw [count_cons]
    by_cases hc : c = '*'
    · subst hc
      simp only [beq_self_eq_true, if_true, replicate_succ, cons_append, fillStars]
      rw [ih]
      rfl
    · simp only [beq_iff_eq, hc, if_false, Nat.add_zero, cons_append]
      cases hn : x.count '*' with
      | zero =>
        rw [hn] at ih
        simp only [replicate_zero, nil_append, fillStars, if_neg hc] at ih ⊢
        rw [ih]
      | succ n =>
        rw [hn, replicate_succ, cons_append] at ih
        rw [replicate_succ, cons_append, fillStars, if_neg hc, ih]

theorem exists_star : ∀ {n : Nat} {r : List Char}, n < r.count '*' → ∃ x y, r = x ++ '*' :: y ∧ x.count '*' = n
  | _, [], h => by cases h
  | n, c :: r, h => by
    by_cases hc : c = '*'
    · subst hc
      cases n with
      | zero => exact ⟨[], r, rfl, rfl⟩
      | succ n =>
        obtain ⟨x, y, rfl, hx⟩ := exists_star (n := n) (r := r) (by simpa using h)
        exact ⟨'*' :: x, y, rfl, by rw [count_cons_self, hx]⟩
    · obtain ⟨x, y, rfl, hx⟩ := exists_star (n := n) (r := r) (by simpa [hc] using h)
      exact ⟨c :: x, y, rfl, by rw [count_cons_of_ne (by simpa using hc), hx]⟩

section Star

variable {x y x' y' : List Char}

theorem dnCmp_star_iff (hcount : x.count '*' = x'.count '*') :
    dnCmp (x ++ '*' :: y) (x' ++ '*' :: y') = .eq ↔ dnCmp x x' = .eq ∧ dnCmp y y' = .eq := by
  have hstar : '*'.toNat < 65 := by decide
  have hlower : ∀ u v, lower (u ++ '*' :: v) = lower u ++ '*' :: lower v := by simp
  simp only [dnCmp_eq_iff, canonicalDn, hlower]
  exact expand_marker_iff (by decide) star_not_mem_keyTable (by rw [count_lower hstar, count_lower hstar, hcount])

theorem dnCmp_around (hx : dnCmp x x' = .eq) (hy : dnCmp y y' = .eq) (w : List Char) :
    dnCmp (x ++ w ++ y) (x' ++ w ++ y') = .eq := by
  rw [dnCmp_eq_iff] at hx hy ⊢
  simpa [canonicalDn] using isTable_keyTable.expand_around_congr hx hy (lower w)

theorem count_star_eq (h : dnCmp x y = .eq) : x.count '*' = y.count '*' := by
  have hstar : '*'.toNat < 65 := by decide
  have := congrArg (List.count '*') (dnCmp_eq_iff.1 h)
  rwa [canonicalDn, canonicalDn, count_expand star_not_mem_keyTable, count_expand star_not_mem_keyTable,
    count_lower hstar, count_lower hstar] at this

/-- If a pattern equals a subject with a star in it, then a star of the pattern stands for that star. -/
theorem exists_star_eq {r : List Char} (h : dnCmp r (x ++ '*' :: y) = .eq) :
    ∃ a b, r = a ++ '*' :: b ∧ dnCmp x a = .eq ∧ dnCmp y b = .eq := by
  obtain ⟨a, b, rfl, ha⟩ := exists_star (n := x.count '*') (r := r) (by
    rw [count_star_eq h, count_append, count_cons_self]; omega)
  exact ⟨a, b, rfl, (dnCmp_star_iff ha.symm).1 (dnCmp_comm.1 h)⟩

end Star

theorem regexMatchesString_iff {string regex : List Char} : regexMatchesString string regex = 1 ↔
    dnCmp string regex = .eq ∨ '*' ∈ regex ∧ ∃ front w back, string = front ++ w ++ back ∧ w ≠ [] ∧
      front.length = (beforeLast '*' regex).length ∧ back.length = (afterLast '*' regex).length ∧
      dnCmp regex (front ++ '*' :: back) = .eq := by
  unfold regexMatchesString
  split
  · next heq => exact ⟨fun _ => .inl heq, fun _ => rfl⟩
  next hne =>
  rw [or_iff_right hne]
  split
  · next hmem =>
    have hlen := congrArg length (beforeLast_append_afterLast hmem)
    rw [length_append, length_cons] at hlen
    have hafter : regex.length - (beforeLast '*' regex).length - 1 = (afterLast '*' regex).length := by omega
    simp only [hafter, hmem, true_and]
    constructor
    · intro h
      split at h
      case isFalse => cases h
      case isTrue hlong =>
        split at h
        case isFalse => cases h
        case isTrue heq =>
          -- The star stands for what is left out of `tmp_str`.
          refine ⟨_, (string.drop (beforeLast '*' regex).length).take
            (string.length - (afterLast '*' regex).length - (beforeLast '*' regex).length), _, ?_, ?_, ?_, ?_, heq⟩
          · rw [← take_add, Nat.add_sub_cancel' (by omega), take_append_drop]
          · refine ne_nil_of_length_pos ?_
            rw [length_take, length_drop]
            omega
          · rw [length_take]
            omega
          · rw [length_drop]
            omega
    · rintro ⟨front, w, back, rfl, hw, hfront, hback, heq⟩
      have hw := length_pos_of_ne_nil hw
      rw [← hfront, ← hback, length_append, Nat.add_sub_cancel, drop_left, append_assoc, take_left, if_pos heq,
        if_pos (by rw [length_append]; omega)]
  · next hmem => exact iff_of_false (by simp) fun h => hmem h.1

/-- A pattern matches nothing but what some text for its stars makes of it. -/
theorem regex_matches_sound (string regex : List Char) (h : regexMatchesString string regex = 1) :
    ∃ ws : List (List Char), ws.length = regex.count '*' ∧ dnCmp string (fillStars regex ws) = .eq := by
  obtain heq | ⟨-, front, w, back, rfl, -, -, -, heq⟩ := regexMatchesString_iff.1 h
  · exact ⟨_, length_replicate, by rwa [fillStars_replicate]⟩
  · obtain ⟨a, b, rfl, ha, hb⟩ := exists_star_eq heq
    exact ⟨textAt a w b, length_textAt a w b, by rw [fillStars_textAt]; exact dnCmp_around ha hb w⟩

/-- The short and the long form may stand at different places, if the star stands at one. -/
theorem regex_matches_sound_uid : ∃ ws : List (List Char), ws.length = "/UID=p/USERID=*".toList.count '*' ∧
    dnCmp "/userid=p/UID=jo".toList (fillStars "/UID=p/USERID=*".toList ws) = .eq :=
  regex_matches_sound "/userid=p/UID=jo".toList "/UID=p/USERID=*".toList (by decide)

/-- Every star stands for itself, or one of them for a piece of the subject that is not empty, with the pattern in front of
that star in front of the piece and the pattern behind it behind the piece. There the subject may spell the pattern in another
way, if it has as many characters as the pattern has in front of its last star and behind it. -/
def OnePiece (string regex : List Char) (ws : List (List Char)) : Prop :=
  ws = List.replicate (regex.count '*') ['*'] ∨
    ∃ a b front w back, regex = a ++ '*' :: b ∧ ws = textAt a w b ∧ w ≠ [] ∧ string = front ++ w ++ back ∧
      dnCmp front a = .eq ∧ dnCmp back b = .eq ∧
      front.length = (beforeLast '*' regex).length ∧ back.length = (afterLast '*' regex).length

/-- A subject that the pattern describes is matched exactly if the texts that describe it are one piece of it. -/
theorem regex_matches_described_iff (string regex : List Char) :
    regexMatchesString string regex = 1 ↔ ∃ ws : List (List Char), ws.length = regex.count '*' ∧
      dnCmp string (fillStars regex ws) = .eq ∧ OnePiece string regex ws := by
  constructor
  · intro h
    obtain heq | ⟨-, front, w, back, rfl, hw, hfront, hback, heq⟩ := regexMatchesString_iff.1 h
    · exact ⟨_, length_replicate, by rwa [fillStars_replicate], .inl rfl⟩
    · obtain ⟨a, b, rfl, ha, hb⟩ := exists_star_eq heq
      exact ⟨textAt a w b, length_textAt a w b, by rw [fillStars_textAt]; exact dnCmp_around ha hb w,
        .inr ⟨a, b, front, w, back, rfl, rfl, hw, rfl, ha, hb, hfront, hback⟩⟩
  · rintro ⟨ws, -, hdesc, rfl | ⟨a, b, front, w, back, rfl, -, hw, rfl, ha, hb, hfront, hback⟩⟩
    · exact regexMatchesString_iff.2 (.inl (by rwa [fillStars_replicate] at hdesc))
    · exact regexMatchesString_iff.2 (.inr ⟨by simp, front, w, back, rfl, hw, hfront, hback,
        dnCmp_comm.1 ((dnCmp_star_iff (count_star_eq ha)).2 ⟨ha, hb⟩)⟩)

/-- No text, two texts, and a key in its short form. -/
theorem regexMatchesString_fails :
    fillStars "/CN=*".toList [[]] = "/CN=".toList ∧ regexMatchesString "/CN=".toList "/CN=*".toList = 0 ∧
    fillStars "/O=*/CN=*".toList ["a".toList, "b".toList] = "/O=a/CN=b".toList ∧
    regexMatchesString "/O=a/CN=b".toList "/O=*/CN=*".toList = 0 ∧
    dnCmp "/E=jo".toList (fillStars "/emailAddress=*".toList ["jo".toList]) = .eq ∧
    regexMatchesString "/E=jo".toList "/emailAddress=*".toList = 0 ∧
    regexMatchesString "/emailAddress=jo".toList "/emailAddress=*".toList = 1 := by decide

end Globus.Gsi
