/-
Text in which some words are replaced by others where they stand behind a separator. If a marker that no word contains
stands at the same place among the markers of two texts that are expanded alike, it may be replaced by any text in both of
them: the words of a table whose keys and names do not begin each other are not put together across the marker.
-/
import GlobusToolkit.Lib.CString

namespace Lib

open List

variable {sep : Char} {table : List (List Char × List Char)}

/-- The first key of the table that the text begins with, and its name. -/
def findKey (table : List (List Char × List Char)) (s : List Char) : Option (List Char × List Char) :=
  table.find? fun entry => entry.1 <+: s

/-- The expansion behind the first `skip` characters. -/
def expandGo (sep : Char) (table : List (List Char × List Char)) : Nat → List Char → List Char
  | _, [] => []
  | skip + 1, _ :: s => expandGo sep table skip s
  | 0, c :: s =>
    match if c = sep then findKey table s else none with
    | some entry => c :: (entry.2 ++ expandGo sep table entry.1.length s)
    | none => c :: expandGo sep table 0 s

/-- Every key behind a separator is replaced by its name. -/
def expand (sep : Char) (table : List (List Char × List Char)) (s : List Char) : List Char := expandGo sep table 0 s

/-- The expansion of what stands behind a separator. -/
def expandHead (sep : Char) (table : List (List Char × List Char)) (s : List Char) : List Char :=
  match findKey table s with
  | some entry => entry.2 ++ expand sep table (s.drop entry.1.length)
  | none => expand sep table s

theorem expandGo_eq : ∀ (skip : Nat) (s : List Char), expandGo sep table skip s = expand sep table (s.drop skip)
  | 0, _ => rfl
  | skip + 1, [] => rfl
  | skip + 1, _ :: s => by
    rw [expandGo, expandGo_eq skip s]
    rfl

theorem expand_cons_sep (s : List Char) : expand sep table (sep :: s) = sep :: expandHead sep table s := by
  rw [expand, expandGo, if_pos rfl, expandHead]
  cases findKey table s with
  | some entry => exact congrArg (fun t => sep :: (entry.2 ++ t)) (expandGo_eq _ s)
  | none => rfl

variable {c : Char}

theorem expand_cons (hc : c ≠ sep) (s : List Char) : expand sep table (c :: s) = c :: expand sep table s := by
  rw [expand, expandGo, if_neg hc]
  rfl

theorem expandHead_of_key {s : List Char} {entry : List Char × List Char} (h : findKey table s = some entry) :
    expandHead sep table s = entry.2 ++ expand sep table (s.drop entry.1.length) := by
  rw [expandHead, h]

theorem expandHead_of_none {s : List Char} (h : findKey table s = none) : expandHead sep table s = expand sep table s := by
  rw [expandHead, h]

theorem mem_of_findKey {s : List Char} {entry : List Char × List Char} (h : findKey table s = some entry) :
    entry ∈ table ∧ entry.1 <+: s :=
  ⟨mem_of_find?_eq_some h, by simpa using find?_some h⟩

theorem expand_of_not_mem : ∀ {s : List Char}, sep ∉ s → expand sep table s = s
  | [], _ => rfl
  | c :: s, h => by
    rw [mem_cons, not_or] at h
    rw [expand_cons (Ne.symm h.1), expand_of_not_mem h.2]

/-- Induction over the expansion: the text behind a separator goes on behind a key or at once. -/
theorem expand_induction (sep : Char) (table : List (List Char × List Char)) {P : List Char → Prop} (nil : P [])
    (cons : ∀ c s, c ≠ sep → P s → P (c :: s))
    (key : ∀ s entry, findKey table s = some entry → P (s.drop entry.1.length) → P (sep :: s))
    (plain : ∀ s, findKey table s = none → P s → P (sep :: s)) (s : List Char) : P s := by
  match s with
  | [] => exact nil
  | c :: s =>
    by_cases hc : c = sep
    · subst hc
      cases h : findKey table s with
      | none => exact plain s h (expand_induction c table nil cons key plain s)
      | some entry =>
        exact key s entry h (expand_induction c table nil cons key plain _)
    · exact cons c s hc (expand_induction sep table nil cons key plain s)
termination_by s.length

/-! ## Cutting the text -/

/-- A key that no character of a text can be in the middle of is found in front of that character. -/
theorem findKey_append_cons (hc : ∀ entry ∈ table, c ∉ entry.1) (u v : List Char) :
    findKey table (u ++ c :: v) = findKey table u := by
  have hiff : ∀ entry ∈ table, (entry.1 <+: u ++ c :: v ↔ entry.1 <+: u) := fun entry hentry =>
    ⟨fun h => prefix_of_prefix_append (hc entry hentry) (by simp) h, fun h => h.trans (prefix_append u _)⟩
  unfold findKey
  induction table with
  | nil => rfl
  | cons entry table ih =>
    rw [find?_cons, find?_cons, ih (fun e he => hc e (by simp [he])) fun e he => hiff e (by simp [he])]
    simp only [hiff entry (by simp)]

theorem expand_append_cons (hc : ∀ entry ∈ table, c ∉ entry.1) (v u : List Char) :
    expand sep table (u ++ c :: v) = expand sep table u ++ expand sep table (c :: v) := by
  induction u using expand_induction sep table with
  | nil => rfl
  | cons d u hd ih => rw [cons_append, expand_cons hd, expand_cons hd, ih, cons_append]
  | key u entry h ih =>
    have h' := findKey_append_cons hc u v
    have hle : entry.1.length ≤ u.length := (mem_of_findKey h).2.length_le
    rw [cons_append, expand_cons_sep, expand_cons_sep, expandHead_of_key h, expandHead_of_key (h'.trans h),
      drop_append_of_le_length hle, ih, cons_append, append_assoc]
  | plain u h ih =>
    have h' := findKey_append_cons hc u v
    rw [cons_append, expand_cons_sep, expand_cons_sep, expandHead_of_none h, expandHead_of_none (h'.trans h), ih,
      cons_append]

/-- A character that is in no key and no name is neither added nor removed. -/
theorem count_expand (hc : ∀ entry ∈ table, c ∉ entry.1 ∧ c ∉ entry.2) (u : List Char) :
    (expand sep table u).count c = u.count c := by
  induction u using expand_induction sep table with
  | nil => rfl
  | cons d u hd ih => rw [expand_cons hd, count_cons, count_cons, ih]
  | key u entry h ih =>
    obtain ⟨hmem, v, rfl⟩ := mem_of_findKey h
    obtain ⟨h1, h2⟩ := hc entry hmem
    rw [drop_left] at ih
    rw [expand_cons_sep, expandHead_of_key h, drop_left, count_cons, count_cons, count_append,
      count_append, ih, count_eq_zero_of_not_mem h1, count_eq_zero_of_not_mem h2]
  | plain u h ih => rw [expand_cons_sep, expandHead_of_none h, count_cons, count_cons, ih]

/-! ## Tables -/

/-- Keys and names are words without separators; no key begins another one, and none begins a name or the other way
round. -/
structure IsTable (sep : Char) (table : List (List Char × List Char)) : Prop where
  sep_not_mem : ∀ entry ∈ table, sep ∉ entry.1 ∧ sep ∉ entry.2
  keys_apart : ∀ e ∈ table, ∀ e' ∈ table, e.1 <+: e'.1 → e = e'
  names_apart : ∀ e ∈ table, ∀ e' ∈ table, ¬ e.1 <+: e'.2 ∧ ¬ e'.2 <+: e.1

namespace IsTable

variable (htable : IsTable sep table)

include htable

/-- The key that is found is the one with which the text begins. -/
theorem findKey_eq {entry : List Char × List Char} {s : List Char} (hmem : entry ∈ table) (h : entry.1 <+: s) :
    findKey table s = some entry := by
  cases hfind : findKey table s with
  | none => exact absurd h (by simpa using find?_eq_none.1 hfind entry hmem)
  | some entry' =>
    obtain ⟨hmem', h'⟩ := mem_of_findKey hfind
    rcases prefix_or_prefix_of_prefix h h' with hpre | hpre
    · rw [htable.keys_apart entry hmem entry' hmem' hpre]
    · rw [htable.keys_apart entry' hmem' entry hmem hpre]

theorem findKey_name {entry : List Char × List Char} (hmem : entry ∈ table) (t : List Char) :
    findKey table (entry.2 ++ t) = none := by
  cases hfind : findKey table (entry.2 ++ t) with
  | none => rfl
  | some entry' =>
    obtain ⟨hmem', h'⟩ := mem_of_findKey hfind
    obtain ⟨h1, h2⟩ := htable.names_apart entry' hmem' entry hmem
    rcases prefix_or_prefix_of_prefix h' (prefix_append entry.2 t) with hpre | hpre
    · exact absurd hpre h1
    · exact absurd hpre h2

end IsTable

theorem expand_append_of_not_mem {t : List Char} (ht : sep ∉ t) (z : List Char) :
    expand sep table (t ++ z) = t ++ expand sep table z := by
  induction t with
  | nil => rfl
  | cons c t ih =>
    rw [mem_cons, not_or] at ht
    rw [cons_append, expand_cons (Ne.symm ht.1), ih ht.2, cons_append]

/-! ## Two splits of one text -/

theorem append_cons_inj_of_count : ∀ {a a' b b' : List Char}, a.count c = a'.count c →
    a ++ c :: b = a' ++ c :: b' → a = a' ∧ b = b'
  | [], [], b, b', _, h => ⟨rfl, (List.cons.inj h).2⟩
  | [], d :: a', b, b', hcount, h => by
    obtain rfl : c = d := (List.cons.inj h).1
    rw [count_cons_self] at hcount
    cases hcount
  | d :: a, [], b, b', hcount, h => by
    obtain rfl : d = c := (List.cons.inj h).1
    rw [count_cons_self] at hcount
    cases hcount
  | d :: a, d' :: a', b, b', hcount, h => by
    obtain ⟨hd, htail⟩ := List.cons.inj h
    subst hd
    rw [count_cons, count_cons] at hcount
    obtain ⟨ha, hb⟩ := append_cons_inj_of_count (Nat.add_right_cancel hcount) htail
    exact ⟨by rw [ha], hb⟩

theorem append_cons_inj_of_not_mem_right {a a' b b' : List Char} (hb : c ∉ b) (hb' : c ∉ b')
    (h : a ++ c :: b = a' ++ c :: b') : a = a' ∧ b = b' := by
  refine append_cons_inj_of_count ?_ h
  have := congrArg (List.count c) h
  rw [count_append, count_append, count_cons_self, count_cons_self,
    count_eq_zero_of_not_mem hb, count_eq_zero_of_not_mem hb'] at this
  omega

theorem append_cons_inj_of_not_mem_left {a a' b b' : List Char} (ha : c ∉ a) (ha' : c ∉ a')
    (h : a ++ c :: b = a' ++ c :: b') : a = a' ∧ b = b' :=
  append_cons_inj_of_count (by rw [count_eq_zero_of_not_mem ha, count_eq_zero_of_not_mem ha']) h

/-- Around a marker that stands at the same place among the markers of two texts, they are expanded apart. -/
theorem expand_marker_iff {x x' y y' : List Char} (hsep : c ≠ sep) (hc : ∀ entry ∈ table, c ∉ entry.1 ∧ c ∉ entry.2)
    (hcount : x.count c = x'.count c) : expand sep table (x ++ c :: y) = expand sep table (x' ++ c :: y') ↔
      expand sep table x = expand sep table x' ∧ expand sep table y = expand sep table y' := by
  have hkey : ∀ entry ∈ table, c ∉ entry.1 := fun entry he => (hc entry he).1
  rw [expand_append_cons hkey, expand_append_cons hkey, expand_cons hsep, expand_cons hsep]
  refine ⟨append_cons_inj_of_count ?_, fun ⟨hx, hy⟩ => by rw [hx, hy]⟩
  rw [count_expand hc, count_expand hc, hcount]

namespace IsTable

variable (htable : IsTable sep table)

include htable

theorem sep_not_mem_key : ∀ entry ∈ table, sep ∉ entry.1 := fun entry h => (htable.sep_not_mem entry h).1

theorem sep_mem_expand {s : List Char} : sep ∈ expand sep table s ↔ sep ∈ s := by
  rw [← count_pos_iff, ← count_pos_iff, count_expand htable.sep_not_mem]

theorem expand_split (u v : List Char) :
    expand sep table (u ++ sep :: v) = expand sep table u ++ sep :: expandHead sep table v := by
  rw [expand_append_cons htable.sep_not_mem_key, expand_cons_sep]

/-- Behind a separator, a text without further ones that has a key, or that begins with a name, goes on as it is. -/
theorem expandHead_append_of_replaced {p : List Char} (hp : sep ∉ p)
    (h : (findKey table p).isSome ∨ ∃ entry ∈ table, entry.2 <+: p) (z : List Char) :
    expandHead sep table (p ++ z) = expandHead sep table p ++ expand sep table z := by
  rcases h with h | ⟨entry, hmem, t, rfl⟩
  · obtain ⟨entry, hfind⟩ := Option.isSome_iff_exists.1 h
    obtain ⟨hmem, t, rfl⟩ := mem_of_findKey hfind
    have ht : sep ∉ t := fun hsep => hp (by simp [hsep])
    have hfind' := htable.findKey_eq hmem (prefix_append entry.1 (t ++ z))
    rw [append_assoc, expandHead_of_key hfind', expandHead_of_key hfind, drop_left, drop_left,
      expand_append_of_not_mem ht, expand_of_not_mem ht, append_assoc]
  · rw [expandHead_of_none (htable.findKey_name hmem t), append_assoc,
      expandHead_of_none (htable.findKey_name hmem (t ++ z)), ← append_assoc, expand_append_of_not_mem hp,
      expand_of_not_mem hp]

theorem expandHead_append_congr {p p' : List Char} (hp : sep ∉ p) (hp' : sep ∉ p')
    (h : expandHead sep table p = expandHead sep table p') (z : List Char) :
    expandHead sep table (p ++ z) = expandHead sep table (p' ++ z) := by
  have hname : ∀ {q q' : List Char}, sep ∉ q' → expandHead sep table q = expandHead sep table q' →
      (findKey table q).isSome → (findKey table q').isSome ∨ ∃ entry ∈ table, entry.2 <+: q' := by
    intro q q' hq' heq hsome
    obtain ⟨entry, hfind⟩ := Option.isSome_iff_exists.1 hsome
    cases hfind' : findKey table q' with
    | some entry' => exact .inl rfl
    | none =>
      rw [expandHead_of_key hfind, expandHead_of_none hfind', expand_of_not_mem hq'] at heq
      exact .inr ⟨entry, (mem_of_findKey hfind).1, _, heq⟩
  cases hfind : findKey table p with
  | some entry =>
    have hsome : (findKey table p).isSome := by rw [hfind]; rfl
    rw [htable.expandHead_append_of_replaced hp (.inl hsome),
      htable.expandHead_append_of_replaced hp' (hname hp' h hsome), h]
  | none =>
    cases hfind' : findKey table p' with
    | some entry =>
      have hsome : (findKey table p').isSome := by rw [hfind']; rfl
      rw [htable.expandHead_append_of_replaced hp' (.inl hsome),
        htable.expandHead_append_of_replaced hp (hname hp h.symm hsome), h]
    | none =>
      rw [expandHead_of_none hfind, expandHead_of_none hfind', expand_of_not_mem hp, expand_of_not_mem hp'] at h
      rw [h]

theorem sep_not_mem_expandHead {p : List Char} (hp : sep ∉ p) : sep ∉ expandHead sep table p := by
  have hcount := @count_expand sep _ _ htable.sep_not_mem (sep :: p)
  rw [expand_cons_sep, count_cons_self, count_cons_self, count_eq_zero_of_not_mem hp] at hcount
  exact count_eq_zero.1 (by omega)

theorem expand_append_congr {x x' : List Char} (h : expand sep table x = expand sep table x') (z : List Char) :
    expand sep table (x ++ z) = expand sep table (x' ++ z) := by
  have hmem : sep ∈ x ↔ sep ∈ x' := by rw [← htable.sep_mem_expand, h, htable.sep_mem_expand]
  by_cases hx : sep ∈ x
  · -- Only the text behind the last separator can be continued to a key.
    have hlast := not_mem_afterLast sep x
    have hlast' := not_mem_afterLast sep x'
    rw [← beforeLast_append_afterLast hx, ← beforeLast_append_afterLast (hmem.1 hx), htable.expand_split,
      htable.expand_split] at h
    obtain ⟨hbefore, hafter⟩ := append_cons_inj_of_not_mem_right (htable.sep_not_mem_expandHead hlast)
      (htable.sep_not_mem_expandHead hlast') h
    rw [← beforeLast_append_afterLast hx, ← beforeLast_append_afterLast (hmem.1 hx), append_assoc,
      append_assoc, cons_append, cons_append, htable.expand_split, htable.expand_split, hbefore,
      htable.expandHead_append_congr hlast hlast' hafter]
  · rw [expand_of_not_mem hx, expand_of_not_mem (mt hmem.2 hx)] at h
    rw [h]

theorem expand_congr_append {y y' : List Char} (h : expand sep table y = expand sep table y') (z : List Char) :
    expand sep table (z ++ y) = expand sep table (z ++ y') := by
  have hmem : sep ∈ y ↔ sep ∈ y' := by rw [← htable.sep_mem_expand, h, htable.sep_mem_expand]
  by_cases hy : sep ∈ y
  · obtain ⟨q, v, rfl, hq⟩ := eq_append_cons_of_mem hy
    obtain ⟨q', v', rfl, hq'⟩ := eq_append_cons_of_mem (hmem.1 hy)
    rw [htable.expand_split, htable.expand_split, expand_of_not_mem hq, expand_of_not_mem hq'] at h
    obtain ⟨rfl, hv⟩ := append_cons_inj_of_not_mem_left hq hq' h
    rw [← append_assoc, ← append_assoc, htable.expand_split, htable.expand_split, hv]
  · rw [expand_of_not_mem hy, expand_of_not_mem (mt hmem.2 hy)] at h
    rw [h]

/-- What stands in front of a text and behind it may be written in another way. -/
theorem expand_around_congr {x x' y y' : List Char} (hx : expand sep table x = expand sep table x')
    (hy : expand sep table y = expand sep table y') (w : List Char) :
    expand sep table (x ++ w ++ y) = expand sep table (x' ++ w ++ y') := by
  calc expand sep table (x ++ w ++ y) = expand sep table (x' ++ (w ++ y)) := by
        rw [append_assoc]; exact htable.expand_append_congr hx _
    _ = expand sep table (x' ++ w ++ y') := by
        rw [← append_assoc]; exact htable.expand_congr_append hy _

end IsTable

end Lib
