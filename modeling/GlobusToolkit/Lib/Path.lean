/-
Words split into components at a separator, and the resolution of a list of components: one of them
(`up`) removes the component in front of it, another (`here`) stands for nothing.
-/
import Mathlib.Tactic

namespace Lib

open List

variable {α : Type*} {sep : α}

/-! ## Joined words -/

/-- The words one after the other, each behind a separator. -/
def joinPath (sep : α) (ks : List (List α)) : List α := ks.flatMap (sep :: ·)

/-- The word for a list of components: a single separator for no component. -/
def pathOf (sep : α) (cs : List (List α)) : List α := if cs = [] then [sep] else joinPath sep cs

@[simp] theorem joinPath_nil : joinPath sep [] = [] := rfl

@[simp] theorem joinPath_cons (k : List α) (ks : List (List α)) :
    joinPath sep (k :: ks) = sep :: (k ++ joinPath sep ks) := rfl

theorem joinPath_append (ks ls : List (List α)) : joinPath sep (ks ++ ls) = joinPath sep ks ++ joinPath sep ls := by
  simp [joinPath]

@[simp] theorem pathOf_nil : pathOf sep [] = [sep] := rfl

theorem pathOf_of_ne_nil {cs : List (List α)} (h : cs ≠ []) : pathOf sep cs = joinPath sep cs := if_neg h

theorem joinPath_eq_cons (k : List α) : ∀ ks : List (List α),
    joinPath sep (k :: ks) = sep :: [sep].intercalate (k :: ks)
  | [] => by simp
  | l :: ks => by
    rw [joinPath_cons, joinPath_eq_cons l ks, intercalate_cons_cons]
    simp

/-- An occurrence of `a` behind a word without it. -/
theorem exists_of_append_eq {a : α} {c x u r : List α} (hc : a ∉ c) (h : c ++ x = u ++ a :: r) :
    ∃ u', u = c ++ u' ∧ x = u' ++ a :: r := by
  rcases append_eq_append_iff.1 h with ⟨u', hu, hx⟩ | ⟨w, hw, hr⟩
  · exact ⟨u', hu, hx⟩
  · cases w with
    | nil => exact ⟨[], by simpa using hw.symm, by simpa using hr.symm⟩
    | cons b w =>
      simp only [cons_append, List.cons.injEq] at hr
      exact absurd (by rw [hw, ← hr.1]; simp) hc

theorem pathOf_eq (cs : List (List α)) : pathOf sep cs = sep :: [sep].intercalate cs := by
  cases cs with
  | nil => rfl
  | cons c cs => rw [pathOf_of_ne_nil (by simp), joinPath_eq_cons]

theorem getLast?_joinPath {ks : List (List α)} (hne : ks ≠ []) (h : ∀ k ∈ ks, sep ∉ k) :
    (joinPath sep ks).getLast? = some sep ↔ ks.getLast? = some [] := by
  obtain ⟨ks, k, rfl⟩ := (eq_nil_or_concat ks).resolve_left hne
  rw [concat_eq_append] at *
  have hk := h k (by simp)
  rw [joinPath_append, joinPath_cons, joinPath_nil, append_nil, getLast?_concat]
  rcases eq_nil_or_concat k with rfl | ⟨k, x, rfl⟩
  · simp
  · rw [concat_eq_append] at *
    simp only [mem_append, mem_singleton, not_or] at hk
    rw [← cons_append, ← append_assoc, getLast?_concat]
    simp [Ne.symm hk.2]

/-! ## Components -/

/-- A word that can stand between two separators. -/
structure IsComponent (sep : α) (c : List α) : Prop where
  ne_nil : c ≠ []
  sep_not_mem : sep ∉ c

variable [DecidableEq α]

/-- The parts of a word between separators, without the empty ones. -/
def components (sep : α) (s : List α) : List (List α) := (s.splitOn sep).filter (· ≠ [])

theorem splitOn_append_joinPath : ∀ (ks : List (List α)) (k : List α), sep ∉ k → (∀ l ∈ ks, sep ∉ l) →
    (k ++ joinPath sep ks).splitOn sep = k :: ks
  | [], k, hk, _ => by simpa using splitOn_eq_singleton hk
  | l :: ks, k, hk, h => by
    rw [joinPath_cons, splitOn_append_cons_self_of_not_mem hk,
      splitOn_append_joinPath ks l (h l (by simp)) fun m hm => h m (by simp [hm])]

theorem components_joinPath {ks : List (List α)} (h : ∀ k ∈ ks, sep ∉ k) :
    components sep (joinPath sep ks) = ks.filter (· ≠ []) := by
  have := splitOn_append_joinPath ks [] (by simp) h
  rw [nil_append] at this
  simp [components, this]

theorem sep_not_mem_of_mem_splitOn (s : List α) : ∀ k ∈ s.splitOn sep, sep ∉ k := by
  induction s with
  | nil => simp
  | cons a s ih =>
    rw [splitOn_cons_eq_if_modifyHead]
    split
    · simpa using ih
    · next hne =>
      intro k hk
      cases hs : s.splitOn sep with
      | nil => simp [hs] at hk
      | cons l ls =>
        simp only [hs, modifyHead_cons, mem_cons] at hk ih
        rcases hk with rfl | hk
        · have := ih l (.inl rfl)
          simp only [mem_cons, not_or]
          exact ⟨fun h => hne (by simp [h]), this⟩
        · exact ih k (.inr hk)

theorem exists_joinPath (sep : α) (r : List α) :
    ∃ ks : List (List α), ks ≠ [] ∧ (∀ k ∈ ks, sep ∉ k) ∧ sep :: r = joinPath sep ks := by
  refine ⟨r.splitOn sep, splitOn_ne_nil _ _, sep_not_mem_of_mem_splitOn r, ?_⟩
  obtain ⟨k, ks, hks⟩ := exists_cons_of_ne_nil (splitOn_ne_nil sep r)
  rw [hks, joinPath_eq_cons, ← hks, intercalate_splitOn]

theorem mem_splitOn_iff {s w : List α} : w ∈ s.splitOn sep ↔
    sep ∉ w ∧ ∃ u v, s = u ++ w ++ v ∧ (∀ c ∈ u.getLast?, c = sep) ∧ ∀ c ∈ v.head?, c = sep := by
  constructor
  · intro hw
    refine ⟨sep_not_mem_of_mem_splitOn s w hw, ?_⟩
    obtain ⟨ps, qs, hsplit⟩ := append_of_mem hw
    have hjoin : sep :: s = joinPath sep (s.splitOn sep) := by
      obtain ⟨k, ks, hks⟩ := exists_cons_of_ne_nil (splitOn_ne_nil sep s)
      rw [hks, joinPath_eq_cons, ← hks, intercalate_splitOn]
    have hqs : ∀ c ∈ (joinPath sep qs).head?, c = sep := by
      cases qs <;> simp
    rw [hsplit, joinPath_append, joinPath_cons] at hjoin
    cases ps with
    | nil =>
      exact ⟨[], _, by simpa using hjoin, by simp, hqs⟩
    | cons p ps =>
      exact ⟨p ++ joinPath sep ps ++ [sep], _, by simpa using hjoin, by simp, hqs⟩
  · rintro ⟨hsep, u, v, rfl, hu, hv⟩
    have htail : w ∈ (w ++ v).splitOn sep := by
      cases v with
      | nil => simp [splitOn_eq_singleton hsep]
      | cons c v =>
        obtain rfl : c = sep := hv c (by simp)
        simp [splitOn_append_cons_self_of_not_mem hsep]
    rcases eq_nil_or_concat u with rfl | ⟨u, c, rfl⟩
    · simpa using htail
    · obtain rfl : c = sep := hu c (by simp)
      rw [concat_eq_append, append_assoc, append_assoc, singleton_append,
        splitOn_append_cons_self]
      exact mem_append_right _ htail

theorem isComponent_of_mem {s c : List α} (h : c ∈ components sep s) : IsComponent sep c := by
  obtain ⟨h1, h2⟩ := mem_filter.1 h
  exact ⟨by simpa using h2, sep_not_mem_of_mem_splitOn s c h1⟩

theorem components_append_sep (s r : List α) :
    components sep (s ++ sep :: r) = components sep s ++ components sep r := by
  rw [components, splitOn_append_cons_self, filter_append]; rfl

theorem components_pathOf {cs : List (List α)} (h : ∀ c ∈ cs, IsComponent sep c) :
    components sep (pathOf sep cs) = cs := by
  cases cs with
  | nil =>
    have : components sep (joinPath sep [[]]) = [] := by rw [components_joinPath (by simp)]; rfl
    simpa using this
  | cons c cs =>
    rw [pathOf_of_ne_nil (by simp), components_joinPath fun k hk => (h k hk).sep_not_mem]
    exact filter_eq_self.2 fun k hk => by simpa using (h k hk).ne_nil

/-! ## Resolution -/

section Resolve

variable {β : Type*} [DecidableEq β] {here up : β}

/-- One component on the stack of those in front of it. -/
def resolveStep (up : β) (st : List β) (c : β) : List β := if c = up then st.dropLast else st ++ [c]

/-- The stack after all components. -/
def resolve (up : β) (cs : List β) : List β := cs.foldl (resolveStep up) []

/-- The resolution of the components other than `here`. -/
def normalForm (here up : β) (cs : List β) : List β := resolve up (cs.filter (· ≠ here))

@[simp] theorem resolve_nil : resolve up [] = [] := rfl

theorem resolve_concat (cs : List β) (c : β) : resolve up (cs ++ [c]) = resolveStep up (resolve up cs) c := by
  simp [resolve]

theorem resolve_append (cs ds : List β) : resolve up (cs ++ ds) = ds.foldl (resolveStep up) (resolve up cs) := by
  simp [resolve]

theorem resolve_sublist (cs : List β) : (resolve up cs).Sublist cs := by
  induction cs using List.reverseRecOn with
  | nil => exact List.Sublist.refl _
  | append_singleton cs c ih =>
    rw [resolve_concat, resolveStep]
    split_ifs
    · exact (dropLast_sublist _).trans (ih.trans (sublist_append_left _ _))
    · exact ih.append (List.Sublist.refl _)

theorem up_not_mem_resolve (cs : List β) : up ∉ resolve up cs := by
  induction cs using List.reverseRecOn with
  | nil => simp
  | append_singleton cs c ih =>
    rw [resolve_concat, resolveStep]
    split_ifs with hc
    · exact fun h => ih (dropLast_subset _ h)
    · simp only [mem_append, mem_singleton, not_or]
      exact ⟨ih, Ne.symm hc⟩

variable {cs : List β}

theorem mem_resolve {c : β} (h : c ∈ resolve up cs) : c ∈ cs ∧ c ≠ up := by
  refine ⟨(resolve_sublist cs).subset h, ?_⟩
  rintro rfl
  exact up_not_mem_resolve cs h

theorem foldl_resolveStep (h : up ∉ cs) (st : List β) : cs.foldl (resolveStep up) st = st ++ cs := by
  induction cs generalizing st with
  | nil => simp
  | cons c cs ih =>
    simp only [mem_cons, not_or] at h
    rw [foldl_cons, resolveStep, if_neg (Ne.symm h.1), ih h.2, append_assoc]
    rfl

theorem resolve_eq_self (h : up ∉ cs) : resolve up cs = cs := foldl_resolveStep h []

theorem resolve_cancel {pre : List β} (h : up ∉ pre) (post : List β) :
    resolve up (pre ++ up :: post) = resolve up (pre.dropLast ++ post) := by
  rw [resolve_append, resolve_append, resolve_eq_self h,
    resolve_eq_self fun hm => h (dropLast_subset _ hm), foldl_cons, resolveStep, if_pos rfl]

theorem sublist_dropLast {γ : Type*} {l₁ l₂ : List γ} (h : l₁.Sublist l₂) : l₁.dropLast.Sublist l₂.dropLast := by
  have := h.reverse.tail
  rwa [tail_reverse, tail_reverse, reverse_sublist] at this

/-- A sublist of the same weight is the whole list, when no element has weight zero. -/
theorem eq_of_sublist_of_weight {γ : Type*} (w : γ → Nat) {l₁ l₂ : List γ} (h : l₁.Sublist l₂)
    (hpos : ∀ c ∈ l₂, 0 < w c) (hle : (l₂.map w).sum ≤ (l₁.map w).sum) : l₁ = l₂ := by
  have hsum : ∀ {l₁ l₂ : List γ}, l₁.Sublist l₂ → (l₁.map w).sum ≤ (l₂.map w).sum := fun h =>
    (h.map w).sum_le_sum fun _ _ => Nat.zero_le _
  induction h with
  | slnil => rfl
  | @cons l₁ l₂ a h ih =>
    have h1 := hsum h
    have h2 := hpos a (by simp)
    simp only [map_cons, sum_cons] at hle
    omega
  | @cons_cons l₁ l₂ a h ih =>
    simp only [map_cons, sum_cons] at hle
    rw [ih (fun c hc => hpos c (by simp [hc])) (by omega)]

/-- Leaving out `here` before the resolution keeps no more than leaving it out afterwards: an `up` that
follows a `here` takes that one away. -/
theorem normalForm_sublist (hne : here ≠ up) (cs : List β) :
    (normalForm here up cs).Sublist ((resolve up cs).filter (· ≠ here)) := by
  induction cs using List.reverseRecOn with
  | nil => exact List.Sublist.refl _
  | append_singleton cs c ih =>
    unfold normalForm at ih ⊢
    rw [filter_append, resolve_concat, resolveStep]
    by_cases hc : c = here
    · subst hc
      rw [if_neg hne, filter_append]
      simpa using ih
    have hkeep : [c].filter (· ≠ here) = [c] := by simp [hc]
    rw [hkeep, resolve_concat, resolveStep]
    split_ifs with hup
    · generalize resolve up cs = st at ih
      rcases eq_nil_or_concat st with rfl | ⟨st, d, rfl⟩
      · exact sublist_dropLast ih
      by_cases hd : d = here
      · refine (dropLast_sublist _).trans (ih.trans ?_)
        simp [hd]
      · have := sublist_dropLast ih
        simpa [hd] using this
    · rw [filter_append, hkeep]
      exact ih.append (List.Sublist.refl _)

theorem normalForm_eq_self (h1 : here ∉ cs) (h2 : up ∉ cs) : normalForm here up cs = cs := by
  have hfilter : cs.filter (· ≠ here) = cs := filter_eq_self.2 fun c hc => by
    simp only [ne_eq, decide_eq_true_eq]
    rintro rfl; exact h1 hc
  rw [normalForm, hfilter, resolve_eq_self h2]

theorem mem_normalForm {c : β} (h : c ∈ normalForm here up cs) : c ∈ cs ∧ c ≠ here ∧ c ≠ up := by
  obtain ⟨h1, h2⟩ := mem_resolve h
  obtain ⟨h3, h4⟩ := mem_filter.1 h1
  exact ⟨h3, by simpa using h4, h2⟩

end Resolve

/-! ## Unix paths -/

/-- The component that stands for the directory it is in. -/
abbrev dot : List Char := ['.']

/-- The component that stands for the directory above. -/
abbrev dotDot : List Char := ['.', '.']

/-- The names of the path that an absolute path resolves to. -/
def names (p : List Char) : List (List Char) := normalForm dot dotDot (components '/' p)

/-- The path that an absolute path resolves to. -/
def normalPath (p : List Char) : List Char := pathOf '/' (names p)

/-- A component that resolution keeps. -/
structure IsName (c : List Char) : Prop extends IsComponent '/' c where
  ne_dot : c ≠ dot
  ne_dotDot : c ≠ dotDot

instance (c : List Char) : Decidable (IsName c) :=
  decidable_of_iff ((c ≠ [] ∧ '/' ∉ c) ∧ c ≠ dot ∧ c ≠ dotDot)
    ⟨fun h => ⟨⟨h.1.1, h.1.2⟩, h.2.1, h.2.2⟩, fun h => ⟨⟨h.ne_nil, h.sep_not_mem⟩, h.ne_dot, h.ne_dotDot⟩⟩

/-- An absolute path without empty components, `.` and `..`. -/
def IsNormal (p : List Char) : Prop := ∃ cs : List (List Char), (∀ c ∈ cs, IsName c) ∧ p = pathOf '/' cs

/-- Where a path leads from the directory with the names `dir`. -/
def descend (dir : List (List Char)) (p : List Char) : List (List Char) :=
  ((components '/' p).filter (· ≠ dot)).foldl (resolveStep dotDot) dir

theorem names_append (u p : List Char) : names (u ++ '/' :: p) = descend (names u) p := by
  rw [names, components_append_sep, normalForm, filter_append, resolve_append]
  rfl

theorem isName_of_mem_names {p c : List Char} (h : c ∈ names p) : IsName c := by
  obtain ⟨h1, h2, h3⟩ := mem_normalForm h
  exact ⟨isComponent_of_mem h1, h2, h3⟩

theorem normalPath_eq_iff {p q : List Char} : normalPath p = normalPath q ↔ names p = names q := by
  have hcomp : ∀ p, components '/' (normalPath p) = names p := fun p =>
    components_pathOf fun c hc => (isName_of_mem_names hc).toIsComponent
  constructor
  · intro h
    rw [← hcomp p, h, hcomp q]
  · intro h
    exact congrArg (pathOf '/') h

theorem descend_of_no_dotDot {p : List Char} (h : dotDot ∉ components '/' p) (dir : List (List Char)) :
    descend dir p = dir ++ (components '/' p).filter (· ≠ dot) :=
  foldl_resolveStep (fun hmem => h (mem_filter.1 hmem).1) dir

theorem isNormal_normalPath (p : List Char) : IsNormal (normalPath p) := ⟨_, fun _ hc => isName_of_mem_names hc, rfl⟩

theorem IsNormal.normalPath_eq {p : List Char} (h : IsNormal p) : normalPath p = p := by
  obtain ⟨cs, hcs, rfl⟩ := h
  rw [normalPath, names, components_pathOf fun c hc => (hcs c hc).toIsComponent,
    normalForm_eq_self (fun hc => (hcs _ hc).ne_dot rfl) fun hc => (hcs _ hc).ne_dotDot rfl]

theorem IsNormal.eq_cons {p : List Char} (h : IsNormal p) : ∃ s, p = '/' :: s := by
  obtain ⟨cs, -, rfl⟩ := h
  exact ⟨_, pathOf_eq cs⟩

theorem length_normalPath_le (r : List Char) : (normalPath ('/' :: r)).length ≤ ('/' :: r).length := by
  obtain ⟨ks, -, hks, heq⟩ := exists_joinPath '/' r
  rw [normalPath, pathOf]
  split_ifs
  · simp
  · have hsub : (names ('/' :: r)).Sublist ks := by
      rw [names, heq, components_joinPath hks]
      exact (resolve_sublist _).trans (filter_sublist.trans filter_sublist)
    rw [heq] at hsub ⊢
    exact (hsub.flatMap _).length_le

end Lib
