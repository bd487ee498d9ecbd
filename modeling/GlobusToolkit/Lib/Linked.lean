/-
Linked lists: nodes are reached from a pointer by following links. `Seg next p l q` says that the links from
`p` visit the nodes of `l` in order and then arrive at `q`; with `q` null it is a whole list.
-/
import Mathlib.Tactic

namespace Lib

open List

variable {ι : Type*}

/-- The links from `p` lead through the nodes of `l` to `q`. -/
def Seg (next : ι → Option ι) : Option ι → List ι → Option ι → Prop
  | p, [], q => p = q
  | p, a :: l, q => p = some a ∧ Seg next (next a) l q

section Seg

variable {next next' : ι → Option ι} {p q : Option ι} {l m : List ι} {a : ι}

@[simp] theorem seg_nil : Seg next p [] q ↔ p = q := Iff.rfl

@[simp] theorem seg_cons : Seg next p (a :: l) q ↔ p = some a ∧ Seg next (next a) l q := Iff.rfl

theorem Seg.congr : ∀ {p : Option ι} {l : List ι}, Seg next p l q → (∀ a ∈ l, next a = next' a) → Seg next' p l q
  | _, [], h, _ => h
  | _, a :: l, h, heq => by
    refine ⟨h.1, ?_⟩
    rw [← heq a (by simp)]
    exact h.2.congr fun b hb => heq b (by simp [hb])

theorem seg_append : ∀ {p : Option ι} {l : List ι}, Seg next p (l ++ m) q ↔ ∃ r, Seg next p l r ∧ Seg next r m q
  | p, [] => by simp
  | p, a :: l => by
    rw [cons_append, seg_cons, seg_append]
    constructor
    · rintro ⟨h1, r, h2, h3⟩; exact ⟨r, ⟨h1, h2⟩, h3⟩
    · rintro ⟨r, ⟨h1, h2⟩, h3⟩; exact ⟨h1, r, h2, h3⟩

theorem Seg.eq_head? (h : Seg next p l none) : p = l.head? := by
  cases l with
  | nil => exact h
  | cons a l => exact h.1

theorem Seg.next_eq (h : Seg next p (l ++ a :: m) none) : next a = m.head? := by
  obtain ⟨r, -, -, hm⟩ := seg_append.1 h
  exact hm.eq_head?

/-- Nodes between `xs` and `zs` are replaced by others: only the last link of `xs` changes. -/
theorem Seg.splice [DecidableEq ι] (ms ms' : List ι) {zs : List ι} : ∀ {p : Option ι} {xs : List ι},
    Seg next p (xs ++ (ms ++ zs)) none → (xs ++ zs).Nodup → Seg next' (ms' ++ zs).head? ms' zs.head? →
    (∀ b ∈ xs ++ zs, next' b = if xs.getLast? = some b then (ms' ++ zs).head? else next b) →
    Seg next' (xs ++ (ms' ++ zs)).head? (xs ++ (ms' ++ zs)) none
  | p, [], h, hnodup, hms, hnext => by
    obtain ⟨r, -, hzs⟩ := seg_append.1 (show Seg next p (ms ++ zs) none from h)
    show Seg next' (ms' ++ zs).head? (ms' ++ zs) none
    refine seg_append.2 ⟨zs.head?, hms, ?_⟩
    rw [← hzs.eq_head?]
    refine hzs.congr fun b hb => ?_
    rw [hnext b (by simpa using hb)]
    simp
  | p, a :: xs, h, hnodup, hms, hnext => by
    obtain ⟨ha, hrest⟩ := nodup_cons.1 hnodup
    have hseg : Seg next' (xs ++ (ms' ++ zs)).head? (xs ++ (ms' ++ zs)) none := by
      refine Seg.splice ms ms' h.2 hrest hms fun b hb => ?_
      rw [hnext b (mem_cons_of_mem a hb)]
      have hne : a ≠ b := fun hab => ha (hab ▸ hb)
      cases xs with
      | nil => simp [hne]
      | cons c xs => rfl
    refine ⟨rfl, ?_⟩
    -- the link of `a` changes when it is the last of `xs`
    have hna : next' a = (xs ++ (ms' ++ zs)).head? := by
      rw [hnext a (by simp)]
      cases xs with
      | nil => simp
      | cons c xs =>
        have hlast : (a :: c :: xs).getLast? ≠ some a := fun hl =>
          ha (mem_append_left _ (mem_of_getLast? (by rwa [getLast?_cons_cons] at hl)))
        rw [if_neg hlast]
        exact h.2.1
    rw [hna]
    exact hseg

end Seg

/-! ## Links both ways -/

/-- The nodes of `l`, each once, linked forward from `first` and backward from `last`. -/
structure DList (next prev : ι → Option ι) (first last : Option ι) (l : List ι) : Prop where
  nodup : l.Nodup
  forward : Seg next first l none
  backward : Seg prev last l.reverse none

section DList

variable {next prev next' prev' : ι → Option ι} {first last : Option ι} {l xs ys : List ι} {a b : ι}

namespace DList

theorem first_eq (h : DList next prev first last l) : first = l.head? := h.forward.eq_head?

theorem last_eq (h : DList next prev first last l) : last = l.getLast? := by
  rw [h.backward.eq_head?, head?_reverse]

theorem next_eq (h : DList next prev first last (xs ++ a :: ys)) : next a = ys.head? := h.forward.next_eq

theorem reverse (h : DList next prev first last l) : DList prev next last first l.reverse :=
  ⟨nodup_reverse.2 h.nodup, h.backward, by rw [reverse_reverse]; exact h.forward⟩

theorem prev_eq (h : DList next prev first last (xs ++ a :: ys)) : prev a = xs.getLast? := by
  have hb := h.reverse
  rw [reverse_append, reverse_cons, append_assoc] at hb
  rw [← head?_reverse]
  exact hb.next_eq

theorem congr (h : DList next prev first last l) (hnext : ∀ a ∈ l, next a = next' a)
    (hprev : ∀ a ∈ l, prev a = prev' a) : DList next' prev' first last l :=
  ⟨h.nodup, h.forward.congr hnext, h.backward.congr fun a ha => hprev a (mem_reverse.1 ha)⟩

theorem prev_of_next (h : DList next prev first last l) (ha : a ∈ l) (hab : next a = some b) :
    prev b = some a := by
  obtain ⟨xs, ys, rfl⟩ := append_of_mem ha
  rw [h.next_eq] at hab
  obtain ⟨ys, rfl⟩ := head?_eq_some_iff.1 hab
  rw [show xs ++ a :: b :: ys = (xs ++ [a]) ++ b :: ys by simp] at h
  rw [h.prev_eq]
  simp

theorem next_of_prev (h : DList next prev first last l) (hb : b ∈ l) (hab : prev b = some a) :
    next a = some b :=
  h.reverse.prev_of_next (mem_reverse.2 hb) hab

/-- The nodes `ms` between `xs` and `ys` are replaced by `ms'`. -/
theorem splice [DecidableEq ι] (ms ms' : List ι) (h : DList next prev first last (xs ++ (ms ++ ys)))
    (hnodup : (xs ++ (ms' ++ ys)).Nodup) (hms : Seg next' (ms' ++ ys).head? ms' ys.head?)
    (hms' : Seg prev' (xs ++ ms').getLast? ms'.reverse xs.getLast?)
    (hnext : ∀ b ∈ xs ++ ys, next' b = if xs.getLast? = some b then (ms' ++ ys).head? else next b)
    (hprev : ∀ b ∈ xs ++ ys, prev' b = if ys.head? = some b then (xs ++ ms').getLast? else prev b) :
    DList next' prev' (xs ++ (ms' ++ ys)).head? (xs ++ (ms' ++ ys)).getLast? (xs ++ (ms' ++ ys)) := by
  have hsub : (xs ++ ys).Nodup := h.nodup.sublist ((sublist_append_right ms ys).append_left xs)
  refine ⟨hnodup, Seg.splice ms ms' h.forward hsub hms hnext, ?_⟩
  have hb := h.reverse.forward
  rw [reverse_append, reverse_append, append_assoc] at hb
  rw [← head?_reverse, reverse_append, reverse_append, append_assoc]
  rw [← head?_reverse, ← head?_reverse, reverse_append] at hms'
  refine Seg.splice ms.reverse ms'.reverse hb ?_ hms' fun b hmem => ?_
  · rw [← reverse_append]
    exact nodup_reverse.2 hsub
  · rw [hprev b (by simpa [or_comm] using hmem), getLast?_reverse, ← head?_reverse, reverse_append]

theorem mem_of_next (h : DList next prev first last l) (ha : a ∈ l) (hab : next a = some b) : b ∈ l := by
  obtain ⟨xs, ys, rfl⟩ := append_of_mem ha
  have hb : ys.head? = some b := h.next_eq.symm.trans hab
  simp [mem_of_head? hb]

end DList

end DList

theorem mem_append_iff_of_nodup {xs ys : List ι} {a x : ι} (h : (xs ++ a :: ys).Nodup) :
    x ∈ xs ++ ys ↔ x ∈ xs ++ a :: ys ∧ x ≠ a := by
  have hnot := (nodup_cons.1 (nodup_middle.1 h)).1
  rw [perm_middle.mem_iff, mem_cons]
  exact ⟨fun hx => ⟨.inr hx, ne_of_mem_of_not_mem hx hnot⟩, fun ⟨hx, hxa⟩ => hx.resolve_left hxa⟩

/-! ## Lists in segments -/

section Segments

variable {κ : Type*} [DecidableEq κ] {seg : κ → List ι} {order : List κ} {b : κ}

theorem flatMap_update_of_not_mem (hb : b ∉ order) (m : List ι) :
    order.flatMap (Function.update seg b m) = order.flatMap seg := by
  refine flatMap_congr fun c hc => ?_
  rw [Function.update_of_ne (ne_of_mem_of_not_mem hc hb)]

theorem flatMap_update {o₁ o₂ : List κ} (hnodup : (o₁ ++ b :: o₂).Nodup) (m : List ι) :
    (o₁ ++ b :: o₂).flatMap (Function.update seg b m) = o₁.flatMap seg ++ (m ++ o₂.flatMap seg) := by
  obtain ⟨hb, -⟩ := nodup_cons.1 (nodup_middle.1 hnodup)
  rw [mem_append, not_or] at hb
  rw [flatMap_append, flatMap_cons, flatMap_update_of_not_mem hb.1, flatMap_update_of_not_mem hb.2,
    Function.update_self]

theorem flatMap_erase (hb : seg b = []) : ∀ order : List κ, (order.erase b).flatMap seg = order.flatMap seg
  | [] => rfl
  | c :: order => by
    rw [erase_cons]
    split
    · next h => rw [flatMap_cons, eq_of_beq h, hb, nil_append]
    · rw [flatMap_cons, flatMap_cons, flatMap_erase hb order]

end Segments

end Lib
