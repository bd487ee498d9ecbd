/-
`globus_range_list_insert` as set union. A list built by inserts alone has increasing offsets, and
each of its entries ends strictly before the next begins or has no end (`Ordered`). On such a list
the new range is recorded exactly, unless it touches an entry, reaches the entry behind it and
either ends past that one or the first entry has no end: the merged entry is then cut back to the
end of the second (`overreaches`).
-/
import GlobusToolkit.RangeList.Basic

namespace Globus

open Lib List RangeEnt

/-! ## Lists built by inserts -/

/-- `a` begins before `b`, and ends strictly before `b` begins unless it has no end. -/
def RangeEnt.Before (a b : RangeEnt) : Prop :=
  a.offset < b.offset ∧ (a.length = rangeListMax ∨ a.offset + a.length < b.offset)

attribute [reducible] RangeEnt.Before

/-- The invariant of lists built by inserts. -/
@[mk_iff ordered_def]
structure Ordered (l : List RangeEnt) : Prop where
  offset_nonneg : ∀ e ∈ l, 0 ≤ e.offset
  length_valid : ∀ e ∈ l, ValidLength e.length
  before : l.Pairwise RangeEnt.Before

theorem Ordered.nil : Ordered [] := ⟨by simp, by simp, .nil⟩

variable {l : List RangeEnt}

theorem ordered_cons {e : RangeEnt} :
    Ordered (e :: l) ↔ 0 ≤ e.offset ∧ (e.length = -1 ∨ 0 < e.length) ∧ (∀ b ∈ l, e.Before b) ∧ Ordered l := by
  simp only [ordered_def, forall_mem_cons, pairwise_cons]
  tauto

theorem ordered_append {l₁ l₂ : List RangeEnt} :
    Ordered (l₁ ++ l₂) ↔ Ordered l₁ ∧ Ordered l₂ ∧ ∀ a ∈ l₁, ∀ b ∈ l₂, a.Before b := by
  simp only [ordered_def, forall_mem_append, pairwise_append]
  tauto

theorem Separated.ordered (h : Separated l) : Ordered l := by
  refine ⟨h.offset_nonneg, h.length_valid, h.apart.imp_of_mem fun {a b} ha _ hab => ?_⟩
  have hv := h.length_valid a ha
  omega

theorem Ordered.separated (h : Ordered l) (hb : Bounded l) : Separated l :=
  ⟨h.offset_nonneg, h.length_valid,
    h.before.imp_of_mem fun {a _} ha _ hab => ⟨hb a ha, hab.2.resolve_left (hb a ha)⟩⟩

theorem ordered_splice (mid : List RangeEnt) {pre post : List RangeEnt} {g : RangeEnt}
    (hl : Ordered (pre ++ (mid ++ post))) (hg : 0 ≤ g.offset) (hgn : g.length = -1 ∨ 0 < g.length)
    (hpre : ∀ a ∈ pre, a.Before g) (hpost : ∀ b ∈ post, g.Before b) : Ordered (pre ++ g :: post) := by
  obtain ⟨h1, h2, h3⟩ := ordered_append.1 hl
  refine ordered_append.2 ⟨h1, ordered_cons.2 ⟨hg, hgn, hpost, (ordered_append.1 h2).2.1⟩, fun a ha b hb => ?_⟩
  rcases mem_cons.1 hb with rfl | hb
  · exact hpre a ha
  · exact h3 a ha b (mem_append_right _ hb)

/-- An entry that ends before `offset` and is before `ent` is before one that begins at the first of the
two. -/
theorem before_of_endsBefore {a ent g : RangeEnt} {offset : Int} (ha : a.EndsBefore offset)
    (hv : a.length = -1 ∨ 0 < a.length) (hae : a.Before ent) (hg : g.offset = min offset ent.offset) : a.Before g := by
  omega

theorem bounded_append {l₁ l₂ : List RangeEnt} : Bounded (l₁ ++ l₂) ↔ Bounded l₁ ∧ Bounded l₂ := forall_mem_append

theorem bounded_cons {e : RangeEnt} : Bounded (e :: l) ↔ e.length ≠ rangeListMax ∧ Bounded l :=
  forall_mem_cons

theorem bounded_splice (mid : List RangeEnt) {pre post : List RangeEnt} {g : RangeEnt}
    (hb : Bounded (pre ++ (mid ++ post))) (hg : g.length ≠ rangeListMax) : Bounded (pre ++ g :: post) := by
  rw [bounded_append, bounded_append] at hb
  exact bounded_append.2 ⟨hb.1, bounded_cons.2 ⟨hg, hb.2.2⟩⟩

/-! ## Growing an entry -/

section Grow

variable {offset length : Int} {ent : RangeEnt}

theorem insertGrow_offset (e : Int) : (insertGrow offset e ent).offset = min offset ent.offset := by
  by_cases h : offset < ent.offset <;> simp only [insertGrow, h, if_true, if_false] <;>
    split_ifs <;> simp <;> omega

theorem insertGrow_length (ho : 0 ≤ offset) (hn : length = -1 ∨ 0 < length) (heo : 0 ≤ ent.offset)
    (hen : ent.length = -1 ∨ 0 < ent.length) (ht : Touches offset length ent) :
    (insertGrow offset (rangeEnd offset length) ent).length =
      if length = -1 ∨ ent.length = -1 then -1
      else max (offset + length) (ent.offset + ent.length) - min offset ent.offset := by
  obtain ⟨eo, en⟩ := ent
  simp only at *
  by_cases h1 : length = -1
  · subst h1; simp [insertGrow]
  by_cases h2 : en = -1
  · subst h2; simp [insertGrow]
  rw [rangeEnd_of_ne h1]
  have h3 : offset + length ≠ -1 := by omega
  have h4 : eo + en ≠ -1 := by omega
  by_cases h5 : offset < eo <;> by_cases h6 : eo + en < offset + length <;>
    simp [insertGrow, rangeEnd_of_ne h2, h1, h2, h3, h4, h5, h6] <;> omega

theorem mem_insertGrow (ho : 0 ≤ offset) (hn : length = -1 ∨ 0 < length) (heo : 0 ≤ ent.offset)
    (hen : ent.length = -1 ∨ 0 < ent.length) (ht : Touches offset length ent) (x : Int) :
    x ∈ (insertGrow offset (rangeEnd offset length) ent).bytes ↔
      x ∈ byteRange offset length ∨ x ∈ ent.bytes := by
  have hl := insertGrow_length ho hn heo hen ht
  rw [mem_bytes, mem_bytes, mem_byteRange, insertGrow_offset, hl]
  split_ifs <;> omega

end Grow

/-! ## What one insert does -/

/-- The three things the insert loop can do with the range `(offset, length)`: put a new entry
between two existing ones, let an entry grow, or let an entry grow and take in its successor. -/
inductive Inserted (offset length : Int) : List RangeEnt → List RangeEnt → Int → Prop
  | fresh (pre post : List RangeEnt) (hpre : ∀ e ∈ pre, e.EndsBefore offset)
      (hpost : ∀ e ∈ post, length ≠ -1 ∧ offset + length < e.offset) :
      Inserted offset length (pre ++ post) (pre ++ ⟨offset, length⟩ :: post) 1
  | grown (pre : List RangeEnt) (ent : RangeEnt) (post : List RangeEnt) (hpre : ∀ e ∈ pre, e.EndsBefore offset)
      (ht : Touches offset length ent) (hpost : ∀ e ∈ post, length = -1 ∨ offset + length < e.offset) :
      Inserted offset length (pre ++ ent :: post)
        (pre ++ insertGrow offset (rangeEnd offset length) ent :: post) 0
  | absorbed (pre : List RangeEnt) (ent next : RangeEnt) (post : List RangeEnt)
      (hpre : ∀ e ∈ pre, e.EndsBefore offset) (ht : Touches offset length ent) (hn : length ≠ -1)
      (hnext : next.offset ≤ offset + length) :
      Inserted offset length (pre ++ ent :: next :: post)
        (pre ++ absorbNext (insertGrow offset (rangeEnd offset length) ent) next :: post) (-1)

theorem Inserted.cons {offset length d : Int} {l l' : List RangeEnt} {e : RangeEnt}
    (he : e.EndsBefore offset) (h : Inserted offset length l l' d) :
    Inserted offset length (e :: l) (e :: l') d := by
  cases h with
  | fresh pre post hpre hpost => exact .fresh (e :: pre) post (List.forall_mem_cons.2 ⟨he, hpre⟩) hpost
  | grown pre ent post hpre ht hpost => exact .grown (e :: pre) ent post (List.forall_mem_cons.2 ⟨he, hpre⟩) ht hpost
  | absorbed pre ent next post hpre ht hn hnext =>
    exact .absorbed (e :: pre) ent next post (List.forall_mem_cons.2 ⟨he, hpre⟩) ht hn hnext

theorem insertLoop_inserted {offset length : Int} (ho : 0 ≤ offset) (hn : length = -1 ∨ 0 < length) :
    ∀ (l : List RangeEnt), Ordered l →
      Inserted offset length l (insertLoop offset length (rangeEnd offset length) l).1
        (insertLoop offset length (rangeEnd offset length) l).2
  | [], _ => .fresh [] [] (by simp) (by simp)
  | ent :: rest, hl => by
    obtain ⟨heo, hen, hbef, hrest⟩ := ordered_cons.1 hl
    simp only [insertLoop]
    split_ifs with h1 h2
    · -- in front of `ent`, hence of all later entries
      simp only [rangeEnd, rangeListMax_eq] at h1
      refine .fresh [] _ (by simp) ?_
      rintro e (_ | ⟨_, he⟩)
      · split_ifs at h1 <;> omega
      · have := (hbef e he).1
        split_ifs at h1 <;> omega
    · have ht : Touches offset length ent := by
        simp only [rangeEnd, rangeListMax_eq] at h1 h2
        split_ifs at h1 h2 <;> omega
      cases rest with
      | nil => exact .grown [] _ _ (by simp) ht (by simp)
      | cons next post =>
        simp only [absorbReached]
        split_ifs with h3
        · obtain ⟨hno, -⟩ := ordered_cons.1 hrest
          refine .absorbed [] _ _ _ (by simp) ht ?_ ?_ <;>
            (simp only [rangeEnd, rangeListMax_eq] at h3; split_ifs at h3 <;> omega)
        · refine .grown [] _ _ (by simp) ht ?_
          intro e he
          have hle : next.offset ≤ e.offset := by
            rcases mem_cons.1 he with rfl | he
            · exact le_refl _
            · exact ((ordered_cons.1 hrest).2.2.1 e he).1.le
          simp only [rangeEnd, rangeListMax_eq] at h3
          split_ifs at h3 <;> omega
    · refine (insertLoop_inserted ho hn rest hrest).cons ?_
      simp only [rangeEnd, rangeListMax_eq] at h1 h2
      constructor <;> split_ifs at h1 h2 <;> omega

section Inserted

variable {offset length d : Int} {l l' : List RangeEnt}

theorem Inserted.length_eq (h : Inserted offset length l l' d) : (l'.length : Int) = l.length + d := by
  cases h <;> simp <;> omega

theorem Inserted.ordered (h : Inserted offset length l l' d) (ho : 0 ≤ offset) (hn : length = -1 ∨ 0 < length)
    (hl : Ordered l) : Ordered l' := by
  cases h with
  | fresh pre post hpre hpost =>
    have h1 := (ordered_append.1 hl).1
    refine ordered_splice [] hl ho hn (fun a ha => ?_) fun b hb => ?_
    · have ha1 := hpre a ha
      have ha2 := h1.length_valid a ha
      simp only [RangeEnt.EndsBefore, RangeEnt.Before, ValidLength, rangeListMax_eq] at ha1 ha2 ⊢
      omega
    · have hb1 := hpost b hb
      simp only [RangeEnt.Before, rangeListMax_eq] at hn ⊢
      omega
  | grown pre ent post hpre ht hpost =>
    obtain ⟨h1, h2, h3⟩ := ordered_append.1 hl
    obtain ⟨heo, hen, hbef, h2⟩ := ordered_cons.1 h2
    have hgl := insertGrow_length ho hn heo hen ht
    have hgo : (insertGrow offset (rangeEnd offset length) ent).offset = min offset ent.offset :=
      insertGrow_offset _
    have hpre' := fun a ha => before_of_endsBefore (hpre a ha) (h1.length_valid a ha) (h3 a ha ent (by simp)) hgo
    refine ordered_splice [ent] hl (by omega) ?_ hpre' fun b hb => ?_
    · simp only [hgl]; split_ifs <;> omega
    · have hb1 := hpost b hb
      have hb2 := hbef b hb
      simp only [RangeEnt.Before, rangeListMax_eq] at hb2 ⊢
      rw [hgl, hgo]
      split_ifs <;> omega
  | absorbed pre ent next post hpre ht hn1 hnext =>
    obtain ⟨h1, h2, h3⟩ := ordered_append.1 hl
    obtain ⟨heo, hen, hbef, h2⟩ := ordered_cons.1 h2
    obtain ⟨hno, hnn, hnbef, h2⟩ := ordered_cons.1 h2
    have hgo : (absorbNext (insertGrow offset (rangeEnd offset length) ent) next).offset = min offset ent.offset :=
      insertGrow_offset _
    have hpre' := fun a ha => before_of_endsBefore (hpre a ha) (h1.length_valid a ha) (h3 a ha ent (by simp)) hgo
    have hbn := hbef next (by simp)
    refine ordered_splice [ent, next] hl (by omega) ?_ hpre' fun b hb => ?_
    · simp only [absorbNext, insertGrow_offset, rangeListMax_eq]; split_ifs <;> omega
    · have hb2 := hnbef b hb
      simp only [RangeEnt.Before, absorbNext, insertGrow_offset, rangeListMax_eq] at hb2 ⊢
      split_ifs <;> omega

theorem Inserted.bounded (h : Inserted offset length l l' d) (ho : 0 ≤ offset) (hn : 0 < length)
    (hl : Ordered l) (hb : Bounded l) : Bounded l' := by
  have hmax := rangeListMax_eq
  cases h with
  | fresh pre post hpre hpost =>
    refine bounded_splice [] hb ?_
    simp only [rangeListMax_eq]; omega
  | grown pre ent post hpre ht hpost =>
    obtain ⟨heo, hen, -, -⟩ := ordered_cons.1 (ordered_append.1 hl).2.1
    have hne := hb ent (by simp)
    have hlen := insertGrow_length ho (.inr hn) heo hen ht
    refine bounded_splice [ent] hb ?_
    rw [hlen, if_neg (by omega)]; omega
  | absorbed pre ent next post hpre ht hn1 hnext =>
    obtain ⟨-, hen, hbef, h2⟩ := ordered_cons.1 (ordered_append.1 hl).2.1
    obtain ⟨-, hnn, -, -⟩ := ordered_cons.1 h2
    have hbn := hbef next (by simp)
    have hne := hb next (by simp)
    refine bounded_splice [ent, next] hb ?_
    simp only [RangeEnt.Before, rangeListMax_eq, absorbNext, insertGrow_offset] at hnn hbn hne ⊢
    rw [if_neg hne]; omega

/-- The new range reaches past the entry behind the first one that does not end before it, or past
an entry without end into the one behind it. -/
def overreaches (offset endOffset : Int) : List RangeEnt → Bool
  | ent :: next :: rest =>
    if ent.length ≠ -1 ∧ ent.offset + ent.length < offset then overreaches offset endOffset (next :: rest)
    else decide (next.length ≠ -1 ∧ next.offset ≤ endOffset ∧
      (ent.length = -1 ∨ next.offset + next.length < endOffset))
  | _ => false

theorem overreaches_append (offset e : Int) (l : List RangeEnt) (hl : 2 ≤ l.length) :
    ∀ pre : List RangeEnt, (∀ p ∈ pre, p.EndsBefore offset) →
      overreaches offset e (pre ++ l) = overreaches offset e l
  | [], _ => rfl
  | p :: pre, h => by
    have hp : p.length ≠ -1 ∧ p.offset + p.length < offset := h p (by simp)
    rw [← overreaches_append offset e l hl pre (forall_mem_cons.1 h).2, cons_append]
    cases hq : pre ++ l with
    | nil => simp [(append_eq_nil_iff.1 hq).2] at hl
    | cons q r => rw [overreaches, if_pos hp]

/-- The new range is unbounded, or does not overreach. -/
def InsertExact (l : List RangeEnt) (offset length : Int) : Prop :=
  length = rangeListMax ∨ overreaches offset (offset + length) l = false

theorem overreaches_of_tail {e : Int} :
    ∀ l : List RangeEnt, (∀ b ∈ l.tail, e < b.offset) → overreaches offset e l = false
  | [], _ => rfl
  | [_], _ => rfl
  | x :: y :: r, h => by
    have hy : e < y.offset := h y (by simp)
    rw [overreaches]
    split_ifs
    · exact overreaches_of_tail (y :: r) (forall_mem_cons.1 h).2
    · simp; omega

theorem overreaches_eq_false {e : Int} {l : List RangeEnt} (hl : ∀ b ∈ l.tail, e < b.offset) :
    ∀ pre : List RangeEnt, (∀ p ∈ pre, p.EndsBefore offset) → overreaches offset e (pre ++ l) = false
  | [], _ => overreaches_of_tail l hl
  | p :: pre, h => by
    have hp : p.length ≠ -1 ∧ p.offset + p.length < offset := h p (by simp)
    have ih := overreaches_eq_false hl pre (forall_mem_cons.1 h).2
    rw [cons_append]
    cases hq : pre ++ l with
    | nil => rfl
    | cons q r => rw [overreaches, if_pos hp, ← hq]; exact ih

theorem Inserted.covers (h : Inserted offset length l l' d) (ho : 0 ≤ offset) (hn : length = -1 ∨ 0 < length)
    (hl : Ordered l) (hx : InsertExact l offset length) (x : Int) :
    x ∈ cover bytes l' ↔ x ∈ cover bytes l ∨ x ∈ byteRange offset length := by
  cases h with
  | fresh pre post hpre hpost =>
    simp only [mem_cover_append, mem_cover_cons]
    have : x ∈ (⟨offset, length⟩ : RangeEnt).bytes ↔ x ∈ byteRange offset length := Iff.rfl
    rw [this, or_left_comm, or_comm]
  | grown pre ent post hpre ht hpost =>
    obtain ⟨-, h2, -⟩ := ordered_append.1 hl
    obtain ⟨heo, hen, -, -⟩ := ordered_cons.1 h2
    rw [mem_cover_append, mem_cover_cons, mem_insertGrow ho hn heo hen ht, mem_cover_append, mem_cover_cons, or_assoc,
      or_left_comm, or_comm]
  | absorbed pre ent next post hpre ht hn1 hnext =>
    obtain ⟨-, h2, -⟩ := ordered_append.1 hl
    obtain ⟨heo, hen, hbef, h2⟩ := ordered_cons.1 h2
    obtain ⟨hno, hnn, -, -⟩ := ordered_cons.1 h2
    have hx' := hx.resolve_left hn1
    rw [overreaches_append _ _ _ (by simp) _ hpre, overreaches] at hx'
    have hgo : (insertGrow offset (rangeEnd offset length) ent).offset = min offset ent.offset :=
      insertGrow_offset _
    have hbn := hbef next (by simp)
    -- the merged entry ends where `next` ends, which is where the union ends
    have key : x ∈ (absorbNext (insertGrow offset (rangeEnd offset length) ent) next).bytes ↔
        x ∈ byteRange offset length ∨ x ∈ ent.bytes ∨ x ∈ next.bytes := by
      unfold Touches at ht
      simp only [RangeEnt.Before, mem_bytes, mem_byteRange, absorbNext, hgo,
        rangeListMax_eq] at hn hen hnn hbn ⊢
      rw [if_neg (by omega)] at hx'
      simp only [decide_eq_false_iff_not] at hx'
      split_ifs <;> omega
    rw [mem_cover_append, mem_cover_cons, key, mem_cover_append, mem_cover_cons, mem_cover_cons, or_assoc, or_assoc,
      or_left_comm, or_comm]

theorem Inserted.loses (h : Inserted offset length l l' d) (hl : Ordered l) (hx : ¬ InsertExact l offset length) :
    ∃ x, (x ∈ cover bytes l ∨ x ∈ byteRange offset length) ∧ x ∉ cover bytes l' := by
  have hmax := rangeListMax_eq
  simp only [InsertExact, not_or, Bool.not_eq_false, rangeListMax_eq] at hx
  obtain ⟨hn1, hx⟩ := hx
  cases h with
  | fresh pre post hpre hpost =>
    rw [overreaches_eq_false (fun b hb => (hpost b (mem_of_mem_tail hb)).2) pre hpre] at hx; cases hx
  | grown pre ent post hpre ht hpost =>
    have htail : ∀ b ∈ (ent :: post).tail, offset + length < b.offset := fun b hb => (hpost b hb).resolve_left hn1
    rw [overreaches_eq_false htail pre hpre] at hx; cases hx
  | absorbed pre ent next post hpre ht _ hnext =>
    obtain ⟨h1, h2, h3⟩ := ordered_append.1 hl
    obtain ⟨heo, hen, hbef, h2⟩ := ordered_cons.1 h2
    obtain ⟨hno, hnn, hnbef, -⟩ := ordered_cons.1 h2
    rw [overreaches_append _ _ _ (by simp) _ hpre, overreaches] at hx
    have hgo : (insertGrow offset (rangeEnd offset length) ent).offset = min offset ent.offset :=
      insertGrow_offset _
    have hbn := hbef next (by simp)
    unfold Touches at ht
    rw [if_neg (by omega)] at hx
    simp only [decide_eq_true_eq] at hx
    refine ⟨next.offset + next.length, ?_, ?_⟩
    · by_cases he : ent.length = -1
      · refine .inl ((mem_cover_append _).2 (.inr ((mem_cover_cons _).2 (.inl ?_))))
        rw [mem_bytes]; omega
      · right; rw [mem_byteRange]; omega
    · rw [mem_cover_append, mem_cover_cons, mem_cover, mem_cover]
      rintro (⟨a, ha, hax⟩ | hax | ⟨b, hb, hbx⟩)
      · have ha1 := h3 a ha next (by simp)
        have ha2 := hpre a ha
        simp only [RangeEnt.Before, RangeEnt.EndsBefore, rangeListMax_eq, mem_bytes] at ha1 ha2 hax
        omega
      · simp only [absorbNext, mem_bytes, hgo, rangeListMax_eq] at hax
        split_ifs at hax <;> omega
      · have hb1 := hnbef b hb
        simp only [RangeEnt.Before, rangeListMax_eq, mem_bytes] at hb1 hbx
        omega

end Inserted

/-! ## Whole runs of inserts -/

/-- A range that may be passed to insert: its offset is not negative and its length is valid. -/
def ValidRange (r : RangeEnt) : Prop := 0 ≤ r.offset ∧ ValidLength r.length

/-- The list after inserting `r` into `rl`. -/
def insertRange (rl : RangeList) (r : RangeEnt) : RangeList := (rangeListInsert rl r.offset r.length).2

/-- The list built from `globus_range_list_init` by inserting the ranges `rs` one after the other. -/
def insertRanges (rs : List RangeEnt) : RangeList := rs.foldl insertRange rangeListInit

theorem insertRanges_concat (rs : List RangeEnt) (r : RangeEnt) :
    insertRanges (rs ++ [r]) = insertRange (insertRanges rs) r := by
  simp [insertRanges]

theorem rangeListInsert_inserted {rl : RangeList} {r : RangeEnt} (hl : Ordered rl.head)
    (hs : rl.size = rl.head.length) (hr : ValidRange r) :
    ∃ d, Inserted r.offset r.length rl.head (insertRange rl r).head d ∧
      (rangeListInsert rl r.offset r.length).1 = globusSuccess ∧ (insertRange rl r).size = rl.size + d := by
  obtain ⟨size, head⟩ := rl
  obtain ⟨ho, hn⟩ := hr
  have h0 : r.length ≠ 0 := by simp only [ValidLength, rangeListMax_eq] at hn; omega
  simp only [insertRange, rangeListInsert, if_neg (not_lt.2 ho), if_neg h0]
  cases head with
  | nil =>
    simp only [length_nil, Nat.cast_zero] at hs
    exact ⟨1, .fresh [] [] (by simp) (by simp), rfl, by simp [hs]⟩
  | cons ent rest => exact ⟨_, insertLoop_inserted ho hn _ hl, rfl, rfl⟩

theorem insertRange_ordered {rl : RangeList} {r : RangeEnt} (hl : Ordered rl.head)
    (hs : rl.size = rl.head.length) (hr : ValidRange r) :
    Ordered (insertRange rl r).head ∧ (insertRange rl r).size = (insertRange rl r).head.length := by
  obtain ⟨d, hi, -, hd⟩ := rangeListInsert_inserted hl hs hr
  exact ⟨hi.ordered hr.1 hr.2 hl, by rw [hd, hs, hi.length_eq]⟩

theorem insertRanges_ordered (rs : List RangeEnt) (h : ∀ r ∈ rs, ValidRange r) :
    Ordered (insertRanges rs).head ∧ (insertRanges rs).size = (insertRanges rs).head.length := by
  induction rs using List.reverseRecOn with
  | nil => exact ⟨Ordered.nil, rfl⟩
  | append_singleton rs r ih =>
    obtain ⟨ih1, ih2⟩ := ih (fun a ha => h a (by simp [ha]))
    rw [insertRanges_concat]
    exact insertRange_ordered ih1 ih2 (h r (by simp))

theorem insertRange_covered_iff {rl : RangeList} {r : RangeEnt} (hl : Ordered rl.head)
    (hs : rl.size = rl.head.length) (hr : ValidRange r) :
    (insertRange rl r).covered = rl.covered ∪ r.bytes ↔ InsertExact rl.head r.offset r.length := by
  obtain ⟨d, hi, -, -⟩ := rangeListInsert_inserted hl hs hr
  constructor
  · intro heq
    by_contra hx
    obtain ⟨x, hx1, hx2⟩ := hi.loses hl hx
    have : x ∈ (insertRange rl r).covered := by rw [heq]; exact hx1
    exact hx2 this
  · intro hx
    ext x
    exact hi.covers hr.1 hr.2 hl hx x

/-- In every list built by inserting valid ranges, one more insert of a valid range records exactly
that range if and only if it does not overreach; and a run none of whose inserts overreaches records
exactly the inserted ranges. -/
theorem rangeListInsert_union_iff (rs : List RangeEnt) (h : ∀ r ∈ rs, ValidRange r) :
    (∀ r, ValidRange r →
      ((insertRange (insertRanges rs) r).covered = (insertRanges rs).covered ∪ r.bytes ↔
        InsertExact (insertRanges rs).head r.offset r.length)) ∧
    ((∀ qs r, qs ++ [r] <+: rs → InsertExact (insertRanges qs).head r.offset r.length) →
      (insertRanges rs).covered = cover bytes rs) := by
  constructor
  · intro r hr
    obtain ⟨h1, h2⟩ := insertRanges_ordered rs h
    exact insertRange_covered_iff h1 h2 hr
  · induction rs using List.reverseRecOn with
    | nil => intro _; rfl
    | append_singleton rs r ih =>
      intro hx
      have hrs : ∀ a ∈ rs, ValidRange a := fun a ha => h a (by simp [ha])
      obtain ⟨h1, h2⟩ := insertRanges_ordered rs hrs
      have hcov := ih hrs (fun qs q hq => hx qs q (hq.trans (prefix_append rs [r])))
      rw [insertRanges_concat, (insertRange_covered_iff h1 h2 (h r (by simp))).2 (hx rs r (prefix_refl _)), hcov]
      ext x
      simp

/-- Filling up a gap and reaching the entry behind it: nothing is lost. -/
theorem rangeListInsert_union_fill :
    (insertRange (insertRanges [⟨0, 5⟩, ⟨20, 5⟩]) ⟨3, 20⟩).covered =
      (insertRanges [⟨0, 5⟩, ⟨20, 5⟩]).covered ∪ (⟨3, 20⟩ : RangeEnt).bytes :=
  ((rangeListInsert_union_iff [⟨0, 5⟩, ⟨20, 5⟩] (by simp [ValidRange, ValidLength])).1 ⟨3, 20⟩
    (by simp [ValidRange, ValidLength])).2 (.inr (by decide))

/-- A range over two entries that ends past the second: the merged entry ends with the second, and
byte 20 is lost. -/
theorem rangeListInsert_bridge_loses :
    (∀ r ∈ [⟨0, 1⟩, ⟨10, 1⟩], ValidRange r) ∧ ValidRange ⟨0, 25⟩ ∧
      (insertRange (insertRanges [⟨0, 1⟩, ⟨10, 1⟩]) ⟨0, 25⟩).covered ≠
        (insertRanges [⟨0, 1⟩, ⟨10, 1⟩]).covered ∪ (⟨0, 25⟩ : RangeEnt).bytes := by
  refine ⟨by simp [ValidRange, ValidLength], by simp [ValidRange, ValidLength], fun heq => ?_⟩
  have hres : insertRange (insertRanges [⟨0, 1⟩, ⟨10, 1⟩]) ⟨0, 25⟩ = ⟨1, [⟨0, 11⟩]⟩ := by decide
  have h20 : (20 : Int) ∈ (insertRange (insertRanges [⟨0, 1⟩, ⟨10, 1⟩]) ⟨0, 25⟩).covered := by
    rw [heq]; right; simp [mem_bytes]
  rw [hres] at h20
  simp [RangeList.covered, mem_bytes] at h20

/-! ## Entries without an end -/

/-- A list built by inserts is separated if only its last entry may be without an end. -/
theorem Ordered.separated_iff (h : Ordered l) : Separated l ↔ Bounded l.dropLast := by
  induction l with
  | nil => exact ⟨fun _ => by simp [Bounded], fun _ => Separated.nil⟩
  | cons e l ih =>
    obtain ⟨ho, hn, hbefore, hl⟩ := ordered_cons.1 h
    cases l with
    | nil => exact ⟨fun _ => by simp [Bounded], fun _ => separated_cons.2 ⟨ho, hn, by simp, Separated.nil⟩⟩
    | cons b l =>
      rw [separated_cons, ih hl, dropLast_cons_cons]
      constructor
      · rintro ⟨-, -, hapart, hb⟩ x hx
        rcases mem_cons.1 hx with rfl | hx
        · exact (hapart b mem_cons_self).1
        · exact hb x hx
      · intro hb
        have he : e.length ≠ rangeListMax := hb e mem_cons_self
        exact ⟨ho, hn, fun c hc => ⟨he, (hbefore c hc).2.resolve_left he⟩, (forall_mem_cons.1 hb).2⟩

/-- A range without an end begins behind all entries but the last. -/
def InsertLast (l : List RangeEnt) (offset length : Int) : Prop :=
  length = rangeListMax → ∀ e ∈ l.dropLast, e.EndsBefore offset

theorem bounded_of_endsBefore {offset : Int} (h : ∀ e ∈ l, e.EndsBefore offset) : Bounded l :=
  fun e he => (h e he).1

/-- What one insert does to the entries that must have an end. -/
theorem Inserted.bounded_dropLast_iff {offset length d : Int} {l l' : List RangeEnt} (h : Inserted offset length l l' d)
    (ho : 0 ≤ offset) (hn : length = -1 ∨ 0 < length) (hl : Ordered l) (hb : Bounded l.dropLast) :
    Bounded l'.dropLast ↔ InsertLast l offset length := by
  cases h with
  | fresh pre post hpre hpost =>
    cases post with
    | nil =>
      rw [append_nil, dropLast_concat]
      exact ⟨fun _ _ e he => hpre e (mem_of_mem_dropLast he), fun _ => bounded_of_endsBefore hpre⟩
    | cons b post =>
      have hne := (hpost b mem_cons_self).1
      rw [dropLast_append_cons] at hb
      rw [dropLast_append_cons, dropLast_cons_cons, bounded_append, bounded_cons]
      obtain ⟨hb1, hb2⟩ := bounded_append.1 hb
      exact ⟨fun _ hmax => absurd hmax hne, fun _ => ⟨hb1, hne, hb2⟩⟩
  | grown pre ent post hpre ht hpost =>
    cases post with
    | nil =>
      rw [InsertLast, dropLast_concat, dropLast_concat]
      exact ⟨fun _ _ => hpre, fun _ => bounded_of_endsBefore hpre⟩
    | cons b post =>
      rw [dropLast_append_cons, dropLast_cons_cons] at hb
      obtain ⟨hb1, hb2⟩ := bounded_append.1 hb
      obtain ⟨hent, hb2⟩ := bounded_cons.1 hb2
      obtain ⟨heo, hen, -, -⟩ := ordered_cons.1 (ordered_append.1 hl).2.1
      have hlen := insertGrow_length ho hn heo hen ht
      rw [InsertLast, dropLast_append_cons, dropLast_append_cons, dropLast_cons_cons, dropLast_cons_cons,
        bounded_append, bounded_cons]
      -- the entry that grew is not the last one, and it is touched
      constructor
      · rintro ⟨-, hgrown, -⟩ rfl
        rw [hlen, if_pos (.inl rfl)] at hgrown
        exact absurd rfl hgrown
      · intro hlast
        refine ⟨hb1, fun hmax => ?_, hb2⟩
        rw [hlen] at hmax
        split_ifs at hmax with hcase
        · have htouched := hlast (hcase.resolve_right hent) ent (by simp)
          unfold Touches at ht
          grind
        · unfold Touches at ht
          grind
  | absorbed pre ent next post hpre ht hne hnext =>
    refine ⟨fun _ hmax => absurd hmax hne, fun _ => ?_⟩
    cases post with
    | nil =>
      rw [dropLast_concat]
      exact bounded_of_endsBefore hpre
    | cons b post =>
      rw [dropLast_append_cons, dropLast_cons_cons, dropLast_cons_cons] at hb
      obtain ⟨hb1, hb2⟩ := bounded_append.1 hb
      obtain ⟨-, hb2⟩ := bounded_cons.1 hb2
      obtain ⟨hnextb, hb2⟩ := bounded_cons.1 hb2
      obtain ⟨-, hen, hbefore, h2⟩ := ordered_cons.1 (ordered_append.1 hl).2.1
      obtain ⟨-, hnn, -, -⟩ := ordered_cons.1 h2
      have hbn := (hbefore next mem_cons_self).1
      rw [dropLast_append_cons, dropLast_cons_cons, bounded_append, bounded_cons]
      refine ⟨hb1, fun hmax => ?_, hb2⟩
      simp only [absorbNext, insertGrow_offset, rangeListMax_eq] at hmax hnn hnextb
      rw [if_neg hnextb] at hmax
      omega

/-- Every list on the way is well formed if and only if no range without an end is inserted in front of the end of an entry
that is not the last. -/
theorem insertRanges_wellFormed_iff (rs : List RangeEnt) (h : ∀ r ∈ rs, ValidRange r) :
    (∀ qs, qs <+: rs → (insertRanges qs).WellFormed) ↔
      ∀ qs r, qs ++ [r] <+: rs → InsertLast (insertRanges qs).head r.offset r.length := by
  have hvalid : ∀ {qs}, qs <+: rs → ∀ r ∈ qs, ValidRange r := fun hqs r hr => h r (hqs.subset hr)
  have hstep : ∀ {qs r}, qs ++ [r] <+: rs → Bounded (insertRanges qs).head.dropLast →
      (Bounded (insertRanges (qs ++ [r])).head.dropLast ↔ InsertLast (insertRanges qs).head r.offset r.length) := by
    intro qs r hqs hb
    have hr := hvalid hqs r (by simp)
    obtain ⟨hord, hsize⟩ := insertRanges_ordered qs (hvalid ((prefix_append qs [r]).trans hqs))
    obtain ⟨d, hi, -, -⟩ := rangeListInsert_inserted hord hsize hr
    rw [insertRanges_concat]
    exact hi.bounded_dropLast_iff hr.1 hr.2 hord hb
  have hwf : ∀ {qs}, qs <+: rs → ((insertRanges qs).WellFormed ↔ Bounded (insertRanges qs).head.dropLast) := by
    intro qs hqs
    obtain ⟨hord, hsize⟩ := insertRanges_ordered qs (hvalid hqs)
    rw [← hord.separated_iff]
    exact ⟨fun hw => hw.separated, fun hs => ⟨hs, hsize⟩⟩
  constructor
  · intro hall qs r hqs
    have hqs' := (prefix_append qs [r]).trans hqs
    exact (hstep hqs ((hwf hqs').1 (hall qs hqs'))).1 ((hwf hqs).1 (hall _ hqs))
  · intro hlast qs hqs
    rw [hwf hqs]
    induction qs using List.reverseRecOn with
    | nil => simp [insertRanges, rangeListInit, Bounded]
    | append_singleton qs r ih => exact (hstep hqs (ih ((prefix_append qs [r]).trans hqs))).2 (hlast qs r hqs)

/-- A range without an end that begins inside the last entry. -/
theorem insertRanges_wellFormed_tail : (insertRanges [⟨5, 5⟩, ⟨20, 5⟩, ⟨22, -1⟩]).WellFormed := by
  refine (insertRanges_wellFormed_iff [⟨5, 5⟩, ⟨20, 5⟩, ⟨22, -1⟩] (by simp [ValidRange, ValidLength])).2 ?_ _ (prefix_refl _)
  intro qs r hqs hmax
  rcases qs with - | ⟨a, - | ⟨b, - | ⟨c, qs⟩⟩⟩
  · obtain ⟨rfl, -⟩ := cons_prefix_cons.1 hqs
    exact absurd hmax (by decide)
  · obtain ⟨-, hqs⟩ := cons_prefix_cons.1 hqs
    obtain ⟨rfl, -⟩ := cons_prefix_cons.1 hqs
    exact absurd hmax (by decide)
  · obtain ⟨ha, hqs⟩ := cons_prefix_cons.1 hqs
    obtain ⟨hb, hqs⟩ := cons_prefix_cons.1 hqs
    obtain ⟨hr, -⟩ := cons_prefix_cons.1 hqs
    subst ha hb hr
    have hhead : (insertRanges [⟨5, 5⟩, ⟨20, 5⟩]).head = [⟨5, 5⟩, ⟨20, 5⟩] := by decide
    rw [hhead]
    simp [RangeEnt.EndsBefore]
  · have hlen := hqs.length_le
    simp only [length_append, length_cons, length_nil] at hlen
    omega

/-- A range without an end over two entries: the second one stays behind it. -/
theorem insertRanges_max_keeps_later :
    (∀ r ∈ [⟨5, 5⟩, ⟨20, 5⟩, ⟨0, -1⟩], ValidRange r) ∧
      (insertRanges [⟨5, 5⟩, ⟨20, 5⟩, ⟨0, -1⟩]).head = [⟨0, rangeListMax⟩, ⟨20, 5⟩] ∧
      ¬ (insertRanges [⟨5, 5⟩, ⟨20, 5⟩, ⟨0, -1⟩]).WellFormed := by
  have hhead : (insertRanges [⟨5, 5⟩, ⟨20, 5⟩, ⟨0, -1⟩]).head = [⟨0, rangeListMax⟩, ⟨20, 5⟩] := by decide
  refine ⟨by simp [ValidRange, ValidLength], hhead, fun hw => ?_⟩
  have hapart := hw.separated.apart
  rw [hhead, pairwise_cons] at hapart
  exact (hapart.1 ⟨20, 5⟩ (by simp)).1 rfl

end Globus
