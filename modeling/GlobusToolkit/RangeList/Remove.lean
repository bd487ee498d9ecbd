/-
`globus_range_list_remove` as set difference. On a well-formed list the removed range is taken out
exactly, unless an entry with an end stands in one of three positions to it: the range covers the
front of the entry (its offset moves, its length stays), the range is the very end of the entry (it
is left as it is), or the range lies inside an entry that is not the last (the entries behind it are
dropped).
-/
import GlobusToolkit.RangeList.Basic

namespace Globus

open Lib List RangeEnt

/-- The positions of an entry, with the entries `post` behind it, in which taking out
`[offset, endOffset)` goes wrong. -/
def RemoveFault (offset endOffset : Int) (e : RangeEnt) (post : List RangeEnt) : Prop :=
  e.length ≠ rangeListMax ∧
    ((offset ≤ e.offset ∧ e.offset < endOffset ∧ endOffset < e.offset + e.length) ∨
      (e.offset < offset ∧ offset < e.offset + e.length ∧ e.offset + e.length = endOffset) ∨
      (e.offset < offset ∧ endOffset < e.offset + e.length ∧ post ≠ []))

/-- The removed range is unbounded, or no entry is at fault. -/
def RemoveExact (l : List RangeEnt) (offset length : Int) : Prop :=
  length = rangeListMax ∨ ∀ e post, e :: post <:+ l → ¬ RemoveFault offset (offset + length) e post

theorem removeExact_nil (offset length : Int) : RemoveExact [] offset length :=
  .inr fun e post h => by simp at h

theorem removeExact_cons {e : RangeEnt} {l : List RangeEnt} {offset length : Int} :
    RemoveExact (e :: l) offset length ↔
      (length = rangeListMax ∨ ¬ RemoveFault offset (offset + length) e l) ∧ RemoveExact l offset length := by
  constructor
  · rintro (h | h)
    · exact ⟨.inl h, .inl h⟩
    · exact ⟨.inr (h e l suffix_rfl), .inr fun a post ha => h a post (ha.trans (suffix_cons e l))⟩
  · rintro ⟨h1 | h1, h2⟩
    · exact .inl h1
    · rcases h2 with h2 | h2
      · exact .inl h2
      · refine .inr fun a post ha => ?_
        rcases suffix_cons_iff.1 ha with ha | ha
        · cases ha; exact h1
        · exact h2 a post ha

/-! ## The loop -/

theorem lt_of_mem_cover {e : RangeEnt} {l : List RangeEnt} (h : ∀ b ∈ l, e.Apart b) {x : Int}
    (hx : x ∈ cover bytes l) : e.length ≠ -1 ∧ e.offset + e.length < x := by
  obtain ⟨b, hb, hbx⟩ := hx
  obtain ⟨h1, h2⟩ := h b hb
  rw [mem_bytes] at hbx
  exact ⟨h1, by omega⟩

/-- What the loop does with one entry, given what it does with the entries behind it (`r`). -/
inductive RemoveStep (offset length : Int) (ent : RangeEnt) (next : List RangeEnt) (r : List RangeEnt × Int) :
    List RangeEnt × Int → Prop
  /-- all foul: the entry goes -/
  | gone (h1 : offset ≤ ent.offset)
      (h2 : length = -1 ∨ (ent.length ≠ -1 ∧ ent.offset + ent.length ≤ offset + length)) :
      RemoveStep offset length ent next r (r.1, r.2 - 1)
  /-- starts fair and extends foul: its length is cut -/
  | cut (h1 : ent.offset < offset)
      (h2 : length = -1 ∨ (ent.length ≠ -1 ∧ ent.offset + ent.length < offset + length))
      (h3 : ent.length = -1 ∨ offset < ent.offset + ent.length) :
      RemoveStep offset length ent next r (⟨ent.offset, offset - ent.offset⟩ :: r.1, r.2)
  /-- starts foul and extends fair: its offset moves, and the loop is done -/
  | moved (h1 : length ≠ -1) (h2 : offset ≤ ent.offset) (h3 : ent.offset < offset + length)
      (h4 : ent.length = -1 ∨ offset + length < ent.offset + ent.length) :
      RemoveStep offset length ent next r (⟨offset + length, ent.length⟩ :: next, 0)
  /-- fair on both sides: split in two, and the loop is done -/
  | split (h1 : length ≠ -1) (h2 : ent.offset < offset)
      (h3 : ent.length = -1 ∨ offset + length < ent.offset + ent.length) :
      RemoveStep offset length ent next r
        ([⟨ent.offset, offset - ent.offset⟩, ⟨offset + length,
          if ent.length = -1 then -1 else ent.offset + ent.length - (offset + length)⟩], 1)
  /-- behind the removed range: the loop is done -/
  | behind (h1 : length ≠ -1) (h2 : offset + length < ent.offset) :
      RemoveStep offset length ent next r (ent :: next, 0)
  /-- all fair -/
  | kept (h1 : ent.offset < offset → ent.length ≠ -1 ∧
        (ent.offset + ent.length ≤ offset ∨ (length ≠ -1 ∧ ent.offset + ent.length = offset + length)))
      (h2 : offset ≤ ent.offset → length ≠ -1 ∧ ent.offset = offset + length) :
      RemoveStep offset length ent next r (ent :: r.1, r.2)

theorem removeLoop_step {offset length : Int} (ho : 0 ≤ offset) (hn : length = -1 ∨ 0 < length) {ent : RangeEnt}
    (heo : 0 ≤ ent.offset) (hen : ent.length = -1 ∨ 0 < ent.length) (next : List RangeEnt) :
    RemoveStep offset length ent next (removeLoop offset (rangeEnd offset length) next)
      (removeLoop offset (rangeEnd offset length) (ent :: next)) := by
  rw [removeLoop]
  -- what the two sentinel-coded ends stand for
  have hE := rangeEnd_cases offset length
  have hF := rangeEnd_cases ent.offset ent.length
  generalize rangeEnd offset length = E at *
  generalize rangeEnd ent.offset ent.length = F at *
  simp only [rangeListMax_eq]
  -- a branch needs its own test only, so the failed ones before it are cleared
  by_cases h1 : ent.offset ≥ offset ∧ (F ≤ E ∧ F ≠ -1 ∨ E = -1)
  · rw [if_pos h1]; exact .gone (by omega) (by omega)
  by_cases h2 : ent.offset < offset ∧ (F < E ∧ F ≠ -1 ∨ E = -1) ∧ (F > offset ∨ F = -1)
  · rw [if_neg h1, if_pos h2]
    clear h1
    exact .cut (by omega) (by omega) (by omega)
  by_cases h3 : ent.offset ≥ offset ∧ ent.offset < E ∧ (F > E ∧ E ≠ -1 ∨ F = -1)
  · rw [if_neg h1, if_neg h2, if_pos h3]
    clear h1 h2
    obtain rfl : E = offset + length := by omega
    exact .moved (by omega) (by omega) (by omega) (by omega)
  by_cases h4 : ent.offset < offset ∧ (F > E ∧ E ≠ -1 ∨ F = -1)
  · rw [if_neg h1, if_neg h2, if_neg h3, if_pos h4]
    obtain rfl : E = offset + length := by omega
    have hlen : (if F = -1 then -1 else F - (offset + length)) =
        if ent.length = -1 then -1 else ent.offset + ent.length - (offset + length) := by
      split_ifs <;> omega
    rw [hlen]
    clear h1 h2 h3
    exact .split (by omega) (by omega) (by omega)
  split_ifs with h5
  · exact .behind (by omega) (by omega)
  · exact .kept (by omega) (by omega)

section Step

variable {offset length : Int} {ent : RangeEnt} {next : List RangeEnt} {r r' : List RangeEnt × Int}

section Exact

variable (hap : ∀ b ∈ next, ent.Apart b)
  (hx : length = rangeListMax ∨ ¬ RemoveFault offset (offset + length) ent next)
include hap hx

theorem last_of_split (h1 : length ≠ -1) (h2 : ent.offset < offset)
    (h3 : ent.length = -1 ∨ offset + length < ent.offset + ent.length) : next = [] := by
  by_contra hne
  obtain ⟨b, hb⟩ := exists_mem_of_ne_nil _ hne
  have := (hap b hb).1
  simp only [RemoveFault, rangeListMax_eq, ne_eq, hne, not_false_eq_true, and_true] at this hx
  omega

theorem RemoveStep.length_eq (h : RemoveStep offset length ent next r r')
    (hr : (r.1.length : Int) = next.length + r.2) : (r'.1.length : Int) = (ent :: next).length + r'.2 := by
  rw [length_cons, Nat.cast_succ]
  cases h with
  | gone h1 h2 => show (r.1.length : Int) = _ + (r.2 - 1); omega
  | cut h1 h2 h3 => rw [length_cons, Nat.cast_succ]; omega
  | moved h1 h2 h3 h4 => rw [length_cons, Nat.cast_succ]; omega
  | split h1 h2 h3 =>
    obtain rfl := last_of_split hap hx h1 h2 h3
    rfl
  | behind h1 h2 => rw [length_cons, Nat.cast_succ]; omega
  | kept h1 h2 => rw [length_cons, Nat.cast_succ]; omega

theorem RemoveStep.covers (h : RemoveStep offset length ent next r r') (hn : length = -1 ∨ 0 < length)
    (hen : ent.length = -1 ∨ 0 < ent.length) (x : Int)
    (hr : x ∈ cover bytes r.1 ↔ x ∈ cover bytes next ∧ x ∉ byteRange offset length) :
    x ∈ cover bytes r'.1 ↔ x ∈ cover bytes (ent :: next) ∧ x ∉ byteRange offset length := by
  have hlt : x ∈ cover bytes next → ent.length ≠ -1 ∧ ent.offset + ent.length < x := lt_of_mem_cover hap
  cases h with
  | split h1 h2 h3 =>
    obtain rfl := last_of_split hap hx h1 h2 h3
    rw [mem_cover_cons, mem_cover_singleton, mem_cover_singleton, mem_byteRange, mem_bytes, mem_bytes, mem_bytes]
    dsimp only
    split_ifs <;> omega
  | gone h1 h2 =>
    rw [hr, mem_cover_cons, mem_byteRange, mem_bytes]
    grind
  | cut h1 h2 h3 =>
    rw [mem_cover_cons, hr, mem_cover_cons, mem_byteRange, mem_bytes, mem_bytes]
    grind
  | moved h1 h2 h3 h4 =>
    simp only [RemoveFault, rangeListMax_eq] at hn hen hx
    rw [mem_cover_cons, mem_cover_cons, mem_byteRange, mem_bytes, mem_bytes]
    grind
  | behind h1 h2 =>
    rw [mem_cover_cons, mem_byteRange, mem_bytes]
    grind
  | kept h1 h2 =>
    simp only [RemoveFault, rangeListMax_eq] at hn hen hx
    rw [mem_cover_cons, hr, mem_cover_cons, mem_byteRange, mem_bytes]
    grind

end Exact

theorem removeExact_of_behind (hn : 0 < length) {l : List RangeEnt}
    (h : ∀ e ∈ l, offset + length < e.offset) : RemoveExact l offset length := by
  refine .inr fun e post he hf => ?_
  have := h e (he.subset (by simp))
  simp only [RemoveFault, rangeListMax_eq] at hf
  omega

/-- A byte, at or behind the beginning of an entry of `l`, that `l'` covers wrongly. -/
def Miscovered (offset length : Int) (l l' : List RangeEnt) (x : Int) : Prop :=
  (∃ e ∈ l, e.offset ≤ x) ∧
    ¬ (x ∈ cover bytes l' ↔ x ∈ cover bytes l ∧ x ∉ byteRange offset length)

theorem Miscovered.cons {x : Int} {l' : List RangeEnt} (hx : Miscovered offset length next l' x)
    (es : List RangeEnt) (hap : ∀ b ∈ next, ent.Apart b)
    (hes : ent.length ≠ -1 → ent.offset + ent.length < x → x ∉ cover bytes es) :
    Miscovered offset length (ent :: next) (es ++ l') x := by
  obtain ⟨⟨e, he, hex⟩, hne⟩ := hx
  obtain ⟨h1, h2⟩ := hap e he
  refine ⟨⟨e, mem_cons_of_mem _ he, hex⟩, fun hiff => hne ?_⟩
  rw [mem_cover_append, mem_cover_cons, mem_bytes] at hiff
  grind

/-- Moving the offset of an entry with an end takes its end along. -/
theorem miscovered_moved (hap : ∀ b ∈ next, ent.Apart b) (h2 : offset ≤ ent.offset)
    (h3 : ent.offset < offset + length) (h4 : offset + length < ent.offset + ent.length) :
    Miscovered offset length (ent :: next) (⟨offset + length, ent.length⟩ :: next) (ent.offset + ent.length) := by
  have hnext : ent.offset + ent.length ∉ cover bytes next := fun h => by
    have := lt_of_mem_cover hap h
    omega
  refine ⟨⟨ent, by simp, by omega⟩, ?_⟩
  rw [mem_cover_cons, mem_cover_cons, mem_byteRange, mem_bytes, mem_bytes]
  simp only [hnext, or_false]
  omega

theorem miscovered_split {q : RangeEnt} {rest : List RangeEnt} (hq : q.length = -1 ∨ 0 < q.length) (hap : ent.Apart q)
    (h1 : 0 < length) (h3 : offset + length < ent.offset + ent.length) (h2 : ent.offset < offset) :
    Miscovered offset length (ent :: q :: rest)
      [⟨ent.offset, offset - ent.offset⟩, ⟨offset + length,
        if ent.length = -1 then -1 else ent.offset + ent.length - (offset + length)⟩] q.offset := by
  have hmem : q.offset ∈ q.bytes := by rw [mem_bytes]; omega
  refine ⟨⟨q, by simp, le_refl _⟩, fun hiff => ?_⟩
  have hres := hiff.2 ⟨by simp [hmem], by rw [mem_byteRange]; omega⟩
  simp only [mem_cover_cons, cover_nil, Set.mem_empty_iff_false, mem_bytes, or_false] at hres
  omega

/-- An entry whose end is removed and that is left as it is. -/
theorem miscovered_kept {l' : List RangeEnt} (h1 : ent.offset < offset) (h2 : offset < ent.offset + ent.length)
    (hn : length = -1 ∨ 0 < length) : Miscovered offset length (ent :: next) (ent :: l') offset := by
  refine ⟨⟨ent, by simp, by omega⟩, fun hiff => ?_⟩
  have hres := hiff.1 ((mem_cover_cons _).2 (.inl (by rw [mem_bytes]; omega)))
  exact hres.2 (by rw [mem_byteRange]; omega)

theorem RemoveStep.fault (h : RemoveStep offset length ent next r r') (hn : length = -1 ∨ 0 < length)
    (hl : Separated (ent :: next)) (hx : ¬ RemoveExact (ent :: next) offset length)
    (hr : ¬ RemoveExact next offset length → ∃ x, Miscovered offset length next r.1 x) :
    ∃ x, Miscovered offset length (ent :: next) r'.1 x := by
  obtain ⟨heo, hen, hap, hnext⟩ := separated_cons.1 hl
  rw [removeExact_cons] at hx
  simp only [RemoveFault, rangeListMax_eq] at hn hen hx
  cases h with
  | gone h1 h2 =>
    obtain ⟨x, hx⟩ := hr (by grind)
    exact ⟨x, hx.cons [] hap (by simp)⟩
  | cut h1 h2 h3 =>
    obtain ⟨x, hx⟩ := hr (by grind)
    refine ⟨x, hx.cons [_] hap fun he hxe => ?_⟩
    rw [mem_cover_singleton, mem_bytes]
    dsimp only
    omega
  | moved h1 h2 h3 h4 =>
    by_cases he : ent.length = -1
    · cases next with
      | nil => exact absurd ⟨.inr (fun hf => hf.1 he), removeExact_nil _ _⟩ hx
      | cons q rest => exact absurd he (hap q (by simp)).1
    · exact ⟨_, miscovered_moved hap h2 h3 (by omega)⟩
  | split h1 h2 h3 =>
    cases next with
    | nil => exact absurd ⟨.inr (by simp; omega), removeExact_nil _ _⟩ hx
    | cons q rest =>
      have hq := hap q (by simp)
      exact ⟨_, miscovered_split (hnext.length_valid q (by simp)) hq (by omega) (by omega) h2⟩
  | behind h1 h2 =>
    refine absurd (removeExact_of_behind (by omega) fun e he => ?_) (by grind : ¬ RemoveExact next offset length)
    grind
  | kept h1 h2 =>
    by_cases hfault : ent.offset < offset ∧ offset < ent.offset + ent.length
    · exact ⟨_, miscovered_kept hfault.1 hfault.2 hn⟩
    · obtain ⟨x, hx⟩ := hr (by grind)
      refine ⟨x, hx.cons [_] hap fun he hxe => ?_⟩
      rw [mem_cover_singleton, mem_bytes]
      omega

end Step

section Loop

variable {offset length : Int}

theorem removeLoop_exact (ho : 0 ≤ offset) (hn : length = -1 ∨ 0 < length) :
    ∀ l : List RangeEnt, Separated l → RemoveExact l offset length →
      (∀ x, x ∈ cover bytes (removeLoop offset (rangeEnd offset length) l).1 ↔
        x ∈ cover bytes l ∧ x ∉ byteRange offset length) ∧
      ((removeLoop offset (rangeEnd offset length) l).1.length : Int) =
        l.length + (removeLoop offset (rangeEnd offset length) l).2
  | [], _, _ => by simp [removeLoop]
  | ent :: next, hl, hx => by
    obtain ⟨heo, hen, hap, hnext⟩ := separated_cons.1 hl
    obtain ⟨hx1, hx2⟩ := removeExact_cons.1 hx
    obtain ⟨ih1, ih2⟩ := removeLoop_exact ho hn next hnext hx2
    have hstep := removeLoop_step ho hn heo hen next
    exact ⟨fun x => hstep.covers hap hx1 hn hen x (ih1 x), hstep.length_eq hap hx1 ih2⟩

theorem removeLoop_fault (ho : 0 ≤ offset) (hn : length = -1 ∨ 0 < length) :
    ∀ l : List RangeEnt, Separated l → ¬ RemoveExact l offset length →
      ∃ x, Miscovered offset length l (removeLoop offset (rangeEnd offset length) l).1 x
  | [], _, hx => absurd (removeExact_nil offset length) hx
  | ent :: next, hl, hx => by
    obtain ⟨heo, hen, -, hnext⟩ := separated_cons.1 hl
    have hstep := removeLoop_step ho hn heo hen next
    exact hstep.fault hn hl hx (removeLoop_fault ho hn next hnext)

end Loop

/-! ## The operation -/

/-- The covered set loses exactly the removed range, and the size is the number of entries. -/
def RemovesRange (rl : RangeList) (offset length : Int) : Prop :=
  (rangeListRemove rl offset length).2.covered = rl.covered \ byteRange offset length ∧
    rangeListSize (some (rangeListRemove rl offset length).2) = (rangeListRemove rl offset length).2.head.length

/-- On a well-formed list, removing a valid range takes out exactly its bytes and keeps the size in
step if and only if no entry is at fault. -/
theorem rangeListRemove_difference_iff (rl : RangeList) (hwf : rl.WellFormed) (offset length : Int)
    (ho : 0 ≤ offset) (hn : ValidLength length) :
    RemovesRange rl offset length ↔ RemoveExact rl.head offset length := by
  have h0 : length ≠ 0 := by simp only [ValidLength, rangeListMax_eq] at hn; omega
  have hres : (rangeListRemove rl offset length).2 =
      ⟨rl.size + (removeLoop offset (rangeEnd offset length) rl.head).2,
        (removeLoop offset (rangeEnd offset length) rl.head).1⟩ := by
    simp only [rangeListRemove, if_neg (not_lt.2 ho), if_neg h0]
  unfold RemovesRange
  rw [hres]
  constructor
  · rintro ⟨hcov, -⟩
    by_contra hx
    obtain ⟨x, -, hne⟩ := removeLoop_fault ho hn rl.head hwf.separated hx
    exact hne (by rw [Set.ext_iff] at hcov; exact hcov x)
  · intro hx
    obtain ⟨h1, h2⟩ := removeLoop_exact ho hn rl.head hwf.separated hx
    refine ⟨Set.ext h1, ?_⟩
    simp only [rangeListSize, hwf.size_eq]
    exact h2.symm

/-- Cutting the end off an entry. -/
theorem rangeListRemove_difference_cut : RemovesRange ⟨2, [⟨0, 10⟩, ⟨20, -1⟩]⟩ 5 10 := by
  refine (rangeListRemove_difference_iff ⟨2, [⟨0, 10⟩, ⟨20, -1⟩]⟩ ?_ 5 10 (by decide) (.inr (by decide))).2 ?_
  · exact ⟨by simp [separated_cons, Separated.nil], rfl⟩
  · simp [removeExact_cons, removeExact_nil, RemoveFault]

/-- Removing `[0, 5)` from `[0, 10)` leaves `[5, 15)`: byte 12 was never in the list. -/
theorem rangeListRemove_front_shifts :
    (⟨1, [⟨0, 10⟩]⟩ : RangeList).WellFormed ∧ ValidLength 5 ∧ ¬ RemovesRange ⟨1, [⟨0, 10⟩]⟩ 0 5 := by
  refine ⟨⟨by simp [separated_cons, Separated.nil], rfl⟩, .inr (by decide), fun h => ?_⟩
  have hres : (rangeListRemove ⟨1, [⟨0, 10⟩]⟩ 0 5).2 = ⟨1, [⟨5, 10⟩]⟩ := by decide
  have h12 : (12 : Int) ∈ (rangeListRemove ⟨1, [⟨0, 10⟩]⟩ 0 5).2.covered := by
    rw [hres]; simp [RangeList.covered, mem_bytes]
  rw [h.1] at h12
  simp [RangeList.covered, mem_bytes] at h12

end Globus
