/-
`globus_range_list_merge_destructive` and `globus_range_list_merge` as set union. The list that
begins first (`A`) takes in the entries of the other (`B`) one after the other, each round starting
where the last one left off. The merge is exact unless an entry of `B` reaches past the second entry
of `A` it touches, or begins before the first one it touches and ends inside it: the offset of that
entry is then lowered but not its length, and the bytes cut off at its end come back only if a later
entry of `B` covers them.
-/
import GlobusToolkit.RangeList.Basic

namespace Globus

open Lib List RangeEnt

/-! ## One round -/

/-- What one round of the merge does with `b`: put it between two entries, let an entry grow, or let
an entry grow and take in its successor. `pre` are the entries passed over, `A'` those from which
the next round starts. -/
inductive Round (b : RangeEnt) : List RangeEnt → List RangeEnt → List RangeEnt → Int → Prop
  | front (pre : List RangeEnt) (a : RangeEnt) (post : List RangeEnt) (hpre : ∀ e ∈ pre, e.EndsBefore b.offset)
      (hb : b.length ≠ -1) (ha : b.offset + b.length < a.offset) :
      Round b (pre ++ a :: post) pre (b :: a :: post) 1
  | grown (pre : List RangeEnt) (a : RangeEnt) (post : List RangeEnt) (hpre : ∀ e ∈ pre, e.EndsBefore b.offset)
      (ht : Touches b.offset b.length a) (hpost : ∀ e ∈ post, b.length = -1 ∨ b.offset + b.length < e.offset) :
      Round b (pre ++ a :: post) pre (mergeGrow a b :: post) 0
  | absorbed (pre : List RangeEnt) (a n : RangeEnt) (post : List RangeEnt)
      (hpre : ∀ e ∈ pre, e.EndsBefore b.offset) (ht : Touches b.offset b.length a) (hb : b.length ≠ -1)
      (hn : n.offset ≤ b.offset + b.length) :
      Round b (pre ++ a :: n :: post) pre (absorbNext (mergeGrow a b) n :: post) (-1)

theorem Round.cons {b e : RangeEnt} {A pre A' : List RangeEnt} {d : Int} (he : e.EndsBefore b.offset)
    (h : Round b A pre A' d) : Round b (e :: A) (e :: pre) A' d := by
  cases h with
  | front pre a post hpre hb ha => exact .front (e :: pre) a post (forall_mem_cons.2 ⟨he, hpre⟩) hb ha
  | grown pre a post hpre ht hpost => exact .grown (e :: pre) a post (forall_mem_cons.2 ⟨he, hpre⟩) ht hpost
  | absorbed pre a n post hpre ht hb hn => exact .absorbed (e :: pre) a n post (forall_mem_cons.2 ⟨he, hpre⟩) ht hb hn

/-- The inner loop plays a round, or passes over all entries. It does not write through a null
pointer when an entry has been passed or the first one begins no later than `b`. -/
theorem mergeInner_round {b : RangeEnt} (hbo : 0 ≤ b.offset) (hbn : b.length = -1 ∨ 0 < b.length) :
    ∀ (L : List RangeEnt) (prev : Bool), Separated L →
      (prev = true ∨ ∃ c, L.head? = some c ∧ c.offset ≤ b.offset) →
      (∃ pre A' d, mergeInner b prev L = some ⟨pre, A', d, true⟩ ∧ Round b L pre A' d) ∨
        (mergeInner b prev L = some ⟨L, [], 0, false⟩ ∧ ∀ e ∈ L, e.EndsBefore b.offset)
  | [], _, _, _ => .inr ⟨rfl, by simp⟩
  | a :: next, prev, hL, hprev => by
    obtain ⟨hao, han, hap, hnext⟩ := separated_cons.1 hL
    have ih := mergeInner_round hbo hbn next true hnext (.inl rfl)
    have hE := rangeEnd_cases b.offset b.length
    have hF := rangeEnd_cases a.offset a.length
    simp only [mergeInner, rangeListMax_eq]
    split_ifs with h1 h2 h3
    · exact .inl ⟨[], _, _, rfl, .front [] a next (by simp) (by omega) (by omega)⟩
    · rcases hprev with hprev | ⟨c, hc, hcb⟩
      · exact absurd hprev h2
      · simp only [head?_cons, Option.some.injEq] at hc
        subst hc; omega
    · have ht : Touches b.offset b.length a := by omega
      refine .inl ⟨[], _, _, rfl, ?_⟩
      cases next with
      | nil => exact .grown [] a [] (by simp) ht (by simp)
      | cons n post =>
        obtain ⟨hno, -, hnap, -⟩ := separated_cons.1 hnext
        simp only [absorbReached]
        split_ifs with h4
        · exact .absorbed [] a n post (by simp) ht (by omega) (by omega)
        · refine .grown [] a (n :: post) (by simp) ht fun e he => ?_
          rcases mem_cons.1 he with rfl | he
          · omega
          · have hnv := hnext.length_valid n (by simp)
            grind
    · have he : a.EndsBefore b.offset := by constructor <;> omega
      rcases ih with ⟨pre, A', d, h4, h5⟩ | ⟨h4, h5⟩
      · exact .inl ⟨a :: pre, A', d, by rw [h4]; rfl, h5.cons he⟩
      · exact .inr ⟨by rw [h4]; rfl, forall_mem_cons.2 ⟨he, h5⟩⟩

/-! ## When the merge is exact -/

/-- If `b` has an end, it does not reach past the second of two entries of `A` that it reaches. -/
def OverOk (A : List RangeEnt) (b : RangeEnt) : Prop :=
  ∀ p ∈ A, ∀ q ∈ A, p.offset < q.offset → b.offset ≤ p.offset + p.length → b.length ≠ -1 →
    q.length = -1 ∨ b.offset + b.length ≤ q.offset + q.length

/-- If `b` begins before the first entry `q` of `A` that it touches and ends inside it, a later entry
of `B` covers the bytes that `q` loses at its end. -/
def LowOk (A B : List RangeEnt) (b : RangeEnt) : Prop :=
  ∀ q ∈ A, (∀ p ∈ A, p.offset < q.offset → p.offset + p.length < b.offset) → b.offset < q.offset →
    b.length ≠ -1 → q.length ≠ -1 → q.offset ≤ b.offset + b.length →
    b.offset + b.length ≤ q.offset + q.length →
    ∃ c ∈ B, b.offset + b.length < c.offset ∧ c.offset ≤ q.offset + q.length - (q.offset - b.offset) ∧
      (c.length = -1 ∨ q.offset + q.length ≤ c.offset + c.length)

/-- If `b` has no end, only the last entry of `A` reaches it. -/
def ApartOk (A : List RangeEnt) (b : RangeEnt) : Prop :=
  b.length = -1 → ∀ p ∈ A, ∀ q ∈ A, p.offset < q.offset → p.offset + p.length < b.offset

/-- The merge of `B` into `A` covers all bytes. -/
def MergeCovers (A B : List RangeEnt) : Prop := ∀ b ∈ B, OverOk A b ∧ LowOk A B b

/-- The merge of `B` into `A` keeps the entries apart. -/
def MergeApart (A B : List RangeEnt) : Prop := ∀ b ∈ B, ApartOk A b

section Drop

variable {pre L : List RangeEnt} {b : RangeEnt} (hsep : Separated (pre ++ L))
  (hpre : ∀ e ∈ pre, e.EndsBefore b.offset)

include hsep in
theorem offset_lt_of_append {p q : RangeEnt} (hp : p ∈ pre) (hq : q ∈ L) : p.offset < q.offset := by
  obtain ⟨h1, -, h3⟩ := separated_append.1 hsep
  have hv := h1.length_valid p hp
  have ha := h3 p hp q hq
  grind

include hsep hpre in
/-- Entries that end before `b` play no part in what `b` does. -/
theorem overOk_append : OverOk (pre ++ L) b ↔ OverOk L b := by
  constructor
  · intro h p hp q hq; exact h p (mem_append_right _ hp) q (mem_append_right _ hq)
  · intro h p hp q hq hpq hb hbn
    rcases mem_append.1 hp with hp | hp
    · have := (hpre p hp).2; omega
    · rcases mem_append.1 hq with hq | hq
      · have := offset_lt_of_append hsep hq hp; omega
      · exact h p hp q hq hpq hb hbn

include hsep hpre in
theorem lowOk_append {B : List RangeEnt} : LowOk (pre ++ L) B b ↔ LowOk L B b := by
  constructor
  · intro h q hq hfirst
    refine h q (mem_append_right _ hq) fun p hp hpq => ?_
    rcases mem_append.1 hp with hp | hp
    exacts [(hpre p hp).2, hfirst p hp hpq]
  · intro h q hq hfirst hbq
    rcases mem_append.1 hq with hq | hq
    · have hv := hsep.length_valid q (mem_append_left _ hq)
      have he := hpre q hq
      grind
    · exact h q hq (fun p hp hpq => hfirst p (mem_append_right _ hp) hpq) hbq

include hsep hpre in
theorem apartOk_append : ApartOk (pre ++ L) b ↔ ApartOk L b := by
  constructor
  · intro h hb p hp q hq; exact h hb p (mem_append_right _ hp) q (mem_append_right _ hq)
  · intro h hb p hp q hq hpq
    rcases mem_append.1 hp with hp | hp
    · exact (hpre p hp).2
    · rcases mem_append.1 hq with hq | hq
      · have := offset_lt_of_append hsep hq hp; omega
      · exact h hb p hp q hq hpq

end Drop

section Head

variable {b a g : RangeEnt} {post B : List RangeEnt}

/-- The entries `a` and `g`, in front of `post`, look the same to `b`, which begins behind both
beginnings and reaches back to both of them or to neither. -/
structure SameTo (b : RangeEnt) (post : List RangeEnt) (a g : RangeEnt) : Prop where
  lt_left : ∀ q ∈ post, a.offset < q.offset
  lt_right : ∀ q ∈ post, g.offset < q.offset
  le_left : a.offset ≤ b.offset
  le_right : g.offset ≤ b.offset
  reach : post ≠ [] → (b.offset ≤ a.offset + a.length ↔ b.offset ≤ g.offset + g.length)

theorem SameTo.symm (h : SameTo b post a g) : SameTo b post g a :=
  ⟨h.lt_right, h.lt_left, h.le_right, h.le_left, fun hne => (h.reach hne).symm⟩

theorem SameTo.overOk (hs : SameTo b post a g) (h : OverOk (a :: post) b) : OverOk (g :: post) b := by
  intro p hp q hq hpq hb hbn
  rcases mem_cons.1 hp with rfl | hp' <;> rcases mem_cons.1 hq with rfl | hq'
  · omega
  · exact h a (by simp) q (by simp [hq']) (hs.lt_left q hq')
      ((hs.reach (ne_nil_of_mem hq')).2 hb) hbn
  · have := hs.lt_right p hp'; omega
  · exact h p (by simp [hp']) q (by simp [hq']) hpq hb hbn

theorem SameTo.lowOk (hs : SameTo b post a g) (h : LowOk (a :: post) B b) : LowOk (g :: post) B b := by
  intro q hq hfirst hbq
  rcases mem_cons.1 hq with rfl | hq'
  · have := hs.le_right; omega
  · refine h q (by simp [hq']) (fun p hp hpq => ?_) hbq
    rcases mem_cons.1 hp with rfl | hp'
    · have hg := hfirst g (by simp) (hs.lt_right q hq')
      have := hs.reach (ne_nil_of_mem hq')
      omega
    · exact hfirst p (by simp [hp']) hpq

theorem SameTo.apartOk (hs : SameTo b post a g) (h : ApartOk (a :: post) b) : ApartOk (g :: post) b := by
  intro hb p hp q hq hpq
  rcases mem_cons.1 hp with rfl | hp' <;> rcases mem_cons.1 hq with rfl | hq'
  · omega
  · have := h hb a (by simp) q (by simp [hq']) (hs.lt_left q hq')
    have := hs.reach (ne_nil_of_mem hq')
    omega
  · have := hs.lt_right p hp'; omega
  · exact h hb p (by simp [hp']) q (by simp [hq']) hpq

/-- All three conditions of `b` are the same for `a` and for `g` in front of `post`. -/
theorem SameTo.iff (hs : SameTo b post a g) :
    (OverOk (a :: post) b ↔ OverOk (g :: post) b) ∧ (LowOk (a :: post) B b ↔ LowOk (g :: post) B b) ∧
      (ApartOk (a :: post) b ↔ ApartOk (g :: post) b) :=
  ⟨⟨hs.overOk, hs.symm.overOk⟩, ⟨hs.lowOk, hs.symm.lowOk⟩, ⟨hs.apartOk, hs.symm.apartOk⟩⟩

end Head

/-! ## One round and the conditions -/

theorem mergeGrow_offset (a b : RangeEnt) : (mergeGrow a b).offset = min b.offset a.offset := by
  simp only [mergeGrow]; split_ifs <;> omega

theorem mergeGrow_length {a b : RangeEnt} (hao : 0 ≤ a.offset) (han : a.length = -1 ∨ 0 < a.length)
    (hbo : 0 ≤ b.offset) (hbn : b.length = -1 ∨ 0 < b.length) :
    (mergeGrow a b).length =
      if b.length = -1 ∨ a.length = -1 then -1
      else if a.offset + a.length < b.offset + b.length then b.offset + b.length - min b.offset a.offset
      else a.length := by
  have hE := rangeEnd_cases b.offset b.length
  have hF := rangeEnd_cases a.offset a.length
  simp only [mergeGrow, rangeListMax_eq]
  split_ifs <;> omega

theorem mem_absorbNext {a b n : RangeEnt} (han : a.offset ≤ n.offset) (hn : n.length = -1 ∨ 0 < n.length) (x : Int) :
    x ∈ (absorbNext (mergeGrow a b) n).bytes ↔
      min b.offset a.offset ≤ x ∧ (n.length = -1 ∨ x < n.offset + n.length) := by
  simp only [mem_bytes, absorbNext, mergeGrow_offset, rangeListMax_eq]
  split_ifs <;> omega

/-- What the round with `b` leaves, together with the entries of `B` still to come, covers all the
bytes there were. -/
def RoundExact (b : RangeEnt) (A pre A' B : List RangeEnt) : Prop :=
  ∀ x, x ∈ cover bytes A ∨ x ∈ b.bytes →
    x ∈ cover bytes pre ∨ x ∈ cover bytes A' ∨ x ∈ cover bytes B

section Round

variable {b : RangeEnt} {A pre A' B : List RangeEnt} {d : Int}

theorem Round.length_eq (h : Round b A pre A' d) : (pre.length + A'.length : Int) = A.length + d := by
  cases h <;> simp <;> omega

theorem Round.covers_sub (h : Round b A pre A' d) (hA : Separated A) (hbo : 0 ≤ b.offset)
    (hbn : b.length = -1 ∨ 0 < b.length) (x : Int)
    (hx : x ∈ cover bytes pre ∨ x ∈ cover bytes A') :
    x ∈ cover bytes A ∨ x ∈ b.bytes := by
  cases h with
  | front pre a post hpre hb ha =>
    simp only [mem_cover_append, mem_cover_cons] at hx ⊢
    tauto
  | grown pre a post hpre ht hpost =>
    obtain ⟨-, h2, -⟩ := separated_append.1 hA
    obtain ⟨hao, han, -, -⟩ := separated_cons.1 h2
    have hl := mergeGrow_length hao han hbo hbn
    have key : x ∈ (mergeGrow a b).bytes → x ∈ a.bytes ∨ x ∈ b.bytes := by
      simp only [mem_bytes, mergeGrow_offset, hl]
      split_ifs <;> omega
    simp only [mem_cover_append, mem_cover_cons] at hx ⊢
    rcases hx with h | h | h
    · exact .inl (.inl h)
    · exact (key h).imp_left (.inr ∘ .inl)
    · exact .inl (.inr (.inr h))
  | absorbed pre a n post hpre ht hb hn =>
    obtain ⟨-, h2, -⟩ := separated_append.1 hA
    obtain ⟨hao, han, hap, h2⟩ := separated_cons.1 h2
    obtain ⟨hno, hnn, -, -⟩ := separated_cons.1 h2
    have hap' := hap n (by simp)
    have key : x ∈ (absorbNext (mergeGrow a b) n).bytes → x ∈ a.bytes ∨ x ∈ b.bytes ∨ x ∈ n.bytes := by
      rw [mem_absorbNext (by omega) hnn, mem_bytes, mem_bytes, mem_bytes]
      omega
    simp only [mem_cover_append, mem_cover_cons] at hx ⊢
    rcases hx with h | h | h
    · exact .inl (.inl h)
    · rcases key h with h | h | h
      · exact .inl (.inr (.inl h))
      · exact .inr h
      · exact .inl (.inr (.inr (.inl h)))
    · exact .inl (.inr (.inr (.inr h)))

theorem Round.separated (h : Round b A pre A' d) (hA : Separated A) (hbo : 0 ≤ b.offset)
    (hbn : b.length = -1 ∨ 0 < b.length) (hb : b.length ≠ -1) : Separated A' := by
  cases h with
  | front pre a post hpre hb ha =>
    obtain ⟨-, h2, -⟩ := separated_append.1 hA
    obtain ⟨hao, han, hap, -⟩ := separated_cons.1 h2
    refine separated_cons.2 ⟨hbo, hbn, fun e he => ⟨hb, ?_⟩, h2⟩
    rcases mem_cons.1 he with rfl | he'
    · exact ha
    · grind
  | grown pre a post hpre ht hpost =>
    obtain ⟨-, h2, -⟩ := separated_append.1 hA
    obtain ⟨hao, han, hap, h2⟩ := separated_cons.1 h2
    have hl := mergeGrow_length hao han hbo hbn
    refine separated_cons.2 ⟨by rw [mergeGrow_offset]; omega, ?_, fun e he => ?_, h2⟩
    · rw [hl]; split_ifs <;> omega
    · have h3 := hpost e he
      have h4 := hap e he
      simp only [Touches, mergeGrow_offset] at *
      rw [hl]; split_ifs <;> omega
  | absorbed pre a n post hpre ht _ hn =>
    obtain ⟨-, h2, -⟩ := separated_append.1 hA
    obtain ⟨hao, han, hap, h2⟩ := separated_cons.1 h2
    obtain ⟨hno, hnn, hnap, h2⟩ := separated_cons.1 h2
    have hap' := hap n (by simp)
    refine separated_cons.2 ⟨by simp only [absorbNext, mergeGrow_offset]; omega, ?_, fun e he => ?_, h2⟩
    · simp only [absorbNext, mergeGrow_offset, rangeListMax_eq] at *
      split_ifs <;> omega
    · have h4 := hnap e he
      simp only [absorbNext, mergeGrow_offset, rangeListMax_eq] at *
      split_ifs <;> omega

variable {post : List RangeEnt}

/-- When the entries behind `a` begin behind `b`, the first condition holds and the second is about
`a` alone. -/
theorem overOk_of_behind {a : RangeEnt} (hL : Separated (a :: post))
    (hpost : ∀ e ∈ post, b.length = -1 ∨ b.offset + b.length < e.offset) : OverOk (a :: post) b := by
  intro p hp q hq hpq _ hb
  obtain ⟨-, han, hap, hsep⟩ := separated_cons.1 hL
  rcases mem_cons.1 hq with rfl | hq'
  · rcases mem_cons.1 hp with rfl | hp'
    · omega
    · have := hap p hp'
      grind
  · have h1 := hpost q hq'
    have h2 := hsep.length_valid q hq'
    grind

theorem lowOk_of_behind {a : RangeEnt} {post C : List RangeEnt} (hL : Separated (a :: post))
    (hpost : ∀ e ∈ post, b.length = -1 ∨ b.offset + b.length < e.offset) :
    LowOk (a :: post) C b ↔ (b.offset < a.offset → b.length ≠ -1 → a.length ≠ -1 →
      a.offset ≤ b.offset + b.length → b.offset + b.length ≤ a.offset + a.length →
      ∃ c ∈ C, b.offset + b.length < c.offset ∧ c.offset ≤ a.offset + a.length - (a.offset - b.offset) ∧
        (c.length = -1 ∨ a.offset + a.length ≤ c.offset + c.length)) := by
  obtain ⟨-, han, hap, -⟩ := separated_cons.1 hL
  constructor
  · intro h
    refine h a (by simp) fun p hp hpa => ?_
    rcases mem_cons.1 hp with rfl | hp'
    · omega
    · have := hap p hp'
      grind
  · intro h q hq _ hbq hb hqn hqb hbq'
    rcases mem_cons.1 hq with rfl | hq'
    · exact h hbq hb hqn hqb hbq'
    · have := hpost q hq'; omega

theorem not_mem_cover_of_apart {e : RangeEnt} {l : List RangeEnt} (h : ∀ c ∈ l, e.Apart c) {x : Int}
    (hx : x ≤ e.offset + e.length) : x ∉ cover bytes l := by
  rintro ⟨c, hc, hcx⟩
  have := h c hc
  simp only [RangeEnt.Apart, mem_bytes] at this hcx
  omega

theorem not_mem_cover_of_endsBefore {o : Int} {l : List RangeEnt} (h : ∀ e ∈ l, e.EndsBefore o) {x : Int}
    (hx : o ≤ x) : x ∉ cover bytes l := by
  rintro ⟨c, hc, hcx⟩
  have := h c hc
  simp only [RangeEnt.EndsBefore, mem_bytes] at this hcx
  omega

/-- Growing is exact if and only if a later entry makes up for a lowered offset. -/
theorem roundExact_grown {a : RangeEnt} (hpre : ∀ e ∈ pre, e.EndsBefore b.offset)
    (ht : Touches b.offset b.length a) (hL : Separated (a :: post)) (hB : Separated (b :: B)) :
    RoundExact b (pre ++ a :: post) pre (mergeGrow a b :: post) B ↔
      (b.offset < a.offset → b.length ≠ -1 → a.length ≠ -1 →
        a.offset ≤ b.offset + b.length → b.offset + b.length ≤ a.offset + a.length →
        ∃ c ∈ b :: B, b.offset + b.length < c.offset ∧
          c.offset ≤ a.offset + a.length - (a.offset - b.offset) ∧
          (c.length = -1 ∨ a.offset + a.length ≤ c.offset + c.length)) := by
  have hmax := rangeListMax_eq
  obtain ⟨hbo, hbn, hbB, hB⟩ := separated_cons.1 hB
  obtain ⟨hao, han, hap, -⟩ := separated_cons.1 hL
  have hlen := mergeGrow_length hao han hbo hbn
  have hmem : ∀ x, x ∈ (mergeGrow a b).bytes ↔ min b.offset a.offset ≤ x ∧
      ((mergeGrow a b).length = -1 ∨ x < min b.offset a.offset + (mergeGrow a b).length) := fun x => by
    rw [mem_bytes, mergeGrow_offset]
  constructor
  · intro hx hba hb ha hab hbe
    -- the bytes cut off at the end of `a` can only be in entries still to come
    have hlost : ∀ x, b.offset + a.length ≤ x → x < a.offset + a.length → x ∈ cover bytes B := by
      intro x h1 h2
      have hxa : x ∈ cover bytes (pre ++ a :: post) ∨ x ∈ b.bytes := by
        by_cases hxa : a.offset ≤ x
        · refine .inl ((mem_cover_append _).2 (.inr ((mem_cover_cons _).2 (.inl ?_))))
          rw [mem_bytes]; omega
        · right; rw [mem_bytes]; omega
      rcases hx x hxa with h | h | h
      · exact absurd h (not_mem_cover_of_endsBefore hpre (by omega))
      · rw [mem_cover_cons, hmem, hlen] at h
        rcases h with h | h
        · split_ifs at h <;> omega
        · exact absurd h (not_mem_cover_of_apart hap (by omega))
      · exact h
    obtain ⟨c, hc, hc1, hc2⟩ := hB.exists_entry (by omega) hlost
    have hbc := (hbB c hc).2
    exact ⟨c, by simp [hc], hbc, by omega, hc2⟩
  · intro h x hx
    have hab : x ∈ a.bytes ∨ x ∈ b.bytes → x ∈ (mergeGrow a b).bytes ∨ x ∈ cover bytes B := by
      rw [mem_bytes, mem_bytes, hmem, hlen]
      intro hx
      by_cases hlow : b.offset < a.offset ∧ b.length ≠ -1 ∧ a.length ≠ -1 ∧ a.offset ≤ b.offset + b.length ∧
          b.offset + b.length ≤ a.offset + a.length
      · obtain ⟨h1, h2, h3, h4, h5⟩ := hlow
        obtain ⟨c, hc, hc1, hc2, hc3⟩ := h h1 h2 h3 h4 h5
        have hcB : c ∈ B := by
          rcases mem_cons.1 hc with rfl | hc'
          · omega
          · exact hc'
        clear h
        by_cases hxa : x < b.offset + a.length
        · left; split_ifs <;> omega
        · exact .inr ⟨c, hcB, by rw [mem_bytes]; omega⟩
      · clear h; left; split_ifs <;> omega
    simp only [mem_cover_append, mem_cover_cons] at hx ⊢
    rcases hx with (h | h | h) | h
    · exact .inl h
    · exact .inr ((hab (.inl h)).imp_left .inl)
    · exact .inr (.inl (.inr h))
    · exact .inr ((hab (.inr h)).imp_left .inl)

theorem roundExact_absorbed {a n : RangeEnt} (hpre : ∀ e ∈ pre, e.EndsBefore b.offset)
    (ht : Touches b.offset b.length a) (hb : b.length ≠ -1) (hn : n.offset ≤ b.offset + b.length)
    (hL : Separated (a :: n :: post)) (hB : Separated (b :: B)) :
    RoundExact b (pre ++ a :: n :: post) pre (absorbNext (mergeGrow a b) n :: post) B ↔
      n.length = -1 ∨ b.offset + b.length ≤ n.offset + n.length := by
  have hmax := rangeListMax_eq
  obtain ⟨hbo, hbn, hbB, hB⟩ := separated_cons.1 hB
  obtain ⟨hao, han, hap, hL⟩ := separated_cons.1 hL
  obtain ⟨hno, hnn, hnap, -⟩ := separated_cons.1 hL
  have hap' := hap n (by simp)
  have hmem := mem_absorbNext (show a.offset ≤ n.offset by omega) hnn (b := b)
  constructor
  · intro hx
    by_contra hcon
    push Not at hcon
    -- the byte at which `n` ends is in `b`, and in nothing that is left
    have hxb : n.offset + n.length ∈ b.bytes := by rw [mem_bytes]; omega
    rcases hx _ (.inr hxb) with h | h | h
    · exact not_mem_cover_of_endsBefore hpre (by omega) h
    · rw [mem_cover_cons, hmem] at h
      rcases h with h | h
      · omega
      · exact not_mem_cover_of_apart hnap le_rfl h
    · exact not_mem_cover_of_apart hbB (by omega) h
  · intro h x hx
    have hall : x ∈ a.bytes ∨ x ∈ b.bytes ∨ x ∈ n.bytes → x ∈ (absorbNext (mergeGrow a b) n).bytes := by
      rw [hmem, mem_bytes, mem_bytes, mem_bytes]
      omega
    simp only [mem_cover_append, mem_cover_cons] at hx ⊢
    rcases hx with (h | h | h | h) | h
    · exact .inl h
    · exact .inr (.inl (.inl (hall (.inl h))))
    · exact .inr (.inl (.inl (hall (.inr (.inr h)))))
    · exact .inr (.inl (.inr h))
    · exact .inr (.inl (.inl (hall (.inr (.inl h)))))

theorem Round.exact_iff (h : Round b A pre A' d) (hA : Separated A) (hB : Separated (b :: B)) :
    RoundExact b A pre A' B ↔ OverOk A b ∧ LowOk A (b :: B) b := by
  have hmax := rangeListMax_eq
  have hbn := hB.length_valid b (by simp)
  cases h with
  | front pre a post hpre hb ha =>
    obtain ⟨-, h2, -⟩ := separated_append.1 hA
    rw [overOk_append hA hpre, lowOk_append hA hpre]
    have hpost : ∀ e ∈ post, b.length = -1 ∨ b.offset + b.length < e.offset := fun e he => by
      obtain ⟨-, han, hap, -⟩ := separated_cons.1 h2
      have := hap e he
      grind
    rw [lowOk_of_behind h2 hpost]
    refine iff_of_true (fun x hx => ?_) ⟨overOk_of_behind h2 hpost, by omega⟩
    simp only [mem_cover_append, mem_cover_cons] at hx ⊢
    tauto
  | grown pre a post hpre ht hpost =>
    obtain ⟨-, h2, -⟩ := separated_append.1 hA
    rw [overOk_append hA hpre, lowOk_append hA hpre, lowOk_of_behind h2 hpost, roundExact_grown hpre ht h2 hB]
    exact ⟨fun h => ⟨overOk_of_behind h2 hpost, h⟩, fun h => h.2⟩
  | absorbed pre a n post hpre ht hb hn =>
    obtain ⟨-, h2, -⟩ := separated_append.1 hA
    rw [overOk_append hA hpre, lowOk_append hA hpre, roundExact_absorbed hpre ht hb hn h2 hB]
    obtain ⟨hao, han, hap, h3⟩ := separated_cons.1 h2
    obtain ⟨hno, hnn, hnap, h4⟩ := separated_cons.1 h3
    have hapn := hap n (by simp)
    constructor
    · intro h
      refine ⟨fun p hp q hq hpq hbp _ => ?_, fun q hq hfirst hbq _ _ hqb hbq' => ?_⟩
      · -- `q` is `n`, or begins behind it
        rcases mem_cons.1 hq with rfl | hq'
        · rcases mem_cons.1 hp with rfl | hp'
          · omega
          · have := hap p hp'
            grind
        · rcases mem_cons.1 hq' with rfl | hq''
          · exact h
          · have h5 := hnap q hq''
            have h6 := h4.length_valid q hq''
            grind
      · -- the first entry that `b` touches is `a`, and `b` ends behind it
        exfalso
        rcases mem_cons.1 hq with rfl | hq'
        · omega
        · have h5 := hap q hq'
          have h6 := hfirst a (by simp)
          grind
    · rintro ⟨h, -⟩
      exact h a (by simp) n (by simp) (by omega) (by omega) hb

theorem sameTo_grown {a b' : RangeEnt} (hpre : ∀ e ∈ pre, e.EndsBefore b.offset)
    (ht : Touches b.offset b.length a) (hL : Separated (a :: post)) (hL' : Separated (mergeGrow a b :: post))
    (hB : Separated (b :: B)) (hx : RoundExact b (pre ++ a :: post) pre (mergeGrow a b :: post) B)
    (hb' : b' ∈ B) : SameTo b' post a (mergeGrow a b) := by
  have hmax := rangeListMax_eq
  rw [roundExact_grown hpre ht hL hB] at hx
  obtain ⟨hbo, hbn, hbB, hB⟩ := separated_cons.1 hB
  obtain ⟨hao, han, hap, hpost⟩ := separated_cons.1 hL
  have hlen := mergeGrow_length hao han hbo hbn
  have hbb' := hbB b' hb'
  refine ⟨fun q hq => hL.offset_lt hq,
    fun q hq => hL'.offset_lt hq, ?_, ?_, fun hne => ?_⟩
  · clear hx; omega
  · clear hx; rw [mergeGrow_offset]; omega
  · obtain ⟨q, hq⟩ := exists_mem_of_ne_nil _ hne
    have ha : a.length ≠ -1 := (hap q hq).1
    rw [mergeGrow_offset, hlen]
    by_cases hlow : b.offset < a.offset ∧ a.offset ≤ b.offset + b.length ∧
        b.offset + b.length ≤ a.offset + a.length
    · -- the later entry that makes up for the lowered offset leaves no room between the two ends
      obtain ⟨h1, h2, h3⟩ := hlow
      obtain ⟨c, hc, hc1, hc2, hc3⟩ := hx h1 hbb'.1 ha h2 h3
      clear hx
      rcases mem_cons.1 hc with rfl | hc'
      · omega
      · rcases hB.apart_or hb' hc' with rfl | hap' | hap'
        · split_ifs <;> omega
        · have := hB.length_valid b' hb'
          split_ifs <;> omega
        · split_ifs <;> omega
    · clear hx; split_ifs <;> omega

variable (h : Round b A pre A' d)
include h

namespace Round

/-- After an exact round the later entries meet the conditions as before it. -/
theorem same (hA : Separated A) (hB : Separated (b :: B))
    (hx : RoundExact b A pre A' B) {b' : RangeEnt} (hb' : b' ∈ B) :
    (OverOk A b' ↔ OverOk A' b') ∧ (LowOk A B b' ↔ LowOk A' B b') ∧ (ApartOk A b' ↔ ApartOk A' b') := by
  obtain ⟨hbo, hbn, hbB, -⟩ := separated_cons.1 hB
  have hbb' := hbB b' hb'
  have hlt : b.offset < b'.offset := by omega
  have hA' := h.separated hA hbo hbn hbb'.1
  have hpre' : (∀ e ∈ pre, e.EndsBefore b.offset) → ∀ e ∈ pre, e.EndsBefore b'.offset := fun hpre e he => by
    have := hpre e he
    grind
  cases h with
  | front pre a post hpre hb ha =>
    have hb1 : ∀ e ∈ [b], e.EndsBefore b'.offset := by simpa [RangeEnt.EndsBefore] using hbb'
    have hA1 : Separated ([b] ++ a :: post) := hA'
    have h1 := overOk_append hA1 hb1
    have h2 := lowOk_append hA1 hb1 (B := B)
    have h3 := apartOk_append hA1 hb1
    rw [overOk_append hA (hpre' hpre), lowOk_append hA (hpre' hpre), apartOk_append hA (hpre' hpre)]
    exact ⟨h1.symm, h2.symm, h3.symm⟩
  | grown pre a post hpre ht hpost =>
    rw [overOk_append hA (hpre' hpre), lowOk_append hA (hpre' hpre), apartOk_append hA (hpre' hpre)]
    exact (sameTo_grown hpre ht (separated_append.1 hA).2.1 hA' hB hx hb').iff
  | absorbed pre a n post hpre ht hb hn =>
    obtain ⟨-, h2, -⟩ := separated_append.1 hA
    obtain ⟨hao, han, hap, h3⟩ := separated_cons.1 h2
    have hapn := hap n (by simp)
    have hpre1 : ∀ e ∈ pre ++ [a], e.EndsBefore b'.offset := by
      intro e he
      rcases mem_append.1 he with he | he
      · exact hpre' hpre e he
      · rw [mem_singleton.1 he]
        grind
    have hA1 : Separated ((pre ++ [a]) ++ n :: post) := by simpa using hA
    have hsplit : pre ++ a :: n :: post = (pre ++ [a]) ++ n :: post := by simp
    rw [hsplit, overOk_append hA1 hpre1, lowOk_append hA1 hpre1, apartOk_append hA1 hpre1]
    refine SameTo.iff ⟨fun q hq => h3.offset_lt hq,
      fun q hq => hA'.offset_lt hq,
      by omega, ?_, fun hne => ?_⟩
    · simp only [absorbNext, mergeGrow_offset]; omega
    · obtain ⟨q, hq⟩ := exists_mem_of_ne_nil _ hne
      obtain ⟨-, -, hnap, -⟩ := separated_cons.1 h3
      have hnn : n.length ≠ -1 := (hnap q hq).1
      simp only [absorbNext, mergeGrow_offset, rangeListMax_eq, if_neg hnn]
      omega

/-- The merge covers all bytes if and only if this round is exact and the rest of the merge covers
all bytes. -/
theorem mergeCovers_cons (hA : Separated A) (hB : Separated (b :: B)) :
    MergeCovers A (b :: B) ↔ RoundExact b A pre A' B ∧ MergeCovers A' B := by
  have hmax := rangeListMax_eq
  -- what a later entry loses is not made up for by `b`
  have hlow : ∀ b' ∈ B, LowOk A (b :: B) b' ↔ LowOk A B b' := by
    intro b' hb'
    obtain ⟨-, hbn, hbB, hB'⟩ := separated_cons.1 hB
    have h1 := hbB b' hb'
    have h2 := hB'.length_valid b' hb'
    constructor
    · intro hl q hq hf hbq hb1 hq1 hqb hbq'
      obtain ⟨c, hc, hc1, hc2⟩ := hl q hq hf hbq hb1 hq1 hqb hbq'
      rcases mem_cons.1 hc with rfl | hc'
      · omega
      · exact ⟨c, hc', hc1, hc2⟩
    · intro hl q hq hf hbq hb1 hq1 hqb hbq'
      obtain ⟨c, hc, hc1, hc2⟩ := hl q hq hf hbq hb1 hq1 hqb hbq'
      exact ⟨c, mem_cons_of_mem _ hc, hc1, hc2⟩
  rw [h.exact_iff hA hB]
  constructor
  · intro hm
    have hb := hm b (by simp)
    have hx := (h.exact_iff hA hB).2 hb
    refine ⟨hb, fun b' hb' => ?_⟩
    obtain ⟨s1, s2, -⟩ := h.same hA hB hx hb'
    obtain ⟨m1, m2⟩ := hm b' (mem_cons_of_mem _ hb')
    exact ⟨s1.1 m1, s2.1 ((hlow b' hb').1 m2)⟩
  · rintro ⟨hb, hm⟩ b' hb'
    have hx := (h.exact_iff hA hB).2 hb
    rcases mem_cons.1 hb' with rfl | hb''
    · exact hb
    · obtain ⟨s1, s2, -⟩ := h.same hA hB hx hb''
      obtain ⟨m1, m2⟩ := hm b' hb''
      exact ⟨s1.2 m1, (hlow b' hb'').2 (s2.2 m2)⟩

theorem separated_iff (hA : Separated A) (hbo : 0 ≤ b.offset)
    (hbn : b.length = -1 ∨ 0 < b.length) : Separated A' ↔ ApartOk A b := by
  by_cases hb : b.length = -1
  · cases h with
    | front pre a post hpre hb' ha => exact absurd hb hb'
    | absorbed pre a n post hpre ht hb' hn => exact absurd hb hb'
    | grown pre a post hpre ht hpost =>
      obtain ⟨-, h2, -⟩ := separated_append.1 hA
      obtain ⟨hao, han, hap, -⟩ := separated_cons.1 h2
      have hlen := mergeGrow_length hao han hbo hbn
      rw [if_pos (.inl hb)] at hlen
      rw [apartOk_append hA hpre]
      cases post with
      | nil =>
        refine iff_of_true (separated_cons.2 ⟨?_, .inl hlen, by simp, Separated.nil⟩) fun _ p hp q hq hpq => ?_
        · rw [mergeGrow_offset]; omega
        · simp only [mem_singleton] at hp hq
          subst hp hq; omega
      | cons q post =>
        refine iff_of_false (fun hsep => ?_) fun hap' => ?_
        · exact ((separated_cons.1 hsep).2.2.1 q (by simp)).1 hlen
        · have h3 := hap' hb a (by simp) q (by simp) (h2.offset_lt (by simp))
          have h4 := (hap q (by simp)).1
          grind
  · exact iff_of_true (h.separated hA hbo hbn hb) fun h0 => absurd h0 hb

theorem mergeApart_cons (hA : Separated A) (hB : Separated (b :: B))
    (hx : RoundExact b A pre A' B) : MergeApart A (b :: B) ↔ ApartOk A b ∧ MergeApart A' B := by
  constructor
  · intro hm
    exact ⟨hm b (by simp), fun b' hb' => (h.same hA hB hx hb').2.2.1 (hm b' (mem_cons_of_mem _ hb'))⟩
  · rintro ⟨hb, hm⟩ b' hb'
    rcases mem_cons.1 hb' with rfl | hb''
    · exact hb
    · exact (h.same hA hB hx hb'').2.2.2 (hm b' hb'')

theorem endsBefore : ∀ e ∈ pre, e.EndsBefore b.offset := by
  cases h <;> assumption

/-- The next round starts at an entry that begins where `b` or an entry begins, and no later than `b`; the others were
there before. -/
theorem shape : ∃ L g post, A = pre ++ L ∧ A' = g :: post ∧ post ⊆ L ∧
    g.offset ≤ b.offset ∧ (g.offset = b.offset ∨ ∃ a ∈ L, g.offset = a.offset) := by
  cases h with
  | front pre a post => exact ⟨_, b, _, rfl, rfl, List.Subset.refl _, le_refl _, .inl rfl⟩
  | grown pre a post =>
    refine ⟨_, mergeGrow a b, post, rfl, rfl, by simp, ?_⟩
    simp only [mergeGrow_offset, mem_cons, exists_eq_or_imp]
    omega
  | absorbed pre a n post =>
    refine ⟨_, absorbNext (mergeGrow a b) n, post, rfl, rfl, fun e he => by simp [he], ?_⟩
    simp only [absorbNext, mergeGrow_offset, mem_cons, exists_eq_or_imp]
    omega

theorem passed_apart (hA : Separated A) {p e : RangeEnt} (hp : p ∈ pre)
    (he : e ∈ A') : p.Apart e := by
  have hends := h.endsBefore p hp
  obtain ⟨L, g, post, rfl, rfl, hsub, -, hg⟩ := h.shape
  have hapart := (separated_append.1 hA).2.2 p hp
  rcases mem_cons.1 he with rfl | he
  · rcases hg with hg | ⟨a, ha, hg⟩
    · exact ⟨hends.1, hg ▸ hends.2⟩
    · exact ⟨hends.1, hg ▸ (hapart a ha).2⟩
  · exact hapart e (hsub he)

theorem bounded (hA : Separated A) (hbo : 0 ≤ b.offset)
    (hbn : b.length = -1 ∨ 0 < b.length) (hb : b.length ≠ -1) (hbA : Bounded A) : Bounded A' := by
  have hmax := rangeListMax_eq
  intro e he
  cases h with
  | front pre a post hpre _ ha =>
    rcases mem_cons.1 he with rfl | he'
    exacts [hb, hbA e (mem_append_right _ he')]
  | grown pre a post hpre ht hpost =>
    rcases mem_cons.1 he with rfl | he'
    · have hane := hbA a (by simp)
      have hav := hA.length_valid a (by simp)
      have hl := mergeGrow_length (hA.offset_nonneg a (by simp)) hav hbo hbn
      rw [hl]; split_ifs <;> omega
    · exact hbA e (by simp [he'])
  | absorbed pre a n post hpre ht _ hn =>
    rcases mem_cons.1 he with rfl | he'
    · have hnne := hbA n (by simp)
      have hnv := hA.length_valid n (by simp)
      have hlt := (separated_append.1 hA).2.1.offset_lt (b := n) (by simp)
      simp only [absorbNext, mergeGrow_offset, rangeListMax_eq]
      rw [if_neg hnne]; omega
    · exact hbA e (by simp [he'])

end Round

end Round

/-! ## The whole merge -/

/-- What the merge of `B` into `A` leaves in `R`, with `d` the change of the size. -/
structure Merged (A B R : List RangeEnt) (d : Int) : Prop where
  length_eq : (R.length : Int) = A.length + d
  sub : ∀ x ∈ cover bytes R, x ∈ cover bytes A ∨ x ∈ cover bytes B
  covers_iff : (∀ x, x ∈ cover bytes A ∨ x ∈ cover bytes B → x ∈ cover bytes R) ↔
    MergeCovers A B
  separated_iff : MergeCovers A B → (Separated R ↔ Separated A ∧ MergeApart A B)
  offset_ge : ∀ o, (∀ e ∈ A, o ≤ e.offset) → (∀ e ∈ B, o ≤ e.offset) → ∀ e ∈ R, o ≤ e.offset
  bounded : Separated A → Bounded A → Bounded B → Separated R ∧ Bounded R

theorem merged_nil (A : List RangeEnt) : Merged A [] A 0 := by
  refine ⟨by simp, fun x hx => .inl hx, ?_, fun _ => by simp [MergeApart], fun o h _ => h,
    fun hs hb _ => ⟨hs, hb⟩⟩
  exact iff_of_true (fun x hx => by simpa using hx) (by simp [MergeCovers])

theorem merged_append {A B : List RangeEnt} {b : RangeEnt} (hA : Separated A) (hB : Separated (b :: B))
    (h : ∀ e ∈ A, e.EndsBefore b.offset) : Merged A (b :: B) (A ++ b :: B) (b :: B).length := by
  have hle : ∀ b' ∈ b :: B, b.offset ≤ b'.offset := forall_mem_cons.2 ⟨le_refl _, fun b' hb' => (hB.offset_lt hb').le⟩
  have hends : ∀ b' ∈ b :: B, ∀ p ∈ A, p.offset + p.length < b'.offset ∧ p.offset < b'.offset := by
    intro b' hb' p hp
    have h1 := hle b' hb'
    have h2 := h p hp
    have h3 := hA.length_valid p hp
    grind
  have hcov : MergeCovers A (b :: B) := by
    intro b' hb'
    refine ⟨fun p hp q _ _ hbp _ => ?_, fun q hq _ hbq _ _ _ _ => ?_⟩
    · have := (hends b' hb' p hp).1; omega
    · have := (hends b' hb' q hq).2; omega
  have hsep : Separated (A ++ b :: B) :=
    separated_append.2 ⟨hA, hB, fun p hp b' hb' => ⟨(h p hp).1, (hends b' hb' p hp).1⟩⟩
  refine ⟨by simp, fun x hx => (mem_cover_append _).1 hx, ?_, fun _ => ?_, fun o h1 h2 e he => ?_,
    fun _ hbA hbB => ⟨hsep, fun e he => ?_⟩⟩
  · exact iff_of_true (fun x hx => (mem_cover_append _).2 hx) hcov
  · exact iff_of_true hsep ⟨hA, fun b' hb' _ p hp q _ _ => (hends b' hb' p hp).1⟩
  · exact (mem_append.1 he).elim (h1 e) (h2 e)
  · exact (mem_append.1 he).elim (hbA e) (hbB e)

section RoundMerged

variable {b : RangeEnt} {A pre A' B R : List RangeEnt} {d d' : Int}

variable (h : Round b A pre A' d)
include h

theorem Round.passed_apart_rest (hB : Separated (b :: B)) :
    ∀ p ∈ pre, ∀ e ∈ B, p.Apart e := by
  intro p hp e he
  have h1 := h.endsBefore p hp
  have h2 := hB.offset_lt he
  grind

theorem Round.passed_disjoint (hA : Separated A) (hB : Separated (b :: B)) {x : Int}
    (hx : x ∈ cover bytes pre) : ¬ (x ∈ cover bytes A' ∨ x ∈ cover bytes B) := by
  obtain ⟨p, hp, hxp⟩ := hx
  have hxl : x ≤ p.offset + p.length := by
    have := (h.endsBefore p hp).1
    rw [mem_bytes] at hxp
    omega
  rintro (hx | hx)
  · exact not_mem_cover_of_apart (fun e he => h.passed_apart hA hp he) hxl hx
  · exact not_mem_cover_of_apart (h.passed_apart_rest hB p hp) hxl hx

theorem Round.offset_ge {o : Int} (hA : ∀ e ∈ A, o ≤ e.offset) (hb : o ≤ b.offset) :
    ∀ e ∈ A', o ≤ e.offset := by
  obtain ⟨L, g, post, rfl, rfl, hsub, -, hg⟩ := h.shape
  have hL := fun e he => hA e (mem_append_right pre he)
  refine forall_mem_cons.2 ⟨?_, fun e he => hL e (hsub he)⟩
  rcases hg with hg | ⟨a, ha, hg⟩
  · rwa [hg]
  · rw [hg]
    exact hL a ha

theorem Round.append_separated (hA : Separated A) (hB : Separated (b :: B))
    (hm : Merged A' B R d') (hR : Separated R) : Separated (pre ++ R) := by
  have hpre : Separated pre := by cases h <;> exact (separated_append.1 hA).1
  refine separated_append.2 ⟨hpre, hR, fun p hp e he => ⟨(h.endsBefore p hp).1, ?_⟩⟩
  have := hm.offset_ge (p.offset + p.length + 1) (fun a ha => (h.passed_apart hA hp ha).2)
    (fun a ha => (h.passed_apart_rest hB p hp a ha).2) e he
  omega

/-- The whole merge covers all bytes if and only if the round does and the rest does. -/
theorem Round.covers_iff (hA : Separated A) (hB : Separated (b :: B))
    (hm : Merged A' B R d') :
    (∀ x, x ∈ cover bytes A ∨ x ∈ cover bytes (b :: B) → x ∈ cover bytes (pre ++ R)) ↔
      RoundExact b A pre A' B ∧
        ∀ x, x ∈ cover bytes A' ∨ x ∈ cover bytes B → x ∈ cover bytes R := by
  obtain ⟨hbo, hbn, -, -⟩ := separated_cons.1 hB
  simp only [mem_cover_append, mem_cover_cons]
  constructor
  · intro hall
    refine ⟨fun x hx => ?_, fun x hx => ?_⟩
    · exact (hall x (hx.imp_right .inl)).imp_right (hm.sub x)
    · have hx' : x ∈ cover bytes A ∨ x ∈ b.bytes ∨ x ∈ cover bytes B := by
        rcases hx with hx | hx
        · exact (h.covers_sub hA hbo hbn x (.inr hx)).imp_right .inl
        · exact .inr (.inr hx)
      exact (hall x hx').resolve_left fun hp => h.passed_disjoint hA hB hp hx
  · rintro ⟨hx1, hx2⟩ x hx
    have hx' : x ∈ cover bytes pre ∨ x ∈ cover bytes A' ∨ x ∈ cover bytes B := by
      rcases hx with hx | hx | hx
      exacts [hx1 x (.inl hx), hx1 x (.inr hx), .inr (.inr hx)]
    exact hx'.imp_right (hx2 x)

theorem Round.merged (hA : Separated A) (hB : Separated (b :: B))
    (hm : Merged A' B R d') : Merged A (b :: B) (pre ++ R) (d + d') := by
  obtain ⟨hbo, hbn, -, -⟩ := separated_cons.1 hB
  refine ⟨?_, fun x hx => ?_, ?_, fun hc => ?_, fun o h1 h2 e he => ?_, fun _ hbA hbB => ?_⟩
  · have := h.length_eq; have := hm.length_eq
    rw [length_append]; push_cast; omega
  · rw [mem_cover_cons]
    rcases (mem_cover_append _).1 hx with hx | hx
    · exact (h.covers_sub hA hbo hbn x (.inl hx)).imp_right .inl
    · rcases hm.sub x hx with hx | hx
      · exact (h.covers_sub hA hbo hbn x (.inr hx)).imp_right .inl
      · exact .inr (.inr hx)
  · rw [h.mergeCovers_cons hA hB, ← hm.covers_iff]
    exact h.covers_iff hA hB hm
  · obtain ⟨hx, hc'⟩ := (h.mergeCovers_cons hA hB).1 hc
    rw [h.mergeApart_cons hA hB hx, ← h.separated_iff hA hbo hbn, ← hm.separated_iff hc']
    exact ⟨fun hs => ⟨hA, (separated_append.1 hs).2.1⟩, fun hs => h.append_separated hA hB hm hs.2⟩
  · rcases mem_append.1 he with he | he
    · exact h1 e (by cases h <;> simp [he])
    · exact hm.offset_ge o (h.offset_ge h1 (h2 b (by simp))) (forall_mem_cons.1 h2).2 e he
  · have hb := hbB b (by simp)
    obtain ⟨hs, hbR⟩ := hm.bounded (h.separated hA hbo hbn hb) (h.bounded hA hbo hbn hb hbA)
      fun e he => hbB e (by simp [he])
    refine ⟨h.append_separated hA hB hm hs, fun e he => ?_⟩
    rcases mem_append.1 he with he | he
    exacts [(h.endsBefore e he).1, hbR e he]

end RoundMerged

theorem mergeOuter_merged :
    ∀ (B A : List RangeEnt), (B ≠ [] → Separated A) → Separated B →
      (∃ c, A.head? = some c ∧ ∀ b ∈ B, c.offset ≤ b.offset) →
      ∃ R d, mergeOuter B.length A B = some (R, d) ∧ Merged A B R d
  | [], A, _, _, _ => ⟨A, 0, rfl, merged_nil A⟩
  | b :: B, A, hA, hB, ⟨c, hc, hcb⟩ => by
    have hA := hA (by simp)
    obtain ⟨hbo, hbn, hbB, hB'⟩ := separated_cons.1 hB
    rcases mergeInner_round hbo hbn A false hA (.inr ⟨c, hc, hcb b (by simp)⟩) with
      ⟨pre, A', d, hin, hr⟩ | ⟨hin, hends⟩
    · obtain ⟨L, g, post, -, hA', -, hle, -⟩ := hr.shape
      have hsep : B ≠ [] → Separated A' := fun hne => by
        obtain ⟨q, hq⟩ := exists_mem_of_ne_nil _ hne
        exact hr.separated hA hbo hbn (hbB q hq).1
      obtain ⟨R, d', hR, hm⟩ := mergeOuter_merged B A' hsep hB'
        ⟨g, by rw [hA']; rfl, fun q hq => hle.trans (hB.offset_lt hq).le⟩
      refine ⟨pre ++ R, d + d', ?_, hr.merged hA hB hm⟩
      have hlen : ((b :: B).length : Int) - 1 = B.length := by simp
      simp only [mergeOuter, hin, if_true, hlen, hR, Option.map_some]
    · refine ⟨A ++ b :: B, (b :: B).length, ?_, merged_append hA hB hends⟩
      have hne : A ≠ [] := by rintro rfl; simp at hc
      simp [mergeOuter, hin, hne]

/-- The entries that take in and the entries that are taken in: the list that begins first takes in
the other, and a list takes in an empty one. -/
def mergeRoles (l₁ l₂ : List RangeEnt) : List RangeEnt × List RangeEnt :=
  match l₁, l₂ with
  | [], _ => (l₂, [])
  | _ :: _, [] => (l₁, [])
  | e₁ :: _, e₂ :: _ => if e₁.offset ≤ e₂.offset then (l₁, l₂) else (l₂, l₁)

theorem mergeRoles_cases (l₁ l₂ : List RangeEnt) : mergeRoles l₁ l₂ = (l₁, l₂) ∨ mergeRoles l₁ l₂ = (l₂, l₁) := by
  unfold mergeRoles
  split
  · exact .inr rfl
  · exact .inl rfl
  · split_ifs
    exacts [.inl rfl, .inr rfl]

theorem mergeRoles_covers (l₁ l₂ : List RangeEnt) :
    cover bytes (mergeRoles l₁ l₂).1 ∪ cover bytes (mergeRoles l₁ l₂).2 =
      cover bytes l₁ ∪ cover bytes l₂ := by
  rcases mergeRoles_cases l₁ l₂ with h | h <;> rw [h]
  exact Set.union_comm _ _

theorem mergeRoles_separated {l₁ l₂ : List RangeEnt} (h₁ : Separated l₁) (h₂ : Separated l₂) :
    Separated (mergeRoles l₁ l₂).1 := by
  rcases mergeRoles_cases l₁ l₂ with h | h <;> rw [h]
  exacts [h₁, h₂]

theorem mergeRoles_bounded {l₁ l₂ : List RangeEnt} (h₁ : Bounded l₁) (h₂ : Bounded l₂) :
    Bounded (mergeRoles l₁ l₂).1 ∧ Bounded (mergeRoles l₁ l₂).2 := by
  rcases mergeRoles_cases l₁ l₂ with h | h <;> rw [h]
  exacts [⟨h₁, h₂⟩, ⟨h₂, h₁⟩]

variable {rl1 rl2 : RangeList}

theorem mergeInto_merged (h1 : rl1.WellFormed) (h2 : rl2.WellFormed)
    (hhead : ∃ c, rl1.head.head? = some c ∧ ∀ b ∈ rl2.head, c.offset ≤ b.offset) :
    ∃ dest d, mergeInto rl1 rl2 = some dest ∧ dest.size = dest.head.length ∧
      Merged rl1.head rl2.head dest.head d := by
  obtain ⟨R, d, hR, hm⟩ := mergeOuter_merged rl2.head rl1.head (fun _ => h1.separated) h2.separated hhead
  refine ⟨⟨rl1.size + d, R⟩, d, ?_, ?_, hm⟩
  · rw [mergeInto, h2.size_eq, hR]; rfl
  · simp only [h1.size_eq]; exact hm.length_eq.symm

theorem rangeListMergeDestructive_merged (h1 : rl1.WellFormed) (h2 : rl2.WellFormed) :
    ∃ dest d, rangeListMergeDestructive (some rl1) (some rl2) =
        some ⟨globusSuccess, some dest, some ⟨0, []⟩, some ⟨0, []⟩⟩ ∧
      dest.size = dest.head.length ∧
      Merged (mergeRoles rl1.head rl2.head).1 (mergeRoles rl1.head rl2.head).2 dest.head d := by
  have hfirst : ∀ {e c : RangeEnt} {l : List RangeEnt}, Separated (e :: l) → c.offset ≤ e.offset →
      ∀ b ∈ e :: l, c.offset ≤ b.offset := by
    intro e c l hl hce
    exact forall_mem_cons.2 ⟨hce, fun b hb => hce.trans (hl.offset_lt hb).le⟩
  obtain ⟨n1, l1⟩ := rl1
  obtain ⟨n2, l2⟩ := rl2
  cases l1 with
  | nil => exact ⟨⟨n2, l2⟩, 0, rfl, h2.size_eq, merged_nil _⟩
  | cons e1 l1 =>
    cases l2 with
    | nil => exact ⟨⟨n1, e1 :: l1⟩, 0, rfl, h1.size_eq, merged_nil _⟩
    | cons e2 l2 =>
      simp only [rangeListMergeDestructive, mergeRoles]
      by_cases hle : e1.offset ≤ e2.offset
      · obtain ⟨dest, d, hd, hsz, hm⟩ := mergeInto_merged h1 h2 ⟨e1, rfl, hfirst h2.separated hle⟩
        exact ⟨dest, d, by rw [if_pos hle, hd]; rfl, hsz, by rw [if_pos hle]; exact hm⟩
      · obtain ⟨dest, d, hd, hsz, hm⟩ := mergeInto_merged h2 h1 ⟨e2, rfl, hfirst h1.separated (by omega)⟩
        exact ⟨dest, d, by rw [if_neg hle, hd]; rfl, hsz, by rw [if_neg hle]; exact hm⟩

theorem rangeListCopy_some (rl : RangeList) : rangeListCopy (some rl) = (globusSuccess, some rl) := by
  simp [rangeListCopy]

theorem rangeListMerge_of_destructive {rl1 rl2 dest : RangeList}
    (h : rangeListMergeDestructive (some rl1) (some rl2) =
      some ⟨globusSuccess, some dest, some ⟨0, []⟩, some ⟨0, []⟩⟩) :
    rangeListMerge (some rl1) (some rl2) = some ⟨globusSuccess, some dest, some rl1, some rl2⟩ := by
  simp [rangeListMerge, rangeListCopy_some, h]

/-- Merging two well-formed lists of ranges with an end gives a list of the same kind, exact or not. -/
theorem rangeListMerge_bounded (h1 : rl1.WellFormed) (h2 : rl2.WellFormed)
    (hb1 : Bounded rl1.head) (hb2 : Bounded rl2.head) :
    ∃ dest, rangeListMerge (some rl1) (some rl2) = some ⟨globusSuccess, some dest, some rl1, some rl2⟩ ∧
      dest.WellFormed ∧ Bounded dest.head := by
  obtain ⟨dest, d, hd, hsz, hm⟩ := rangeListMergeDestructive_merged h1 h2
  obtain ⟨hA, hB⟩ := mergeRoles_bounded hb1 hb2
  obtain ⟨hs, hb⟩ := hm.bounded (mergeRoles_separated h1.separated h2.separated) hA hB
  exact ⟨dest, rangeListMerge_of_destructive hd, ⟨hs, hsz⟩, hb⟩

/-- Both merges of `rl1` and `rl2` succeed with the same well-formed list, which covers exactly the
bytes of both; the destructive one empties the sources, the other leaves them alone; and with the
sources exchanged the same bytes are covered. -/
def MergesExactly (rl1 rl2 : RangeList) : Prop :=
  ∃ dest, rangeListMergeDestructive (some rl1) (some rl2) =
      some ⟨globusSuccess, some dest, some ⟨0, []⟩, some ⟨0, []⟩⟩ ∧
    rangeListMerge (some rl1) (some rl2) = some ⟨globusSuccess, some dest, some rl1, some rl2⟩ ∧
    dest.covered = rl1.covered ∪ rl2.covered ∧ dest.WellFormed ∧
    ∃ dest', rangeListMerge (some rl2) (some rl1) = some ⟨globusSuccess, some dest', some rl2, some rl1⟩ ∧
      dest'.covered = dest.covered

/-- No entry loses bytes, whichever source comes first, and an entry without end takes in nothing
but the last entry. -/
def MergeSafe (rl1 rl2 : RangeList) : Prop :=
  MergeCovers (mergeRoles rl1.head rl2.head).1 (mergeRoles rl1.head rl2.head).2 ∧
    MergeApart (mergeRoles rl1.head rl2.head).1 (mergeRoles rl1.head rl2.head).2 ∧
    MergeCovers (mergeRoles rl2.head rl1.head).1 (mergeRoles rl2.head rl1.head).2

theorem Merged.covered_iff {l₁ l₂ R : List RangeEnt} {d : Int}
    (h : Merged (mergeRoles l₁ l₂).1 (mergeRoles l₁ l₂).2 R d) :
    cover bytes R = cover bytes l₁ ∪ cover bytes l₂ ↔
      MergeCovers (mergeRoles l₁ l₂).1 (mergeRoles l₁ l₂).2 := by
  rw [← h.covers_iff, ← mergeRoles_covers]
  constructor
  · intro heq x hx; rw [heq]; exact hx
  · intro hall; ext x; exact ⟨h.sub x, hall x⟩

/-- Merging two well-formed lists is exact if and only if no entry is merged in a way that loses
bytes or leaves entries behind one without end. -/
theorem rangeListMerge_union_iff (rl1 rl2 : RangeList) (h1 : rl1.WellFormed) (h2 : rl2.WellFormed) :
    MergesExactly rl1 rl2 ↔ MergeSafe rl1 rl2 := by
  obtain ⟨dest, d, hd, hsz, hm⟩ := rangeListMergeDestructive_merged h1 h2
  obtain ⟨dest', d', hd', -, hm'⟩ := rangeListMergeDestructive_merged h2 h1
  have hsep := mergeRoles_separated h1.separated h2.separated
  constructor
  · rintro ⟨r, hr, -, hcov, hwf, r', hr', hcov'⟩
    rw [hd] at hr
    rw [rangeListMerge_of_destructive hd'] at hr'
    cases hr; cases hr'
    have hc := hm.covered_iff.1 hcov
    refine ⟨hc, ((hm.separated_iff hc).1 hwf.separated).2, hm'.covered_iff.1 ?_⟩
    rw [Set.union_comm]; exact hcov'.trans hcov
  · rintro ⟨hc, ha, hc'⟩
    have hcov := hm.covered_iff.2 hc
    have hcov' := hm'.covered_iff.2 hc'
    refine ⟨dest, hd, rangeListMerge_of_destructive hd, hcov, ⟨(hm.separated_iff hc).2 ⟨hsep, ha⟩, hsz⟩,
      dest', rangeListMerge_of_destructive hd', ?_⟩
    rw [Set.union_comm] at hcov'; exact hcov'.trans hcov.symm

/-- A range that fills the gap between two others. -/
theorem rangeListMerge_union_fill : MergesExactly ⟨2, [⟨0, 5⟩, ⟨10, 5⟩]⟩ ⟨1, [⟨3, 8⟩]⟩ := by
  refine (rangeListMerge_union_iff ⟨2, [⟨0, 5⟩, ⟨10, 5⟩]⟩ ⟨1, [⟨3, 8⟩]⟩ ?_ ?_).2 ?_
  · exact ⟨by simp [separated_cons, Separated.nil], rfl⟩
  · exact ⟨by simp [separated_cons, Separated.nil], rfl⟩
  · simp [MergeSafe, mergeRoles, MergeCovers, MergeApart, OverOk, LowOk, ApartOk]

/-- Merging `[5, 12)` into `[0, 1)` and `[10, 20)` gives `[5, 15)` for the second: byte 17 is lost. -/
theorem rangeListMerge_lowered_loses :
    (⟨2, [⟨0, 1⟩, ⟨10, 10⟩]⟩ : RangeList).WellFormed ∧ (⟨1, [⟨5, 7⟩]⟩ : RangeList).WellFormed ∧
      ¬ MergesExactly ⟨2, [⟨0, 1⟩, ⟨10, 10⟩]⟩ ⟨1, [⟨5, 7⟩]⟩ := by
  refine ⟨⟨by simp [separated_cons, Separated.nil], rfl⟩,
    ⟨by simp [separated_cons, Separated.nil], rfl⟩, ?_⟩
  rintro ⟨dest, -, hmerge, hcov, -⟩
  have hres : rangeListMerge (some ⟨2, [⟨0, 1⟩, ⟨10, 10⟩]⟩) (some ⟨1, [⟨5, 7⟩]⟩) =
      some ⟨0, some ⟨2, [⟨0, 1⟩, ⟨5, 10⟩]⟩, some ⟨2, [⟨0, 1⟩, ⟨10, 10⟩]⟩, some ⟨1, [⟨5, 7⟩]⟩⟩ := by decide
  rw [hres] at hmerge
  cases hmerge
  have h17 : (17 : Int) ∈ (⟨2, [⟨0, 1⟩, ⟨5, 10⟩]⟩ : RangeList).covered := by
    rw [hcov]; left; simp [RangeList.covered, mem_bytes]
  simp [RangeList.covered, mem_bytes] at h17

end Globus
