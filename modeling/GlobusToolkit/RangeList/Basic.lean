/-
Byte range lists (common/source/library/globus_range_list.c). A `globus_l_range_list_t` is a size
counter and a linked list of `(offset, length)` entries; the model keeps the entries reachable from
`head` as a list and the counter as its own field, so that the two can disagree where the code lets
them. `globus_off_t` and `int` values are integers: signed overflow is undefined in the source, and
no operation computes a value past the end of a range it was given. Allocation succeeds (the source
asserts it).
-/
import GlobusToolkit.Lib.Cover
import Mathlib.Tactic

namespace Globus

/-! ## The data -/

/-- `GLOBUS_RANGE_LIST_MAX`: the length of an entry without an end. -/
abbrev rangeListMax : Int := -1

@[simp] theorem rangeListMax_eq : rangeListMax = -1 := rfl

/-- `GLOBUS_SUCCESS`. -/
def globusSuccess : Int := 0

/-- `GLOBUS_RANGE_LIST_ERROR_PARAMETER`. -/
def rangeListErrorParameter : Int := -1

/-- `globus_l_range_ent_t`, without the link. -/
structure RangeEnt where
  offset : Int
  length : Int
deriving DecidableEq, Repr

/-- `globus_l_range_list_t`: the counter and the entries reachable from `head`. -/
structure RangeList where
  size : Int
  head : List RangeEnt
deriving DecidableEq, Repr

/-- The end offset the source keeps beside a range: `GLOBUS_RANGE_LIST_MAX` when it has no end. -/
def rangeEnd (offset length : Int) : Int :=
  if length = rangeListMax then rangeListMax else offset + length

/-- `globus_range_list_init`. -/
def rangeListInit : RangeList := ⟨0, []⟩

/-! ## Insert -/

/-- `ent` after it has taken in the new range, which touches it. -/
def insertGrow (offset endOffset : Int) (ent : RangeEnt) : RangeEnt :=
  let entEnd := rangeEnd ent.offset ent.length
  let ent₁ : RangeEnt :=
    if offset < ent.offset then
      ⟨offset, if ent.length ≠ rangeListMax then ent.length + (ent.offset - offset) else ent.length⟩
    else ent
  if endOffset = rangeListMax ∨ entEnd = rangeListMax then { ent₁ with length := rangeListMax }
  else if endOffset > entEnd then { ent₁ with length := endOffset - ent₁.offset }
  else ent₁

/-- `ent` after it has taken in its successor: it ends where `next` ends. -/
def absorbNext (ent next : RangeEnt) : RangeEnt :=
  { ent with
    length := if next.length = rangeListMax then rangeListMax
      else next.offset + next.length - ent.offset }

/-- The end of a merging branch (of insert and of merge): `ent` has taken in the range that ends at
`endOffset`, and takes in its successor when that range reaches it. The second component is the
change of the size counter. -/
def absorbReached (endOffset : Int) (ent : RangeEnt) : List RangeEnt → List RangeEnt × Int
  | [] => ([ent], 0)
  | next :: rest =>
    if endOffset ≥ next.offset then (absorbNext ent next :: rest, -1) else (ent :: next :: rest, 0)

/-- The loop of `globus_range_list_insert` over the entries from `ent` on: the new entries and the
change of the size counter. -/
def insertLoop (offset length endOffset : Int) : List RangeEnt → List RangeEnt × Int
  -- ran past the last entry without merging: the new entry goes behind it
  | [] => ([⟨offset, length⟩], 1)
  | ent :: rest =>
    let entEnd := rangeEnd ent.offset ent.length
    if endOffset < ent.offset ∧ endOffset ≠ rangeListMax then
      (⟨offset, length⟩ :: ent :: rest, 1)
    else if (endOffset ≥ ent.offset ∨ endOffset = rangeListMax) ∧
        (offset ≤ entEnd ∨ entEnd = rangeListMax) then
      absorbReached endOffset (insertGrow offset endOffset ent) rest
    else
      let r := insertLoop offset length endOffset rest
      (ent :: r.1, r.2)

/-- `globus_range_list_insert`: the return code and the list afterwards. -/
def rangeListInsert (rl : RangeList) (offset length : Int) : Int × RangeList :=
  if offset < 0 then (rangeListErrorParameter, rl)
  else if length = 0 then (globusSuccess, rl)
  else
    match rl.head with
    | [] => (globusSuccess, ⟨1, [⟨offset, length⟩]⟩)
    | ent :: rest =>
      let r := insertLoop offset length (rangeEnd offset length) (ent :: rest)
      (globusSuccess, ⟨rl.size + r.2, r.1⟩)

/-! ## Remove -/

/-- The loop of `globus_range_list_remove` over the entries from `ent` on: the entries afterwards
and the change of the size counter. -/
def removeLoop (offset endOffset : Int) : List RangeEnt → List RangeEnt × Int
  | [] => ([], 0)
  | ent :: next =>
    let entEnd := rangeEnd ent.offset ent.length
    -- this range is all foul, remove it
    if ent.offset ≥ offset ∧
        ((entEnd ≤ endOffset ∧ entEnd ≠ rangeListMax) ∨ endOffset = rangeListMax) then
      let r := removeLoop offset endOffset next
      (r.1, r.2 - 1)
    -- this range starts fair and extends foul, adjust length
    else if ent.offset < offset ∧
        ((entEnd < endOffset ∧ entEnd ≠ rangeListMax) ∨ endOffset = rangeListMax) ∧
        (entEnd > offset ∨ entEnd = rangeListMax) then
      let r := removeLoop offset endOffset next
      ({ ent with length := offset - ent.offset } :: r.1, r.2)
    -- this range starts foul and extends fair, adjust offset
    else if ent.offset ≥ offset ∧ ent.offset < endOffset ∧
        ((entEnd > endOffset ∧ endOffset ≠ rangeListMax) ∨ entEnd = rangeListMax) then
      ({ ent with offset := endOffset } :: next, 0)
    -- this range starts fair and ends fair, but crosses foul: `new_ent->next` is `NULL`
    else if ent.offset < offset ∧
        ((entEnd > endOffset ∧ endOffset ≠ rangeListMax) ∨ entEnd = rangeListMax) then
      ([{ ent with length := offset - ent.offset },
        ⟨endOffset, if entEnd = rangeListMax then rangeListMax else entEnd - endOffset⟩], 1)
    -- this range is all fair
    else if ent.offset > endOffset ∧ endOffset ≠ rangeListMax then (ent :: next, 0)
    else
      let r := removeLoop offset endOffset next
      (ent :: r.1, r.2)

/-- `globus_range_list_remove`. -/
def rangeListRemove (rl : RangeList) (offset length : Int) : Int × RangeList :=
  if offset < 0 then (rangeListErrorParameter, rl)
  else if length = 0 then (globusSuccess, rl)
  else
    let r := removeLoop offset (rangeEnd offset length) rl.head
    (globusSuccess, ⟨rl.size + r.2, r.1⟩)

/-! ## Merge -/

/-- The merging branch of `globus_range_list_merge_destructive`: `curr1` after it has taken in
`curr2`, which touches it. -/
def mergeGrow (curr1 curr2 : RangeEnt) : RangeEnt :=
  let curr1End := rangeEnd curr1.offset curr1.length
  let curr2End := rangeEnd curr2.offset curr2.length
  let offset := if curr2.offset < curr1.offset then curr2.offset else curr1.offset
  ⟨offset,
    if curr2End = rangeListMax ∨ curr1End = rangeListMax then rangeListMax
    else if curr2End > curr1End then curr2End - offset
    else curr1.length⟩

/-- How the inner loop of the merge ends: the entries passed over (the last one is `prev`), the
entries the next round starts from (`ent1`), the change of `size_inc`, and `done`. -/
structure MergeRound where
  passed : List RangeEnt
  ent1 : List RangeEnt
  sizeInc : Int
  done : Bool

/-- The inner loop of the merge: `curr2` against the entries from `ent1` on. `prev` says whether an
entry has been passed in this round; without one, putting `curr2` in front writes through a null
pointer (`none`). -/
def mergeInner (curr2 : RangeEnt) : Bool → List RangeEnt → Option MergeRound
  | _, [] => some ⟨[], [], 0, false⟩
  | prev, curr1 :: next =>
    let curr1End := rangeEnd curr1.offset curr1.length
    let curr2End := rangeEnd curr2.offset curr2.length
    if curr2End < curr1.offset ∧ curr2End ≠ rangeListMax then
      if prev then some ⟨[], curr2 :: curr1 :: next, 1, true⟩ else none
    else if (curr2End ≥ curr1.offset ∨ curr2End = rangeListMax) ∧
        (curr2.offset ≤ curr1End ∨ curr1End = rangeListMax) then
      let r := absorbReached curr2End (mergeGrow curr1 curr2) next
      some ⟨[], r.1, r.2, true⟩
    else (mergeInner curr2 true next).map fun r => { r with passed := curr1 :: r.passed }

/-- The outer loop of the merge, over the entries of `ent2`: the entries from `ent1` on and the
total of `size_inc`. -/
def mergeOuter : Int → List RangeEnt → List RangeEnt → Option (List RangeEnt × Int)
  | _, ent1, [] => some (ent1, 0)
  | ent2Size, ent1, curr2 :: ent2 =>
    match mergeInner curr2 false ent1 with
    | none => none
    | some r =>
      if r.done then
        (mergeOuter (ent2Size - 1) r.ent1 ent2).map fun m => (r.passed ++ m.1, r.sizeInc + m.2)
      -- must be last entry: `prev->next` takes the rest of `ent2`
      else if r.passed = [] then none
      else some (r.passed ++ curr2 :: ent2, ent2Size)

/-- What a merge returns: the code, the destination if there is one, and the sources afterwards. -/
structure MergeResult where
  rc : Int
  dest : Option RangeList
  src1 : Option RangeList
  src2 : Option RangeList
deriving DecidableEq

/-- The two lists as the merge uses them: the one that begins first takes in the other. -/
def mergeInto (rl1 rl2 : RangeList) : Option RangeList :=
  (mergeOuter rl2.size rl1.head rl2.head).map fun m => ⟨rl1.size + m.2, m.1⟩

/-- `globus_range_list_merge_destructive` on two different lists; `none` is a null dereference. -/
def rangeListMergeDestructive (src1 src2 : Option RangeList) : Option MergeResult :=
  match src1, src2 with
  | some rl1, some rl2 =>
    let dest := match rl1.head, rl2.head with
      | [], _ => some rl2
      | _ :: _, [] => some rl1
      | ent1 :: _, ent2 :: _ => if ent1.offset ≤ ent2.offset then mergeInto rl1 rl2 else mergeInto rl2 rl1
    dest.map fun d => ⟨globusSuccess, some d, some ⟨0, []⟩, some ⟨0, []⟩⟩
  | _, _ => some ⟨-1, none, src1, src2⟩

/-- `globus_range_list_copy`: the code and the copy. -/
def rangeListCopy : Option RangeList → Int × Option RangeList
  | none => (-1, none)
  | some src => (globusSuccess, some ⟨src.size, src.head.map fun e => ⟨e.offset, e.length⟩⟩)

/-- `globus_range_list_merge`: a destructive merge of two copies. -/
def rangeListMerge (src1 src2 : Option RangeList) : Option MergeResult :=
  let copy1 := rangeListCopy src1
  let copy2 := rangeListCopy src2
  if copy1.1 ≠ globusSuccess ∨ copy2.1 ≠ globusSuccess then some ⟨-1, none, src1, src2⟩
  else (rangeListMergeDestructive copy1.2 copy2.2).map fun r =>
    if r.rc ≠ globusSuccess then ⟨-1, none, src1, src2⟩ else ⟨globusSuccess, r.dest, src1, src2⟩

/-! ## Size and positions -/

/-- `globus_range_list_size`; `none` is a null list. -/
def rangeListSize : Option RangeList → Int
  | none => 0
  | some rl => rl.size

/-- `globus_range_list_at` on a list that is not null: `none` where the source reads through a null
entry, otherwise the return code and, on success, the entry. -/
def rangeListAt (rl : RangeList) (ndx : Nat) : Option (Except Int RangeEnt) :=
  if ndx ≤ rl.head.length then
    match rl.head.drop ndx with
    | [] => none
    | ent :: _ => some (.ok ent)
  else some (.error rangeListErrorParameter)

/-- `globus_range_list_remove_at`: the removed entry and the list without it. -/
def rangeListRemoveAt (rl : RangeList) (ndx : Nat) : Except Int (RangeEnt × RangeList) :=
  match rl.head.drop ndx with
  | [] => .error rangeListErrorParameter
  | ent :: rest => .ok (ent, ⟨rl.size - 1, rl.head.take ndx ++ rest⟩)

/-! ## Covered bytes -/

/-- The bytes of the range `(offset, length)`. -/
def byteRange (offset length : Int) : Set Int :=
  {x | offset ≤ x ∧ (length = rangeListMax ∨ x < offset + length)}

/-- The bytes of an entry. -/
def RangeEnt.bytes (e : RangeEnt) : Set Int := byteRange e.offset e.length

/-- The bytes recorded in a range list. -/
def RangeList.covered (rl : RangeList) : Set Int := Lib.cover RangeEnt.bytes rl.head

theorem mem_byteRange {o n x : Int} : x ∈ byteRange o n ↔ o ≤ x ∧ (n = -1 ∨ x < o + n) := Iff.rfl

theorem RangeEnt.mem_bytes {e : RangeEnt} {x : Int} :
    x ∈ e.bytes ↔ e.offset ≤ x ∧ (e.length = -1 ∨ x < e.offset + e.length) := Iff.rfl

/-- A length that a range may have: without end, or positive. -/
def ValidLength (n : Int) : Prop := n = rangeListMax ∨ 0 < n

/-- `a` ends strictly before `b` begins. -/
def RangeEnt.Apart (a b : RangeEnt) : Prop := a.length ≠ rangeListMax ∧ a.offset + a.length < b.offset

/-- A range and an entry that overlap or follow each other without a gap. -/
def Touches (offset length : Int) (ent : RangeEnt) : Prop :=
  (length = -1 ∨ ent.offset ≤ offset + length) ∧ (ent.length = -1 ∨ offset ≤ ent.offset + ent.length)

/-- An entry that ends before `offset`. -/
def RangeEnt.EndsBefore (offset : Int) (e : RangeEnt) : Prop :=
  e.length ≠ -1 ∧ e.offset + e.length < offset

attribute [reducible] ValidLength RangeEnt.Apart Touches RangeEnt.EndsBefore
attribute [grind =] rangeListMax_eq

theorem rangeEnd_of_ne {o n : Int} (h : n ≠ -1) : rangeEnd o n = o + n := by
  simp [rangeEnd, h]

@[simp] theorem rangeEnd_max (o : Int) : rangeEnd o (-1) = -1 := by simp [rangeEnd]

/-- What a sentinel-coded end stands for. -/
theorem rangeEnd_cases (o n : Int) :
    n = -1 ∧ rangeEnd o n = -1 ∨ n ≠ -1 ∧ rangeEnd o n = o + n := by
  unfold rangeEnd; split_ifs <;> simp_all

/-- Entries in increasing order, disjoint and separated by gaps, only the last without end. -/
@[mk_iff separated_def]
structure Separated (l : List RangeEnt) : Prop where
  offset_nonneg : ∀ e ∈ l, 0 ≤ e.offset
  length_valid : ∀ e ∈ l, ValidLength e.length
  apart : l.Pairwise RangeEnt.Apart

theorem Separated.nil : Separated [] := ⟨by simp, by simp, .nil⟩

variable {l : List RangeEnt}

theorem separated_cons {e : RangeEnt} :
    Separated (e :: l) ↔ 0 ≤ e.offset ∧ (e.length = -1 ∨ 0 < e.length) ∧
      (∀ b ∈ l, e.length ≠ -1 ∧ e.offset + e.length < b.offset) ∧ Separated l := by
  simp only [separated_def, List.forall_mem_cons, List.pairwise_cons]
  tauto

theorem Separated.offset_lt {e b : RangeEnt} (h : Separated (e :: l)) (hb : b ∈ l) :
    e.offset < b.offset := by
  obtain ⟨-, h1, h2, -⟩ := separated_cons.1 h
  have h3 := h2 b hb
  grind

theorem separated_append {l₁ l₂ : List RangeEnt} :
    Separated (l₁ ++ l₂) ↔ Separated l₁ ∧ Separated l₂ ∧ ∀ a ∈ l₁, ∀ b ∈ l₂, a.Apart b := by
  simp only [separated_def, List.forall_mem_append, List.pairwise_append]
  tauto

theorem Separated.apart_or (h : Separated l) {a b : RangeEnt} (ha : a ∈ l) (hb : b ∈ l) :
    a = b ∨ a.Apart b ∨ b.Apart a := by
  have hpair : l.Pairwise fun x y => x.Apart y ∨ y.Apart x := h.apart.imp .inl
  have : Std.Symm fun x y : RangeEnt => x.Apart y ∨ y.Apart x := ⟨fun _ _ => Or.symm⟩
  exact or_iff_not_imp_left.2 (hpair.forall ha hb)

theorem Separated.exists_entry (h : Separated l) {lo hi : Int} (hlt : lo < hi)
    (hcov : ∀ x, lo ≤ x → x < hi → x ∈ Lib.cover RangeEnt.bytes l) :
    ∃ c ∈ l, c.offset ≤ lo ∧ (c.length = -1 ∨ hi ≤ c.offset + c.length) := by
  obtain ⟨c, hc, hclo⟩ := hcov lo le_rfl hlt
  rw [RangeEnt.mem_bytes] at hclo
  refine ⟨c, hc, hclo.1, ?_⟩
  by_contra hcon
  push Not at hcon
  -- the byte at which `c` ends would have to be in another entry
  obtain ⟨e, he, hex⟩ := hcov (c.offset + c.length) (by omega) hcon.2
  rw [RangeEnt.mem_bytes] at hex
  rcases h.apart_or hc he with rfl | hap | hap
  · omega
  · simp only [RangeEnt.Apart, rangeListMax_eq] at hap; omega
  · simp only [RangeEnt.Apart, rangeListMax_eq] at hap; omega

/-- A well-formed range list: separated entries, counted by `size`. -/
structure RangeList.WellFormed (rl : RangeList) : Prop where
  separated : Separated rl.head
  size_eq : rl.size = rl.head.length

/-- A list with no entry without end. -/
def Bounded (l : List RangeEnt) : Prop := ∀ e ∈ l, e.length ≠ rangeListMax

end Globus
