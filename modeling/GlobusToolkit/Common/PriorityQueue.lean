/-
Priority queues (common/source/library/globus_priority_q.c): a binary heap in the slots from 1 to
`next_slot - 1` of an array of entries. `percolate_up` and `percolate_down` move a hole through the heap until
an entry of the given priority can be placed in it; enqueue, dequeue, remove and modify place an entry with
them. Allocation succeeds, and the array holds what was in memory where no entry was stored.

Between calls the heap is ordered, and the entries in it are a bag to which enqueue adds, from which dequeue
takes an entry of least priority and remove one with the datum, and in which modify replaces a priority.
-/
import GlobusToolkit.Lib.Heap

namespace Globus

open Lib Function

/-! ## The data -/

/-- `globus_l_priority_q_entry_t`. -/
structure PriorityQEntry (P D : Type*) where
  priority : P
  datum : D
  deriving DecidableEq, Repr

/-- `globus_priority_q_t`, without its node allocator and its comparison. -/
structure PriorityQ (P D : Type*) where
  heap : Nat → PriorityQEntry P D
  nextSlot : Nat
  maxLen : Nat

def priorityQChunkSize : Nat := 100

def priorityQTopSlot : Nat := 1

section Functions

variable {P D : Type*} (cmp : P → P → Int)

/-- `globus_l_priority_q_percolate_up`: the heap and the hole afterwards. -/
def percolateUp (heap : Nat → PriorityQEntry P D) (hole : Nat) (priority : P) : (Nat → PriorityQEntry P D) × Nat :=
  if priorityQTopSlot < hole ∧ cmp (heap (hole / 2)).priority priority > 0 then
    percolateUp (update heap hole (heap (hole / 2))) (hole / 2) priority
  else (heap, hole)
termination_by hole
decreasing_by
  have : priorityQTopSlot = 1 := rfl
  omega

/-- The child of the hole that `percolate_down` looks at: the right one if it is in front of the left. -/
def percolateChild (heap : Nat → PriorityQEntry P D) (lastSlot hole : Nat) : Nat :=
  if hole * 2 ≠ lastSlot ∧ cmp (heap (hole * 2)).priority (heap (hole * 2 + 1)).priority > 0 then hole * 2 + 1
  else hole * 2

/-- `globus_l_priority_q_percolate_down`, for a hole that is a slot. -/
def percolateDown (heap : Nat → PriorityQEntry P D) (lastSlot hole : Nat) (priority : P) (hpos : 0 < hole) :
    (Nat → PriorityQEntry P D) × Nat :=
  if hole * 2 ≤ lastSlot then
    if cmp priority (heap (percolateChild cmp heap lastSlot hole)).priority > 0 then
      percolateDown (update heap hole (heap (percolateChild cmp heap lastSlot hole))) lastSlot
        (percolateChild cmp heap lastSlot hole) priority (by unfold percolateChild; split <;> omega)
    else (heap, hole)
  else (heap, hole)
termination_by lastSlot + 1 - hole
decreasing_by unfold percolateChild; split <;> omega

/-- `globus_priority_q_init`, with what is in the memory of the heap. -/
def priorityQInit (heap : Nat → PriorityQEntry P D) : PriorityQ P D where
  heap
  nextSlot := priorityQTopSlot
  maxLen := priorityQChunkSize

namespace PriorityQ

/-- `globus_priority_q_empty`. -/
def empty (q : PriorityQ P D) : Bool := q.nextSlot = priorityQTopSlot

/-- `globus_priority_q_size`. -/
def size (q : PriorityQ P D) : Nat := q.nextSlot - priorityQTopSlot

/-- `globus_priority_q_enqueue`. -/
def enqueue (q : PriorityQ P D) (datum : D) (priority : P) : PriorityQ P D :=
  let maxLen := if q.nextSlot = q.maxLen then q.maxLen + priorityQChunkSize else q.maxLen
  let up := percolateUp cmp q.heap q.nextSlot priority
  { heap := update up.1 up.2 ⟨priority, datum⟩, nextSlot := q.nextSlot + 1, maxLen }

/-- `globus_priority_q_first`. -/
def first (q : PriorityQ P D) : Option D :=
  if q.nextSlot = priorityQTopSlot then none else some (q.heap priorityQTopSlot).datum

/-- `globus_priority_q_first_priority`. -/
def firstPriority (q : PriorityQ P D) : Option P :=
  if q.nextSlot = priorityQTopSlot then none else some (q.heap priorityQTopSlot).priority

/-- `globus_priority_q_dequeue`. -/
def dequeue (q : PriorityQ P D) : Option D × PriorityQ P D :=
  if q.nextSlot = priorityQTopSlot then (none, q)
  else
    let nextSlot := q.nextSlot - 1
    if priorityQTopSlot < nextSlot then
      let entry := q.heap nextSlot
      let down := percolateDown cmp q.heap (nextSlot - 1) priorityQTopSlot entry.priority Nat.one_pos
      (some (q.heap priorityQTopSlot).datum, { q with heap := update down.1 down.2 entry, nextSlot })
    else (some (q.heap priorityQTopSlot).datum, { q with nextSlot })

/-- The loop that looks for the first slot with the datum, from `hole` on; the slot found is not 0. -/
def search [DecidableEq D] (q : PriorityQ P D) (datum : D) (hole : Nat) (hpos : 0 < hole) :
    Option { slot : Nat // 0 < slot } :=
  if hole < q.nextSlot then
    if (q.heap hole).datum = datum then some ⟨hole, hpos⟩ else q.search datum (hole + 1) (by omega)
  else none
termination_by q.nextSlot - hole

/-- `globus_priority_q_remove`. -/
def remove [DecidableEq D] (q : PriorityQ P D) (datum : D) : Option D × PriorityQ P D :=
  match q.search datum priorityQTopSlot Nat.one_pos with
  | none => (none, q)
  | some ⟨hole, hpos⟩ =>
    let nextSlot := q.nextSlot - 1
    if nextSlot = hole then (some datum, { q with nextSlot })
    else
      let entry := q.heap nextSlot
      let moved :=
        if cmp entry.priority (q.heap hole).priority > 0 then
          percolateDown cmp q.heap (nextSlot - 1) hole entry.priority hpos
        else percolateUp cmp q.heap hole entry.priority
      (some datum, { q with heap := update moved.1 moved.2 entry, nextSlot })

/-- `globus_priority_q_modify`: the old priority, and the queue afterwards. -/
def modify [DecidableEq D] (q : PriorityQ P D) (datum : D) (newPriority : P) : Option P × PriorityQ P D :=
  match q.search datum priorityQTopSlot Nat.one_pos with
  | none => (none, q)
  | some ⟨hole, hpos⟩ =>
    let entry := { q.heap hole with priority := newPriority }
    let down := percolateDown cmp (update q.heap hole entry) (q.nextSlot - 1) hole newPriority hpos
    let up := percolateUp cmp down.1 down.2 newPriority
    (some (q.heap hole).priority, { q with heap := update up.1 up.2 entry })

end PriorityQ

end Functions

/-! ## The loops -/

section Loops

variable {P D : Type*} {cmp : P → P → Int}

/-- The order of entries by priority. -/
def EntryLe (cmp : P → P → Int) (a b : PriorityQEntry P D) : Prop := cmp a.priority b.priority ≤ 0

/-- A comparison function that is a total preorder. -/
structure TotalPreorder (cmp : P → P → Int) : Prop where
  total : ∀ a b, cmp a b ≤ 0 ∨ cmp b a ≤ 0
  trans : ∀ a b c, cmp a b ≤ 0 → cmp b c ≤ 0 → cmp a c ≤ 0

theorem TotalPreorder.entryLe_refl (ho : TotalPreorder cmp) (a : PriorityQEntry P D) : EntryLe cmp a a :=
  (ho.total _ _).elim id id

theorem TotalPreorder.entryLe_trans (ho : TotalPreorder cmp) (a b c : PriorityQEntry P D) (h1 : EntryLe cmp a b)
    (h2 : EntryLe cmp b c) : EntryLe cmp a c :=
  ho.trans _ _ _ h1 h2

theorem TotalPreorder.entryLe_of_gt (ho : TotalPreorder cmp) {a b : PriorityQEntry P D}
    (h : cmp a.priority b.priority > 0) : EntryLe cmp b a :=
  (ho.total a.priority b.priority).resolve_left (by omega)

/-- What a loop does with the hole: afterwards it is a slot of the heap, off the hole the heap is still in
order, and placing the entry gives the same contents as before. -/
structure Moved (cmp : P → P → Int) (n : Nat) (x : PriorityQEntry P D) (heap : Nat → PriorityQEntry P D) (hole : Nat)
    (after : (Nat → PriorityQEntry P D) × Nat) : Prop where
  hole_pos : 1 ≤ after.2
  hole_le : after.2 ≤ n
  order : HoleOrder (EntryLe cmp) after.1 n after.2
  bag_eq : bag (update after.1 after.2 x) n = bag (update heap hole x) n

theorem percolateUp_moved (ho : TotalPreorder cmp) {n : Nat} {x : PriorityQEntry P D} (heap : Nat → PriorityQEntry P D)
    (hole : Nat) (hpos : 1 ≤ hole) (hn : hole ≤ n) (o : HoleOrder (EntryLe cmp) heap n hole)
    (hb : Below (EntryLe cmp) heap n hole x) :
    Moved cmp n x heap hole (percolateUp cmp heap hole x.priority) ∧
      Below (EntryLe cmp) (percolateUp cmp heap hole x.priority).1 n (percolateUp cmp heap hole x.priority).2 x ∧
      Above (EntryLe cmp) (percolateUp cmp heap hole x.priority).1 (percolateUp cmp heap hole x.priority).2 x := by
  rw [percolateUp]
  split
  · next hgt =>
    have htop : priorityQTopSlot = 1 := rfl
    have hx := ho.entryLe_of_gt (a := heap (hole / 2)) (b := x) hgt.2
    obtain ⟨hm, hbelow, habove⟩ := percolateUp_moved ho (update heap hole (heap (hole / 2))) (hole / 2)
      (by omega) (by omega) (o.up ho.entryLe_trans (by omega) hn) (Below.up o ho.entryLe_trans (by omega) hx)
    refine ⟨⟨hm.hole_pos, hm.hole_le, hm.order, ?_⟩, hbelow, habove⟩
    rw [hm.bag_eq, bag_move ⟨hpos, hn⟩ ⟨by omega, by omega⟩]
  · next hle =>
    refine ⟨⟨hpos, hn, o, rfl⟩, hb, fun hhole => ?_⟩
    have htop : priorityQTopSlot = 1 := rfl
    exact Int.not_lt.1 fun hgt => hle ⟨by omega, hgt⟩
termination_by hole

theorem percolateChild_bounds (cmp : P → P → Int) (heap : Nat → PriorityQEntry P D) {lastSlot hole : Nat}
    (hchild : hole * 2 ≤ lastSlot) :
    percolateChild cmp heap lastSlot hole ≤ lastSlot ∧ percolateChild cmp heap lastSlot hole / 2 = hole := by
  unfold percolateChild
  split <;> omega

theorem percolateChild_le (ho : TotalPreorder cmp) (heap : Nat → PriorityQEntry P D) (lastSlot hole : Nat) :
    ∀ d, d ≤ lastSlot → d / 2 = hole → EntryLe cmp (heap (percolateChild cmp heap lastSlot hole)) (heap d) := by
  intro d hd hdh
  have hcases : d = hole * 2 ∨ d = hole * 2 + 1 := by omega
  unfold percolateChild
  split
  · next h =>
    rcases hcases with rfl | rfl
    · exact ho.entryLe_of_gt h.2
    · exact ho.entryLe_refl _
  · next h =>
    rcases hcases with rfl | rfl
    · exact ho.entryLe_refl _
    · exact Int.not_lt.1 fun hgt => h ⟨by omega, hgt⟩

theorem percolateDown_moved (ho : TotalPreorder cmp) {n : Nat} {x : PriorityQEntry P D}
    (heap : Nat → PriorityQEntry P D) (hole : Nat) (hpos : 0 < hole) (hn : hole ≤ n)
    (o : HoleOrder (EntryLe cmp) heap n hole) :
    Moved cmp n x heap hole (percolateDown cmp heap n hole x.priority hpos) ∧
      Below (EntryLe cmp) (percolateDown cmp heap n hole x.priority hpos).1 n
        (percolateDown cmp heap n hole x.priority hpos).2 x ∧
      (Above (EntryLe cmp) heap hole x → Above (EntryLe cmp) (percolateDown cmp heap n hole x.priority hpos).1
        (percolateDown cmp heap n hole x.priority hpos).2 x) := by
  rw [percolateDown]
  split
  · next hchild =>
    obtain ⟨hcn, hch⟩ := percolateChild_bounds cmp heap hchild
    have hmin := percolateChild_le ho heap n hole
    split
    · next hgt =>
      have hx := ho.entryLe_of_gt (a := x) hgt
      obtain ⟨hm, hbelow, habove⟩ := percolateDown_moved ho (x := x) _ (percolateChild cmp heap n hole)
        (by omega) hcn (o.down hpos hcn hch hmin)
      refine ⟨⟨hm.hole_pos, hm.hole_le, hm.order, ?_⟩, hbelow, fun _ => habove (Above.down hch hx)⟩
      rw [hm.bag_eq, bag_move ⟨hpos, hn⟩ ⟨by omega, hcn⟩]
    · next hle =>
      refine ⟨⟨hpos, hn, o, rfl⟩, fun c hc hcc => ?_, id⟩
      exact ho.entryLe_trans _ _ _ (Int.not_lt.1 hle) (hmin c hc hcc)
  · next hleaf => exact ⟨⟨hpos, hn, o, rfl⟩, fun c hc hcc => by omega, id⟩
termination_by n + 1 - hole
decreasing_by omega

end Loops

/-! ## The queue as a bag -/

section Queue

variable {P D : Type*} {cmp : P → P → Int}

/-- The entries in the queue. -/
def PriorityQ.entries (q : PriorityQ P D) : Multiset (PriorityQEntry P D) := bag q.heap (q.nextSlot - 1)

/-- The heap is in order, and `next_slot` is in the array or right behind it. -/
structure PriorityQ.WF (cmp : P → P → Int) (q : PriorityQ P D) : Prop where
  order : HeapOrder (EntryLe cmp) q.heap (q.nextSlot - 1)
  next_pos : 1 ≤ q.nextSlot
  next_le : q.nextSlot ≤ q.maxLen

/-- The calls that change a queue. -/
inductive PriorityQOp (P D : Type*) where
  | enqueue (datum : D) (priority : P)
  | dequeue
  | remove (datum : D)
  | modify (datum : D) (newPriority : P)

/-- What they return. -/
inductive PriorityQReply (P D : Type*) where
  | success
  | datum (datum : Option D)
  | priority (priority : Option P)

/-- The calls on a bag: dequeue takes an entry that no other one is in front of, remove one with the datum,
and modify gives one with the datum another priority. -/
inductive BagStep (cmp : P → P → Int) :
    Multiset (PriorityQEntry P D) → PriorityQOp P D → PriorityQReply P D → Multiset (PriorityQEntry P D) → Prop
  | enqueue {s datum priority} : BagStep cmp s (.enqueue datum priority) .success (s + {⟨priority, datum⟩})
  | dequeueEmpty : BagStep cmp 0 .dequeue (.datum none) 0
  | dequeue {s e} (hmin : ∀ f ∈ s + {e}, EntryLe cmp e f) : BagStep cmp (s + {e}) .dequeue (.datum (some e.datum)) s
  | removeAbsent {s datum} (habsent : ∀ f ∈ s, f.datum ≠ datum) : BagStep cmp s (.remove datum) (.datum none) s
  | remove {s e} : BagStep cmp (s + {e}) (.remove e.datum) (.datum (some e.datum)) s
  | modifyAbsent {s datum p} (habsent : ∀ f ∈ s, f.datum ≠ datum) :
      BagStep cmp s (.modify datum p) (.priority none) s
  | modify {s e p} : BagStep cmp (s + {e}) (.modify e.datum p) (.priority (some e.priority)) (s + {{ e with priority := p }})

/-- One call on the queue. -/
def PriorityQ.step [DecidableEq D] (cmp : P → P → Int) (q : PriorityQ P D) :
    PriorityQOp P D → PriorityQReply P D × PriorityQ P D
  | .enqueue datum priority => (.success, q.enqueue cmp datum priority)
  | .dequeue => (.datum (q.dequeue cmp).1, (q.dequeue cmp).2)
  | .remove datum => (.datum (q.remove cmp datum).1, (q.remove cmp datum).2)
  | .modify datum p => (.priority (q.modify cmp datum p).1, (q.modify cmp datum p).2)

theorem PriorityQ.WF.init (heap : Nat → PriorityQEntry P D) : (priorityQInit heap).WF cmp where
  order i hi hle := by
    have : (priorityQInit heap).nextSlot - 1 = 0 := rfl
    omega
  next_pos := Nat.le_refl 1
  next_le := by show 1 ≤ 100; omega

theorem Moved.place {n : Nat} {x : PriorityQEntry P D} {heap : Nat → PriorityQEntry P D} {hole : Nat}
    {after : (Nat → PriorityQEntry P D) × Nat} (hm : Moved cmp n x heap hole after)
    (ha : Above (EntryLe cmp) after.1 after.2 x) (hb : Below (EntryLe cmp) after.1 n after.2 x) :
    HeapOrder (EntryLe cmp) (update after.1 after.2 x) n :=
  hm.order.place hm.hole_pos ha hb

variable {q : PriorityQ P D}

theorem PriorityQ.enqueue_spec (ho : TotalPreorder cmp) (hw : q.WF cmp) (datum : D) (priority : P) :
    (q.enqueue cmp datum priority).WF cmp ∧
      (q.enqueue cmp datum priority).entries = q.entries + {⟨priority, datum⟩} := by
  obtain ⟨order, hpos, hle⟩ := hw
  obtain ⟨n, hn⟩ : ∃ n, q.nextSlot = n + 1 := ⟨q.nextSlot - 1, by omega⟩
  rw [hn, Nat.add_sub_cancel] at order
  obtain ⟨hm, hbelow, habove⟩ := percolateUp_moved ho (x := ⟨priority, datum⟩) q.heap (n + 1) (by omega) le_rfl
    order.holeOrder_succ (fun c hc hch => by omega)
  refine ⟨⟨?_, by simp [PriorityQ.enqueue], ?_⟩, ?_⟩
  · have := hm.place habove hbelow
    simpa [PriorityQ.enqueue, hn] using this
  · have hchunk : priorityQChunkSize = 100 := rfl
    simp only [PriorityQ.enqueue]
    split <;> omega
  · have hbag := hm.bag_eq
    rw [bag_update_succ] at hbag
    simpa [PriorityQ.entries, PriorityQ.enqueue, hn] using hbag

/-- The last entry is taken from the heap and placed where another one was. -/
theorem entries_replace {n hole : Nat} (hn : q.nextSlot = n + 2) (hhole : 1 ≤ hole ∧ hole ≤ n)
    {after : (Nat → PriorityQEntry P D) × Nat} (hm : Moved cmp n (q.heap (n + 1)) q.heap hole after) :
    bag (update after.1 after.2 (q.heap (n + 1))) n + {q.heap hole} = q.entries := by
  obtain ⟨s, hs, hupdate⟩ := exists_bag_eq q.heap hhole
  rw [hm.bag_eq, hupdate, PriorityQ.entries, hn, show n + 2 - 1 = n + 1 from rfl, bag_succ, hs]
  exact add_right_comm _ _ _

namespace PriorityQ

/-- No entry is in front of the first one. -/
theorem WF.first_le (hw : q.WF cmp) (ho : TotalPreorder cmp) (f : PriorityQEntry P D) (hf : f ∈ q.entries) :
    EntryLe cmp (q.heap 1) f := by
  obtain ⟨i, h1, h2, rfl⟩ := mem_bag.1 hf
  exact hw.order.root_le ho.entryLe_refl ho.entryLe_trans i h1 h2

theorem dequeue_spec (ho : TotalPreorder cmp) (hw : q.WF cmp) :
    (q.dequeue cmp).2.WF cmp ∧ BagStep cmp q.entries .dequeue (.datum (q.dequeue cmp).1) (q.dequeue cmp).2.entries := by
  have hmin := hw.first_le ho
  obtain ⟨order, hpos, hle⟩ := hw
  have htop : priorityQTopSlot = 1 := rfl
  unfold dequeue
  split
  · next hempty =>
    refine ⟨⟨order, hpos, hle⟩, ?_⟩
    have : q.entries = 0 := by rw [entries, hempty]; rfl
    rw [this]
    exact .dequeueEmpty
  · next hne =>
    dsimp only
    split
    · next hmore =>
      obtain ⟨n, hn⟩ : ∃ n, q.nextSlot = n + 2 := ⟨q.nextSlot - 2, by omega⟩
      simp only [hn, Nat.add_sub_cancel, show n + 2 - 1 = n + 1 from rfl] at order hmore ⊢
      obtain ⟨hm, hbelow, habove⟩ := percolateDown_moved ho (x := q.heap (n + 1)) q.heap 1 (by omega)
        (show 1 ≤ n by omega) ((order.mono (by omega)).holeOrder ho.entryLe_trans)
      have hall := entries_replace hn ⟨by omega, by omega⟩ hm
      refine ⟨⟨hm.place (habove fun h => by omega) hbelow, by simp, by simp; omega⟩, ?_⟩
      rw [← hall] at hmin ⊢
      exact .dequeue hmin
    · next hlast =>
      have hn : q.nextSlot = 2 := by omega
      refine ⟨⟨fun i hi hin => by simp only [hn] at hin; omega, by simp [hn], by simp only [hn] at hle ⊢; omega⟩, ?_⟩
      have hall : q.entries = 0 + {q.heap 1} := by
        rw [entries, hn, bag_succ]; rfl
      have hnone : ({ q with nextSlot := q.nextSlot - 1 } : PriorityQ P D).entries = 0 := by
        simp only [entries, hn]; rfl
      rw [hnone]
      rw [hall] at hmin ⊢
      exact .dequeue hmin

section Search

variable [DecidableEq D] {datum : D} {hole : Nat} {hpos : 0 < hole}

theorem search_eq_some {slot : Nat} {hslot : 0 < slot} (h : q.search datum hole hpos = some ⟨slot, hslot⟩) :
    slot < q.nextSlot ∧ (q.heap slot).datum = datum ∧ ∀ i, hole ≤ i → i < slot → (q.heap i).datum ≠ datum := by
  fun_induction search q datum hole hpos with
  | case1 hole hpos hlt heq =>
    cases h
    exact ⟨hlt, heq, fun i hi hin => by omega⟩
  | case2 hole hpos _ hne ih =>
    obtain ⟨hlt, heq, hfirst⟩ := ih h
    exact ⟨hlt, heq, fun i hi => hi.eq_or_lt.elim (fun h _ => h ▸ hne) (hfirst i)⟩
  | case3 hole hpos hend => cases h

theorem search_eq_none (h : q.search datum hole hpos = none) (i : Nat) (hi : hole ≤ i) (hlt : i < q.nextSlot) :
    (q.heap i).datum ≠ datum := by
  fun_induction search q datum hole hpos with
  | case1 hole hpos _ heq => cases h
  | case2 hole hpos _ hne ih =>
    rcases hi.eq_or_lt with rfl | hi
    · exact hne
    · exact ih h hi
  | case3 hole hpos hend => omega

theorem entries_absent (h : q.search datum priorityQTopSlot Nat.one_pos = none) : ∀ f ∈ q.entries, f.datum ≠ datum := by
  intro f hf
  obtain ⟨i, h1, h2, rfl⟩ := mem_bag.1 hf
  exact search_eq_none h i h1 (by omega)

end Search

end PriorityQ

variable (ho : TotalPreorder cmp)
include ho

namespace PriorityQ

theorem remove_found [DecidableEq D] (hw : q.WF cmp) {datum : D}
    {hole : Nat} {hhole : 0 < hole} (hres : q.search datum priorityQTopSlot Nat.one_pos = some ⟨hole, hhole⟩) :
    (q.remove cmp datum).1 = some datum ∧ (q.remove cmp datum).2.WF cmp ∧
      q.entries = (q.remove cmp datum).2.entries + {q.heap hole} := by
  obtain ⟨order, hpos, hle⟩ := hw
  obtain ⟨hlt, -⟩ := search_eq_some hres
  unfold remove
  rw [hres]
  obtain ⟨n, hn⟩ : ∃ n, q.nextSlot = n + 2 := ⟨q.nextSlot - 2, by omega⟩
  simp only [hn, Nat.add_sub_cancel, show n + 2 - 1 = n + 1 from rfl] at order ⊢
  split
  · next hlast =>
    refine ⟨rfl, ⟨order.mono (by simp), by simp, by simp; omega⟩, ?_⟩
    rw [entries, hn, ← hlast]
    exact bag_succ _ _
  · next hne =>
    have hin : 1 ≤ hole ∧ hole ≤ n := ⟨hhole, by omega⟩
    have hole_order : HoleOrder (EntryLe cmp) q.heap n hole :=
      (order.mono (show n ≤ n + 1 by omega)).holeOrder ho.entryLe_trans
    refine ⟨rfl, ?_⟩
    split
    · next hgt =>
      obtain ⟨hm, hbelow, habove⟩ := percolateDown_moved ho (x := q.heap (n + 1)) q.heap hole hhole hin.2 hole_order
      have hold := ho.entryLe_of_gt (a := q.heap (n + 1)) (b := q.heap hole) hgt
      exact ⟨⟨hm.place (habove fun h2 => ho.entryLe_trans _ _ _ (order hole h2 (by omega)) hold) hbelow,
        by simp, by simp; omega⟩, (entries_replace hn hin hm).symm⟩
    · next hngt =>
      have hold : EntryLe cmp (q.heap (n + 1)) (q.heap hole) := Int.not_lt.1 hngt
      obtain ⟨hm, hbelow, habove⟩ := percolateUp_moved ho (x := q.heap (n + 1)) q.heap hole hin.1 hin.2 hole_order
        fun c hc hch => ho.entryLe_trans _ _ _ hold (hch ▸ order c (by omega) (by omega))
      exact ⟨⟨hm.place habove hbelow, by simp, by simp; omega⟩, (entries_replace hn hin hm).symm⟩

theorem remove_spec [DecidableEq D] (hw : q.WF cmp) (datum : D) :
    (q.remove cmp datum).2.WF cmp ∧
      BagStep cmp q.entries (.remove datum) (.datum (q.remove cmp datum).1) (q.remove cmp datum).2.entries := by
  rcases hres : q.search datum priorityQTopSlot Nat.one_pos with _ | ⟨hole, hhole⟩
  · unfold remove
    rw [hres]
    exact ⟨hw, .removeAbsent (entries_absent hres)⟩
  · obtain ⟨-, rfl, -⟩ := search_eq_some hres
    obtain ⟨hreply, hw', hentries⟩ := remove_found ho hw hres
    rw [hreply, hentries]
    exact ⟨hw', .remove⟩

theorem modify_found [DecidableEq D] (hw : q.WF cmp) {datum : D}
    {hole : Nat} {hhole : 0 < hole} (hres : q.search datum priorityQTopSlot Nat.one_pos = some ⟨hole, hhole⟩)
    (newPriority : P) :
    (q.modify cmp datum newPriority).1 = some (q.heap hole).priority ∧ (q.modify cmp datum newPriority).2.WF cmp ∧
      ∃ s, q.entries = s + {q.heap hole} ∧
        (q.modify cmp datum newPriority).2.entries = s + {{ q.heap hole with priority := newPriority }} := by
  obtain ⟨order, hpos, hle⟩ := hw
  obtain ⟨hlt, -⟩ := search_eq_some hres
  unfold modify
  rw [hres]
  have hin : 1 ≤ hole ∧ hole ≤ q.nextSlot - 1 := ⟨hhole, by omega⟩
  set entry : PriorityQEntry P D := { q.heap hole with priority := newPriority }
  obtain ⟨hd, hbelow, -⟩ := percolateDown_moved ho (x := entry) (update q.heap hole entry) hole hhole hin.2
    ((order.holeOrder ho.entryLe_trans).update entry)
  obtain ⟨hu, hbelow', habove⟩ := percolateUp_moved ho (x := entry) _ _ hd.hole_pos hd.hole_le hd.order hbelow
  have hafter := hu.bag_eq.trans hd.bag_eq
  rw [update_idem] at hafter
  obtain ⟨s, hs, hupdate⟩ := exists_bag_eq q.heap hin
  rw [hupdate] at hafter
  exact ⟨rfl, ⟨hu.place habove hbelow', hpos, hle⟩, s, hs, hafter⟩

theorem modify_spec [DecidableEq D] (hw : q.WF cmp) (datum : D)
    (newPriority : P) : (q.modify cmp datum newPriority).2.WF cmp ∧
      BagStep cmp q.entries (.modify datum newPriority) (.priority (q.modify cmp datum newPriority).1)
        (q.modify cmp datum newPriority).2.entries := by
  rcases hres : q.search datum priorityQTopSlot Nat.one_pos with _ | ⟨hole, hhole⟩
  · unfold modify
    rw [hres]
    exact ⟨hw, .modifyAbsent (entries_absent hres)⟩
  · obtain ⟨-, rfl, -⟩ := search_eq_some hres
    obtain ⟨hreply, hw', s, hentries, hafter⟩ := modify_found ho hw hres newPriority
    rw [hreply, hentries, hafter]
    exact ⟨hw', .modify⟩

/-! ## Runs -/

/-- Calls one after the other: what they return, and the queue afterwards. -/
def run [DecidableEq D] (cmp : P → P → Int) :
    PriorityQ P D → List (PriorityQOp P D) → List (PriorityQReply P D) × PriorityQ P D
  | q, [] => ([], q)
  | q, op :: ops =>
    let reply := q.step cmp op
    let rest := reply.2.run cmp ops
    (reply.1 :: rest.1, rest.2)

end PriorityQ

/-- The same on a bag. -/
inductive BagRun (cmp : P → P → Int) : Multiset (PriorityQEntry P D) → List (PriorityQOp P D) →
    List (PriorityQReply P D) → Multiset (PriorityQEntry P D) → Prop
  | nil {s} : BagRun cmp s [] [] s
  | cons {s op reply s' ops replies s''} (hstep : BagStep cmp s op reply s') (hrun : BagRun cmp s' ops replies s'') :
      BagRun cmp s (op :: ops) (reply :: replies) s''

/-- Every call keeps the queue well formed and does to its entries what it does to a bag. -/
theorem PriorityQ.step_spec [DecidableEq D] (hw : q.WF cmp)
    (op : PriorityQOp P D) :
    (q.step cmp op).2.WF cmp ∧ BagStep cmp q.entries op (q.step cmp op).1 (q.step cmp op).2.entries := by
  cases op with
  | enqueue datum priority =>
    obtain ⟨hw', hentries⟩ := q.enqueue_spec ho hw datum priority
    refine ⟨hw', ?_⟩
    show BagStep cmp q.entries _ _ (q.enqueue cmp datum priority).entries
    rw [hentries]
    exact .enqueue
  | dequeue => exact q.dequeue_spec ho hw
  | remove datum => exact q.remove_spec ho hw datum
  | modify datum p => exact q.modify_spec ho hw datum p

omit ho

namespace PriorityQ

theorem run_spec [DecidableEq D] (ho : TotalPreorder cmp) : ∀ (ops : List (PriorityQOp P D))
    {q : PriorityQ P D}, q.WF cmp →
      (q.run cmp ops).2.WF cmp ∧ BagRun cmp q.entries ops (q.run cmp ops).1 (q.run cmp ops).2.entries
  | [], _, hw => ⟨hw, .nil⟩
  | op :: ops, q, hw => by
    obtain ⟨hw', hstep⟩ := q.step_spec ho hw op
    obtain ⟨hw'', hrun⟩ := run_spec ho ops hw'
    exact ⟨hw'', .cons hstep hrun⟩

theorem exists_dequeue (ho : TotalPreorder cmp) (hw : q.WF cmp) (hne : q.entries ≠ 0) :
    ∃ e q', q.dequeue cmp = (some e.datum, q') ∧ q'.WF cmp ∧ q.entries = q'.entries + {e} ∧
      ∀ f ∈ q.entries, cmp e.priority f.priority ≤ 0 := by
  obtain ⟨hw', hstep⟩ := dequeue_spec ho hw
  generalize q.dequeue cmp = d at hw' hstep
  obtain ⟨datum, q'⟩ := d
  dsimp only at hw' hstep
  generalize hentries : q.entries = entries at hne hstep
  generalize hentries' : q'.entries = entries' at hstep
  cases hstep with
  | dequeueEmpty => exact absurd rfl hne
  | dequeue hmin => exact ⟨_, q', rfl, hw', by rw [hentries'], hmin⟩

theorem size_eq_card (q : PriorityQ P D) : q.size = Multiset.card q.entries := by
  simp [size, entries, bag, slotSum, priorityQTopSlot]

theorem first_spec (ho : TotalPreorder cmp) (hw : q.WF cmp) (hne : q.entries ≠ 0) :
    ∃ e ∈ q.entries, q.first = some e.datum ∧ q.firstPriority = some e.priority ∧ (q.dequeue cmp).1 = some e.datum ∧
      ∀ f ∈ q.entries, cmp e.priority f.priority ≤ 0 := by
  have hslot : q.nextSlot ≠ priorityQTopSlot := by
    intro h
    apply hne
    rw [entries, h]; rfl
  have htop : priorityQTopSlot = 1 := rfl
  have hpos := hw.next_pos
  refine ⟨q.heap 1, mem_bag.2 ⟨1, le_refl _, by omega, rfl⟩, ?_, ?_, ?_, hw.first_le ho⟩
  · rw [first, if_neg hslot]; rfl
  · rw [firstPriority, if_neg hslot]; rfl
  · rw [dequeue, if_neg hslot]
    dsimp only
    split <;> rfl

theorem exists_of_firstPriority (hw : q.WF cmp) {p : P} (h : q.firstPriority = some p) :
    ∃ e ∈ q.entries, e.priority = p := by
  unfold firstPriority at h
  split at h
  · cases h
  · next hslot =>
    have htop : priorityQTopSlot = 1 := rfl
    have hpos := hw.next_pos
    exact ⟨q.heap priorityQTopSlot, mem_bag.2 ⟨1, le_refl _, by omega, rfl⟩, Option.some.inj h⟩

end PriorityQ

/-- Over every run from an empty queue: the heap is in order, the entries are those of the bag that the
calls make, and the first entry and the one dequeued have the least priority. -/
theorem priorityQ_run [DecidableEq D] (ho : TotalPreorder cmp) (heap : Nat → PriorityQEntry P D)
    (ops : List (PriorityQOp P D)) :
    let q := ((priorityQInit heap).run cmp ops).2
    (∀ i, 2 ≤ i → i < q.nextSlot → cmp (q.heap (i / 2)).priority (q.heap i).priority ≤ 0) ∧
      BagRun cmp 0 ops ((priorityQInit heap).run cmp ops).1 q.entries ∧
      (q.entries = 0 → q.first = none ∧ (q.dequeue cmp).1 = none) ∧
      (q.entries ≠ 0 → ∃ e ∈ q.entries, q.first = some e.datum ∧ (q.dequeue cmp).1 = some e.datum ∧
        ∀ f ∈ q.entries, cmp e.priority f.priority ≤ 0) := by
  intro q
  obtain ⟨hw, hrun⟩ := PriorityQ.run_spec ho ops (PriorityQ.WF.init heap)
  refine ⟨fun i h2 hi => hw.order i h2 (Nat.le_sub_one_of_lt hi), hrun, fun hempty => ?_, fun hne => ?_⟩
  · have hcard := q.size_eq_card
    rw [hempty, Multiset.card_zero, PriorityQ.size] at hcard
    have hslot : q.nextSlot = priorityQTopSlot := Nat.le_antisymm (Nat.sub_eq_zero_iff_le.1 hcard) hw.next_pos
    exact ⟨if_pos hslot, by rw [PriorityQ.dequeue, if_pos hslot]⟩
  · obtain ⟨e, he, hfirst, -, hdeq, hmin⟩ := PriorityQ.first_spec ho hw hne
    exact ⟨e, he, hfirst, hdeq, hmin⟩

end Queue

theorem priorityQ_run_int :
    let q := ((priorityQInit fun _ => (⟨0, 0⟩ : PriorityQEntry Int Nat)).run (· - ·)
      [.enqueue 1 5, .enqueue 2 3, .enqueue 3 4, .modify 1 1, .remove 3, .dequeue]).2
    (∀ i, 2 ≤ i → i < q.nextSlot → (q.heap (i / 2)).priority - (q.heap i).priority ≤ 0) ∧
      BagRun (· - ·) 0 [.enqueue 1 5, .enqueue 2 3, .enqueue 3 4, .modify 1 1, .remove 3, .dequeue]
        ((priorityQInit fun _ => (⟨0, 0⟩ : PriorityQEntry Int Nat)).run (· - ·)
          [.enqueue 1 5, .enqueue 2 3, .enqueue 3 4, .modify 1 1, .remove 3, .dequeue]).1 q.entries ∧
      (q.entries = 0 → q.first = none ∧ (q.dequeue (· - ·)).1 = none) ∧
      (q.entries ≠ 0 → ∃ e ∈ q.entries, q.first = some e.datum ∧ (q.dequeue (· - ·)).1 = some e.datum ∧
        ∀ f ∈ q.entries, e.priority - f.priority ≤ 0) :=
  priorityQ_run ⟨fun a b => by omega, fun a b c => by omega⟩ _ _

/-! ## Comparisons that agree -/

section Agree

variable {P D κ : Type*} {cmp cmp' : P → P → Int}

theorem percolateUp_congr {priority : P} (heap : Nat → PriorityQEntry P D) (hole : Nat)
    (h : ∀ i, 1 ≤ i → i < hole → cmp (heap i).priority priority = cmp' (heap i).priority priority) :
    percolateUp cmp heap hole priority = percolateUp cmp' heap hole priority := by
  induction hole using Nat.strongRecOn generalizing heap with
  | ind hole ih =>
    have htop : priorityQTopSlot = 1 := rfl
    rw [percolateUp, percolateUp.eq_def cmp']
    by_cases hhole : priorityQTopSlot < hole
    · rw [h (hole / 2) (by omega) (by omega), ih (hole / 2) (by omega)]
      intro i hi hlt
      rw [update_of_ne (by omega)]
      exact h i hi (by omega)
    · rw [if_neg fun h => hhole h.1, if_neg fun h => hhole h.1]

theorem percolateDown_congr {priority : P} {lastSlot : Nat} (heap : Nat → PriorityQEntry P D) (hole : Nat) (hpos : 0 < hole)
    (h : ∀ i j, hole < i → i ≤ lastSlot → hole < j → j ≤ lastSlot → i ≠ j →
      cmp (heap i).priority (heap j).priority = cmp' (heap i).priority (heap j).priority)
    (hlast : ∀ i, hole < i → i ≤ lastSlot → cmp priority (heap i).priority = cmp' priority (heap i).priority) :
    percolateDown cmp heap lastSlot hole priority hpos = percolateDown cmp' heap lastSlot hole priority hpos := by
  -- the slots behind the hole are those of the heap before the loop
  induction hm : lastSlot - hole using Nat.strongRecOn generalizing heap hole with
  | ind m ih =>
    rw [percolateDown, percolateDown.eq_def cmp']
    by_cases hle : hole * 2 ≤ lastSlot
    · have hchild : percolateChild cmp heap lastSlot hole = percolateChild cmp' heap lastSlot hole := by
        unfold percolateChild
        by_cases hne : hole * 2 = lastSlot
        · rw [if_neg fun h => h.1 hne, if_neg fun h => h.1 hne]
        · rw [h (hole * 2) (hole * 2 + 1) (by omega) hle (by omega) (by omega) (by omega)]
      have hrange : hole < percolateChild cmp' heap lastSlot hole ∧ percolateChild cmp' heap lastSlot hole ≤ lastSlot := by
        unfold percolateChild
        split <;> omega
      simp only [if_pos hle, hchild, hlast _ hrange.1 hrange.2]
      split
      case isFalse => rfl
      case isTrue =>
        refine ih _ (by omega) _ _ (by omega) ?_ ?_ rfl
        · intro i j hi hin hj hjn hij
          rw [update_of_ne (by omega), update_of_ne (by omega)]
          exact h i j (by omega) hin (by omega) hjn hij
        · intro i hi hin
          rw [update_of_ne (by omega)]
          exact hlast i (by omega) hin
    · rw [if_neg hle, if_neg hle]

theorem PriorityQ.enqueue_congr {q : PriorityQ P D} {datum : D} {priority : P}
    (h : ∀ e ∈ q.entries, cmp e.priority priority = cmp' e.priority priority) :
    q.enqueue cmp datum priority = q.enqueue cmp' datum priority := by
  have hup : percolateUp cmp q.heap q.nextSlot priority = percolateUp cmp' q.heap q.nextSlot priority :=
    percolateUp_congr _ _ fun i hi hlt => h _ (mem_bag.2 ⟨i, hi, by omega, rfl⟩)
  rw [PriorityQ.enqueue, PriorityQ.enqueue, hup]

/-- An entry is never compared with itself. -/
theorem PriorityQ.dequeue_congr {q : PriorityQ P D} {key : PriorityQEntry P D → κ} (hnodup : (q.entries.map key).Nodup)
    (h : ∀ e ∈ q.entries, ∀ f ∈ q.entries, key e ≠ key f → cmp e.priority f.priority = cmp' e.priority f.priority) :
    q.dequeue cmp = q.dequeue cmp' := by
  have hslots : ∀ i j, 1 ≤ i → i < q.nextSlot → 1 ≤ j → j < q.nextSlot → i ≠ j →
      cmp (q.heap i).priority (q.heap j).priority = cmp' (q.heap i).priority (q.heap j).priority := by
    intro i j hi hin hj hjn hij
    exact h _ (mem_bag.2 ⟨i, hi, by omega, rfl⟩) _ (mem_bag.2 ⟨j, hj, by omega, rfl⟩)
      (bag_key_ne hnodup ⟨hi, by omega⟩ ⟨hj, by omega⟩ hij)
  have htop : priorityQTopSlot = 1 := rfl
  have hdown : percolateDown cmp q.heap (q.nextSlot - 1 - 1) priorityQTopSlot (q.heap (q.nextSlot - 1)).priority Nat.one_pos =
      percolateDown cmp' q.heap (q.nextSlot - 1 - 1) priorityQTopSlot (q.heap (q.nextSlot - 1)).priority Nat.one_pos := by
    refine percolateDown_congr _ _ _ ?_ ?_
    · intro i j hi hin hj hjn hij
      exact hslots i j (by omega) (by omega) (by omega) (by omega) hij
    · intro i hi hin
      exact hslots _ i (by omega) (by omega) (by omega) (by omega) (by omega)
  unfold PriorityQ.dequeue
  dsimp only
  rw [hdown]

end Agree

/-! ## Several entries with one datum -/

section Duplicates

variable {P D : Type*} {cmp : P → P → Int} [DecidableEq D]

namespace PriorityQ

/-- Remove takes an entry with the datum that no other one with the datum is in front of. -/
def RemovesLeast (cmp : P → P → Int) (q : PriorityQ P D) (datum : D) : Prop :=
  (q.remove cmp datum).1 = some datum ∧
    ∃ e, e.datum = datum ∧ q.entries = (q.remove cmp datum).2.entries + {e} ∧
      ∀ f ∈ q.entries, f.datum = datum → cmp e.priority f.priority ≤ 0

/-- Modify gives such an entry the new priority, and returns the old one. -/
def ModifiesLeast (cmp : P → P → Int) (q : PriorityQ P D) (datum : D) (newPriority : P) : Prop :=
  ∃ e s, e.datum = datum ∧ q.entries = s + {e} ∧
    (q.modify cmp datum newPriority).2.entries = s + {{ e with priority := newPriority }} ∧
    (q.modify cmp datum newPriority).1 = some e.priority ∧
    ∀ f ∈ q.entries, f.datum = datum → cmp e.priority f.priority ≤ 0

/-- In the order of the array, no entry with the datum is in front of the first one with it. -/
def FirstLeast (cmp : P → P → Int) (q : PriorityQ P D) (datum : D) : Prop :=
  ∀ i, 1 ≤ i → i < q.nextSlot → (q.heap i).datum = datum → (∀ j, 1 ≤ j → j < i → (q.heap j).datum ≠ datum) →
    ∀ k, i < k → k < q.nextSlot → (q.heap k).datum = datum → cmp (q.heap i).priority (q.heap k).priority ≤ 0

theorem firstLeast_iff (ho : TotalPreorder cmp) {q : PriorityQ P D} (hw : q.WF cmp) {datum : D} {hole : Nat}
    {hhole : 0 < hole} (hres : q.search datum priorityQTopSlot Nat.one_pos = some ⟨hole, hhole⟩) :
    q.FirstLeast cmp datum ↔ ∀ f ∈ q.entries, f.datum = datum → cmp (q.heap hole).priority f.priority ≤ 0 := by
  obtain ⟨hlt, hdatum, hfirst⟩ := search_eq_some hres
  have hnext := hw.next_pos
  constructor
  · rintro hleast f hf hfd
    obtain ⟨k, h1, h2, rfl⟩ := mem_bag.1 hf
    rcases lt_trichotomy k hole with hk | rfl | hk
    · exact absurd hfd (hfirst k h1 hk)
    · exact ho.entryLe_refl _
    · exact hleast hole hhole hlt hdatum hfirst k hk (by omega) hfd
  · intro hleast i h1 hi hid hbefore k hik hk hkd
    have hhi : hole = i := by
      rcases lt_trichotomy hole i with h | h | h
      · exact absurd hdatum (hbefore hole hhole h)
      · exact h
      · exact absurd hid (hfirst i h1 h)
    subst hhi
    exact hleast _ (mem_bag.2 ⟨k, by omega, by omega, rfl⟩) hkd

theorem exists_search {q : PriorityQ P D} {datum : D} (h : ∃ e ∈ q.entries, e.datum = datum) :
    ∃ hole hhole, q.search datum priorityQTopSlot Nat.one_pos = some ⟨hole, hhole⟩ ∧ (q.heap hole).datum = datum := by
  obtain ⟨e, he, hed⟩ := h
  rcases hres : q.search datum priorityQTopSlot Nat.one_pos with _ | ⟨hole, hhole⟩
  · exact absurd hed (entries_absent hres e he)
  · exact ⟨hole, hhole, rfl, (search_eq_some hres).2.1⟩

end PriorityQ

/-- In every queue that calls make from an empty one, and for every datum in it: remove and modify take an entry of the least
priority with the datum if and only if the first one in the array is such an entry. -/
theorem priorityQ_duplicates_iff (ho : TotalPreorder cmp) (heap : Nat → PriorityQEntry P D) (ops : List (PriorityQOp P D))
    (datum : D) (h : ∃ e ∈ ((priorityQInit heap).run cmp ops).2.entries, e.datum = datum) :
    let q := ((priorityQInit heap).run cmp ops).2
    (q.RemovesLeast cmp datum ↔ q.FirstLeast cmp datum) ∧
      ∀ newPriority, q.ModifiesLeast cmp datum newPriority ↔ q.FirstLeast cmp datum := by
  intro q
  have hw : q.WF cmp := (PriorityQ.run_spec ho ops (PriorityQ.WF.init heap)).1
  obtain ⟨hole, hhole, hres, hdatum⟩ := PriorityQ.exists_search h
  rw [PriorityQ.firstLeast_iff ho hw hres]
  constructor
  · obtain ⟨hreply, -, hentries⟩ := PriorityQ.remove_found ho hw hres
    constructor
    · rintro ⟨-, e, -, he, hleast⟩
      -- what was taken is what the search found
      have heq : e = q.heap hole := by simpa using add_left_cancel (he.symm.trans hentries)
      rwa [heq] at hleast
    · intro hleast
      exact ⟨hreply, q.heap hole, hdatum, hentries, hleast⟩
  · intro newPriority
    obtain ⟨hreply, -, s, hs, hafter⟩ := PriorityQ.modify_found ho hw hres newPriority
    constructor
    · rintro ⟨e, -, -, -, -, he, hleast⟩
      rw [hreply, Option.some.injEq] at he
      rwa [← he] at hleast
    · intro hleast
      exact ⟨q.heap hole, s, hdatum, hs, hafter, hreply, hleast⟩

end Duplicates

/-- A queue with the priority 1 for the datum 1 and two priorities for the datum 7. -/
def duplicatesQ (first second : Int) : PriorityQ Int Nat :=
  ((priorityQInit fun _ => ⟨0, 0⟩).run (· - ·) [.enqueue 1 1, .enqueue 7 first, .enqueue 7 second]).2

/-- The entries with the datum lie in the array in the order of their priorities. -/
theorem priorityQ_duplicates_sorted : (duplicatesQ 5 9).RemovesLeast (· - ·) 7 := by
  have hheap : (duplicatesQ 5 9).nextSlot = 4 ∧ (duplicatesQ 5 9).heap 1 = ⟨1, 1⟩ ∧ (duplicatesQ 5 9).heap 2 = ⟨5, 7⟩ ∧
      (duplicatesQ 5 9).heap 3 = ⟨9, 7⟩ := by
    decide +kernel
  obtain ⟨hnext, h1, h2, h3⟩ := hheap
  have hfirst : (duplicatesQ 5 9).FirstLeast (· - ·) 7 := by
    intro i hi hin hid hbefore k hik hk hkd
    rw [hnext] at hin hk
    obtain rfl : i = 2 := by
      rcases (by omega : i = 1 ∨ i = 2 ∨ i = 3) with rfl | rfl | rfl
      · rw [h1] at hid; cases hid
      · rfl
      · omega
    obtain rfl : k = 3 := by omega
    rw [h2, h3]
    decide
  exact (priorityQ_duplicates_iff ⟨fun a b => by omega, fun a b c => by omega⟩ _ _ 7
    ⟨⟨5, 7⟩, mem_bag.2 ⟨2, by omega, by decide +kernel, h2⟩, rfl⟩).1.2 hfirst

/-- The datum with the priorities 9 and 5 in the slots 2 and 3: the entry with 9 is taken. -/
theorem priorityQ_remove_later :
    TotalPreorder (fun a b : Int => a - b) ∧ (⟨5, 7⟩ : PriorityQEntry Int Nat) ∈ (duplicatesQ 9 5).entries ∧
      (duplicatesQ 9 5).entries = ((duplicatesQ 9 5).remove (· - ·) 7).2.entries + {⟨9, 7⟩} ∧
      ¬ (duplicatesQ 9 5).RemovesLeast (· - ·) 7 := by
  have hmem : (⟨5, 7⟩ : PriorityQEntry Int Nat) ∈ (duplicatesQ 9 5).entries := by decide +kernel
  have hentries : (duplicatesQ 9 5).entries = ((duplicatesQ 9 5).remove (· - ·) 7).2.entries + {⟨9, 7⟩} := by decide +kernel
  refine ⟨⟨fun a b => by omega, fun a b c => by omega⟩, hmem, hentries, ?_⟩
  rintro ⟨-, e, -, he, hleast⟩
  have heq : e = ⟨9, 7⟩ := by simpa using add_left_cancel (he.symm.trans hentries)
  subst heq
  exact absurd (hleast _ hmem rfl) (by decide)

end Globus
