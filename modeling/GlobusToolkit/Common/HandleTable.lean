/-
Handle tables (common/source/library/globus_handle_table.c). An entry is a record in memory that knows its
slot, its reference count and its value; `table` has the entries bound to slots, and the entries whose count
has reached zero are linked through `pnext` from `inactive`, to be bound again to their slot by a later
insert. Allocation succeeds, a new entry has an address that no entry had before, and counts do not
overflow. Calls can be made with any number as handle.

A lifetime begins when a value is inserted. It ends when the reference count that its calls add up to is no
longer positive, and then the value is passed to the destructor.
-/
import GlobusToolkit.Lib.Linked
import GlobusToolkit.Lib.Slots

namespace Globus

open Lib List Function

/-! ## The data -/

/-- `globus_l_handle_entry_t`; `pnext` is the address of the next inactive entry. -/
structure HandleEntry (V : Type*) where
  index : Nat
  ref : Int
  value : V
  pnext : Option Nat

/-- `globus_l_handle_table_t`, with the entries in memory by their addresses. `fresh` is the first address
that was not allocated yet. -/
structure HandleTable (V : Type*) where
  table : Nat → Option Nat
  mem : Nat → HandleEntry V
  fresh : Nat
  nextSlot : Nat
  tableSize : Nat
  inactive : Option Nat
  destructor : Bool

def handleTableBlockSize : Nat := 100

/-- `GLOBUS_NULL_HANDLE`. -/
def nullHandle : Int := 0

section Functions

variable {V : Type*}

/-- `globus_handle_table_init`, with what is in memory. -/
def handleTableInit (table : Nat → Option Nat) (mem : Nat → HandleEntry V) (destructor : Bool) : HandleTable V where
  table
  mem
  fresh := 0
  nextSlot := 1
  tableSize := handleTableBlockSize
  inactive := none
  destructor

namespace HandleTable

/-- The entry bound to a handle, as every call looks it up. -/
def entry (t : HandleTable V) (handle : Int) : Option Nat :=
  if nullHandle < handle ∧ handle < t.nextSlot then t.table handle.toNat else none

/-- `globus_handle_table_insert`: the handle, and the table afterwards. -/
def insert (t : HandleTable V) (value : V) (initialRefs : Int) : Int × HandleTable V :=
  match t.inactive with
  | some a =>
    let entry := t.mem a
    (entry.index, { t with
      inactive := entry.pnext
      table := update t.table entry.index (some a)
      mem := update t.mem a { entry with value, ref := initialRefs } })
  | none =>
    let tableSize := if t.nextSlot = t.tableSize then t.tableSize + handleTableBlockSize else t.tableSize
    let entry := t.mem t.fresh
    (t.nextSlot, { t with
      tableSize
      fresh := t.fresh + 1
      nextSlot := t.nextSlot + 1
      table := update t.table t.nextSlot (some t.fresh)
      mem := update t.mem t.fresh { entry with index := t.nextSlot, value, ref := initialRefs } })

/-- `globus_handle_table_increment_reference_by`. -/
def incrementReferenceBy (t : HandleTable V) (handle : Int) (inc : Nat) : Bool × HandleTable V :=
  match t.entry handle with
  | some a => (true, { t with mem := update t.mem a { t.mem a with ref := (t.mem a).ref + inc } })
  | none => (false, t)

/-- `globus_handle_table_increment_reference`. -/
def incrementReference (t : HandleTable V) (handle : Int) : Bool × HandleTable V :=
  t.incrementReferenceBy handle 1

/-- `globus_handle_table_decrement_reference`: the values passed to the destructor are the last
component. -/
def decrementReference (t : HandleTable V) (handle : Int) : Bool × HandleTable V × List V :=
  match t.entry handle with
  | some a =>
    let entry := { t.mem a with ref := (t.mem a).ref - 1 }
    if entry.ref = 0 then
      (false,
        { t with
          table := update t.table handle.toNat none
          mem := update t.mem a { entry with pnext := t.inactive }
          inactive := some a },
        if t.destructor then [entry.value] else [])
    else (true, { t with mem := update t.mem a entry }, [])
  | none => (false, t, [])

/-- `globus_handle_table_lookup`. -/
def lookup (t : HandleTable V) (handle : Int) : Option V := (t.entry handle).map fun a => (t.mem a).value

/-- The loop of `globus_handle_table_destroy` over the slots up to `i`: the values passed to the
destructor. -/
def destroyLoop (t : HandleTable V) : Nat → List V
  | 0 => []
  | i + 1 =>
    (match t.table (i + 1) with
      | some a => if t.destructor then [(t.mem a).value] else []
      | none => []) ++ t.destroyLoop i

/-- `globus_handle_table_destroy`. -/
def destroy (t : HandleTable V) : List V := t.destroyLoop (t.nextSlot - 1)

end HandleTable

end Functions

/-! ## Well-formed tables -/

section WellFormed

variable {V : Type*} {t : HandleTable V} {inactiveList : List Nat}

namespace HandleTable

/-- What is bound to a slot: the value and the reference count. -/
def view (t : HandleTable V) (i : Nat) : Option (V × Int) :=
  if 1 ≤ i ∧ i < t.nextSlot then (t.table i).map fun a => ((t.mem a).value, (t.mem a).ref) else none

/-- Bound entries know their slot and have a positive count; the inactive entries are a list, of different
slots that nothing is bound to. -/
structure WF (t : HandleTable V) (inactiveList : List Nat) : Prop where
  next_pos : 1 ≤ t.nextSlot
  next_le : t.nextSlot ≤ t.tableSize
  bound_ok : ∀ i a, 1 ≤ i → i < t.nextSlot → t.table i = some a →
    a < t.fresh ∧ (t.mem a).index = i ∧ 0 < (t.mem a).ref
  inactive_seg : Seg (fun a => (t.mem a).pnext) t.inactive inactiveList none
  inactive_ok : ∀ a ∈ inactiveList, a < t.fresh ∧ 1 ≤ (t.mem a).index ∧ (t.mem a).index < t.nextSlot ∧
    t.table (t.mem a).index = none
  inactive_nodup : (inactiveList.map fun a => (t.mem a).index).Nodup

theorem WF.init (table : Nat → Option Nat) (mem : Nat → HandleEntry V) (destructor : Bool) :
    (handleTableInit table mem destructor).WF [] where
  next_pos := le_refl _
  next_le := by show 1 ≤ 100; omega
  bound_ok i a h1 h2 := by have : i < 1 := h2; omega
  inactive_seg := rfl
  inactive_ok := by simp
  inactive_nodup := by simp

theorem entry_eq (t : HandleTable V) (handle : Int) :
    t.entry handle = if 1 ≤ handle.toNat ∧ handle.toNat < t.nextSlot then t.table handle.toNat else none := by
  have hnull : nullHandle = 0 := rfl
  unfold entry
  congr 1
  rw [hnull, eq_iff_iff]
  omega

theorem view_eq (t : HandleTable V) (handle : Int) :
    t.view handle.toNat = (t.entry handle).map fun a => ((t.mem a).value, (t.mem a).ref) := by
  rw [t.entry_eq, view]
  split <;> rfl

theorem lookup_eq (t : HandleTable V) (handle : Int) :
    t.lookup handle = (t.view handle.toNat).map Prod.fst := by
  rw [t.view_eq, lookup, Option.map_map]
  rfl

theorem view_eq_none (t : HandleTable V) {i : Nat} (hi : t.nextSlot ≤ i) : t.view i = none :=
  if_neg (by omega)

theorem WF.not_mem_inactive {i a : Nat} (hw : t.WF inactiveList) (hi : 1 ≤ i ∧ i < t.nextSlot)
    (ha : t.table i = some a) : a ∉ inactiveList := by
  intro hmem
  have hnone := (hw.inactive_ok a hmem).2.2.2
  rw [(hw.bound_ok i a hi.1 hi.2 ha).2.1, ha] at hnone
  cases hnone

theorem WF.inactive_of_none (hw : t.WF inactiveList) (h : t.inactive = none) : inactiveList = [] := by
  have hseg := hw.inactive_seg
  rw [h] at hseg
  cases inactiveList with
  | nil => rfl
  | cons b rest => cases hseg.1

theorem WF.inactive_of_some (hw : t.WF inactiveList) {a : Nat} (h : t.inactive = some a) :
    ∃ rest, inactiveList = a :: rest ∧ Seg (fun a => (t.mem a).pnext) (t.mem a).pnext rest none := by
  have hseg := hw.inactive_seg
  rw [h] at hseg
  cases inactiveList with
  | nil => cases hseg
  | cons b rest =>
    cases hseg.1
    exact ⟨rest, rfl, hseg.2⟩

/-! ## Writing one entry and its slot -/

/-- `t'` is `t` with the entry at `a` written, and the slot of the entry set to `c`. -/
structure Writes (t t' : HandleTable V) (i a : Nat) (c : Option Nat) (e : HandleEntry V) : Prop where
  table : t'.table = update t.table i c
  mem : t'.mem = update t.mem a e
  addr : a < t'.fresh
  fresh : t.fresh ≤ t'.fresh
  slot : 1 ≤ i ∧ i < t'.nextSlot
  next : ∀ j, j ≠ i → (j < t'.nextSlot ↔ j < t.nextSlot)
  next_le : t'.nextSlot ≤ t'.tableSize
  index : e.index = i
  -- the entry is bound to no other slot
  other : ∀ j b, j ≠ i → 1 ≤ j → j < t.nextSlot → t.table j = some b → b ≠ a
  cell : ∀ b, c = some b → b = a ∧ 0 < e.ref

end HandleTable

section Writes

variable {t' : HandleTable V} {i a : Nat} {c : Option Nat} {e : HandleEntry V}

variable (h : t.Writes t' i a c e)
include h

namespace HandleTable

theorem Writes.view_eq :
    t'.view = update t.view i (c.map fun _ => (e.value, e.ref)) := by
  funext j
  unfold view
  rw [h.table, h.mem]
  by_cases hj : j = i
  · subst hj
    rw [if_pos h.slot, update_self, update_self]
    refine Option.map_congr fun b hb => ?_
    rw [(h.cell b hb).1, update_self]
  · rw [update_of_ne hj, update_of_ne hj]
    by_cases hin : 1 ≤ j ∧ j < t.nextSlot
    · rw [if_pos hin, if_pos ⟨hin.1, (h.next j hj).2 hin.2⟩]
      refine Option.map_congr fun b hb => ?_
      rw [update_of_ne (h.other j b hj hin.1 hin.2 hb)]
    · rw [if_neg hin, if_neg fun hin' => hin ⟨hin'.1, (h.next j hj).1 hin'.2⟩]

theorem Writes.bound_ok (hw : t.WF inactiveList) (j b : Nat) (hj1 : 1 ≤ j)
    (hj2 : j < t'.nextSlot) (hjb : t'.table j = some b) :
    b < t'.fresh ∧ (t'.mem b).index = j ∧ 0 < (t'.mem b).ref := by
  rw [h.table] at hjb
  rw [h.mem]
  by_cases hj : j = i
  · subst hj
    rw [update_self] at hjb
    obtain ⟨rfl, href⟩ := h.cell b hjb
    rw [update_self]
    exact ⟨h.addr, h.index, href⟩
  · rw [update_of_ne hj] at hjb
    have hj2' := (h.next j hj).1 hj2
    obtain ⟨h1, h2⟩ := hw.bound_ok j b hj1 hj2' hjb
    rw [update_of_ne (h.other j b hj hj1 hj2' hjb)]
    exact ⟨lt_of_lt_of_le h1 h.fresh, h2⟩

theorem Writes.inactive_ok (hw : t.WF inactiveList) {b : Nat}
    (hb : b ∈ inactiveList) (hba : b ≠ a) (hbi : (t.mem b).index ≠ i) :
    b < t'.fresh ∧ 1 ≤ (t'.mem b).index ∧ (t'.mem b).index < t'.nextSlot ∧ t'.table (t'.mem b).index = none := by
  obtain ⟨h1, h2, h3, h4⟩ := hw.inactive_ok b hb
  rw [h.mem, h.table, update_of_ne hba, update_of_ne hbi]
  exact ⟨lt_of_lt_of_le h1 h.fresh, h2, (h.next _ hbi).2 h3, h4⟩

theorem Writes.map_index {l : List Nat} (ha : a ∉ l) :
    (l.map fun b => (t'.mem b).index) = l.map fun b => (t.mem b).index := by
  refine map_congr_left fun b hb => ?_
  rw [h.mem, update_of_ne (ne_of_mem_of_not_mem hb ha)]

theorem Writes.seg {p : Option Nat} {l : List Nat} (ha : a ∉ l)
    (hseg : Seg (fun b => (t.mem b).pnext) p l none) : Seg (fun b => (t'.mem b).pnext) p l none := by
  refine hseg.congr fun b hb => ?_
  rw [h.mem, update_of_ne (ne_of_mem_of_not_mem hb ha)]

/-- The list of inactive entries is the same and has neither the entry nor its slot. -/
theorem Writes.wf (hw : t.WF inactiveList) {rest : List Nat}
    (hseg : Seg (fun b => (t.mem b).pnext) t'.inactive rest none) (hsub : rest.Sublist inactiveList)
    (ha : a ∉ rest) (hi : ∀ b ∈ rest, (t.mem b).index ≠ i) : t'.WF rest where
  next_pos := by have := h.slot; omega
  next_le := h.next_le
  bound_ok := h.bound_ok hw
  inactive_seg := h.seg ha hseg
  inactive_ok b hb := h.inactive_ok hw (hsub.subset hb) (ne_of_mem_of_not_mem hb ha) (hi b hb)
  inactive_nodup := by
    rw [h.map_index ha]
    exact hw.inactive_nodup.sublist (hsub.map _)

end HandleTable

end Writes

namespace HandleTable

theorem WF.writes_bound (hw : t.WF inactiveList) {i a : Nat} (hi : 1 ≤ i ∧ i < t.nextSlot)
    (ha : t.table i = some a) (t' : HandleTable V) {c : Option Nat} {e : HandleEntry V}
    (htable : t'.table = update t.table i c) (hmem : t'.mem = update t.mem a e)
    (hfresh : t'.fresh = t.fresh) (hnext : t'.nextSlot = t.nextSlot) (hsize : t'.tableSize = t.tableSize)
    (hindex : e.index = (t.mem a).index) (hcell : ∀ b, c = some b → b = a ∧ 0 < e.ref) : t.Writes t' i a c e where
  table := htable
  mem := hmem
  addr := by rw [hfresh]; exact (hw.bound_ok i a hi.1 hi.2 ha).1
  fresh := hfresh.ge
  slot := by rw [hnext]; exact hi
  next j _ := by rw [hnext]
  next_le := by rw [hnext, hsize]; exact hw.next_le
  index := hindex.trans (hw.bound_ok i a hi.1 hi.2 ha).2.1
  other j b hj hj1 hj2 hjb := by
    rintro rfl
    exact hj ((hw.bound_ok j b hj1 hj2 hjb).2.1.symm.trans (hw.bound_ok i b hi.1 hi.2 ha).2.1)
  cell := hcell

theorem WF.index_ne (hw : t.WF inactiveList) {i a : Nat} (ha : t.table i = some a) {b : Nat}
    (hb : b ∈ inactiveList) : (t.mem b).index ≠ i := by
  rintro rfl
  rw [(hw.inactive_ok b hb).2.2.2] at ha
  cases ha

/-! ## One call -/

theorem insert_spec (hw : t.WF inactiveList) (value : V) {initialRefs : Int} (hrefs : 0 < initialRefs) :
    ∃ (i : Nat) (rest : List Nat), (t.insert value initialRefs).1 = i ∧ 1 ≤ i ∧
      i < (t.insert value initialRefs).2.nextSlot ∧ t.view i = none ∧
      (t.insert value initialRefs).2.WF rest ∧
      (t.insert value initialRefs).2.view = update t.view i (some (value, initialRefs)) ∧
      t.nextSlot ≤ (t.insert value initialRefs).2.nextSlot ∧
      (t.insert value initialRefs).2.destructor = t.destructor := by
  unfold insert
  split
  · next a hina =>
    -- the first inactive entry is bound again
    obtain ⟨rest, rfl, hseg⟩ := hw.inactive_of_some hina
    obtain ⟨hfresh, hi1, hi2, hnone⟩ := hw.inactive_ok a (by simp)
    have hnodup := nodup_cons.1 hw.inactive_nodup
    have hidx : ∀ b ∈ rest, (t.mem b).index ≠ (t.mem a).index := fun b hb heq =>
      hnodup.1 (mem_map.2 ⟨b, hb, heq⟩)
    set t' : HandleTable V := { t with
      inactive := (t.mem a).pnext
      table := update t.table (t.mem a).index (some a)
      mem := update t.mem a { t.mem a with value, ref := initialRefs } } with ht'
    have hwrites : t.Writes t' (t.mem a).index a (some a) { t.mem a with value, ref := initialRefs } :=
      { table := rfl, mem := rfl, addr := hfresh, fresh := le_rfl, slot := ⟨hi1, hi2⟩, next := fun j _ => Iff.rfl
        next_le := hw.next_le, index := rfl
        other := fun j b _ hj1 hj2 hjb hba => hw.not_mem_inactive ⟨hj1, hj2⟩ (hba ▸ hjb) (by simp)
        cell := fun b hb => ⟨(Option.some.inj hb).symm, hrefs⟩ }
    refine ⟨(t.mem a).index, rest, rfl, hi1, hi2, ?_, ?_, hwrites.view_eq, le_rfl, rfl⟩
    · simp [view, hnone]
    · exact hwrites.wf hw hseg (sublist_cons_self a rest) (fun ha => hidx a ha rfl) hidx
  · next hina =>
    -- a new entry, for the next slot
    obtain rfl := hw.inactive_of_none hina
    have hpos := hw.next_pos
    have hle := hw.next_le
    set t' : HandleTable V := { t with
      tableSize := if t.nextSlot = t.tableSize then t.tableSize + handleTableBlockSize else t.tableSize
      fresh := t.fresh + 1
      nextSlot := t.nextSlot + 1
      table := update t.table t.nextSlot (some t.fresh)
      mem := update t.mem t.fresh { t.mem t.fresh with index := t.nextSlot, value, ref := initialRefs } }
      with ht'
    have hwrites : t.Writes t' t.nextSlot t.fresh (some t.fresh)
        { t.mem t.fresh with index := t.nextSlot, value, ref := initialRefs } :=
      { table := rfl, mem := rfl, addr := by simp [ht'], fresh := by simp [ht'], slot := by simp [ht', hpos]
        next := fun j hj => by simp only [ht']; omega
        next_le := by
          have hblock : handleTableBlockSize = 100 := rfl
          simp only [ht']
          split <;> omega
        index := rfl
        other := fun j b _ hj1 hj2 hjb => by have := (hw.bound_ok j b hj1 hj2 hjb).1; omega
        cell := fun b hb => ⟨(Option.some.inj hb).symm, hrefs⟩ }
    refine ⟨t.nextSlot, [], rfl, hpos, by simp, t.view_eq_none le_rfl, ?_, hwrites.view_eq, by simp, rfl⟩
    exact hwrites.wf hw (by simpa [ht'] using hina) (List.Sublist.refl _) (by simp) (by simp)

end HandleTable

/-- The count of a binding changes by `d`; one that is no longer positive ends it. -/
def bump (d : Int) (b : V × Int) : Option (V × Int) := if 0 < b.2 + d then some (b.1, b.2 + d) else none

/-- The value of a binding that `bump` ends. -/
def dropped (d : Int) : Option (V × Int) → List V
  | some b => if 0 < b.2 + d then [] else [b.1]
  | none => []

namespace HandleTable

theorem entry_eq_some {handle : Int} {a : Nat} (h : t.entry handle = some a) :
    (1 ≤ handle.toNat ∧ handle.toNat < t.nextSlot) ∧ t.table handle.toNat = some a := by
  rw [t.entry_eq] at h
  split at h
  · next hin => exact ⟨hin, h⟩
  · cases h

/-- What a call did that changes the count of a handle by `d` and passed `values` to the destructor. -/
structure Changes (t t' : HandleTable V) (handle d : Int) (values : List V) : Prop where
  wf : ∃ l, t'.WF l
  view_eq : t'.view = update t.view handle.toNat ((t.view handle.toNat).bind (bump d))
  values_eq : values = if t.destructor then dropped d (t.view handle.toNat) else []
  next : t'.nextSlot = t.nextSlot
  destructor : t'.destructor = t.destructor

theorem Changes.of_entry_none (hw : t.WF inactiveList) {handle : Int} (h : t.entry handle = none)
    (d : Int) : t.Changes t handle d [] := by
  have hview : t.view handle.toNat = none := by rw [t.view_eq, h]; rfl
  refine ⟨⟨_, hw⟩, ?_, ?_, rfl, rfl⟩
  · rw [hview]
    exact (update_eq_self_iff.2 hview.symm).symm
  · rw [hview]
    exact (ite_self _).symm

theorem Changes.of_pos (hw : t.WF inactiveList) {handle d : Int} {a : Nat} (h : t.entry handle = some a)
    (hd : 0 < (t.mem a).ref + d) :
    t.Changes { t with mem := update t.mem a { t.mem a with ref := (t.mem a).ref + d } } handle d [] := by
  obtain ⟨hin, ha⟩ := entry_eq_some h
  have hview : t.view handle.toNat = some ((t.mem a).value, (t.mem a).ref) := by rw [t.view_eq, h]; rfl
  have hwrites := hw.writes_bound hin ha
    { t with mem := update t.mem a { t.mem a with ref := (t.mem a).ref + d } }
    (c := some a) (update_eq_self_iff.2 ha.symm).symm rfl rfl rfl rfl rfl
    (fun b hb => ⟨(Option.some.inj hb).symm, hd⟩)
  refine ⟨⟨inactiveList, ?_⟩, ?_, ?_, rfl, rfl⟩
  · exact hwrites.wf hw hw.inactive_seg (List.Sublist.refl _) (hw.not_mem_inactive hin ha) fun b hb => hw.index_ne ha hb
  · rw [hwrites.view_eq, hview]
    simp [bump, hd]
  · rw [hview]
    simp [dropped, hd]

theorem incrementReferenceBy_spec (hw : t.WF inactiveList) (handle : Int) (inc : Nat) :
    t.Changes (t.incrementReferenceBy handle inc).2 handle inc [] := by
  unfold incrementReferenceBy
  split
  · next a hentry =>
    obtain ⟨hin, ha⟩ := entry_eq_some hentry
    have hpos := (hw.bound_ok _ a hin.1 hin.2 ha).2.2
    exact .of_pos hw hentry (by omega)
  · next hentry => exact HandleTable.Changes.of_entry_none hw hentry inc

theorem decrementReference_spec (hw : t.WF inactiveList) (handle : Int) :
    t.Changes (t.decrementReference handle).2.1 handle (-1) (t.decrementReference handle).2.2 := by
  unfold decrementReference
  split
  · next a hentry =>
    obtain ⟨hin, ha⟩ := entry_eq_some hentry
    have hpos := (hw.bound_ok _ a hin.1 hin.2 ha).2.2
    have hview : t.view handle.toNat = some ((t.mem a).value, (t.mem a).ref) := by rw [t.view_eq, hentry]; rfl
    have hnot := hw.not_mem_inactive hin ha
    dsimp only
    split
    · next hzero =>
      -- the slot becomes free and the entry the first inactive one
      have hwrites := hw.writes_bound hin ha
        { t with
          table := update t.table handle.toNat none
          mem := update t.mem a { t.mem a with ref := (t.mem a).ref - 1, pnext := t.inactive }
          inactive := some a }
        (c := none) rfl rfl rfl rfl rfl rfl (by simp)
      refine ⟨⟨a :: inactiveList, ?_⟩, ?_, ?_, rfl, rfl⟩
      · have hidx : (update t.mem a
            { t.mem a with ref := (t.mem a).ref - 1, pnext := t.inactive } a).index = handle.toNat := by
          rw [update_self]; exact hwrites.index
        refine ⟨hw.next_pos, hw.next_le, hwrites.bound_ok hw, ⟨rfl, ?_⟩, ?_, ?_⟩
        · dsimp only
          rw [update_self]
          exact hwrites.seg hnot hw.inactive_seg
        · intro b hb
          rcases mem_cons.1 hb with rfl | hb
          · dsimp only
            rw [hidx, update_self]
            exact ⟨hwrites.addr, hin.1, hin.2, rfl⟩
          · exact hwrites.inactive_ok hw hb (ne_of_mem_of_not_mem hb hnot) (hw.index_ne ha hb)
        · rw [map_cons, hwrites.map_index hnot]
          refine nodup_cons.2 ⟨fun hmem => ?_, hw.inactive_nodup⟩
          obtain ⟨b, hb, heq⟩ := mem_map.1 hmem
          exact hw.index_ne ha hb (heq.trans hidx)
      · rw [hwrites.view_eq, hview]
        simp [bump, show ¬ 0 < (t.mem a).ref + -1 by omega]
      · rw [hview]
        simp [dropped, show ¬ 0 < (t.mem a).ref + -1 by omega]
    · next hnz =>
      have : (t.mem a).ref - 1 ≠ 0 := hnz
      exact .of_pos hw hentry (by omega)
  · next hentry => exact HandleTable.Changes.of_entry_none hw hentry _

/-! ## Destroying the table -/

end HandleTable

/-- The values bound to the slots. -/
def boundValues : Option (V × Int) → Multiset V
  | some b => {b.1}
  | none => 0

namespace HandleTable

def values (t : HandleTable V) : Multiset V := slotSum boundValues t.view (t.nextSlot - 1)

theorem values_eq (t : HandleTable V) {n : Nat} (hn : t.nextSlot ≤ n + 1) :
    slotSum boundValues t.view n = t.values := by
  refine slotSum_extend (by omega) fun i hi => ?_
  rw [t.view_eq_none (by omega)]
  rfl

theorem coe_destroyLoop (hd : t.destructor = true) :
    ∀ n, n < t.nextSlot → (t.destroyLoop n : Multiset V) = slotSum boundValues t.view n
  | 0, _ => rfl
  | n + 1, hn => by
    have ih := coe_destroyLoop hd n (by omega)
    rw [destroyLoop, ← Multiset.coe_add, ih, slotSum_succ, add_comm]
    congr 1
    unfold view
    rw [if_pos (by omega)]
    cases t.table (n + 1) with
    | none => rfl
    | some a => simp [hd, boundValues]

theorem coe_destroy (hd : t.destructor = true) (hpos : 1 ≤ t.nextSlot) :
    (t.destroy : Multiset V) = t.values :=
  t.coe_destroyLoop hd _ (by omega)

/-- What a change of count drops is no longer bound. -/
theorem Changes.values_add {t' : HandleTable V} {handle d : Int} {l : List V}
    (h : t.Changes t' handle d l) : t'.values + dropped d (t.view handle.toNat) = t.values := by
  by_cases hin : 1 ≤ handle.toNat ∧ handle.toNat ≤ t.nextSlot - 1
  · obtain ⟨s, hs, hupd⟩ := exists_slotSum_eq boundValues t.view hin
    have hvals : t'.values = s + boundValues ((t.view handle.toNat).bind (bump d)) := by
      rw [← hupd, values, h.view_eq, h.next]
    rw [hvals, values, hs, add_assoc]
    congr 1
    cases t.view handle.toNat with
    | none => rfl
    | some b =>
      by_cases hb : 0 < b.2 + d
      · simp [bump, dropped, boundValues, hb]
      · simp [bump, dropped, boundValues, hb]
  · have hnone : t.view handle.toNat = none := if_neg (by omega)
    have hview : t'.view = t.view := by
      rw [h.view_eq, hnone]
      exact update_eq_self_iff.2 hnone.symm
    rw [hnone, values, values, hview, h.next]
    exact add_zero _

end HandleTable

end WellFormed

/-! ## Lifetimes -/

/-- A lifetime of a value, from its insert on: the changes of its count, the newest first. -/
structure Lifetime (V : Type*) where
  handle : Int
  value : V
  initialRefs : Int
  changes : List Int

section Lifetimes

variable {V : Type*}

/-- Initial references, increments and decrements. -/
def Lifetime.count (l : Lifetime V) : Int := l.initialRefs + l.changes.sum

/-- The count has been positive since the insert. -/
def Lifetime.Alive (l : Lifetime V) : Prop := ∀ past ∈ l.changes.tails, 0 < l.initialRefs + past.sum

instance (l : Lifetime V) : Decidable l.Alive :=
  inferInstanceAs (Decidable (∀ past ∈ l.changes.tails, 0 < l.initialRefs + past.sum))

/-- A call changes the count by `d`. -/
def Lifetime.change (l : Lifetime V) (d : Int) : Lifetime V := { l with changes := d :: l.changes }

/-- The lifetimes after a call with a handle: it is about the newest lifetime of the handle. -/
def touch (handle d : Int) : List (Lifetime V) → List (Lifetime V)
  | [] => []
  | l :: rest => if l.handle = handle then l.change d :: rest else l :: touch handle d rest

/-- The newest lifetime of a handle. -/
def newest (lifetimes : List (Lifetime V)) (handle : Int) : Option (Lifetime V) :=
  lifetimes.find? fun l => decide (l.handle = handle)

/-- What the handle should be bound to. -/
def binding (lifetimes : List (Lifetime V)) (handle : Int) : Option (V × Int) :=
  ((newest lifetimes handle).filter fun l => decide l.Alive).map fun l => (l.value, l.count)

def liveValues (lifetimes : List (Lifetime V)) : List V :=
  (lifetimes.filter fun l => decide l.Alive).map Lifetime.value

def endedValues (lifetimes : List (Lifetime V)) : List V :=
  (lifetimes.filter fun l => decide ¬ l.Alive).map Lifetime.value

namespace Lifetime

theorem alive_change (l : Lifetime V) (d : Int) : (l.change d).Alive ↔ l.Alive ∧ 0 < l.count + d := by
  simp only [change, Lifetime.Alive, count, tails_cons, forall_mem_cons, sum_cons]
  rw [and_comm, show l.initialRefs + (d + l.changes.sum) = l.initialRefs + l.changes.sum + d by ring]

theorem count_change (l : Lifetime V) (d : Int) : (l.change d).count = l.count + d := by
  simp only [change, count, sum_cons]
  ring

theorem alive_nil (handle : Int) (value : V) {initialRefs : Int} (h : 0 < initialRefs) :
    (⟨handle, value, initialRefs, []⟩ : Lifetime V).Alive := by
  simpa [Lifetime.Alive] using h

end Lifetime

theorem newest_cons (l : Lifetime V) (rest : List (Lifetime V)) (handle : Int) :
    newest (l :: rest) handle = if l.handle = handle then some l else newest rest handle := by
  unfold newest
  rw [find?_cons]
  split <;> simp_all

theorem newest_touch (handle d : Int) (other : Int) : ∀ lifetimes : List (Lifetime V),
    newest (touch handle d lifetimes) other =
      if other = handle then (newest lifetimes handle).map (·.change d) else newest lifetimes other
  | [] => by simp [newest, touch]
  | l :: rest => by
    rw [touch, newest_cons, newest_cons]
    by_cases hl : l.handle = handle
    · rw [if_pos hl, if_pos hl, newest_cons, show (l.change d).handle = handle from hl]
      by_cases ho : other = handle
      · rw [if_pos ho, if_pos ho.symm]; rfl
      · rw [if_neg ho, if_neg (Ne.symm ho), if_neg (hl ▸ Ne.symm ho)]
    · rw [if_neg hl, if_neg hl, newest_cons, newest_touch handle d other rest]
      by_cases ho : other = handle
      · rw [if_pos ho, if_pos ho, if_neg (ho ▸ hl)]
      · rw [if_neg ho, if_neg ho]

theorem binding_touch (handle d : Int) (lifetimes : List (Lifetime V)) :
    binding (touch handle d lifetimes) =
      update (binding lifetimes) handle ((binding lifetimes handle).bind (bump d)) := by
  funext other
  unfold binding
  rw [newest_touch]
  by_cases ho : other = handle
  · subst ho
    rw [if_pos rfl, update_self]
    cases newest lifetimes other with
    | none => rfl
    | some l =>
      by_cases ha : l.Alive
      · by_cases hc : 0 < l.count + d
        · have hchange := (l.alive_change d).2 ⟨ha, hc⟩
          simp [Option.filter, ha, hchange, bump, hc, l.count_change, show (l.change d).value = l.value from rfl]
        · have hchange : ¬ (l.change d).Alive := fun h => hc ((l.alive_change d).1 h).2
          simp [Option.filter, ha, hchange, bump, hc]
      · have hchange : ¬ (l.change d).Alive := fun h => ha ((l.alive_change d).1 h).1
        simp [Option.filter, ha, hchange]
  · rw [if_neg ho, update_of_ne ho]

theorem binding_cons (l : Lifetime V) (rest : List (Lifetime V)) (handle : Int) :
    binding (l :: rest) handle =
      if l.handle = handle then if l.Alive then some (l.value, l.count) else none else binding rest handle := by
  unfold binding
  rw [newest_cons]
  split
  · by_cases ha : l.Alive <;> simp [Option.filter, ha]
  · rfl

theorem coe_liveValues_cons (l : Lifetime V) (rest : List (Lifetime V)) :
    (liveValues (l :: rest) : Multiset V) = (if l.Alive then {l.value} else 0) + liveValues rest := by
  by_cases ha : l.Alive <;> simp [liveValues, ha]

theorem coe_endedValues_cons (l : Lifetime V) (rest : List (Lifetime V)) :
    (endedValues (l :: rest) : Multiset V) = (if l.Alive then 0 else {l.value}) + endedValues rest := by
  by_cases ha : l.Alive <;> simp [endedValues, ha]

/-- The value whose count is no longer positive goes from the live ones to the ended ones. -/
theorem values_touch (handle d : Int) : ∀ lifetimes : List (Lifetime V),
    ((liveValues (touch handle d lifetimes) : Multiset V) + dropped d (binding lifetimes handle) =
      liveValues lifetimes) ∧
    (endedValues (touch handle d lifetimes) : Multiset V) =
      endedValues lifetimes + dropped d (binding lifetimes handle)
  | [] => by simp [touch, liveValues, endedValues, binding, newest, dropped]
  | l :: rest => by
    rw [touch, binding_cons]
    by_cases hl : l.handle = handle
    · rw [if_pos hl, if_pos hl]
      simp only [coe_liveValues_cons, coe_endedValues_cons, l.alive_change, show (l.change d).value = l.value from rfl]
      by_cases ha : l.Alive
      · by_cases hc : 0 < l.count + d
        · simp [ha, hc, dropped]
        · simp only [ha, hc, and_false, dropped, if_true, if_false, zero_add, Multiset.coe_singleton]
          exact ⟨add_comm _ _, add_comm _ _⟩
      · simp [ha, dropped]
    · rw [if_neg hl, if_neg hl]
      obtain ⟨h1, h2⟩ := values_touch handle d rest
      simp only [coe_liveValues_cons, coe_endedValues_cons]
      rw [add_assoc, h1, h2, add_assoc]
      exact ⟨rfl, rfl⟩

theorem liveValues_add_endedValues (lifetimes : List (Lifetime V)) :
    (liveValues lifetimes : Multiset V) + endedValues lifetimes = lifetimes.map Lifetime.value := by
  rw [liveValues, endedValues, Multiset.coe_add, ← map_append, Multiset.coe_eq_coe]
  refine List.Perm.map _ ?_
  simpa using filter_append_perm (fun l : Lifetime V => decide l.Alive) lifetimes

/-- Only the newest lifetime of a handle can be alive. -/
def NewestAlive (lifetimes : List (Lifetime V)) : Prop :=
  lifetimes.Pairwise fun newer older => newer.handle = older.handle → ¬ older.Alive

theorem mem_touch {handle d : Int} {l : Lifetime V} : ∀ {lifetimes : List (Lifetime V)},
    l ∈ touch handle d lifetimes → l ∈ lifetimes ∨ ∃ l' ∈ lifetimes, l = l'.change d
  | [], h => .inl h
  | l' :: rest, h => by
    rw [touch] at h
    split at h
    · rcases mem_cons.1 h with rfl | h
      · exact .inr ⟨l', by simp, rfl⟩
      · exact .inl (by simp [h])
    · rcases mem_cons.1 h with rfl | h
      · exact .inl (by simp)
      · rcases mem_touch h with h | ⟨l'', h', rfl⟩
        · exact .inl (by simp [h])
        · exact .inr ⟨l'', by simp [h'], rfl⟩

theorem NewestAlive.touch (handle d : Int) : ∀ {lifetimes : List (Lifetime V)},
    NewestAlive lifetimes → NewestAlive (touch handle d lifetimes)
  | [], h => h
  | l :: rest, h => by
    obtain ⟨hl, hrest⟩ := pairwise_cons.1 h
    rw [Globus.touch]
    split
    · exact pairwise_cons.2 ⟨hl, hrest⟩
    · refine pairwise_cons.2 ⟨fun o ho => ?_, NewestAlive.touch handle d hrest⟩
      rcases mem_touch ho with ho | ⟨o', ho', rfl⟩
      · exact hl o ho
      · exact fun heq halive => hl o' ho' heq ((o'.alive_change d).1 halive).1

/-- A handle that should be bound to nothing has no live lifetime at all. -/
theorem NewestAlive.not_alive {handle : Int} : ∀ {lifetimes : List (Lifetime V)}, NewestAlive lifetimes →
    binding lifetimes handle = none → ∀ l ∈ lifetimes, l.handle = handle → ¬ l.Alive
  | [], _, _, _, h => by cases h
  | l :: rest, h, hb, o, ho => by
    obtain ⟨hl, hrest⟩ := pairwise_cons.1 h
    rw [binding_cons] at hb
    intro heq halive
    by_cases hh : l.handle = handle
    · rcases mem_cons.1 ho with rfl | ho
      · rw [if_pos hh, if_pos halive] at hb; cases hb
      · exact hl o ho (hh.trans heq.symm) halive
    · rw [if_neg hh] at hb
      rcases mem_cons.1 ho with rfl | ho
      · exact hh heq
      · exact NewestAlive.not_alive hrest hb o ho heq halive

end Lifetimes

/-! ## Runs -/

/-- A call, with any number as handle. -/
inductive HandleOp (V : Type*) where
  | insert (value : V) (initialRefs : {n : Int // 1 ≤ n})
  | incrementReference (handle : Int)
  | incrementReferenceBy (handle : Int) (inc : Nat)
  | decrementReference (handle : Int)

/-- A table, the lifetimes of the values inserted so far, the newest first, and the values passed to the
destructor. -/
structure HandleRun (V : Type*) where
  table : HandleTable V
  lifetimes : List (Lifetime V)
  destroyed : List V

section Runs

variable {V : Type*}

def HandleRun.step (s : HandleRun V) : HandleOp V → HandleRun V
  | .insert value initialRefs =>
    let (handle, table) := s.table.insert value initialRefs
    { s with table, lifetimes := ⟨handle, value, initialRefs, []⟩ :: s.lifetimes }
  | .incrementReference handle =>
    { s with table := (s.table.incrementReference handle).2, lifetimes := touch handle 1 s.lifetimes }
  | .incrementReferenceBy handle inc =>
    { s with table := (s.table.incrementReferenceBy handle inc).2, lifetimes := touch handle inc s.lifetimes }
  | .decrementReference handle =>
    let (_, table, values) := s.table.decrementReference handle
    { table, lifetimes := touch handle (-1) s.lifetimes, destroyed := s.destroyed ++ values }

/-- The calls `ops`, on a new table. -/
def HandleRun.run (table : Nat → Option Nat) (mem : Nat → HandleEntry V) (destructor : Bool)
    (ops : List (HandleOp V)) : HandleRun V :=
  ops.foldl HandleRun.step ⟨handleTableInit table mem destructor, [], []⟩

/-- The table binds what the lifetimes say. -/
structure HandleRun.Inv (destructor : Bool) (s : HandleRun V) : Prop where
  wf : ∃ l, s.table.WF l
  destructor_eq : s.table.destructor = destructor
  view_eq : ∀ handle : Int, s.table.view handle.toNat = binding s.lifetimes handle
  newest_alive : NewestAlive s.lifetimes
  values_eq : s.table.values = liveValues s.lifetimes
  destroyed_eq : destructor = true → (s.destroyed : Multiset V) = endedValues s.lifetimes

variable {destructor : Bool}

theorem HandleRun.Inv.init (table : Nat → Option Nat) (mem : Nat → HandleEntry V) :
    HandleRun.Inv destructor ⟨handleTableInit table mem destructor, [], []⟩ where
  wf := ⟨[], .init table mem destructor⟩
  destructor_eq := rfl
  view_eq handle := if_neg fun h => by have : handle.toNat < 1 := h.2; omega
  newest_alive := List.Pairwise.nil
  values_eq := rfl
  destroyed_eq _ := rfl

variable {s : HandleRun V}

namespace HandleRun

theorem Inv.changes (hs : s.Inv destructor) {t' : HandleTable V} {handle d : Int}
    {l : List V} (h : s.table.Changes t' handle d l) :
    HandleRun.Inv destructor ⟨t', touch handle d s.lifetimes, s.destroyed ++ l⟩ where
  wf := h.wf
  destructor_eq := h.destructor.trans hs.destructor_eq
  view_eq other := by
    rw [h.view_eq, binding_touch, hs.view_eq]
    by_cases ho : other = handle
    · rw [ho, update_self, update_self]
    · rw [update_of_ne ho]
      by_cases hn : other.toNat = handle.toNat
      · -- neither is a handle
        have hnone : s.table.view handle.toNat = none := if_neg (by omega)
        rw [hn, update_self, ← hs.view_eq, ← hs.view_eq, hn, hnone]
        rfl
      · rw [update_of_ne hn, hs.view_eq]
  newest_alive := hs.newest_alive.touch handle d
  values_eq := by
    refine add_right_cancel (b := (dropped d (s.table.view handle.toNat) : Multiset V)) ?_
    rw [h.values_add, hs.values_eq, hs.view_eq]
    exact (values_touch handle d s.lifetimes).1.symm
  destroyed_eq hd := by
    rw [← Multiset.coe_add, hs.destroyed_eq hd, h.values_eq, if_pos (hs.destructor_eq.trans hd), hs.view_eq]
    exact (values_touch handle d s.lifetimes).2.symm

theorem Inv.insert (hs : s.Inv destructor) (value : V) {initialRefs : Int}
    (hrefs : 0 < initialRefs) :
    HandleRun.Inv destructor ⟨(s.table.insert value initialRefs).2,
      ⟨(s.table.insert value initialRefs).1, value, initialRefs, []⟩ :: s.lifetimes, s.destroyed⟩ := by
  obtain ⟨l, hw⟩ := hs.wf
  obtain ⟨i, rest, hi, hi1, hi2, hnone, hw', hview, hnext, hd⟩ := HandleTable.insert_spec hw value hrefs
  have halive := Lifetime.alive_nil (s.table.insert value initialRefs).1 value hrefs
  have hbinding : binding s.lifetimes i = none := by rw [← hs.view_eq]; simpa using hnone
  refine ⟨⟨rest, hw'⟩, hd.trans hs.destructor_eq, fun handle => ?_, ?_, ?_, ?_⟩
  · show (s.table.insert value initialRefs).2.view handle.toNat = _
    rw [hview, binding_cons, if_pos halive, hi]
    by_cases hh : (i : Int) = handle
    · rw [if_pos hh, ← hh, Int.toNat_natCast, update_self]
      simp [Lifetime.count]
    · rw [if_neg hh, update_of_ne (by omega), hs.view_eq]
  · refine pairwise_cons.2 ⟨fun o ho heq => ?_, hs.newest_alive⟩
    exact hs.newest_alive.not_alive hbinding o ho (heq.symm.trans hi)
  · show (s.table.insert value initialRefs).2.values = _
    have hn := hw.next_pos
    have hbound : 1 ≤ i ∧ i ≤ (s.table.insert value initialRefs).2.nextSlot - 1 := by omega
    obtain ⟨sum, hsum, hupd⟩ := exists_slotSum_eq boundValues s.table.view hbound
    rw [hnone, s.table.values_eq (by omega)] at hsum
    rw [HandleTable.values, hview, hupd, coe_liveValues_cons, if_pos halive, ← hs.values_eq, hsum]
    simp [boundValues, add_comm]
  · intro hd
    rw [coe_endedValues_cons, if_pos halive, zero_add]
    exact hs.destroyed_eq hd

theorem Inv.step (hs : s.Inv destructor) : ∀ op : HandleOp V, (s.step op).Inv destructor
  | .insert value initialRefs => hs.insert value initialRefs.2
  | .incrementReference handle => by
    obtain ⟨l, hw⟩ := hs.wf
    have h := hs.changes (HandleTable.incrementReferenceBy_spec hw handle 1)
    rwa [append_nil] at h
  | .incrementReferenceBy handle inc => by
    obtain ⟨l, hw⟩ := hs.wf
    have h := hs.changes (HandleTable.incrementReferenceBy_spec hw handle inc)
    rwa [append_nil] at h
  | .decrementReference handle => by
    obtain ⟨l, hw⟩ := hs.wf
    exact hs.changes (HandleTable.decrementReference_spec hw handle)

theorem Inv.foldl : ∀ {s : HandleRun V} (ops : List (HandleOp V)), s.Inv destructor →
    (ops.foldl HandleRun.step s).Inv destructor
  | _, [], hs => hs
  | _, op :: ops, hs => HandleRun.Inv.foldl ops (hs.step op)

end HandleRun

/-- Over every run of calls on a new table: an insert returns a handle that is not null and of which no
lifetime is alive; a lookup finds the value of the newest lifetime of the handle while that is alive, and
nothing otherwise; the values of the lifetimes that are over have been passed to the destructor, if the table
has one, each once, and when the table is destroyed the others are, each once; and the inactive list has no
slot twice and no slot that is bound. -/
theorem handleTable_run (table : Nat → Option Nat) (mem : Nat → HandleEntry V) (destructor : Bool)
    (ops : List (HandleOp V)) :
    let s := HandleRun.run table mem destructor ops
    (∀ (value : V) (initialRefs : {n : Int // 1 ≤ n}),
      (s.table.insert value initialRefs).1 ≠ nullHandle ∧
      s.table.lookup (s.table.insert value initialRefs).1 = none ∧
      ∀ l ∈ s.lifetimes, l.Alive → l.handle ≠ (s.table.insert value initialRefs).1) ∧
    (∀ handle, s.table.lookup handle =
      ((newest s.lifetimes handle).filter fun l => decide l.Alive).map Lifetime.value) ∧
    (destructor = true →
      s.destroyed.Perm ((s.lifetimes.filter fun l => decide ¬ l.Alive).map Lifetime.value) ∧
      (s.destroyed ++ s.table.destroy).Perm (s.lifetimes.map Lifetime.value)) ∧
    ∃ inactiveList, Seg (fun a => (s.table.mem a).pnext) s.table.inactive inactiveList none ∧
      (inactiveList.map fun a => (s.table.mem a).index).Nodup ∧
      ∀ a ∈ inactiveList, s.table.table (s.table.mem a).index = none := by
  intro s
  have hs : s.Inv destructor := HandleRun.Inv.foldl ops (.init table mem)
  obtain ⟨l, hw⟩ := hs.wf
  refine ⟨fun value initialRefs => ?_, fun handle => ?_, fun hd => ⟨?_, ?_⟩, l, hw.inactive_seg,
    hw.inactive_nodup, fun a ha => (hw.inactive_ok a ha).2.2.2⟩
  · obtain ⟨i, rest, hi, hi1, -, hnone, -⟩ := HandleTable.insert_spec hw value initialRefs.2
    have hview : s.table.view (Int.toNat i) = none := by simpa using hnone
    rw [hi]
    refine ⟨?_, ?_, fun l hl halive heq => ?_⟩
    · have hnull : nullHandle = 0 := rfl
      omega
    · rw [s.table.lookup_eq, hview]; rfl
    · exact hs.newest_alive.not_alive ((hs.view_eq i).symm.trans hview) l hl heq halive
  · rw [s.table.lookup_eq, hs.view_eq, binding, Option.map_map]
    rfl
  · exact Multiset.coe_eq_coe.1 (hs.destroyed_eq hd)
  · refine Multiset.coe_eq_coe.1 ?_
    rw [← Multiset.coe_add, s.table.coe_destroy (hs.destructor_eq.trans hd) hw.next_pos, hs.values_eq,
      hs.destroyed_eq hd, add_comm]
    exact liveValues_add_endedValues s.lifetimes

end Runs

end Globus
