/-
Hash tables (common/source/library/globus_hashtable.c). The entries of all buckets are one list, linked both
ways, in which the entries of a bucket stand together; a bucket has the addresses of its first and its last
entry. Allocation succeeds: an entry comes from the free nodes of the table's memory, or is a new node.
Addresses are those of one table's memory, and 0 is that of the entry on the stack of
`globus_hashtable_copy`, so that nodes have addresses from 1 on. Data are not null.
-/
import GlobusToolkit.Lib.Linked
import GlobusToolkit.Lib.Loop

namespace Globus

open Lib List Function

/-! ## The data -/

/-- `globus_l_hashtable_bucket_entry_t`. -/
structure HashEntry (K D : Type*) where
  key : K
  datum : D
  prev : Option Nat
  next : Option Nat

/-- `globus_l_hashtable_bucket_t`. -/
structure HashBucket where
  first : Option Nat
  last : Option Nat

/-- `globus_l_hashtable_t`, with its entries in memory. `free` are the nodes that were pushed back to the memory
and `fresh` is the first address that was not a node yet. -/
structure HashTable (K D : Type*) where
  size : Nat
  load : Nat
  buckets : Nat → HashBucket
  first : Option Nat
  last : Option Nat
  current : Option Nat
  mem : Nat → HashEntry K D
  free : List Nat
  fresh : Nat

section Functions

variable {K D : Type*}

def setNext (mem : Nat → HashEntry K D) (a : Nat) (p : Option Nat) : Nat → HashEntry K D :=
  Function.update mem a { mem a with next := p }

def setPrev (mem : Nat → HashEntry K D) (a : Nat) (p : Option Nat) : Nat → HashEntry K D :=
  Function.update mem a { mem a with prev := p }

/-- `GlobusLInsertNodeBefore`. -/
def insertNodeBefore (mem : Nat → HashEntry K D) (node before : Nat) : Nat → HashEntry K D :=
  let mem := setPrev mem node (mem before).prev
  let mem := match (mem before).prev with
    | some p => setNext mem p (some node)
    | none => mem
  let mem := setNext mem node (some before)
  setPrev mem before (some node)

/-- `globus_hashtable_init`, with what is in memory. -/
def hashtableInit (mem : Nat → HashEntry K D) (size : Nat) : Option (HashTable K D) :=
  if size ≤ 0 then none
  else some
    { size, load := 0, buckets := fun _ => ⟨none, none⟩, first := none, last := none, current := none, mem
      free := [], fresh := 1 }

/-- `globus_memory_pop_node`. -/
def HashTable.popNode (t : HashTable K D) : Nat × HashTable K D :=
  match t.free with
  | a :: free => (a, { t with free })
  | [] => (t.fresh, { t with fresh := t.fresh + 1 })

/-- `globus_memory_push_node`. -/
def HashTable.pushNode (t : HashTable K D) (a : Nat) : HashTable K D := { t with free := a :: t.free }

section Keys

variable (hash : K → Nat → Nat) (keyeq : K → K → Bool) (fuel : Nat)

/-- The loop of `globus_l_hashtable_search_bucket`: the entry at `i` is looked at. -/
def searchBody (mem : Nat → HashEntry K D) (stop : Option Nat) (key : K) (i : Option Nat) :
    Option (Option Nat ⊕ Option Nat) :=
  match i with
  | none => none
  | some a =>
    if keyeq (mem a).key key then some (.inr (some a))
    else if (mem a).next ≠ stop then some (.inl (mem a).next)
    else some (.inr none)

/-- `globus_l_hashtable_search_bucket`. -/
def searchBucket (mem : Nat → HashEntry K D) (bucket : HashBucket) (key : K) : Option (Option Nat) :=
  match bucket.first with
  | none => some none
  | some a => bucket.last.bind fun last => loop (searchBody keyeq mem (mem last).next key) fuel (some a)

def HashTable.search (t : HashTable K D) (key : K) : Option (Option Nat) :=
  searchBucket keyeq fuel t.mem (t.buckets (hash key t.size)) key

/-- The part of `globus_hashtable_insert` that links the new entry. -/
def HashTable.link (t : HashTable K D) (b entry : Nat) : HashTable K D :=
  let bucket := t.buckets b
  match bucket.first with
  | some before =>
    { t with
      first := if bucket.first = t.first then some entry else t.first
      mem := insertNodeBefore t.mem entry before
      buckets := Function.update t.buckets b { bucket with first := some entry } }
  | none =>
    match t.first with
    | some before =>
      { t with
        mem := insertNodeBefore t.mem entry before
        first := some entry
        buckets := Function.update t.buckets b ⟨some entry, some entry⟩ }
    | none =>
      { t with
        mem := setNext (setPrev t.mem entry none) entry none
        last := some entry
        first := some entry
        buckets := Function.update t.buckets b ⟨some entry, some entry⟩ }

/-- `globus_hashtable_insert`. -/
def HashTable.insert (t : HashTable K D) (key : K) (datum : D) : Option (Bool × HashTable K D) :=
  (t.search hash keyeq fuel key).map fun
    | some _ => (false, t)
    | none =>
      let (entry, t) := t.popNode
      let t := { t with mem := Function.update t.mem entry { t.mem entry with key, datum } }
      let t := t.link (hash key t.size) entry
      (true, { t with load := t.load + 1 })

/-- `globus_hashtable_update`: the old datum. -/
def HashTable.update (t : HashTable K D) (key : K) (datum : D) : Option (Option D × HashTable K D) :=
  (t.search hash keyeq fuel key).map fun
    | some entry =>
      (some (t.mem entry).datum, { t with mem := Function.update t.mem entry { t.mem entry with datum, key } })
    | none => (none, t)

/-- `globus_hashtable_lookup`. -/
def HashTable.lookup (t : HashTable K D) (key : K) : Option (Option D) :=
  (t.search hash keyeq fuel key).map fun
    | some entry => some (t.mem entry).datum
    | none => none

/-- The bucket without the entry `e` at `entry`. -/
def HashBucket.without (bucket : HashBucket) (entry : Nat) (e : HashEntry K D) : HashBucket :=
  if some entry = bucket.first then
    if some entry = bucket.last then ⟨none, none⟩ else { bucket with first := e.next }
  else if some entry = bucket.last then { bucket with last := e.prev }
  else bucket

/-- The link to the entry from the one before it, or from the table. -/
def HashTable.unlinkPrev (t : HashTable K D) (entry : Nat) : HashTable K D :=
  match (t.mem entry).prev with
  | some p => { t with mem := setNext t.mem p (t.mem entry).next }
  | none => { t with first := (t.mem entry).next }

/-- The link to the entry from the one behind it, or from the table. -/
def HashTable.unlinkNext (t : HashTable K D) (entry : Nat) : HashTable K D :=
  match (t.mem entry).next with
  | some n => { t with mem := setPrev t.mem n (t.mem entry).prev }
  | none => { t with last := (t.mem entry).prev }

/-- The part of `globus_hashtable_remove` that takes the entry out of the list. -/
def HashTable.unlink (t : HashTable K D) (b entry : Nat) : HashTable K D :=
  let t := { t with buckets := Function.update t.buckets b ((t.buckets b).without entry (t.mem entry)) }
  let t := (t.unlinkPrev entry).unlinkNext entry
  if some entry = t.current then { t with current := (t.mem entry).next } else t

/-- `globus_hashtable_remove`: the datum of the entry. -/
def HashTable.remove (t : HashTable K D) (key : K) : Option (Option D × HashTable K D) :=
  (t.search hash keyeq fuel key).map fun
    | some entry =>
      let t := t.unlink (hash key t.size) entry
      let datum := (t.mem entry).datum
      let t := t.pushNode entry
      (some datum, { t with load := t.load - 1 })
    | none => (none, t)

end Keys

namespace HashTable

/-- What the iterators return. -/
def currentDatum (t : HashTable K D) : Option D := t.current.map fun a => (t.mem a).datum

/-- `globus_hashtable_first`, which sets the iterator; `currentDatum` is returned. -/
def toFirst (t : HashTable K D) : HashTable K D := { t with current := t.first }

/-- `globus_hashtable_next`. -/
def toNext (t : HashTable K D) : HashTable K D :=
  { t with current := t.current.bind fun a => (t.mem a).next }

/-- `globus_hashtable_last`. -/
def toLast (t : HashTable K D) : HashTable K D := { t with current := t.last }

/-- `globus_hashtable_prev`. -/
def toPrev (t : HashTable K D) : HashTable K D :=
  { t with current := t.current.bind fun a => (t.mem a).prev }

/-- `globus_hashtable_size`. -/
def sizeOf (t : HashTable K D) : Nat := t.load

/-! ### Copying -/

end HashTable

/-- The address of `dummy_entry`. -/
def dummyEntry : Nat := 0

/-- The new table and the last entry of its list, while entries are copied. -/
structure HashCopy (K D : Type*) where
  dest : HashTable K D
  list : Nat

/-- A copied entry behind the last one. -/
def HashCopy.append (c : HashCopy K D) (key : K) (datum : D) : HashCopy K D :=
  let (entry, dest) := c.dest.popNode
  let mem := Function.update dest.mem entry { key, datum, prev := some c.list, next := none }
  { dest := { dest with mem := setNext mem c.list (some entry) }, list := entry }

/-- The copied key and datum; the function is null or given by the caller. -/
def copyEntry (copyFunc : Option (K → D → K × D)) (key : K) (datum : D) : K × D :=
  match copyFunc with
  | some f => f key datum
  | none => (key, datum)

/-- The loop over the entries of a bucket: the entry at the second component is copied. -/
def copyBody (copyFunc : Option (K → D → K × D)) (src : Nat → HashEntry K D) (last : Option Nat)
    (s : HashCopy K D × Option Nat) : Option ((HashCopy K D × Option Nat) ⊕ HashCopy K D) :=
  match s.2 with
  | none => none
  | some a =>
    let copied := copyEntry copyFunc (src a).key (src a).datum
    let c := s.1.append copied.1 copied.2
    match (src a).next with
    | some i => if (src i).prev ≠ last then some (.inl (c, some i)) else some (.inr c)
    | none => some (.inr c)

/-- One bucket of `globus_hashtable_copy`; `bucket_first` is the address of the link behind the last entry so
far. -/
def copyBucket (copyFunc : Option (K → D → K × D)) (fuel : Nat) (src : HashTable K D) (c : HashCopy K D) (b : Nat) :
    Option (HashCopy K D) :=
  match (src.buckets b).first with
  | none => some c
  | some a => do
    let c' ← loop (copyBody copyFunc src.mem (src.buckets b).last) fuel (c, some a)
    let bucket : HashBucket := ⟨(c'.dest.mem c.list).next, some c'.list⟩
    return { c' with dest := { c'.dest with
      buckets := Function.update c'.dest.buckets b bucket
      last := some c'.list } }

/-- `globus_hashtable_copy`. -/
def HashTable.copy (copyFunc : Option (K → D → K × D)) (fuel : Nat) (mem : Nat → HashEntry K D)
    (src : HashTable K D) : Option (HashTable K D) := do
  let dest ← hashtableInit mem src.size
  let dest := { dest with load := src.load, mem := setNext dest.mem dummyEntry none }
  let c ← (List.range src.size).foldlM (copyBucket copyFunc fuel src) ⟨dest, dummyEntry⟩
  match (c.dest.mem dummyEntry).next with
  | some a => return { c.dest with first := some a, mem := setPrev c.dest.mem a none }
  | none => return c.dest

end Functions

/-! ## Links in memory -/

section Links

variable {K D : Type*} {mem : Nat → HashEntry K D} {first last : Option Nat} {xs ys : List Nat}

section Set

variable (a x : Nat) (p : Option Nat)

@[simp] theorem setNext_next : (setNext mem a p x).next = if x = a then p else (mem x).next := by
  rw [setNext, update_apply]; split <;> rfl

@[simp] theorem setNext_prev : (setNext mem a p x).prev = (mem x).prev := by
  rw [setNext, update_apply]; split <;> simp_all

@[simp] theorem setNext_key : (setNext mem a p x).key = (mem x).key := by
  rw [setNext, update_apply]; split <;> simp_all

@[simp] theorem setNext_datum : (setNext mem a p x).datum = (mem x).datum := by
  rw [setNext, update_apply]; split <;> simp_all

@[simp] theorem setPrev_prev : (setPrev mem a p x).prev = if x = a then p else (mem x).prev := by
  rw [setPrev, update_apply]; split <;> rfl

@[simp] theorem setPrev_next : (setPrev mem a p x).next = (mem x).next := by
  rw [setPrev, update_apply]; split <;> simp_all

@[simp] theorem setPrev_key : (setPrev mem a p x).key = (mem x).key := by
  rw [setPrev, update_apply]; split <;> simp_all

@[simp] theorem setPrev_datum : (setPrev mem a p x).datum = (mem x).datum := by
  rw [setPrev, update_apply]; split <;> simp_all

end Set

/-- The list that starts at `first` and ends at `last`. -/
def Linked (mem : Nat → HashEntry K D) (first last : Option Nat) (l : List Nat) : Prop :=
  DList (fun a => (mem a).next) (fun a => (mem a).prev) first last l

/-- What a table has in an entry for its user. -/
def HashEntry.pair (e : HashEntry K D) : K × D := (e.key, e.datum)

theorem insertNodeBefore_key (mem : Nat → HashEntry K D) (a before x : Nat) :
    (insertNodeBefore mem a before x).key = (mem x).key := by
  unfold insertNodeBefore
  split <;> simp

theorem insertNodeBefore_datum (mem : Nat → HashEntry K D) (a before x : Nat) :
    (insertNodeBefore mem a before x).datum = (mem x).datum := by
  unfold insertNodeBefore
  split <;> simp

theorem insertNodeBefore_prev (mem : Nat → HashEntry K D) (a before x : Nat) :
    (insertNodeBefore mem a before x).prev =
      if x = before then some a else if x = a then (mem before).prev else (mem x).prev := by
  unfold insertNodeBefore
  split <;> simp

theorem insertNodeBefore_next {a before : Nat} (x : Nat) (hne : a ≠ before) :
    (insertNodeBefore mem a before x).next =
      if x = a then some before else if (mem before).prev = some x then some a else (mem x).next := by
  unfold insertNodeBefore
  simp only [setPrev_prev, if_neg (Ne.symm hne)]
  split
  · next p hp => simp [hp, eq_comm]
  · next hp => simp [hp]

theorem Linked.insertNodeBefore {a before : Nat} (h : Linked mem first last (xs ++ before :: ys))
    (ha : a ∉ xs ++ before :: ys) :
    Linked (insertNodeBefore mem a before) (xs ++ a :: before :: ys).head? (xs ++ a :: before :: ys).getLast?
      (xs ++ a :: before :: ys) := by
  have hprev : (mem before).prev = xs.getLast? := DList.prev_eq h
  have hne : a ≠ before := fun heq => ha (by simp [heq])
  refine DList.splice [] [a] h (nodup_middle.2 (nodup_cons.2 ⟨ha, h.nodup⟩)) ⟨rfl, ?_⟩ ⟨getLast?_concat, ?_⟩
    (fun b hb => ?_) fun b hb => ?_
  · simp [insertNodeBefore_next _ hne]
  · simp [insertNodeBefore_prev, hne, hprev]
  · rw [insertNodeBefore_next _ hne, if_neg (ne_of_mem_of_not_mem hb ha), hprev]
    rfl
  · rw [insertNodeBefore_prev, if_neg (ne_of_mem_of_not_mem hb ha), getLast?_concat]
    simp [eq_comm]

end Links

/-! ## Well-formed tables -/

/-- What the functions of the caller have to be like. -/
structure HashFuncsOk {K : Type*} (hash : K → Nat → Nat) (keyeq : K → K → Bool) (size : Nat) : Prop where
  lt : ∀ k, hash k size < size
  respects : ∀ k k', keyeq k k' → hash k size = hash k' size
  refl : ∀ k, keyeq k k
  symm : ∀ k k', keyeq k k' → keyeq k' k
  trans : ∀ k k' k'', keyeq k k' → keyeq k' k'' → keyeq k k''

theorem HashFuncsOk.comm {K : Type*} {hash : K → Nat → Nat} {keyeq : K → K → Bool} {size : Nat}
    (ok : HashFuncsOk hash keyeq size) (k k' : K) : keyeq k k' = keyeq k' k :=
  Bool.eq_iff_iff.2 ⟨ok.symm k k', ok.symm k' k⟩

theorem HashFuncsOk.congr {K : Type*} {hash : K → Nat → Nat} {keyeq : K → K → Bool} {size : Nat}
    (ok : HashFuncsOk hash keyeq size) {k k' : K} (h : keyeq k k') (x : K) : keyeq k x = keyeq k' x :=
  Bool.eq_iff_iff.2 ⟨ok.trans k' k x (ok.symm k k' h), ok.trans k k' x h⟩

section WellFormed

variable {K D : Type*} {hash : K → Nat → Nat} {keyeq : K → K → Bool} {fuel : Nat} {t t' : HashTable K D}
  {order : List Nat} {seg : Nat → List Nat}

/-- The nodes that are not in the list. -/
structure HashTable.Pool (t : HashTable K D) (l : List Nat) : Prop where
  free_nodup : t.free.Nodup
  free_ok : ∀ a ∈ t.free, a < t.fresh ∧ a ∉ l
  fresh_ok : ∀ a ∈ l, a < t.fresh

/-- The list of the table is that of the segments `seg b`, where `order` has the buckets `b` as they come in the
list. A segment has the entries of the bucket, no two of them with equal keys. -/
structure HashTable.WF (hash : K → Nat → Nat) (keyeq : K → K → Bool) (t : HashTable K D) (order : List Nat)
    (seg : Nat → List Nat) : Prop where
  links : Linked t.mem t.first t.last (order.flatMap seg)
  order_nodup : order.Nodup
  seg_nil : ∀ b, b ∉ order → seg b = []
  first_eq : ∀ b, b < t.size → (t.buckets b).first = (seg b).head?
  last_eq : ∀ b, b < t.size → (t.buckets b).last = (seg b).getLast?
  hash_eq : ∀ b, ∀ a ∈ seg b, hash (t.mem a).key t.size = b
  keys : ∀ b, (seg b).Pairwise fun a a' => keyeq (t.mem a).key (t.mem a').key = false
  load_eq : t.load = (order.flatMap seg).length
  current_mem : ∀ a, t.current = some a → a ∈ order.flatMap seg
  pool : t.Pool (order.flatMap seg)

variable (hw : t.WF hash keyeq order seg)
include hw

theorem HashTable.WF.mem_iff {a : Nat} :
    a ∈ order.flatMap seg ↔ a ∈ seg (hash (t.mem a).key t.size) := by
  rw [mem_flatMap]
  constructor
  · rintro ⟨b, -, ha⟩
    rwa [hw.hash_eq b a ha]
  · intro ha
    refine ⟨_, ?_, ha⟩
    by_contra hb
    rw [hw.seg_nil _ hb] at ha
    cases ha

theorem HashTable.WF.mem_of_seg {a b : Nat} (ha : a ∈ seg b) :
    a ∈ order.flatMap seg := by
  rw [hw.mem_iff, hw.hash_eq b a ha]
  exact ha

theorem HashTable.WF.split {b : Nat} (hb : seg b ≠ []) :
    ∃ o₁ o₂, order = o₁ ++ b :: o₂ ∧ order.flatMap seg = o₁.flatMap seg ++ (seg b ++ o₂.flatMap seg) := by
  have hmem : b ∈ order := by
    by_contra h
    exact hb (hw.seg_nil b h)
  obtain ⟨o₁, o₂, rfl⟩ := append_of_mem hmem
  exact ⟨o₁, o₂, rfl, by simp⟩

theorem HashTable.WF.seg_nodup (b : Nat) : (seg b).Nodup := by
  by_cases hb : seg b = []
  · rw [hb]
    exact nodup_nil
  · obtain ⟨o₁, o₂, -, hsplit⟩ := hw.split hb
    have h := hw.links.nodup
    rw [hsplit] at h
    exact (nodup_append.1 (nodup_append.1 h).2.1).1

theorem HashTable.WF.ends_update {buckets : Nat → HashBucket} {b : Nat}
    {m : List Nat} (hbuckets : buckets = Function.update t.buckets b ⟨m.head?, m.getLast?⟩) {c : Nat}
    (hc : c < t.size) :
    (buckets c).first = (Function.update seg b m c).head? ∧
      (buckets c).last = (Function.update seg b m c).getLast? := by
  rw [hbuckets]
  by_cases hcb : c = b
  · rw [hcb, update_self, update_self]
    exact ⟨rfl, rfl⟩
  · rw [update_of_ne hcb, update_of_ne hcb]
    exact ⟨hw.first_eq c hc, hw.last_eq c hc⟩

omit hw

theorem HashTable.WF.eq_of_keyeq (ok : HashFuncsOk hash keyeq t.size) (hw : t.WF hash keyeq order seg) {a a' : Nat}
    (ha : a ∈ order.flatMap seg) (ha' : a' ∈ order.flatMap seg) (heq : keyeq (t.mem a).key (t.mem a').key) :
    a = a' := by
  rw [hw.mem_iff] at ha ha'
  rw [ok.respects _ _ heq] at ha
  by_contra hne
  have hsymm : Std.Symm fun a a' => keyeq (t.mem a).key (t.mem a').key = false :=
    ⟨fun x y hxy => by rw [ok.comm]; exact hxy⟩
  have hfalse := (hw.keys _).forall ha ha' hne
  rw [heq] at hfalse
  cases hfalse

theorem HashTable.WF.congr (hw : t.WF hash keyeq order seg) (hsize : t'.size = t.size) (hload : t'.load = t.load)
    (hbuckets : t'.buckets = t.buckets) (hfirst : t'.first = t.first) (hlast : t'.last = t.last)
    (hmem : ∀ a ∈ order.flatMap seg, t'.mem a = t.mem a)
    (hcurrent : ∀ a, t'.current = some a → a ∈ order.flatMap seg) (hpool : t'.Pool (order.flatMap seg)) :
    t'.WF hash keyeq order seg where
  links := by
    rw [hfirst, hlast]
    exact hw.links.congr (fun a ha => by rw [hmem a ha]) fun a ha => by rw [hmem a ha]
  order_nodup := hw.order_nodup
  seg_nil := hw.seg_nil
  first_eq b hb := by rw [hbuckets]; exact hw.first_eq b (hsize ▸ hb)
  last_eq b hb := by rw [hbuckets]; exact hw.last_eq b (hsize ▸ hb)
  hash_eq b a ha := by rw [hmem a (hw.mem_of_seg ha), hsize]; exact hw.hash_eq b a ha
  keys b := (hw.keys b).imp_of_mem fun ha ha' h => by rwa [hmem _ (hw.mem_of_seg ha), hmem _ (hw.mem_of_seg ha')]
  load_eq := hload.trans hw.load_eq
  current_mem := hcurrent
  pool := hpool

/-! ## Searching a bucket -/

theorem loop_searchBody {mem : Nat → HashEntry K D} {stop : Option Nat} {key : K} :
    ∀ {l : List Nat} {p : Option Nat} {fuel : Nat}, Seg (fun a => (mem a).next) p l stop → l ≠ [] →
      (∀ a ∈ l, stop ≠ some a) → l.length ≤ fuel →
      loop (searchBody keyeq mem stop key) fuel p = some (l.find? fun a => keyeq (mem a).key key)
  | [], _, _, _, hne, _, _ => absurd rfl hne
  | a :: l, p, 0, _, _, _, hfuel => by cases hfuel
  | a :: l, p, fuel + 1, hseg, _, hstop, hfuel => by
    obtain ⟨rfl, hseg⟩ := hseg
    by_cases hkey : keyeq (mem a).key key
    · rw [loop_done (by rw [searchBody, if_pos hkey]),
        find?_cons_of_pos (p := fun a => keyeq (mem a).key key) hkey]
    · rw [find?_cons_of_neg (p := fun a => keyeq (mem a).key key) hkey]
      cases l with
      | nil =>
        -- the link of the last entry leads to `stop`
        have hend : (mem a).next = stop := hseg
        rw [loop_done (by rw [searchBody, if_neg hkey, if_neg (not_not_intro hend)])]
        rfl
      | cons c l =>
        have hnext : (mem a).next ≠ stop := by
          rw [show (mem a).next = some c from hseg.1]
          exact (hstop c (by simp)).symm
        rw [loop_next (by rw [searchBody, if_neg hkey, if_pos hnext])]
        exact loop_searchBody hseg (by simp) (forall_mem_cons.1 hstop).2
          (by simpa using hfuel)

theorem HashTable.WF.search_eq (hw : t.WF hash keyeq order seg) {key : K} (hlt : hash key t.size < t.size)
    (hfuel : t.load ≤ fuel) :
    t.search hash keyeq fuel key = some ((seg (hash key t.size)).find? fun a => keyeq (t.mem a).key key) := by
  unfold HashTable.search searchBucket
  rw [hw.first_eq _ hlt, hw.last_eq _ hlt]
  set b := hash key t.size
  rcases eq_nil_or_concat (seg b) with hnil | ⟨l, last, hl⟩
  · rw [hnil]; rfl
  · rw [concat_eq_append] at hl
    have hne : seg b ≠ [] := by simp [hl]
    obtain ⟨o₁, o₂, -, hsplit⟩ := hw.split hne
    have hlinks : Linked t.mem t.first t.last (o₁.flatMap seg ++ (seg b ++ o₂.flatMap seg)) := by
      rw [← hsplit]; exact hw.links
    have hstop : (t.mem last).next = (o₂.flatMap seg).head? := by
      rw [hl, append_assoc, ← append_assoc] at hlinks
      exact hlinks.next_eq
    obtain ⟨p, -, hseg⟩ := seg_append.1 hlinks.forward
    obtain ⟨q, hseg, hrest⟩ := seg_append.1 hseg
    obtain rfl := hrest.eq_head?
    obtain ⟨a, l', hal⟩ := exists_cons_of_ne_nil hne
    obtain rfl : p = some a := by rw [hal] at hseg; exact hseg.1
    have hlast : (seg b).getLast? = some last := by rw [hl]; simp
    rw [hlast, show (seg b).head? = some a by rw [hal]; rfl]
    show loop (searchBody keyeq t.mem (t.mem last).next key) fuel (some a) = _
    rw [hstop]
    have hlen : (seg b).length ≤ fuel := by
      have hload := hw.load_eq
      rw [hsplit, length_append, length_append] at hload
      omega
    refine loop_searchBody hseg hne (fun c hc hhead => ?_) hlen
    -- the entry behind the segment is not in it
    have hnodup := (nodup_append.1 hlinks.nodup).2.1
    exact (nodup_append.1 hnodup).2.2 c hc c (mem_of_head? hhead) rfl

theorem HashTable.WF.search_spec (ok : HashFuncsOk hash keyeq t.size) (hw : t.WF hash keyeq order seg) (key : K)
    (hfuel : t.load ≤ fuel) :
    ∃ r, t.search hash keyeq fuel key = some r ∧
      ∀ a, r = some a ↔ a ∈ order.flatMap seg ∧ keyeq (t.mem a).key key := by
  refine ⟨_, hw.search_eq (ok.lt key) hfuel, fun a => ⟨fun hfind => ?_, fun ⟨ha, hkey⟩ => ?_⟩⟩
  · exact ⟨hw.mem_of_seg (mem_of_find?_eq_some hfind),
      find?_some (p := fun a => keyeq (t.mem a).key key) hfind⟩
  · have hmem := hw.mem_iff.1 ha
    rw [ok.respects _ _ hkey] at hmem
    cases hfind : (seg (hash key t.size)).find? fun a => keyeq (t.mem a).key key with
    | none => exact absurd hkey (find?_eq_none.1 hfind a hmem)
    | some a' =>
      have hkey' := find?_some (p := fun a => keyeq (t.mem a).key key) hfind
      have heq := ok.trans _ _ _ hkey' (ok.symm _ _ hkey)
      rw [hw.eq_of_keyeq ok (hw.mem_of_seg (mem_of_find?_eq_some hfind)) ha heq]

end WellFormed

end Globus
