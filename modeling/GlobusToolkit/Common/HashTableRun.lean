/-
Copies of hash tables, their iterators, and runs of calls on hash tables (common/source/library/globus_hashtable.c).
A run starts with one table; a copy of a table is one more table, with a memory of its own.
-/
import GlobusToolkit.Common.HashTableMap
import GlobusToolkit.Lib.CString

namespace Globus

open Lib List Function Option

variable {K D : Type*} {hash : K → Nat → Nat} {keyeq : K → K → Bool} {fuel : Nat}

/-! ## Copying -/

section Copying

variable {c : HashCopy K D} {l : List Nat} {copyFunc : Option (K → D → K × D)} {src : HashTable K D}
  {order : List Nat} {seg : Nat → List Nat}

/-- The entries copied so far are linked behind the dummy entry. -/
structure Copying (c : HashCopy K D) (l : List Nat) : Prop where
  forward : Seg (fun a => (c.dest.mem a).next) (some dummyEntry) (dummyEntry :: l) none
  backward : Seg (fun a => (c.dest.mem a).prev) (some c.list) l.reverse (some dummyEntry)
  nodup : (dummyEntry :: l).Nodup
  free : c.dest.free = []
  fresh : ∀ a ∈ dummyEntry :: l, a < c.dest.fresh

theorem Copying.list_eq (h : Copying c l) : (dummyEntry :: l).getLast? = some c.list := by
  have hb := h.backward
  rcases eq_nil_or_concat l with rfl | ⟨l, a, rfl⟩
  · exact hb.symm
  · rw [concat_eq_append, reverse_append] at hb
    rw [hb.1, concat_eq_append, ← cons_append, getLast?_concat]

/-- Copying an entry changes the memory only. -/
def HashCopy.Frame (c c' : HashCopy K D) : Prop := c'.dest = { c.dest with mem := c'.dest.mem, fresh := c'.dest.fresh }

theorem Copying.append (h : Copying c l) (key : K) (datum : D) :
    Copying (c.append key datum) (l ++ [c.dest.fresh]) ∧
      ((c.append key datum).dest.mem c.dest.fresh).pair = (key, datum) ∧
      (∀ a ∈ l, ((c.append key datum).dest.mem a).pair = (c.dest.mem a).pair) ∧
      c.Frame (c.append key datum) := by
  have happ : c.append key datum =
      { dest := { c.dest with
          fresh := c.dest.fresh + 1
          mem := setNext (Function.update c.dest.mem c.dest.fresh ⟨key, datum, some c.list, none⟩) c.list
            (some c.dest.fresh) }
        list := c.dest.fresh } := by
    simp [HashCopy.append, HashTable.popNode, h.free]
  have hlist : c.list ∈ dummyEntry :: l := mem_of_getLast? h.list_eq
  have hne : ∀ a ∈ dummyEntry :: l, a ≠ c.dest.fresh := fun a ha => (h.fresh a ha).ne
  rw [happ]
  refine ⟨⟨?_, ?_, ?_, h.free, fun a ha => ?_⟩, ?_, fun a ha => ?_, rfl⟩
  · -- only the link of the last entry changes
    have hforward : Seg (fun a => (c.dest.mem a).next) (some dummyEntry) (dummyEntry :: l ++ ([] ++ [])) none := by
      simpa using h.forward
    refine Seg.splice [] [c.dest.fresh] hforward (by simpa using h.nodup) ⟨rfl, ?_⟩ fun b hb => ?_
    · simp [(hne _ hlist).symm]
    · rw [append_nil] at hb
      simp only [setNext_next, update_of_ne (hne b hb), h.list_eq, Option.some.injEq]
      simp [eq_comm]
  · rw [reverse_append]
    refine ⟨rfl, ?_⟩
    have hprev : (fun a => (setNext (Function.update c.dest.mem c.dest.fresh ⟨key, datum, some c.list, none⟩) c.list
        (some c.dest.fresh) a).prev) c.dest.fresh = some c.list := by simp
    rw [hprev]
    refine h.backward.congr fun b hb => ?_
    have hbl : b ∈ dummyEntry :: l := mem_cons_of_mem _ (mem_reverse.1 hb)
    simp [update_of_ne (hne b hbl)]
  · refine nodup_append.2 ⟨h.nodup, by simp, fun a ha b hb => ?_⟩
    rw [mem_singleton.1 hb]
    exact hne a ha
  · rw [← cons_append] at ha
    rcases mem_append.1 ha with ha | ha
    · exact Nat.lt_succ_of_lt (h.fresh a ha)
    · exact (mem_singleton.1 ha).trans_lt (Nat.lt_succ_self _)
  · simp [HashEntry.pair]
  · simp [HashEntry.pair, update_of_ne (hne a (mem_cons_of_mem _ ha))]

/-- The pair of the copy of an entry. -/
def copiedPair (copyFunc : Option (K → D → K × D)) (e : HashEntry K D) : K × D := copyEntry copyFunc e.key e.datum

/-- The entries of `l` are copied one after the other. -/
def copyAll (copyFunc : Option (K → D → K × D)) (src : Nat → HashEntry K D) (c : HashCopy K D) (l : List Nat) :
    HashCopy K D :=
  l.foldl (fun c a => c.append (copiedPair copyFunc (src a)).1 (copiedPair copyFunc (src a)).2) c

variable {mem : Nat → HashEntry K D}

theorem copyAll_spec (copyFunc : Option (K → D → K × D)) :
    ∀ (ss : List Nat) {c : HashCopy K D} {l : List Nat}, Copying c l →
    ∃ new, Copying (copyAll copyFunc mem c ss) (l ++ new) ∧
      (new.map fun a => ((copyAll copyFunc mem c ss).dest.mem a).pair) =
        ss.map (fun a => copiedPair copyFunc (mem a)) ∧
      (∀ a ∈ l, ((copyAll copyFunc mem c ss).dest.mem a).pair = (c.dest.mem a).pair) ∧
      c.Frame (copyAll copyFunc mem c ss)
  | [], c, l, h => ⟨[], by rw [append_nil]; exact h, rfl, fun _ _ => rfl, rfl⟩
  | a :: ss, c, l, h => by
    obtain ⟨h', hpair, hold, hframe⟩ := h.append (copiedPair copyFunc (mem a)).1 (copiedPair copyFunc (mem a)).2
    obtain ⟨new, h'', hnew, hold', hframe'⟩ := copyAll_spec copyFunc ss h'
    rw [append_assoc] at h''
    refine ⟨c.dest.fresh :: new, h'', ?_, fun x hx => ?_, ?_⟩
    · refine congrArg₂ List.cons ?_ hnew
      exact (hold' _ (by simp)).trans hpair
    · exact (hold' x (by simp [hx])).trans (hold x hx)
    · rw [HashCopy.Frame, hframe] at hframe'
      exact hframe'

/-- The loop over a bucket copies its entries: it stops behind the one that is the last of the bucket. -/
theorem loop_copyBody {first last : Option Nat} : ∀ {ss xs ys : List Nat}
    {c : HashCopy K D} {fuel : Nat}, Linked mem first last (xs ++ (ss ++ ys)) → ss ≠ [] → ss.length ≤ fuel →
    loop (copyBody copyFunc mem ss.getLast?) fuel (c, ss.head?) = some (copyAll copyFunc mem c ss)
  | [], _, _, _, _, _, hne, _ => absurd rfl hne
  | a :: ss, xs, ys, c, 0, _, _, hfuel => by cases hfuel
  | a :: ss, xs, ys, c, fuel + 1, h, _, hfuel => by
    have hnext : (mem a).next = (ss ++ ys).head? := DList.next_eq h
    have hmem : a ∈ xs ++ (a :: ss ++ ys) := by simp
    cases ss with
    | nil =>
      cases hys : (mem a).next with
      | none => rw [loop_done (b := copyAll copyFunc mem c [a]) (by simp [copyBody, hys]; rfl)]
      | some i =>
        have hprev : (mem i).prev = some a := DList.prev_of_next h hmem hys
        rw [loop_done (b := copyAll copyFunc mem c [a]) (by simp [copyBody, hys, hprev]; rfl)]
    | cons i ss =>
      have hi : (mem a).next = some i := hnext
      have hprev : (mem i).prev = some a := DList.prev_of_next h hmem hi
      have hlast : some a ≠ (i :: ss).getLast? := fun heq => by
        have hnodup := (nodup_append.1 h.nodup).2.1
        exact (nodup_cons.1 hnodup).1 (mem_append_left ys (mem_of_getLast? heq.symm))
      rw [loop_next (t := (c.append (copiedPair copyFunc (mem a)).1 (copiedPair copyFunc (mem a)).2, some i))
        (by simp [copyBody, hi, hprev, hlast]; rfl)]
      have h' : Linked mem first last ((xs ++ [a]) ++ (i :: ss ++ ys)) := by simpa using h
      exact loop_copyBody h' (by simp) (by simpa using hfuel)

/-- The buckets below `i` are copied, the entries of bucket `b` to the nodes `seg' b`. -/
structure CopyInv (copyFunc : Option (K → D → K × D)) (src : HashTable K D) (seg : Nat → List Nat) (i : Nat)
    (c : HashCopy K D) (seg' : Nat → List Nat) : Prop where
  copying : Copying c ((range i).flatMap seg')
  pairs : ∀ b, ((seg' b).map fun a => (c.dest.mem a).pair) =
    if b < i then (seg b).map fun a => copiedPair copyFunc (src.mem a) else []
  buckets_eq : ∀ b, c.dest.buckets b = ⟨(seg' b).head?, (seg' b).getLast?⟩
  last : c.dest.last = ((range i).flatMap seg').getLast?
  first : c.dest.first = none
  current : c.dest.current = none
  size : c.dest.size = src.size
  load : c.dest.load = src.load

variable {seg' : Nat → List Nat}

theorem CopyInv.seg_nil {i b : Nat} (h : CopyInv copyFunc src seg i c seg') (hb : ¬ b < i) :
    seg' b = [] := by
  have hp := h.pairs b
  rwa [if_neg hb, map_eq_nil_iff] at hp

theorem CopyInv.bucket (hw : src.WF hash keyeq order seg) {i : Nat}
    (h : CopyInv copyFunc src seg i c seg') (hi : i < src.size) (hfuel : src.load ≤ fuel) :
    ∃ c' seg'', copyBucket copyFunc fuel src c i = some c' ∧ CopyInv copyFunc src seg (i + 1) c' seg'' := by
  unfold copyBucket
  rw [hw.first_eq i hi]
  have hempty : seg' i = [] := h.seg_nil (lt_irrefl i)
  cases hseg : seg i with
  | nil =>
    have hrange : (range (i + 1)).flatMap seg' = (range i).flatMap seg' := by
      rw [range_succ, flatMap_append]; simp [hempty]
    refine ⟨c, seg', rfl, ⟨by rw [hrange]; exact h.copying, fun b => ?_, h.buckets_eq,
      by rw [hrange]; exact h.last, h.first, h.current, h.size, h.load⟩⟩
    rw [h.pairs b]
    by_cases hb : b = i
    · subst hb; simp [hseg]
    · simp only [show b < i + 1 ↔ b < i by omega]
  | cons a rest =>
    obtain ⟨o₁, o₂, rfl, hsplit⟩ := hw.split (b := i) (by simp [hseg])
    have hlinks := hw.links
    have hload := hw.load_eq
    rw [hsplit, hseg] at hlinks
    rw [hsplit, hseg, length_append, length_append] at hload
    have hloop : loop (copyBody copyFunc src.mem (a :: rest).getLast?) fuel (c, some a) =
        some (copyAll copyFunc src.mem c (a :: rest)) := loop_copyBody hlinks (by simp) (by omega)
    obtain ⟨new, hnew, hpairs, hold, hframe⟩ := copyAll_spec copyFunc (a :: rest) h.copying
    set c₁ := copyAll copyFunc src.mem c (a :: rest)
    have hbuckets : c₁.dest.buckets = c.dest.buckets := by rw [hframe]
    rw [hw.last_eq i hi, hseg]
    refine ⟨_, Function.update seg' i new, by simp only [head?_cons, hloop]; rfl, ?_⟩
    have hrange : (range (i + 1)).flatMap (Function.update seg' i new) = (range i).flatMap seg' ++ new := by
      rw [range_succ, flatMap_append, flatMap_update_of_not_mem (by simp)]; simp
    have hne : new ≠ [] := by
      rintro rfl
      cases hpairs
    -- the last of the copied entries
    have hlist : some c₁.list = new.getLast? := by
      rw [← hnew.list_eq, ← cons_append, getLast?_append_of_ne_nil _ hne]
    have hlink : (c₁.dest.mem c.list).next = new.head? := by
      obtain ⟨xs, hxs⟩ : ∃ xs, dummyEntry :: (range i).flatMap seg' = xs ++ [c.list] :=
        getLast?_eq_some_iff.1 h.copying.list_eq
      have hforward := hnew.forward
      rw [← cons_append, hxs, append_assoc] at hforward
      exact hforward.next_eq
    constructor
    · rw [hrange]
      exact ⟨hnew.forward, hnew.backward, hnew.nodup, hnew.free, hnew.fresh⟩
    · intro b
      by_cases hb : b = i
      · subst hb
        rw [if_pos (Nat.lt_succ_self b), update_self, hseg]
        exact hpairs
      · rw [update_of_ne hb]
        simp only [show b < i + 1 ↔ b < i by omega]
        rw [← h.pairs b]
        refine map_congr_left fun x hx => hold x ?_
        by_cases hbi : b < i
        · exact mem_flatMap.2 ⟨b, mem_range.2 hbi, hx⟩
        · rw [h.seg_nil hbi] at hx
          cases hx
    · intro b
      by_cases hb : b = i
      · subst hb
        simp only [update_self, ← hlink, ← hlist]
      · simp only [update_of_ne hb, hbuckets]
        exact h.buckets_eq b
    · rw [hrange, getLast?_append_of_ne_nil _ hne]
      exact hlist
    · rw [hframe]; exact h.first
    · rw [hframe]; exact h.current
    · rw [hframe]; exact h.size
    · rw [hframe]; exact h.load

theorem CopyInv.buckets (hw : src.WF hash keyeq order seg) (hfuel : src.load ≤ fuel) {c₀ : HashCopy K D}
    (h₀ : CopyInv copyFunc src seg 0 c₀ fun _ => []) : ∀ i, i ≤ src.size →
    ∃ c seg', (range i).foldlM (copyBucket copyFunc fuel src) c₀ = some c ∧ CopyInv copyFunc src seg i c seg'
  | 0, _ => ⟨c₀, _, rfl, h₀⟩
  | i + 1, hi => by
    obtain ⟨c, seg', hc, h⟩ := CopyInv.buckets hw hfuel h₀ i (by omega)
    obtain ⟨c', seg'', hc', h'⟩ := h.bucket hw (by omega) hfuel
    refine ⟨c', seg'', ?_, h'⟩
    rw [range_succ, foldlM_append, hc]
    simpa using hc'

variable {dest : HashTable K D}

theorem Copying.linked (h : Copying c l) (hlast : dest.last = l.getLast?)
    (hdest : match (c.dest.mem dummyEntry).next with
      | some a => dest.first = some a ∧ dest.mem = setPrev c.dest.mem a none
      | none => dest.first = none ∧ dest.mem = c.dest.mem) :
    Linked dest.mem dest.first dest.last l ∧ ∀ a, (dest.mem a).pair = (c.dest.mem a).pair := by
  have hhead : (c.dest.mem dummyEntry).next = l.head? := h.forward.2.eq_head?
  rw [hhead] at hdest
  cases l with
  | nil =>
    obtain ⟨hfirst, hmem⟩ := hdest
    rw [hfirst, hlast, hmem]
    exact ⟨⟨by simp, rfl, rfl⟩, fun _ => rfl⟩
  | cons a l =>
    obtain ⟨hfirst, hmem⟩ := hdest
    have hnodup := (nodup_cons.1 h.nodup).2
    rw [hfirst, hlast, hmem]
    refine ⟨⟨hnodup, ?_, ?_⟩, fun x => by simp [HashEntry.pair]⟩
    · have hforward : Seg (fun x => (c.dest.mem x).next) (c.dest.mem dummyEntry).next (a :: l) none := h.forward.2
      rw [hhead] at hforward
      exact hforward.congr fun x _ => by simp
    · have hbackward := h.backward
      rw [reverse_cons] at hbackward ⊢
      obtain ⟨r, hr, hra, -⟩ := seg_append.1 hbackward
      have hstart : (a :: l).getLast? = some c.list := by
        have hl := h.list_eq
        rwa [getLast?_cons_cons] at hl
      rw [hstart]
      refine seg_append.2 ⟨r, hr.congr fun x hx => ?_, hra, by simp⟩
      have hxa : x ≠ a := fun heq => (nodup_cons.1 hnodup).1 (heq ▸ mem_reverse.1 hx)
      simp [hxa]

theorem HashTable.WF.perm_range (ok : HashFuncsOk hash keyeq src.size) (hw : src.WF hash keyeq order seg) :
    ((range src.size).flatMap seg).Perm (order.flatMap seg) := by
  have hnodup : ((range src.size).flatMap seg).Nodup := by
    refine nodup_flatMap.2 ⟨fun b _ => hw.seg_nodup b, ?_⟩
    refine nodup_range.imp fun {b b'} hbb' => ?_
    intro x hx hx'
    exact hbb' ((hw.hash_eq b x hx).symm.trans (hw.hash_eq b' x hx'))
  refine (perm_ext_iff_of_nodup hnodup hw.links.nodup).2 fun a => ?_
  rw [hw.mem_iff, mem_flatMap]
  constructor
  · rintro ⟨b, -, ha⟩
    rwa [hw.hash_eq b a ha]
  · intro ha
    exact ⟨_, mem_range.2 (ok.lt _), ha⟩

theorem CopyInv.init (h : hashtableInit mem src.size = some dest) :
    CopyInv copyFunc src seg 0
      ⟨{ dest with load := src.load, mem := setNext dest.mem dummyEntry none }, dummyEntry⟩ fun _ => [] := by
  unfold hashtableInit at h
  split at h
  · cases h
  · cases h
    exact
      { copying := ⟨⟨rfl, by simp⟩, rfl, by simp, rfl, by simp [dummyEntry]⟩
        pairs := fun b => by simp
        buckets_eq := fun b => rfl
        last := rfl
        first := rfl
        current := rfl
        size := rfl
        load := rfl }

variable {m : K → Option (K × D)}

theorem CopyInv.map_pair (h : CopyInv copyFunc src seg src.size c seg') :
    (((range src.size).flatMap seg').map fun a => (c.dest.mem a).pair) =
      ((range src.size).flatMap seg).map fun a => copiedPair copyFunc (src.mem a) := by
  rw [map_flatMap, map_flatMap]
  refine flatMap_congr fun b hb => ?_
  rw [h.pairs b, if_pos (mem_range.1 hb)]

theorem CopyInv.wf (ok : HashFuncsOk hash keyeq src.size) (hw : src.WF hash keyeq order seg)
    (hcopy : ∀ k d, keyeq (copyEntry copyFunc k d).1 k)
    (h : CopyInv copyFunc src seg src.size c seg')
    (hlinks : Linked dest.mem dest.first dest.last ((range src.size).flatMap seg'))
    (hpair : ∀ a, (dest.mem a).pair = (c.dest.mem a).pair)
    (hdest : dest = { c.dest with first := dest.first, mem := dest.mem }) :
    dest.WF hash keyeq (range src.size) seg' := by
  have hkey : ∀ a, (dest.mem a).key = (c.dest.mem a).pair.1 := fun a => congrArg Prod.fst (hpair a)
  have hcopied : ∀ x, keyeq (src.mem x).key (copiedPair copyFunc (src.mem x)).1 := fun x => ok.symm _ _ (hcopy _ _)
  have hsize : dest.size = src.size := by rw [hdest]; exact h.size
  exact
    { links := hlinks
      order_nodup := nodup_range
      seg_nil := fun b hb => h.seg_nil (by rwa [mem_range] at hb)
      first_eq := fun b _ => by rw [hdest]; exact congrArg HashBucket.first (h.buckets_eq b)
      last_eq := fun b _ => by rw [hdest]; exact congrArg HashBucket.last (h.buckets_eq b)
      hash_eq := fun b a ha => by
        have hmem : (c.dest.mem a).pair ∈ (seg' b).map fun a => (c.dest.mem a).pair := mem_map_of_mem ha
        rw [h.pairs b] at hmem
        split at hmem
        · obtain ⟨x, hx, heq⟩ := mem_map.1 hmem
          rw [hkey, ← heq, hsize, ← ok.respects _ _ (hcopied x)]
          exact hw.hash_eq b x hx
        · cases hmem
      keys := fun b => by
        simp only [hkey]
        have hmap : ((seg' b).map fun a => (c.dest.mem a).pair).Pairwise fun p q => keyeq p.1 q.1 = false := by
          rw [h.pairs b]
          split
          · rw [pairwise_map]
            refine (hw.keys b).imp fun {x y} hxy => ?_
            rw [← ok.congr (hcopied x), ok.comm, ← ok.congr (hcopied y), ok.comm]
            exact hxy
          · exact List.Pairwise.nil
        exact pairwise_map.1 hmap
      load_eq := by
        have hlen := congrArg length h.map_pair
        rw [length_map, length_map, (hw.perm_range ok).length_eq, ← hw.load_eq] at hlen
        rw [hlen, hdest]
        exact h.load
      current_mem := fun a ha => by
        rw [hdest] at ha
        exact absurd (h.current.symm.trans ha) (by simp)
      pool := by
        rw [hdest]
        refine ⟨?_, ?_, fun a ha => h.copying.fresh a (mem_cons_of_mem _ ha)⟩
        · show c.dest.free.Nodup
          rw [h.copying.free]
          exact nodup_nil
        · intro a ha
          have ha : a ∈ c.dest.free := ha
          rw [h.copying.free] at ha
          cases ha }

theorem CopyInv.holds (ok : HashFuncsOk hash keyeq src.size) (hw : src.WF hash keyeq order seg)
    (hm : src.Holds keyeq (order.flatMap seg) m) (hcopy : ∀ k d, keyeq (copyEntry copyFunc k d).1 k)
    (h : CopyInv copyFunc src seg src.size c seg')
    (hpair : ∀ a, (dest.mem a).pair = (c.dest.mem a).pair) :
    dest.Holds keyeq ((range src.size).flatMap seg') fun k => (m k).map fun e => copyEntry copyFunc e.1 e.2 := by
  intro k e
  have hkeyeq : ∀ x, keyeq (copiedPair copyFunc (src.mem x)).1 k = keyeq (src.mem x).key k := fun x =>
    ok.congr (hcopy _ _) k
  rw [map_eq_some_iff]
  constructor
  · rintro ⟨e', he', rfl⟩
    obtain ⟨x, hx, hxk, rfl⟩ := (hm k e').1 he'
    have hmem := mem_map_of_mem (f := fun a => copiedPair copyFunc (src.mem a)) ((hw.perm_range ok).mem_iff.2 hx)
    rw [← h.map_pair] at hmem
    obtain ⟨a, ha, heq⟩ := mem_map.1 hmem
    refine ⟨a, ha, ?_, (hpair a).trans heq⟩
    rw [show (dest.mem a).key = _ from congrArg Prod.fst ((hpair a).trans heq), hkeyeq]
    exact hxk
  · rintro ⟨a, ha, hak, rfl⟩
    have hmem := mem_map_of_mem (f := fun a => (c.dest.mem a).pair) ha
    rw [h.map_pair] at hmem
    obtain ⟨x, hx, heq⟩ := mem_map.1 hmem
    have hpx : (dest.mem a).pair = copiedPair copyFunc (src.mem x) := (hpair a).trans heq.symm
    rw [show (dest.mem a).key = _ from congrArg Prod.fst hpx, hkeyeq] at hak
    exact ⟨(src.mem x).pair, (hm k _).2 ⟨x, (hw.perm_range ok).mem_iff.1 hx, hak, rfl⟩, hpx.symm⟩

theorem HashTable.Rep.copy {size : Nat} (ok : HashFuncsOk hash keyeq size) (hsize : 0 < size)
    (h : src.Rep hash keyeq size m) (hcopy : ∀ k d, keyeq (copyEntry copyFunc k d).1 k)
    (mem : Nat → HashEntry K D) (hfuel : src.load ≤ fuel) :
    ∃ dest, src.copy copyFunc fuel mem = some dest ∧
      dest.Rep hash keyeq size (fun k => (m k).map fun e => copyEntry copyFunc e.1 e.2) ∧ dest.load = src.load := by
  obtain ⟨rfl, order, seg, hw, hm⟩ := h
  obtain ⟨dest₀, hinit⟩ : ∃ dest₀, hashtableInit mem src.size = some dest₀ := ⟨_, if_neg (by omega)⟩
  have hinv₀ : CopyInv copyFunc src seg 0
      ⟨{ dest₀ with load := src.load, mem := setNext dest₀.mem dummyEntry none }, dummyEntry⟩ fun _ => [] :=
    .init hinit
  obtain ⟨c, seg', hc, hinv⟩ := CopyInv.buckets hw hfuel hinv₀ src.size le_rfl
  have hrep : ∀ dest : HashTable K D, dest = { c.dest with first := dest.first, mem := dest.mem } →
      (match (c.dest.mem dummyEntry).next with
        | some a => dest.first = some a ∧ dest.mem = setPrev c.dest.mem a none
        | none => dest.first = none ∧ dest.mem = c.dest.mem) →
      dest.Rep hash keyeq src.size (fun k => (m k).map fun e => copyEntry copyFunc e.1 e.2) ∧
        dest.load = src.load := by
    intro dest hdest hcases
    obtain ⟨hlinks, hpair⟩ := hinv.copying.linked (by rw [hdest]; exact hinv.last) hcases
    refine ⟨⟨by rw [hdest]; exact hinv.size, _, seg', hinv.wf ok hw hcopy hlinks hpair hdest,
      hinv.holds ok hw hm hcopy hpair⟩, by rw [hdest]; exact hinv.load⟩
  unfold HashTable.copy
  simp only [hinit, bind_eq_bind, bind_some, hc]
  cases hn : (c.dest.mem dummyEntry).next with
  | none =>
    refine ⟨c.dest, rfl, hrep c.dest rfl ?_⟩
    rw [hn]
    exact ⟨hinv.first, rfl⟩
  | some a =>
    refine ⟨{ c.dest with first := some a, mem := setPrev c.dest.mem a none }, rfl, hrep _ rfl ?_⟩
    rw [hn]
    exact ⟨rfl, rfl⟩

end Copying

/-! ## Iterating -/

section Iterating

variable {t : HashTable K D} {order : List Nat} {seg : Nat → List Nat} {m : K → Option (K × D)}

namespace HashTable

theorem WF.setCurrent (hw : t.WF hash keyeq order seg) {p : Option Nat}
    (hp : ∀ a, p = some a → a ∈ order.flatMap seg) : { t with current := p }.WF hash keyeq order seg :=
  hw.congr rfl rfl rfl rfl rfl (fun _ _ => rfl) hp ⟨hw.pool.free_nodup, hw.pool.free_ok, hw.pool.fresh_ok⟩

/-- The data that a loop over an iterator sees, until it returns null. -/
def walk (move : HashTable K D → HashTable K D) : Nat → HashTable K D → Option (List D)
  | 0, _ => none
  | fuel + 1, t =>
    match t.currentDatum with
    | some datum => (walk move fuel (move t)).map (datum :: ·)
    | none => some []

/-- `globus_hashtable_next` and `globus_hashtable_prev` follow the links of the entries. -/
theorem walk_eq (link : HashEntry K D → Option Nat) : ∀ {l : List Nat} {t : HashTable K D} {fuel : Nat},
    Seg (fun a => link (t.mem a)) t.current l none → l.length < fuel →
    walk (fun t => { t with current := t.current.bind fun a => link (t.mem a) }) fuel t =
      some (l.map fun a => (t.mem a).datum)
  | _, _, 0, _, hfuel => by cases hfuel
  | [], t, fuel + 1, h, _ => by
    have hnone : t.currentDatum = none := by rw [currentDatum, show t.current = none from h]; rfl
    rw [walk, hnone]
    rfl
  | a :: l, t, fuel + 1, h, hfuel => by
    have hsome : t.currentDatum = some (t.mem a).datum := by rw [currentDatum, h.1]; rfl
    rw [walk, hsome, h.1]
    have ih : walk (fun t => { t with current := t.current.bind fun a => link (t.mem a) }) fuel
        { t with current := link (t.mem a) } = some (l.map fun a => (t.mem a).datum) :=
      walk_eq link h.2 (by simpa using hfuel)
    simp only [bind_some]
    rw [ih]
    rfl

end HashTable

end Iterating

/-! ## Runs -/

section Runs

variable {size : Nat}

/-- A call with one of the tables. A copy function, if there is one, copies a key to an equal one. -/
inductive HashOp (keyeq : K → K → Bool) (D : Type*) where
  | insert (key : K) (datum : D)
  | update (key : K) (datum : D)
  | remove (key : K)
  | first
  | next
  | last
  | prev
  | copy (copyFunc : {f : Option (K → D → K × D) // ∀ k d, keyeq (copyEntry f k d).1 k})

/-- The table after the call, and the tables made by it. -/
def HashTable.call (hash : K → Nat → Nat) (fuel : Nat) (mem : Nat → HashEntry K D) (t : HashTable K D) :
    HashOp keyeq D → Option (HashTable K D × List (HashTable K D))
  | .insert key datum => (t.insert hash keyeq fuel key datum).map fun r => (r.2, [])
  | .update key datum => (t.update hash keyeq fuel key datum).map fun r => (r.2, [])
  | .remove key => (t.remove hash keyeq fuel key).map fun r => (r.2, [])
  | .first => some (t.toFirst, [])
  | .next => some (t.toNext, [])
  | .last => some (t.toLast, [])
  | .prev => some (t.toPrev, [])
  | .copy copyFunc => (t.copy copyFunc.1 fuel mem).map fun dest => (t, [dest])

/-- The map after the call, and the maps made by it. -/
def mapCall (m : K → Option (K × D)) : HashOp keyeq D → (K → Option (K × D)) × List (K → Option (K × D))
  | .insert key datum => (mapInsert keyeq m key datum, [])
  | .update key datum => (mapUpdate keyeq m key datum, [])
  | .remove key => (mapSet keyeq m key none, [])
  | .copy copyFunc => (m, [fun k => (m k).map fun e => copyEntry copyFunc.1 e.1 e.2])
  | _ => (m, [])

/-- A call with the table number `call.1`. A number that is no table is a null pointer; then nothing changes. -/
def hashStep (hash : K → Nat → Nat) (fuel : Nat) (mem : Nat → HashEntry K D) (ts : List (HashTable K D))
    (call : Nat × HashOp keyeq D) : Option (List (HashTable K D)) :=
  match ts[call.1]? with
  | some t => (t.call hash fuel mem call.2).map fun r => ts.set call.1 r.1 ++ r.2
  | none => some ts

def mapStep (ms : List (K → Option (K × D))) (call : Nat × HashOp keyeq D) : List (K → Option (K × D)) :=
  match ms[call.1]? with
  | some m => ms.set call.1 (mapCall m call.2).1 ++ (mapCall m call.2).2
  | none => ms

/-- The tables after the calls, of which the first is made before them. -/
def hashRun (hash : K → Nat → Nat) (fuel : Nat) (mem : Nat → HashEntry K D) (size : Nat)
    (calls : List (Nat × HashOp keyeq D)) : Option (List (HashTable K D)) := do
  let t ← hashtableInit mem size
  calls.foldlM (hashStep hash fuel mem) [t]

def mapRun (calls : List (Nat × HashOp keyeq D)) : List (K → Option (K × D)) := calls.foldl mapStep [fun _ => none]

/-- The tables hold the maps, and have no more than `n` entries. -/
def Related (hash : K → Nat → Nat) (keyeq : K → K → Bool) (size n : Nat) (ts : List (HashTable K D))
    (ms : List (K → Option (K × D))) : Prop :=
  List.Forall₂ (fun t m => t.Rep hash keyeq size m ∧ t.load ≤ n) ts ms

variable {t : HashTable K D} {m : K → Option (K × D)}

/-- An iterator is moved. -/
theorem HashTable.Rep.move (h : t.Rep hash keyeq size m) {n : Nat} (hn : t.load ≤ n) {p : Option Nat}
    (hp : ∀ order seg, t.WF hash keyeq order seg → ∀ a, p = some a → a ∈ order.flatMap seg) :
    ∃ r, some ({ t with current := p }, ([] : List (HashTable K D))) = some r ∧
      Related hash keyeq size (n + 1) (r.1 :: r.2) [m] := by
  obtain ⟨hsize, order, seg, hw, hm⟩ := h
  have hrep : { t with current := p }.Rep hash keyeq size m := ⟨hsize, order, seg, hw.setCurrent (hp order seg hw), hm⟩
  exact ⟨_, rfl, .cons ⟨hrep, Nat.le_succ_of_le hn⟩ .nil⟩

theorem HashTable.Rep.call (ok : HashFuncsOk hash keyeq size) (hsize : 0 < size) (mem : Nat → HashEntry K D)
    (h : t.Rep hash keyeq size m) {n : Nat} (hn : t.load ≤ n)
    (hfuel : n ≤ fuel) : ∀ op : HashOp keyeq D, ∃ r, t.call hash fuel mem op = some r ∧
      Related hash keyeq size (n + 1) (r.1 :: r.2) ((mapCall m op).1 :: (mapCall m op).2)
  | .insert key datum => by
    obtain ⟨t', ht', hrep, hload, -⟩ := h.insert ok key datum (hn.trans hfuel)
    exact ⟨(t', []), by simp [HashTable.call, ht'], .cons ⟨hrep, hload.trans (Nat.succ_le_succ hn)⟩ .nil⟩
  | .update key datum => by
    obtain ⟨t', ht', hrep, hload⟩ := h.update ok key datum (hn.trans hfuel)
    exact ⟨(t', []), by simp [HashTable.call, ht'], .cons ⟨hrep, hload.le.trans (Nat.le_succ_of_le hn)⟩ .nil⟩
  | .remove key => by
    obtain ⟨t', ht', hrep, hload⟩ := h.remove ok key (hn.trans hfuel)
    exact ⟨(t', []), by simp [HashTable.call, ht'], .cons ⟨hrep, hload.trans (Nat.le_succ_of_le hn)⟩ .nil⟩
  | .first => h.move hn fun order seg hw a ha => mem_of_head? (hw.links.first_eq.symm.trans ha)
  | .last => h.move hn fun order seg hw a ha => mem_of_getLast? (hw.links.last_eq.symm.trans ha)
  | .next => h.move hn fun order seg hw a ha => by
    obtain ⟨c, hc, hca⟩ := bind_eq_some_iff.1 ha
    exact hw.links.mem_of_next (hw.current_mem c hc) hca
  | .prev => h.move hn fun order seg hw a ha => by
    obtain ⟨c, hc, hca⟩ := bind_eq_some_iff.1 ha
    exact mem_reverse.1 (hw.links.reverse.mem_of_next (mem_reverse.2 (hw.current_mem c hc)) hca)
  | .copy copyFunc => by
    obtain ⟨dest, hdest, hrep, hload⟩ := h.copy ok hsize copyFunc.2 mem (hn.trans hfuel)
    exact ⟨(t, [dest]), by simp [HashTable.call, hdest],
      .cons ⟨h, Nat.le_succ_of_le hn⟩ (.cons ⟨hrep, hload.le.trans (Nat.le_succ_of_le hn)⟩ .nil)⟩

namespace Related

theorem set {n : Nat} (ht : t.Rep hash keyeq size m)
    (hn : t.load ≤ n) : ∀ {ts : List (HashTable K D)} {ms : List (K → Option (K × D))},
    Related hash keyeq size n ts ms → ∀ i, Related hash keyeq size n (ts.set i t) (ms.set i m)
  | [], [], .nil, _ => .nil
  | _ :: _, _ :: _, .cons _ hrest, 0 => .cons ⟨ht, hn⟩ hrest
  | _ :: _, _ :: _, .cons h hrest, i + 1 => .cons h (set ht hn hrest i)

theorem lookup {n : Nat} : ∀ {ts : List (HashTable K D)} {ms : List (K → Option (K × D))},
    Related hash keyeq size n ts ms → ∀ i : Nat, (ts[i]? = none ∧ ms[i]? = none) ∨
      ∃ (t : HashTable K D) (m : K → Option (K × D)), ts[i]? = some t ∧ ms[i]? = some m ∧
        t.Rep hash keyeq size m ∧ t.load ≤ n
  | [], [], .nil, _ => .inl ⟨rfl, rfl⟩
  | _ :: _, _ :: _, .cons h _, 0 => .inr ⟨_, _, rfl, rfl, h⟩
  | _ :: _, _ :: _, .cons _ hrest, i + 1 => by simpa using lookup hrest i

theorem step (ok : HashFuncsOk hash keyeq size) (hsize : 0 < size) (mem : Nat → HashEntry K D) {n : Nat}
    {ts : List (HashTable K D)} {ms : List (K → Option (K × D))} (h : Related hash keyeq size n ts ms)
    (hfuel : n ≤ fuel) (call : Nat × HashOp keyeq D) :
    ∃ ts', hashStep hash fuel mem ts call = some ts' ∧ Related hash keyeq size (n + 1) ts' (mapStep ms call) := by
  have hmono : Related hash keyeq size (n + 1) ts ms := h.imp fun t m htm => ⟨htm.1, Nat.le_succ_of_le htm.2⟩
  unfold hashStep mapStep
  obtain ⟨ht, hm⟩ | ⟨t, m, ht, hm, hrep, hn⟩ := lookup h call.1
  · rw [ht, hm]
    exact ⟨ts, rfl, hmono⟩
  · rw [ht, hm]
    obtain ⟨r, hr, hrel⟩ := hrep.call ok hsize mem hn hfuel call.2
    cases hrel with
    | cons hfirst hrest =>
      refine ⟨ts.set call.1 r.1 ++ r.2, by simp [hr], ?_⟩
      exact rel_append (set hfirst.1 hfirst.2 hmono call.1) hrest

theorem run (ok : HashFuncsOk hash keyeq size) (hsize : 0 < size) (mem : Nat → HashEntry K D) :
    ∀ (calls : List (Nat × HashOp keyeq D)) {n : Nat} {ts : List (HashTable K D)} {ms : List (K → Option (K × D))},
      Related hash keyeq size n ts ms → n + calls.length ≤ fuel →
      ∃ ts', calls.foldlM (hashStep hash fuel mem) ts = some ts' ∧
        Related hash keyeq size (n + calls.length) ts' (calls.foldl mapStep ms)
  | [], n, ts, ms, h, _ => ⟨ts, rfl, h⟩
  | call :: calls, n, ts, ms, h, hfuel => by
    rw [length_cons] at hfuel
    obtain ⟨ts₁, hts₁, h₁⟩ := h.step ok hsize mem (show n ≤ fuel by omega) call
    obtain ⟨ts₂, hts₂, h₂⟩ := run ok hsize mem calls h₁ (by omega)
    refine ⟨ts₂, ?_, ?_⟩
    · rw [foldlM_cons, hts₁]
      exact hts₂
    · rw [length_cons, foldl_cons, show n + (calls.length + 1) = n + 1 + calls.length by omega]
      exact h₂

end Related

namespace HashTable

theorem Rep.init {mem : Nat → HashEntry K D} (h : hashtableInit mem size = some t) :
    t.Rep hash keyeq size (fun _ => none) ∧ t.load ≤ 0 := by
  unfold hashtableInit at h
  split at h
  · cases h
  · cases h
    refine ⟨⟨rfl, [], fun _ => [], ?_, fun k e => by simp⟩, le_rfl⟩
    exact
      { links := ⟨by simp, rfl, rfl⟩
        order_nodup := nodup_nil
        seg_nil := fun _ _ => rfl
        first_eq := fun _ _ => rfl
        last_eq := fun _ _ => rfl
        hash_eq := fun _ _ ha => by cases ha
        keys := fun _ => List.Pairwise.nil
        load_eq := rfl
        current_mem := fun _ ha => by cases ha
        pool := ⟨nodup_nil, fun _ ha => (by cases ha), fun _ ha => by cases ha⟩ }

theorem WF.filter_eq {order : List Nat} {seg : Nat → List Nat}
    (hw : t.WF hash keyeq order seg) (b : Nat) :
    ((order.flatMap seg).filter fun a => hash (t.mem a).key t.size == b) = seg b := by
  by_cases hb : seg b = []
  · rw [hb, filter_eq_nil_iff]
    intro a ha heq
    rw [hw.mem_iff, eq_of_beq heq, hb] at ha
    cases ha
  · obtain ⟨o₁, o₂, rfl, hsplit⟩ := hw.split hb
    obtain ⟨hnot, -⟩ := nodup_cons.1 (nodup_middle.1 hw.order_nodup)
    rw [mem_append, not_or] at hnot
    -- entries of other buckets
    have hother : ∀ o : List Nat, b ∉ o → (o.flatMap seg).filter (fun a => hash (t.mem a).key t.size == b) = [] := by
      intro o ho
      rw [filter_eq_nil_iff]
      intro a ha heq
      obtain ⟨c, hc, hac⟩ := mem_flatMap.1 ha
      rw [hw.hash_eq c a hac] at heq
      exact ho (eq_of_beq heq ▸ hc)
    rw [hsplit, filter_append, filter_append, hother o₁ hnot.1, hother o₂ hnot.2, nil_append,
      append_nil, filter_eq_self]
    intro a ha
    rw [hw.hash_eq b a ha]
    exact beq_self_eq_true b

/-- What the user of a table sees of the map that it stands for, and the list `l` of its entries. -/
structure Refines (hash : K → Nat → Nat) (keyeq : K → K → Bool) (fuel : Nat) (t : HashTable K D)
    (m : K → Option (K × D)) (l : List Nat) : Prop where
  lookup_eq : ∀ key, t.lookup hash keyeq fuel key = some ((m key).map Prod.snd)
  insert_absent : ∀ key datum, m key = none → ∃ t', t.insert hash keyeq fuel key datum = some (true, t')
  insert_present : ∀ key datum, m key ≠ none → t.insert hash keyeq fuel key datum = some (false, t)
  update_eq : ∀ key datum, ∃ t', t.update hash keyeq fuel key datum = some ((m key).map Prod.snd, t')
  remove_eq : ∀ key, ∃ t', t.remove hash keyeq fuel key = some ((m key).map Prod.snd, t')
  -- every entry of the map is in the list, once
  entries : ∀ k e, m k = some e ↔ ∃ a ∈ l, keyeq (t.mem a).key k ∧ ((t.mem a).key, (t.mem a).datum) = e
  keys : ∀ a ∈ l, ∀ b ∈ l, keyeq (t.mem a).key (t.mem b).key → a = b
  nodup : l.Nodup
  forward : Seg (fun a => (t.mem a).next) t.first l none
  backward : Seg (fun a => (t.mem a).prev) t.last l.reverse none
  inverse : ∀ a ∈ l, ∀ b ∈ l, (t.mem a).next = some b ↔ (t.mem b).prev = some a
  segment : ∀ b < t.size, ∃ xs s ys, l = xs ++ s ++ ys ∧ (l.filter fun a => hash (t.mem a).key t.size == b) = s ∧
    (t.buckets b).first = s.head? ∧ (t.buckets b).last = s.getLast?
  size_eq : t.sizeOf = l.length
  walk_next : walk toNext fuel t.toFirst = some (l.map fun a => (t.mem a).datum)
  walk_prev : walk toPrev fuel t.toLast = some (l.reverse.map fun a => (t.mem a).datum)

theorem Rep.refines (ok : HashFuncsOk hash keyeq size)
    (h : t.Rep hash keyeq size m) (hfuel : t.load < fuel) : ∃ l, t.Refines hash keyeq fuel m l := by
  have hrep := h
  obtain ⟨rfl, order, seg, hw, hm⟩ := h
  have hlen : (order.flatMap seg).length < fuel := hw.load_eq ▸ hfuel
  refine ⟨order.flatMap seg, fun key => hrep.lookup ok key hfuel.le, fun key datum hnone => ?_,
    fun key datum hsome => ?_, fun key datum => ?_, fun key => ?_, hm, fun a ha b hb => hw.eq_of_keyeq ok ha hb,
    hw.links.nodup, hw.links.forward, hw.links.backward, fun a ha b hb => ?_, fun b hb => ?_, hw.load_eq, ?_, ?_⟩
  · obtain ⟨t', ht', -⟩ := hrep.insert ok key datum hfuel.le
    rw [hnone] at ht'
    exact ⟨t', ht'⟩
  · obtain ⟨t', ht', -, -, hsame⟩ := hrep.insert ok key datum hfuel.le
    rw [hsame hsome] at ht'
    rw [ht', isNone_eq_false_iff.2 (ne_none_iff_isSome.1 hsome)]
  · obtain ⟨t', ht', -⟩ := hrep.update ok key datum hfuel.le
    exact ⟨t', ht'⟩
  · obtain ⟨t', ht', -⟩ := hrep.remove ok key hfuel.le
    exact ⟨t', ht'⟩
  · exact ⟨hw.links.prev_of_next ha, hw.links.next_of_prev hb⟩
  · rw [hw.filter_eq b]
    by_cases hseg : seg b = []
    · exact ⟨[], seg b, order.flatMap seg, by simp [hseg], rfl, hw.first_eq b hb, hw.last_eq b hb⟩
    · obtain ⟨o₁, o₂, -, hsplit⟩ := hw.split hseg
      exact ⟨_, seg b, _, by rw [hsplit, append_assoc], rfl, hw.first_eq b hb, hw.last_eq b hb⟩
  · exact walk_eq HashEntry.next hw.links.forward hlen
  · refine walk_eq HashEntry.prev hw.links.backward ?_
    rw [length_reverse]
    exact hlen

end HashTable

/-- Over every run of calls on a table and its copies: with fuel for one more round than there are calls, all
calls return, and every table refines the map that the calls make. -/
theorem hashtable_run (ok : HashFuncsOk hash keyeq size) (hsize : 0 < size) (mem : Nat → HashEntry K D)
    (calls : List (Nat × HashOp keyeq D)) (hfuel : calls.length < fuel) :
    ∃ ts, hashRun hash fuel mem size calls = some ts ∧
      List.Forall₂ (fun t m => ∃ l, t.Refines hash keyeq fuel m l) ts (mapRun calls) := by
  obtain ⟨t, ht⟩ : ∃ t, hashtableInit mem size = some t := ⟨_, if_neg (by omega)⟩
  have hrel : Related hash keyeq size 0 [t] [fun _ => none] := .cons (HashTable.Rep.init ht) .nil
  obtain ⟨ts, hts, hrun⟩ := hrel.run ok hsize mem calls (show 0 + calls.length ≤ fuel by omega)
  refine ⟨ts, ?_, hrun.imp fun t m htm => htm.1.refines ok (lt_of_le_of_lt htm.2 (by omega))⟩
  unfold hashRun
  rw [ht]
  exact hts

/-- A run with numbers as keys, in which a copy keeps what is removed from the table. -/
def numberCalls : List (Nat × HashOp (fun k k' : Nat => k == k') Char) :=
  [(0, .insert 5 'a'), (0, .insert 8 'b'), (0, .copy ⟨none, fun k _ => beq_self_eq_true k⟩), (0, .first),
    (0, .remove 8), (0, .update 5 'c'), (1, .insert 8 'd')]

theorem hashtable_run_numbers :
    ∃ ts, hashRun (fun k n => k % n) 8 (fun _ => ⟨0, 'z', none, none⟩) 3 numberCalls = some ts ∧
      List.Forall₂ (fun t m => ∃ l, t.Refines (fun k n => k % n) (fun k k' : Nat => k == k') 8 m l) ts
        (mapRun numberCalls) :=
  hashtable_run
    ⟨fun k => Nat.mod_lt k (by decide), fun k k' h => by rw [eq_of_beq h], fun k => beq_self_eq_true k,
      fun k k' h => by rw [eq_of_beq h]; exact beq_self_eq_true k', fun k k' k'' h h' => by
        rw [eq_of_beq h, eq_of_beq h']; exact beq_self_eq_true k''⟩
    (by decide) _ numberCalls (by decide)

end Runs

/-! ## Strings as keys of hash tables -/

/-- `globus_hashtable_string_hash`, over characters with a sign. -/
def hashtableStringHash (s : List Char) (limit : Nat) : Nat :=
  s.foldl (fun h c => (131 * h + widen c) % 2 ^ 64) 0 % limit
where
  widen (c : Char) : Nat := if c.toNat < 128 then c.toNat else 2 ^ 64 - 256 + c.toNat

/-- `globus_hashtable_string_keyeq`. -/
def hashtableStringKeyeq (s t : List Char) : Bool := strcmp s t == .eq

theorem hashtableStringKeyeq_iff {s t : List Char} : hashtableStringKeyeq s t ↔ s = t := by
  unfold hashtableStringKeyeq
  rw [beq_iff_eq]
  refine ⟨eq_of_strcmp, ?_⟩
  rintro rfl
  exact Std.ReflCmp.compare_self

theorem stringFuncs_ok {size : Nat} (hsize : 0 < size) :
    HashFuncsOk hashtableStringHash hashtableStringKeyeq size where
  lt _ := Nat.mod_lt _ hsize
  respects k k' h := by rw [hashtableStringKeyeq_iff.1 h]
  refl k := hashtableStringKeyeq_iff.2 rfl
  symm k k' h := hashtableStringKeyeq_iff.2 (hashtableStringKeyeq_iff.1 h).symm
  trans k k' k'' h h' :=
    hashtableStringKeyeq_iff.2 ((hashtableStringKeyeq_iff.1 h).trans (hashtableStringKeyeq_iff.1 h'))

/-! ## Indices of buckets -/

/-- A remainder that is returned as an `int`. -/
def returnInt (x : BitVec 64) : Int := (x.setWidth 32).toInt

/-- `globus_hashtable_voidp_hash`. -/
def hashtableVoidpHash (voidp : BitVec 64) (limit : Int) : Int :=
  returnInt ((voidp <<< 32 ^^^ voidp >>> 32) % .ofInt 64 limit)

/-- `globus_hashtable_int_hash`. The key has a sign. -/
def hashtableIntHash (integer : BitVec 64) (limit : Int) : Int := returnInt (integer.srem (.ofInt 64 limit))

/-- `globus_hashtable_ulong_hash`. -/
def hashtableUlongHash (integer : BitVec 64) (limit : Int) : Int := returnInt (integer % .ofInt 64 limit)

section Index

variable {limit : Int} (hpos : 1 ≤ limit) (hmax : limit ≤ 2 ^ 31 - 1)

theorem returnInt_eq {x : BitVec 64} (hlo : -2 ^ 31 ≤ x.toInt) (hhi : x.toInt < 2 ^ 31) : returnInt x = x.toInt := by
  have hx := x.isLt
  rw [BitVec.toInt_eq_toNat_cond] at hlo hhi ⊢
  rw [returnInt, BitVec.toInt_eq_toNat_cond, BitVec.toNat_setWidth]
  split_ifs at hlo hhi ⊢ <;> omega

include hpos hmax in
/-- A remainder without a sign is an index. -/
theorem returnInt_umod (x : BitVec 64) :
    0 ≤ returnInt (x % .ofInt 64 limit) ∧ returnInt (x % .ofInt 64 limit) < limit := by
  have hlimit : (BitVec.ofInt 64 limit).toNat = limit.toNat := by
    rw [BitVec.toNat_ofInt]
    omega
  have hlt : (x % .ofInt 64 limit).toNat < limit.toNat := by
    rw [BitVec.toNat_umod, hlimit]
    exact Nat.mod_lt _ (by omega)
  have hint : (x % BitVec.ofInt 64 limit).toInt = (x % BitVec.ofInt 64 limit).toNat :=
    BitVec.toInt_eq_toNat_of_lt (by omega)
  rw [returnInt_eq] <;> omega

/-- The indices of strings, pointers and numbers without a sign are in the table. That of a number with a sign is exactly
if the number is not negative or a multiple of the size. -/
theorem hash_lt_limit_iff (hpos : 1 ≤ limit) (hmax : limit ≤ 2 ^ 31 - 1) (s : List Char) (key : BitVec 64) :
    (0 ≤ returnInt (.ofNat 64 (hashtableStringHash s limit.toNat)) ∧
      returnInt (.ofNat 64 (hashtableStringHash s limit.toNat)) < limit) ∧
    (0 ≤ hashtableVoidpHash key limit ∧ hashtableVoidpHash key limit < limit) ∧
    (0 ≤ hashtableUlongHash key limit ∧ hashtableUlongHash key limit < limit) ∧
    (0 ≤ hashtableIntHash key limit ∧ hashtableIntHash key limit < limit ↔ 0 ≤ key.toInt ∨ limit ∣ key.toInt) := by
  refine ⟨?_, returnInt_umod hpos hmax _, returnInt_umod hpos hmax _, ?_⟩
  · have hlt : hashtableStringHash s limit.toNat < limit.toNat := Nat.mod_lt _ (by omega)
    rw [returnInt_eq] <;> rw [BitVec.toInt_eq_toNat_of_lt (by simp; omega), BitVec.toNat_ofNat] <;> omega
  · have hlimit : (BitVec.ofInt 64 limit).toInt = limit := BitVec.toInt_ofInt_eq_self (by decide) (by omega) (by omega)
    have hsrem := BitVec.toInt_srem key (.ofInt 64 limit)
    rw [hlimit] at hsrem
    have hlt := Int.tmod_lt_of_pos key.toInt (show 0 < limit by omega)
    have hgt := Int.lt_tmod_of_pos key.toInt (show 0 < limit by omega)
    rw [hashtableIntHash, returnInt_eq (by omega) (by omega), hsrem, and_iff_left hlt, Int.dvd_iff_tmod_eq_zero]
    rcases le_or_gt 0 key.toInt with hkey | hkey
    · exact iff_of_true (Int.tmod_nonneg _ hkey) (.inl hkey)
    · have hneg := Int.tmod_nonneg limit (show 0 ≤ -key.toInt by omega)
      rw [Int.neg_tmod] at hneg
      omega

theorem hash_lt_limit_sixteen :
    hashtableIntHash 37 16 < 16 ∧ hashtableStringHash "note".toList 17 < 17 :=
  ⟨((hash_lt_limit_iff (by decide) (by decide) [] 37).2.2.2.2 (.inl (by decide))).2, by decide⟩

/-- A negative number has a negative index. -/
theorem hashtableIntHash_negative : hashtableIntHash (-1) 16 = -1 := by decide

end Index

end Globus
