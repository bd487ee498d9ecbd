/-
Insert, lookup, update and remove on hash tables (common/source/library/globus_hashtable.c), as functions on the
finite map that a table holds.
-/
import GlobusToolkit.Common.HashTable

namespace Globus

open Lib List Function

variable {K D : Type*} {hash : K → Nat → Nat} {keyeq : K → K → Bool} {fuel : Nat} {t t' : HashTable K D}
  {order : List Nat} {seg : Nat → List Nat}

/-! ## The finite map -/

/-- The table holds the pairs of the map, which is a function of the key up to `keyeq`. -/
def HashTable.Holds (keyeq : K → K → Bool) (t : HashTable K D) (l : List Nat) (m : K → Option (K × D)) : Prop :=
  ∀ k e, m k = some e ↔ ∃ a ∈ l, keyeq (t.mem a).key k ∧ (t.mem a).pair = e

variable (keyeq) in
/-- The map with `v` at the keys equal to `k`. -/
def mapSet (m : K → Option (K × D)) (k : K) (v : Option (K × D)) : K → Option (K × D) :=
  fun k' => if keyeq k k' then v else m k'

/-- What a table is: its segments, and the map that it holds. -/
def HashTable.Rep (hash : K → Nat → Nat) (keyeq : K → K → Bool) (size : Nat) (t : HashTable K D)
    (m : K → Option (K × D)) : Prop :=
  t.size = size ∧ ∃ order seg, t.WF hash keyeq order seg ∧ t.Holds keyeq (order.flatMap seg) m

variable {m : K → Option (K × D)} {l : List Nat}

theorem HashTable.WF.search_map (ok : HashFuncsOk hash keyeq t.size) (hw : t.WF hash keyeq order seg)
    (hm : t.Holds keyeq (order.flatMap seg) m) (key : K) (hfuel : t.load ≤ fuel) :
    (t.search hash keyeq fuel key = some none ∧ m key = none ∧
      ∀ a ∈ order.flatMap seg, keyeq (t.mem a).key key = false) ∨
    ∃ a, t.search hash keyeq fuel key = some (some a) ∧ m key = some (t.mem a).pair ∧ a ∈ order.flatMap seg ∧
      keyeq (t.mem a).key key := by
  obtain ⟨r, hr, hspec⟩ := hw.search_spec ok key hfuel
  cases r with
  | none =>
    have hnone : ∀ a ∈ order.flatMap seg, keyeq (t.mem a).key key = false := fun a ha => by
      rw [← Bool.not_eq_true]
      intro hkey
      cases (hspec a).2 ⟨ha, hkey⟩
    refine .inl ⟨hr, Option.eq_none_iff_forall_ne_some.2 fun e he => ?_, hnone⟩
    obtain ⟨a, ha, hkey, -⟩ := (hm key e).1 he
    rw [hnone a ha] at hkey
    cases hkey
  | some a =>
    obtain ⟨ha, hkey⟩ := (hspec a).1 rfl
    exact .inr ⟨a, hr, (hm key _).2 ⟨a, ha, hkey, rfl⟩, ha, hkey⟩

/-! ## Insert -/

theorem HashTable.Pool.popNode (h : t.Pool l) :
    t.popNode.1 ∉ l ∧ t.popNode.1 ∉ t.popNode.2.free ∧ t.popNode.1 < t.popNode.2.fresh ∧ t.popNode.2.Pool l := by
  unfold HashTable.popNode
  split
  · next a free hfree =>
    have hnodup := nodup_cons.1 (hfree ▸ h.free_nodup)
    have ha := h.free_ok a (by simp [hfree])
    refine ⟨ha.2, hnodup.1, ha.1, hnodup.2, fun x hx => h.free_ok x ?_, h.fresh_ok⟩
    rw [hfree]
    exact mem_cons_of_mem a hx
  · next hfree =>
    refine ⟨fun hmem => absurd (h.fresh_ok _ hmem) (lt_irrefl _), by simp [hfree], Nat.lt_succ_self _, h.free_nodup,
      by simp [hfree], fun a ha => Nat.lt_succ_of_lt (h.fresh_ok a ha)⟩

theorem HashTable.popNode_eq (t : HashTable K D) :
    t.popNode.2 = { t with free := t.popNode.2.free, fresh := t.popNode.2.fresh } := by
  unfold HashTable.popNode
  split <;> rfl

variable {a : Nat} {l' : List Nat}

namespace HashTable

theorem Pool.cons (h : t.Pool l) (hfree : a ∉ t.free) (hlt : a < t.fresh)
    (hperm : l'.Perm (a :: l)) (hfree' : t'.free = t.free) (hfresh : t'.fresh = t.fresh) : t'.Pool l' := by
  refine ⟨hfree' ▸ h.free_nodup, fun x hx => ?_, fun x hx => ?_⟩
  · rw [hfree'] at hx
    rw [hfresh, hperm.mem_iff, mem_cons, not_or]
    exact ⟨(h.free_ok x hx).1, ne_of_mem_of_not_mem hx hfree, (h.free_ok x hx).2⟩
  · rw [hfresh]
    rcases mem_cons.1 (hperm.mem_iff.1 hx) with rfl | hx
    · exact hlt
    · exact h.fresh_ok x hx

theorem link_pair (t : HashTable K D) (b a x : Nat) : ((t.link b a).mem x).pair = (t.mem x).pair := by
  unfold HashEntry.pair
  cases hb : (t.buckets b).first with
  | some before => simp [link, hb, insertNodeBefore_key, insertNodeBefore_datum]
  | none =>
    cases hf : t.first with
    | some before => simp [link, hb, hf, insertNodeBefore_key, insertNodeBefore_datum]
    | none => simp [link, hb, hf]

theorem link_frame (t : HashTable K D) (b a : Nat) :
    (t.link b a).size = t.size ∧ (t.link b a).load = t.load ∧ (t.link b a).current = t.current ∧
      (t.link b a).free = t.free ∧ (t.link b a).fresh = t.fresh := by
  cases h : (t.buckets b).first with
  | some before => simp [link, h]
  | none => cases hf : t.first <;> simp [link, h, hf]

/-- The node `a` is linked in front of the entries of bucket `b`. -/
structure Placed (t : HashTable K D) (a b : Nat) (order order' : List Nat) (seg : Nat → List Nat) : Prop where
  links : Linked (t.link b a).mem (t.link b a).first (t.link b a).last
    (order'.flatMap (Function.update seg b (a :: seg b)))
  perm : (order'.flatMap (Function.update seg b (a :: seg b))).Perm (a :: order.flatMap seg)
  buckets : (t.link b a).buckets = Function.update t.buckets b ⟨some a, (a :: seg b).getLast?⟩

theorem WF.place (hw : t.WF hash keyeq order seg) {a b : Nat} {order' : List Nat}
    (hfree : a ∉ t.free) (hlt : a < t.fresh) (hhash : hash (t.mem a).key t.size = b)
    (hkeys : ∀ x ∈ order.flatMap seg, keyeq (t.mem a).key (t.mem x).key = false) (horder : order'.Nodup)
    (hmem : ∀ c, c ∈ order' ↔ c = b ∨ c ∈ order) (h : t.Placed a b order order' seg) :
    { t.link b a with load := (t.link b a).load + 1 }.WF hash keyeq order' (Function.update seg b (a :: seg b)) := by
  have hkey : ∀ x, ((t.link b a).mem x).key = (t.mem x).key := fun x => congrArg Prod.fst (t.link_pair b a x)
  obtain ⟨hsize, hload, hcurrent, hfree', hfresh⟩ := t.link_frame b a
  exact
    { links := h.links
      order_nodup := horder
      seg_nil := fun c hc => by
        rw [hmem, not_or] at hc
        rw [update_of_ne hc.1]
        exact hw.seg_nil c hc.2
      first_eq := fun c hc => (hw.ends_update h.buckets (hsize ▸ hc)).1
      last_eq := fun c hc => (hw.ends_update h.buckets (hsize ▸ hc)).2
      hash_eq := fun c x hx => by
        simp only [hkey, hsize]
        by_cases hcb : c = b
        · rw [hcb, update_self] at hx
          rcases mem_cons.1 hx with rfl | hx
          · rw [hcb]; exact hhash
          · rw [hcb]; exact hw.hash_eq b x hx
        · rw [update_of_ne hcb] at hx
          exact hw.hash_eq c x hx
      keys := fun c => by
        simp only [hkey]
        by_cases hcb : c = b
        · rw [hcb, update_self]
          exact pairwise_cons.2 ⟨fun x hx => hkeys x (hw.mem_of_seg hx), hw.keys b⟩
        · rw [update_of_ne hcb]
          exact hw.keys c
      load_eq := by simp only [hload, h.perm.length_eq, length_cons, hw.load_eq]
      current_mem := fun x hx =>
        h.perm.mem_iff.2 (mem_cons_of_mem a (hw.current_mem x (hcurrent.symm.trans hx)))
      pool := hw.pool.cons hfree hlt h.perm hfree' hfresh }

theorem WF.link_cons (hw : t.WF hash keyeq order seg) {a b before : Nat} {rest : List Nat}
    (hseg : seg b = before :: rest) (hnot : a ∉ order.flatMap seg) (hbound : b < t.size) :
    t.Placed a b order order seg := by
  obtain ⟨o₁, o₂, rfl, hsplit⟩ := hw.split (b := b) (by simp [hseg])
  have hlinks := hw.links
  rw [hsplit, hseg, cons_append] at hlinks hnot
  have hlist : (o₁ ++ b :: o₂).flatMap (Function.update seg b (a :: seg b)) =
      o₁.flatMap seg ++ a :: before :: (rest ++ o₂.flatMap seg) := by
    rw [flatMap_update hw.order_nodup, hseg]; rfl
  have hlink : t.link b a = { t with
      first := if some before = t.first then some a else t.first
      mem := insertNodeBefore t.mem a before
      buckets := Function.update t.buckets b { t.buckets b with first := some a } } := by
    simp [link, hw.first_eq b hbound, hseg]
  refine ⟨?_, ?_, ?_⟩
  · rw [hlist, hlink]
    have h := hlinks.insertNodeBefore hnot
    have hfirst : (o₁.flatMap seg ++ a :: before :: (rest ++ o₂.flatMap seg)).head? =
        if some before = t.first then some a else t.first := by
      have htop := hlinks.first_eq
      have hnodup := hlinks.nodup
      cases hxs : o₁.flatMap seg with
      | nil =>
        rw [hxs] at htop
        rw [if_pos (show some before = t.first from htop.symm)]
        rfl
      | cons c xs =>
        rw [hxs] at htop hnodup
        have hne : some before ≠ t.first := fun heq => by
          obtain rfl : before = c := Option.some.inj (heq.trans htop)
          exact (nodup_cons.1 hnodup).1 (by simp)
        rw [if_neg hne, htop]
        rfl
    rw [hfirst] at h
    have hlast : (o₁.flatMap seg ++ a :: before :: (rest ++ o₂.flatMap seg)).getLast? = t.last := by
      rw [hlinks.last_eq, getLast?_append, getLast?_append, getLast?_cons_cons]
    rw [hlast] at h
    exact h
  · rw [hlist, hsplit, hseg]
    exact perm_middle
  · rw [hlink, hseg, getLast?_cons_cons, ← hseg, ← hw.last_eq b hbound]

theorem WF.link_nil (hw : t.WF hash keyeq order seg) {a b : Nat} (hseg : seg b = [])
    (hnot : a ∉ order.flatMap seg) (hbound : b < t.size) : t.Placed a b order (b :: order.erase b) seg := by
  have hlist : (b :: order.erase b).flatMap (Function.update seg b (a :: seg b)) = a :: order.flatMap seg := by
    rw [flatMap_cons, update_self, hseg, flatMap_update_of_not_mem hw.order_nodup.not_mem_erase,
      flatMap_erase hseg]
    rfl
  have hlinks := hw.links
  have htop := hlinks.first_eq
  have hbottom := hlinks.last_eq
  suffices h : Linked (t.link b a).mem (t.link b a).first (t.link b a).last (a :: order.flatMap seg) ∧
      (t.link b a).buckets = Function.update t.buckets b ⟨some a, some a⟩ from
    ⟨hlist ▸ h.1, hlist ▸ .refl _, by rw [hseg]; exact h.2⟩
  cases hl : order.flatMap seg with
  | nil =>
    rw [hl] at htop
    have hlink : t.link b a = { t with
        mem := setNext (setPrev t.mem a none) a none
        last := some a
        first := some a
        buckets := Function.update t.buckets b ⟨some a, some a⟩ } := by
      simp [link, hw.first_eq b hbound, hseg, htop]
    rw [hlink]
    exact ⟨⟨by simp, by simp, by simp⟩, rfl⟩
  | cons before ys =>
    rw [hl] at htop hbottom hlinks hnot
    have hlink : t.link b a = { t with
        mem := insertNodeBefore t.mem a before
        first := some a
        buckets := Function.update t.buckets b ⟨some a, some a⟩ } := by
      simp [link, hw.first_eq b hbound, hseg, htop]
    rw [hlink]
    refine ⟨?_, rfl⟩
    have h := Linked.insertNodeBefore (show Linked t.mem t.first t.last ([] ++ before :: ys) from hlinks) hnot
    rw [nil_append, getLast?_cons_cons, ← hbottom] at h
    exact h

theorem WF.link (hw : t.WF hash keyeq order seg) (hnot : a ∉ order.flatMap seg)
    (hfree : a ∉ t.free) (hlt : a < t.fresh) (hbound : hash (t.mem a).key t.size < t.size)
    (hkeys : ∀ x ∈ order.flatMap seg, keyeq (t.mem a).key (t.mem x).key = false) :
    let t' := t.link (hash (t.mem a).key t.size) a
    ∃ order' seg', { t' with load := t'.load + 1 }.WF hash keyeq order' seg' ∧
      (order'.flatMap seg').Perm (a :: order.flatMap seg) := by
  set b := hash (t.mem a).key t.size with hb
  cases hseg : seg b with
  | cons before rest =>
    have h := hw.link_cons hseg hnot hbound
    have hmem : b ∈ order := by
      by_contra h
      rw [hw.seg_nil b h] at hseg
      cases hseg
    exact ⟨order, _, hw.place hfree hlt hb.symm hkeys hw.order_nodup (fun c => by grind) h, h.perm⟩
  | nil =>
    have h := hw.link_nil hseg hnot hbound
    have hnodup : (b :: order.erase b).Nodup :=
      nodup_cons.2 ⟨hw.order_nodup.not_mem_erase, hw.order_nodup.erase b⟩
    have hmem : ∀ c, c ∈ b :: order.erase b ↔ c = b ∨ c ∈ order := fun c => by
      rw [mem_cons, hw.order_nodup.mem_erase_iff]
      tauto
    exact ⟨_, _, hw.place hfree hlt hb.symm hkeys hnodup hmem h, h.perm⟩

theorem Holds.cons (ok : HashFuncsOk hash keyeq t.size) (hm : t.Holds keyeq l m) {key : K}
    {datum : D} (hnone : ∀ x ∈ l, keyeq (t.mem x).key key = false) (hperm : l'.Perm (a :: l))
    (ha : (t'.mem a).pair = (key, datum)) (hpair : ∀ x ∈ l, (t'.mem x).pair = (t.mem x).pair) :
    t'.Holds keyeq l' (mapSet keyeq m key (some (key, datum))) := by
  intro k e
  have hkey : (t'.mem a).key = key := congrArg Prod.fst ha
  have hother : (∃ x ∈ l, keyeq (t'.mem x).key k ∧ (t'.mem x).pair = e) ↔ m k = some e := by
    rw [hm k e]
    refine exists_congr fun x => and_congr_right fun hx => ?_
    rw [hpair x hx, show (t'.mem x).key = (t.mem x).key from congrArg Prod.fst (hpair x hx)]
  have hlist : (∃ x ∈ l', keyeq (t'.mem x).key k ∧ (t'.mem x).pair = e) ↔
      (keyeq key k ∧ (key, datum) = e) ∨ m k = some e := by
    simp only [hperm.mem_iff, exists_mem_cons_iff, hkey, ha, hother]
  rw [hlist]
  unfold mapSet
  by_cases hk : keyeq key k
  · -- no other entry has the key
    have hnot : m k ≠ some e := fun he => by
      obtain ⟨x, hx, hxk, -⟩ := (hm k e).1 he
      have hfalse := hnone x hx
      rw [ok.trans _ _ _ hxk (ok.symm _ _ hk)] at hfalse
      cases hfalse
    simp [hk, hnot]
  · simp [hk]

end HashTable

variable (keyeq) in
/-- Insert, on the map: only an absent key is added. -/
def mapInsert (m : K → Option (K × D)) (key : K) (datum : D) : K → Option (K × D) :=
  if (m key).isNone then mapSet keyeq m key (some (key, datum)) else m

variable {size : Nat}

theorem HashTable.Rep.insert (ok : HashFuncsOk hash keyeq size) (h : t.Rep hash keyeq size m) (key : K)
    (datum : D) (hfuel : t.load ≤ fuel) :
    ∃ t', t.insert hash keyeq fuel key datum = some ((m key).isNone, t') ∧
      t'.Rep hash keyeq size (mapInsert keyeq m key datum) ∧ t'.load ≤ t.load + 1 ∧ (m key ≠ none → t' = t) := by
  obtain ⟨rfl, order, seg, hw, hm⟩ := h
  unfold HashTable.insert mapInsert
  obtain ⟨hs, hnone, hkeys⟩ | ⟨a, hs, hsome, -⟩ := hw.search_map ok hm key hfuel
  · rw [hs, hnone]
    obtain ⟨hnot, hfree, hlt, hpool⟩ := hw.pool.popNode
    set a := t.popNode.1 with ha
    set t₁ : HashTable K D := { t.popNode.2 with
      mem := Function.update t.popNode.2.mem a { t.popNode.2.mem a with key, datum } } with ht₁
    have hpop := t.popNode_eq
    have hsize : t₁.size = t.size := by rw [ht₁, hpop]
    have hload : t₁.load = t.load := by rw [ht₁, hpop]
    have hmem : ∀ x ∈ order.flatMap seg, t₁.mem x = t.mem x := fun x hx => by
      show Function.update t.popNode.2.mem a _ x = _
      rw [update_of_ne (ne_of_mem_of_not_mem hx hnot), hpop]
    have hpair : (t₁.mem a).pair = (key, datum) := by
      show (Function.update t.popNode.2.mem a _ a).pair = _
      rw [update_self]; rfl
    have hkey : (t₁.mem a).key = key := congrArg Prod.fst hpair
    have hw₁ : t₁.WF hash keyeq order seg :=
      hw.congr hsize hload (by rw [ht₁, hpop]) (by rw [ht₁, hpop]) (by rw [ht₁, hpop]) hmem
        (fun x hx => hw.current_mem x (by rw [ht₁, hpop] at hx; exact hx))
        ⟨hpool.free_nodup, hpool.free_ok, hpool.fresh_ok⟩
    obtain ⟨order', seg', hw', hperm⟩ := hw₁.link hnot hfree hlt (by rw [hsize]; exact ok.lt _) fun x hx => by
      rw [hkey, hmem x hx, ok.comm]; exact hkeys x hx
    rw [hkey] at hw'
    refine ⟨_, rfl, ⟨?_, order', seg', ?_, ?_⟩, ?_, fun h => absurd rfl h⟩
    · exact (t₁.link_frame _ a).1.trans hsize
    · exact hw'
    · refine HashTable.Holds.cons ok hm hkeys hperm ?_ fun x hx => ?_
      · exact (t₁.link_pair _ a a).trans hpair
      · rw [← hmem x hx]
        exact t₁.link_pair _ a x
    · show (t₁.link (hash key t₁.size) a).load + 1 ≤ t.load + 1
      rw [(t₁.link_frame _ a).2.1, hload]
  · rw [hs, hsome]
    exact ⟨t, rfl, ⟨rfl, order, seg, hw, hm⟩, Nat.le_succ _, fun _ => rfl⟩

/-! ## Lookup and update -/

theorem HashTable.Rep.lookup (ok : HashFuncsOk hash keyeq size) (h : t.Rep hash keyeq size m) (key : K)
    (hfuel : t.load ≤ fuel) : t.lookup hash keyeq fuel key = some ((m key).map Prod.snd) := by
  obtain ⟨rfl, order, seg, hw, hm⟩ := h
  unfold HashTable.lookup
  obtain ⟨hs, hnone, -⟩ | ⟨a, hs, hsome, -⟩ := hw.search_map ok hm key hfuel
  · rw [hs, hnone]; rfl
  · rw [hs, hsome]; rfl

variable (keyeq) in
/-- Update, on the map: only a key that is there. -/
def mapUpdate (m : K → Option (K × D)) (key : K) (datum : D) : K → Option (K × D) :=
  if (m key).isSome then mapSet keyeq m key (some (key, datum)) else m

namespace HashTable

theorem WF.setPair (ok : HashFuncsOk hash keyeq t.size) (hw : t.WF hash keyeq order seg) {key : K}
    (datum : D) (hkey : keyeq (t.mem a).key key) :
    { t with mem := Function.update t.mem a { t.mem a with datum, key } }.WF hash keyeq order seg := by
  set t' := { t with mem := Function.update t.mem a { t.mem a with datum, key } }
  have hlinks : ∀ x, (t'.mem x).next = (t.mem x).next ∧ (t'.mem x).prev = (t.mem x).prev := fun x => by
    show (Function.update t.mem a _ x).next = _ ∧ (Function.update t.mem a _ x).prev = _
    by_cases hx : x = a
    · rw [hx, update_self]; exact ⟨rfl, rfl⟩
    · rw [update_of_ne hx]; exact ⟨rfl, rfl⟩
  have hkeys : ∀ x, keyeq (t.mem x).key (t'.mem x).key := fun x => by
    show keyeq (t.mem x).key (Function.update t.mem a _ x).key
    by_cases hx : x = a
    · rw [hx, update_self]; exact hkey
    · rw [update_of_ne hx]; exact ok.refl _
  exact
    { links := hw.links.congr (fun x _ => (hlinks x).1.symm) fun x _ => (hlinks x).2.symm
      order_nodup := hw.order_nodup
      seg_nil := hw.seg_nil
      first_eq := hw.first_eq
      last_eq := hw.last_eq
      hash_eq := fun b x hx => (ok.respects _ _ (hkeys x)).symm.trans (hw.hash_eq b x hx)
      keys := fun b => (hw.keys b).imp fun {x y} hxy => by
        rw [← ok.congr (hkeys x), ok.comm, ← ok.congr (hkeys y), ok.comm]; exact hxy
      load_eq := hw.load_eq
      current_mem := hw.current_mem
      pool := ⟨hw.pool.free_nodup, hw.pool.free_ok, hw.pool.fresh_ok⟩ }

theorem Holds.setPair (ok : HashFuncsOk hash keyeq t.size) (hw : t.WF hash keyeq order seg)
    (hm : t.Holds keyeq (order.flatMap seg) m) (ha : a ∈ order.flatMap seg) {key : K} (datum : D)
    (hkey : keyeq (t.mem a).key key) :
    { t with mem := Function.update t.mem a { t.mem a with datum, key } }.Holds keyeq (order.flatMap seg)
      (mapSet keyeq m key (some (key, datum))) := by
  intro k e
  unfold mapSet
  by_cases hk : keyeq key k
  · rw [if_pos hk]
    constructor
    · rintro ⟨⟩
      exact ⟨a, ha, by simp [hk], by simp [HashEntry.pair]⟩
    · rintro ⟨x, hx, hxk, rfl⟩
      obtain rfl : x = a := by
        by_contra hne
        simp only [update_of_ne hne] at hxk
        exact hne (hw.eq_of_keyeq ok hx ha (ok.trans _ _ _ hxk (ok.symm _ _ (ok.trans _ _ _ hkey hk))))
      simp [HashEntry.pair]
  · rw [if_neg hk, hm k e]
    refine exists_congr fun x => and_congr_right fun hx => ?_
    by_cases hxa : x = a
    · subst hxa
      have hx' : ¬ keyeq (t.mem x).key k := fun h => hk (ok.trans _ _ _ (ok.symm _ _ hkey) h)
      simp [hk, hx']
    · simp [update_of_ne hxa]

theorem Rep.update (ok : HashFuncsOk hash keyeq size) (h : t.Rep hash keyeq size m) (key : K)
    (datum : D) (hfuel : t.load ≤ fuel) :
    ∃ t', t.update hash keyeq fuel key datum = some ((m key).map Prod.snd, t') ∧
      t'.Rep hash keyeq size (mapUpdate keyeq m key datum) ∧ t'.load = t.load := by
  obtain ⟨rfl, order, seg, hw, hm⟩ := h
  unfold update mapUpdate
  obtain ⟨hs, hnone, -⟩ | ⟨a, hs, hsome, ha, hkey⟩ := hw.search_map ok hm key hfuel
  · rw [hs, hnone]
    exact ⟨t, rfl, ⟨rfl, order, seg, hw, hm⟩, rfl⟩
  · rw [hs, hsome]
    exact ⟨_, rfl, ⟨rfl, order, seg, hw.setPair ok datum hkey, hm.setPair ok hw ha datum hkey⟩, rfl⟩

/-! ## Remove -/

theorem unlinkPrev_eq (t : HashTable K D) (a : Nat) : t.unlinkPrev a = { t with
    first := if (t.mem a).prev = none then (t.mem a).next else t.first
    mem := fun x => { t.mem x with next := if (t.mem a).prev = some x then (t.mem a).next else (t.mem x).next } } := by
  unfold unlinkPrev
  split
  · next p hp =>
    simp only [hp, reduceCtorEq, if_false, Option.some.injEq]
    congr 1
    funext x
    rw [setNext, update_apply]
    by_cases hx : x = p
    · simp [hx]
    · simp [hx, Ne.symm hx]
  · next hp => simp [hp]

theorem unlinkNext_eq (t : HashTable K D) (a : Nat) : t.unlinkNext a = { t with
    last := if (t.mem a).next = none then (t.mem a).prev else t.last
    mem := fun x => { t.mem x with prev := if (t.mem a).next = some x then (t.mem a).prev else (t.mem x).prev } } := by
  unfold unlinkNext
  split
  · next p hp =>
    simp only [hp, reduceCtorEq, if_false, Option.some.injEq]
    congr 1
    funext x
    rw [setPrev, update_apply]
    by_cases hx : x = p
    · simp [hx]
    · simp [hx, Ne.symm hx]
  · next hp => simp [hp]

theorem unlink_eq (b : Nat) (hne : (t.mem a).prev ≠ some a) : t.unlink b a = { t with
    buckets := Function.update t.buckets b ((t.buckets b).without a (t.mem a))
    first := if (t.mem a).prev = none then (t.mem a).next else t.first
    last := if (t.mem a).next = none then (t.mem a).prev else t.last
    current := if some a = t.current then (t.mem a).next else t.current
    mem := fun x => { t.mem x with
      next := if (t.mem a).prev = some x then (t.mem a).next else (t.mem x).next
      prev := if (t.mem a).next = some x then (t.mem a).prev else (t.mem x).prev } } := by
  simp only [unlink, unlinkNext_eq, unlinkPrev_eq, if_neg hne]
  split <;> rfl

theorem unlink_frame (t : HashTable K D) (b a : Nat) :
    (t.unlink b a).size = t.size ∧ (t.unlink b a).load = t.load ∧ (t.unlink b a).free = t.free ∧
      (t.unlink b a).fresh = t.fresh ∧
      (t.unlink b a).buckets = Function.update t.buckets b ((t.buckets b).without a (t.mem a)) ∧
      ∀ x, ((t.unlink b a).mem x).pair = (t.mem x).pair := by
  simp only [unlink, unlinkNext_eq, unlinkPrev_eq]
  split <;> exact ⟨rfl, rfl, rfl, rfl, rfl, fun _ => rfl⟩

end HashTable

theorem Linked.remove {xs ys : List Nat} (h : Linked t.mem t.first t.last (xs ++ a :: ys)) (b : Nat) :
    Linked (t.unlink b a).mem (t.unlink b a).first (t.unlink b a).last (xs ++ ys) ∧
      (t.unlink b a).current = if some a = t.current then ys.head? else t.current := by
  have hprev : (t.mem a).prev = xs.getLast? := DList.prev_eq h
  have hnext : (t.mem a).next = ys.head? := DList.next_eq h
  have hnot := (nodup_cons.1 (nodup_middle.1 h.nodup)).1
  have hne : (t.mem a).prev ≠ some a := fun heq =>
    hnot (mem_append_left ys (mem_of_getLast? (hprev.symm.trans heq)))
  have hfirst : (if (t.mem a).prev = none then (t.mem a).next else t.first) = (xs ++ ys).head? := by
    rw [hprev, hnext, h.first_eq]
    cases xs with
    | nil => simp
    | cons c xs => simp
  have hlast : (if (t.mem a).next = none then (t.mem a).prev else t.last) = (xs ++ ys).getLast? := by
    rw [hprev, hnext, h.last_eq]
    cases ys with
    | nil => simp
    | cons c ys => simp [getLast?_append]
  rw [HashTable.unlink_eq b hne]
  refine ⟨?_, by rw [hnext]⟩
  rw [hfirst, hlast]
  exact DList.splice [a] [] h (nodup_cons.1 (nodup_middle.1 h.nodup)).2 rfl (by simp)
    (fun x _ => by rw [hprev, hnext]; rfl) fun x _ => by rw [hprev, hnext, append_nil]

theorem HashBucket.without_eq {bucket : HashBucket} {s₁ s₂ : List Nat} (xs ys : List Nat) {e : HashEntry K D}
    (hnodup : (s₁ ++ a :: s₂).Nodup) (hfirst : bucket.first = (s₁ ++ a :: s₂).head?)
    (hlast : bucket.last = (s₁ ++ a :: s₂).getLast?) (hnext : e.next = (s₂ ++ ys).head?)
    (hprev : e.prev = (xs ++ s₁).getLast?) :
    bucket.without a e = ⟨(s₁ ++ s₂).head?, (s₁ ++ s₂).getLast?⟩ := by
  obtain ⟨hnot, -⟩ := nodup_cons.1 (nodup_middle.1 hnodup)
  rw [mem_append, not_or] at hnot
  have hfirst' : some a = bucket.first ↔ s₁ = [] := by
    rw [hfirst]
    cases s₁ with
    | nil => simp
    | cons c s₁ => simpa using fun h : a = c => hnot.1 (by simp [h])
  have hlast' : some a = bucket.last ↔ s₂ = [] := by
    rw [hlast, getLast?_append]
    cases hs : s₂.getLast? with
    | none =>
      rw [getLast?_eq_none_iff] at hs
      simp [hs]
    | some c =>
      have hc := mem_of_getLast? hs
      obtain ⟨d, s, rfl⟩ := exists_cons_of_ne_nil (ne_nil_of_mem hc)
      rw [getLast?_cons_cons, hs]
      simpa using fun h : a = c => hnot.2 (h ▸ hc)
  unfold HashBucket.without
  by_cases h₁ : s₁ = []
  · by_cases h₂ : s₂ = []
    · rw [if_pos (hfirst'.2 h₁), if_pos (hlast'.2 h₂), h₁, h₂]
      rfl
    · rw [if_pos (hfirst'.2 h₁), if_neg (mt hlast'.1 h₂), hnext, hlast, h₁, head?_append_of_ne_nil _ h₂,
        append_cons, getLast?_append_of_ne_nil _ h₂]
      rfl
  · rw [if_neg (mt hfirst'.1 h₁), head?_append_of_ne_nil _ h₁]
    rw [head?_append_of_ne_nil _ h₁] at hfirst
    by_cases h₂ : s₂ = []
    · rw [if_pos (hlast'.2 h₂), h₂, hprev, hfirst, append_nil, getLast?_append_of_ne_nil _ h₁]
    · rw [if_neg (mt hlast'.1 h₂), getLast?_append_of_ne_nil _ h₂, ← hfirst]
      rw [append_cons, getLast?_append_of_ne_nil _ h₂] at hlast
      rw [← hlast]

theorem HashTable.Pool.pushNode (h : t.Pool l) (ha : a ∈ l)
    (hmem : ∀ x, x ∈ l' ↔ x ∈ l ∧ x ≠ a) (hfree : t'.free = a :: t.free) (hfresh : t'.fresh = t.fresh) :
    t'.Pool l' := by
  refine ⟨?_, fun x hx => ?_, fun x hx => ?_⟩
  · rw [hfree]
    exact nodup_cons.2 ⟨fun hin => (h.free_ok a hin).2 ha, h.free_nodup⟩
  · rw [hfresh, hmem]
    rw [hfree] at hx
    rcases mem_cons.1 hx with rfl | hx
    · exact ⟨h.fresh_ok x ha, fun hin => hin.2 rfl⟩
    · exact ⟨(h.free_ok x hx).1, fun hin => (h.free_ok x hx).2 hin.1⟩
  · rw [hfresh]
    exact h.fresh_ok x ((hmem x).1 hx).1

theorem HashTable.WF.unlink (hw : t.WF hash keyeq order seg) {a b : Nat} (ha : a ∈ seg b) (hbound : b < t.size) :
    let t' := (t.unlink b a).pushNode a
    ∃ seg', { t' with load := t'.load - 1 }.WF hash keyeq order seg' ∧
      ∀ x, x ∈ order.flatMap seg' ↔ x ∈ order.flatMap seg ∧ x ≠ a := by
  intro t'
  obtain ⟨o₁, o₂, rfl, hsplit⟩ := hw.split (ne_nil_of_mem ha)
  obtain ⟨s₁, s₂, hseg⟩ := append_of_mem ha
  set xs := o₁.flatMap seg ++ s₁ with hxs
  set ys := s₂ ++ o₂.flatMap seg with hys
  set seg' := Function.update seg b (s₁ ++ s₂) with hseg'
  have hlist : (o₁ ++ b :: o₂).flatMap seg = xs ++ a :: ys := by rw [hsplit, hseg]; simp [hxs, hys]
  have hlist' : (o₁ ++ b :: o₂).flatMap seg' = xs ++ ys := by
    rw [flatMap_update hw.order_nodup]; simp [hxs, hys]
  have hlinks := hw.links
  rw [hlist] at hlinks
  obtain ⟨hlinks', hcurrent⟩ := hlinks.remove b
  obtain ⟨hsize, hload, hfree, hfresh, hbuckets, hpair⟩ := t.unlink_frame b a
  have hkey : ∀ x, ((t.unlink b a).mem x).key = (t.mem x).key := fun x => congrArg Prod.fst (hpair x)
  have hmem : ∀ x, x ∈ (o₁ ++ b :: o₂).flatMap seg' ↔ x ∈ (o₁ ++ b :: o₂).flatMap seg ∧ x ≠ a := fun x => by
    rw [hlist, hlist']
    exact mem_append_iff_of_nodup hlinks.nodup
  have hwithout : (t.buckets b).without a (t.mem a) = ⟨(s₁ ++ s₂).head?, (s₁ ++ s₂).getLast?⟩ := by
    have hnodup := hw.seg_nodup b
    have hfirst := hw.first_eq b hbound
    have hlast := hw.last_eq b hbound
    rw [hseg] at hnodup hfirst hlast
    exact HashBucket.without_eq (o₁.flatMap seg) (o₂.flatMap seg) hnodup hfirst hlast hlinks.next_eq hlinks.prev_eq
  rw [hwithout] at hbuckets
  have hsub : ∀ c, (seg' c).Sublist (seg c) := fun c => by
    by_cases hcb : c = b
    · rw [hcb, hseg', update_self, hseg]
      exact (sublist_cons_self a s₂).append_left s₁
    · rw [hseg', update_of_ne hcb]
  refine ⟨seg', ?_, hmem⟩
  exact
    { links := by rw [hlist']; exact hlinks'
      order_nodup := hw.order_nodup
      seg_nil := fun c hc => sublist_nil.1 (hw.seg_nil c hc ▸ hsub c)
      first_eq := fun c hc => (hw.ends_update hbuckets (hsize ▸ hc)).1
      last_eq := fun c hc => (hw.ends_update hbuckets (hsize ▸ hc)).2
      hash_eq := fun c x hx => by
        show hash ((t.unlink b a).mem x).key (t.unlink b a).size = c
        rw [hkey, hsize]
        exact hw.hash_eq c x ((hsub c).subset hx)
      keys := fun c => by
        show (seg' c).Pairwise fun x y => keyeq ((t.unlink b a).mem x).key ((t.unlink b a).mem y).key = false
        simp only [hkey]
        exact (hw.keys c).sublist (hsub c)
      load_eq := by
        show (t.unlink b a).load - 1 = _
        rw [hload, hw.load_eq, hlist, hlist', perm_middle.length_eq]
        rfl
      current_mem := fun x hx => by
        have hx : (t.unlink b a).current = some x := hx
        rw [hcurrent] at hx
        split at hx
        · rw [hlist']
          exact mem_append_right xs (mem_of_head? hx)
        · next hne => exact (hmem x).2 ⟨hw.current_mem x hx, fun hxa => hne (hxa ▸ hx.symm)⟩
      pool := hw.pool.pushNode (hw.mem_of_seg ha) hmem (congrArg (a :: ·) hfree) hfresh }

theorem HashTable.Holds.remove (ok : HashFuncsOk hash keyeq t.size) (hm : t.Holds keyeq l m) {key : K}
    (hmem : ∀ x, x ∈ l' ↔ x ∈ l ∧ keyeq (t.mem x).key key = false)
    (hpair : ∀ x, (t'.mem x).pair = (t.mem x).pair) : t'.Holds keyeq l' (mapSet keyeq m key none) := by
  intro k e
  have hkey : ∀ x, (t'.mem x).key = (t.mem x).key := fun x => congrArg Prod.fst (hpair x)
  simp only [hkey, hpair, hmem]
  unfold mapSet
  by_cases hk : keyeq key k
  · rw [if_pos hk]
    refine ⟨fun h => (by cases h), fun ⟨x, ⟨_, hfalse⟩, hxk, _⟩ => ?_⟩
    rw [ok.trans _ _ _ hxk (ok.symm _ _ hk)] at hfalse
    cases hfalse
  · rw [if_neg hk, hm k e]
    refine exists_congr fun x => ⟨fun ⟨hx, hxk, he⟩ => ⟨⟨hx, ?_⟩, hxk, he⟩, fun ⟨⟨hx, _⟩, h⟩ => ⟨hx, h⟩⟩
    rw [← Bool.not_eq_true]
    exact fun hkey => hk (ok.trans _ _ _ (ok.symm _ _ hkey) hxk)

theorem HashTable.Rep.remove (ok : HashFuncsOk hash keyeq size) (h : t.Rep hash keyeq size m) (key : K)
    (hfuel : t.load ≤ fuel) :
    ∃ t', t.remove hash keyeq fuel key = some ((m key).map Prod.snd, t') ∧
      t'.Rep hash keyeq size (mapSet keyeq m key none) ∧ t'.load ≤ t.load := by
  obtain ⟨rfl, order, seg, hw, hm⟩ := h
  unfold HashTable.remove
  obtain ⟨hs, hnone, hkeys⟩ | ⟨a, hs, hsome, ha, hkey⟩ := hw.search_map ok hm key hfuel
  · rw [hs, hnone]
    have hmem : ∀ x, x ∈ order.flatMap seg ↔ x ∈ order.flatMap seg ∧ keyeq (t.mem x).key key = false := fun x =>
      ⟨fun hx => ⟨hx, hkeys x hx⟩, And.left⟩
    exact ⟨t, rfl, ⟨rfl, order, seg, hw, hm.remove ok hmem fun _ => rfl⟩, le_rfl⟩
  · rw [hs, hsome]
    have hbucket := hw.mem_iff.1 ha
    rw [ok.respects _ _ hkey] at hbucket
    obtain ⟨hsize, hload, -, -, -, hpair⟩ := t.unlink_frame (hash key t.size) a
    obtain ⟨seg', hw', hiff⟩ := hw.unlink hbucket (ok.lt key)
    have hdatum : ((t.unlink (hash key t.size) a).mem a).datum = (t.mem a).datum := congrArg Prod.snd (hpair a)
    -- the entry is the only one with the key
    have hmem : ∀ x, x ∈ order.flatMap seg' ↔ x ∈ order.flatMap seg ∧ keyeq (t.mem x).key key = false := fun x => by
      rw [hiff, ← Bool.not_eq_true]
      refine and_congr_right fun hx => not_congr ⟨fun hxa => hxa ▸ hkey, fun hxk => ?_⟩
      exact hw.eq_of_keyeq ok hx ha (ok.trans _ _ _ hxk (ok.symm _ _ hkey))
    refine ⟨{ (t.unlink (hash key t.size) a).pushNode a with load := (t.unlink (hash key t.size) a).load - 1 },
      by simp only [Option.map_some, hdatum]; rfl, ⟨hsize, order, seg', hw', hm.remove ok hmem hpair⟩, ?_⟩
    show (t.unlink (hash key t.size) a).load - 1 ≤ t.load
    omega

end Globus
