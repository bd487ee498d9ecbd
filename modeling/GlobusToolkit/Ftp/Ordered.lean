/-
Reading in extended block mode where order is asked for. A poll gives a read only to the connection at the next offset of
the file, so that the reads lie one behind the other; those that are complete wait in the priority queue until the offset
that is passed next is theirs. The comparison of the queue puts an entry with the end of file behind every other one, and
in front of none, so that it is an order only among entries of which at most the last one has that flag; in runs in which
the queue holds such entries, all reads are passed in the order of the file and none is left behind.
-/
import GlobusToolkit.Ftp.Reception

namespace Globus.Ftp

open Lib Receiver List Function PriorityQ
open Multiset (add_cons card_add card_zero coe_add cons_add cons_coe map_add mem_add mem_coe nodup_add singleton_add)
open PriorityQEntry (datum)

/-! ## The order of the queue -/

/-- The comparison of offsets alone. -/
def offsetCompare (entry1 entry2 : Entry) : Int :=
  if entry2.offset.slt entry1.offset then 1 else if entry1.offset.slt entry2.offset then -1 else 0

theorem offsetCompare_le_zero {e f : Entry} : offsetCompare e f ≤ 0 ↔ e.offset.toInt ≤ f.offset.toInt := by
  unfold offsetCompare
  simp only [BitVec.slt_iff_toInt_lt]
  split_ifs <;> omega

theorem offsetCompare_totalPreorder : TotalPreorder offsetCompare where
  total a b := by
    rw [offsetCompare_le_zero, offsetCompare_le_zero]
    exact le_total _ _
  trans a b c hab hbc := by
    rw [offsetCompare_le_zero] at *
    exact hab.trans hbc

/-- An entry with the end of file is behind all others. -/
def EofLast (es : Multiset Entry) : Prop := ∀ e ∈ es, e.eof = true → ∀ f ∈ es, f ≠ e → f.offset.slt e.offset = true

instance (es : Multiset Entry) : Decidable (EofLast es) :=
  inferInstanceAs (Decidable (∀ e ∈ es, e.eof = true → ∀ f ∈ es, f ≠ e → f.offset.slt e.offset = true))

theorem EofLast.mono {es es' : Multiset Entry} (h : EofLast es) (hsub : es' ⊆ es) : EofLast es' :=
  fun e he heof f hf hne => h e (hsub he) heof f (hsub hf) hne

theorem EofLast.qCompare_eq {es : Multiset Entry} (h : EofLast es) {e f : Entry} (he : e ∈ es) (hf : f ∈ es) (hne : e ≠ f) :
    qCompare e f = offsetCompare e f := by
  unfold qCompare offsetCompare
  cases heof : e.eof with
  | true => simp [h e he heof f hf hne.symm]
  | false =>
    cases hfeof : f.eof with
    | false => simp
    | true =>
      have hlt := h f hf hfeof e he hne
      simp [hlt]

/-! ## Reads and their places -/

/-- The place of a read in the file. -/
def Entry.slot (e : Entry) : Nat × Nat := (e.offset.toNat, e.length)

/-- The place of the read that is registered for a connection. -/
def Io.slots : Io → Multiset (Nat × Nat)
  | .payload entry => {entry.slot}
  | _ => 0

/-- Whether a connection has come up. -/
def Io.up : Io → Int
  | .unconnected => 0
  | _ => 1

/-- Whether it is to be accepted. -/
def Io.accepting : Io → Int
  | .accept => 1
  | _ => 0

/-- Nothing is registered for a connection, or its next header, or that it be closed. -/
def Io.Settled (io : Io) : Prop := io = .none ∨ io = .header ∨ io = .close

theorem Io.Settled.counts {io : Io} (h : io.Settled) : io.slots = 0 ∧ io.up = 1 ∧ io.accepting = 0 := by
  obtain rfl | rfl | rfl := h <;> exact ⟨rfl, rfl, rfl⟩

/-- What the connections add up to. -/
def Receiver.count {M : Type*} [AddCommMonoid M] (s : Receiver) (n : Nat) (g : Io → M) : M :=
  ∑ c ∈ Finset.range n, g (s.io c)

/-- The reads in the priority queue. -/
def Receiver.queued (s : Receiver) : Multiset Entry := s.orderedBufferQ.entries.map datum

/-- The reads that are complete and not passed yet. -/
def Receiver.waiting (s : Receiver) : Multiset Entry := ↑s.orderCbs + s.queued

/-- The pieces that were passed to callbacks. -/
def Receiver.dataCalls (s : Receiver) : List Piece :=
  (s.log.filter fun call => call.conn.isSome).map fun call => (call.offset, call.buffer)

/-- The reads of a connection, as pieces. -/
def piecesOf (es : Multiset Entry) (c : Nat) : Multiset Piece :=
  (es.filter fun e => e.conn = some c).map fun e => (e.offset, e.buffer)

theorem piecesOf_add (es es' : Multiset Entry) (c : Nat) : piecesOf (es + es') c = piecesOf es c + piecesOf es' c := by
  rw [piecesOf, Multiset.filter_add, map_add, ← piecesOf, ← piecesOf]

theorem passed_callback (s : Receiver) (e : Entry) (c : Nat) :
    ((s.callback e).passed c : Multiset Piece) = s.passed c + piecesOf {e} c := by
  by_cases hconn : e.conn = some c
  · simp [passed, piecesOf, hconn, Multiset.filter_singleton, ← coe_add]
  · simp [passed, piecesOf, hconn, Multiset.filter_singleton]

/-- A read has the bytes of its place. -/
structure Fits (n : Nat) (file : List Byte) (e : Entry) : Prop where
  conn : ∃ c < n, e.conn = some c
  length : e.buffer.length = e.length
  buffer : e.buffer = (file.drop e.offset.toNat).take e.length

/-- The file is passed up to `a` and reads are registered up to `b`: those that are not passed lie between. -/
structure InSequence (n : Nat) (file : List Byte) (s : Receiver) (l : Nat → List Piece) (a b : Nat)
    (slots : List (Nat × Nat)) : Prop where
  passed : s.orderNextOffsetPassed = (a : OffT)
  next : s.orderNextOffset = (b : OffT)
  row : Row a slots b
  le : b ≤ file.length
  reads : (slots : Multiset (Nat × Nat)) = s.count n Io.slots + s.waiting.map Entry.slot
  fits : ∀ e ∈ s.waiting, Fits n file e
  wf : s.orderedBufferQ.WF offsetCompare
  priority : ∀ x ∈ s.orderedBufferQ.entries, x.priority = x.datum
  calls : Cut (0 : OffT) (file.take a) s.dataCalls
  pieces : ∀ c < n, (s.passed c : Multiset Piece) + piecesOf s.waiting c = l c

/-- The read in front of the queue is not the one to be passed next. -/
def Stalled (s : Receiver) : Prop := ∀ e, s.orderedBufferQ.first = some e → s.orderNextOffsetPassed ≠ e.offset

section Ordered

variable {n : Nat} {msgs : Nat → List Message} {file : List Byte} {s t : Receiver} {l : Nat → List Piece}
  {ended : Finset Nat} {a b c : Nat} {slots : List (Nat × Nat)}

theorem count_change {M : Type*} [AddCommMonoid M] (g : Io → M) (hc : c < n) (hio : ∀ c', c' ≠ c → t.io c' = s.io c') :
    t.count n g + g (s.io c) = s.count n g + g (t.io c) := by
  have hmem : c ∈ Finset.range n := Finset.mem_range.2 hc
  have hrest : ∑ c' ∈ (Finset.range n).erase c, g (t.io c') = ∑ c' ∈ (Finset.range n).erase c, g (s.io c') :=
    Finset.sum_congr rfl fun c' hc' => by rw [hio c' (Finset.ne_of_mem_erase hc')]
  rw [Receiver.count, Receiver.count, ← Finset.add_sum_erase _ _ hmem, ← Finset.add_sum_erase _ (fun c => g (s.io c)) hmem,
    hrest]
  abel

theorem count_keep {M : Type*} [AddCancelCommMonoid M] (g : Io → M) (hc : c < n) (hio : ∀ c', c' ≠ c → t.io c' = s.io c')
    (hg : g (t.io c) = g (s.io c)) : t.count n g = s.count n g :=
  add_right_cancel (hg ▸ count_change g hc hio)

theorem InSequence.congr (h : InSequence n file s l a b slots) (hpassed : t.orderNextOffsetPassed = s.orderNextOffsetPassed)
    (hnext : t.orderNextOffset = s.orderNextOffset) (hcount : t.count n Io.slots = s.count n Io.slots)
    (hcbs : t.orderCbs = s.orderCbs) (hq : t.orderedBufferQ = s.orderedBufferQ) (hcalls : t.dataCalls = s.dataCalls)
    (hlog : ∀ c, t.passed c = s.passed c) : InSequence n file t l a b slots := by
  have hwaiting : t.waiting = s.waiting := by rw [waiting, waiting, queued, queued, hcbs, hq]
  obtain ⟨ha, hb, hrow, hle, hreads, hfits, hwf, hpriority, hdata, hpieces⟩ := h
  rw [← hpassed] at ha
  rw [← hnext] at hb
  rw [← hcount, ← hwaiting] at hreads
  rw [← hwaiting] at hfits hpieces
  rw [← hq] at hwf hpriority
  rw [← hcalls] at hdata
  exact ⟨ha, hb, hrow, hle, hreads, hfits, hwf, hpriority, hdata, fun c hc => by rw [hlog, hpieces c hc]⟩

theorem InSequence.nodup (h : InSequence n file s l a b slots) : (s.waiting.map fun e => e.offset.toNat).Nodup := by
  have hnodup : (Multiset.map Prod.fst (slots : Multiset (Nat × Nat))).Nodup := by
    exact h.row.nodup
  rw [h.reads, map_add, Multiset.map_map] at hnodup
  exact (nodup_add.1 hnodup).2.1

theorem InSequence.mem (h : InSequence n file s l a b slots) {e : Entry} (he : e ∈ s.waiting) :
    e.slot ∈ slots ∧ a ≤ e.offset.toNat ∧ e.offset.toNat + e.length ≤ b := by
  have hmem : e.slot ∈ slots := by
    rw [← mem_coe, h.reads]
    exact mem_add.2 (.inr (Multiset.mem_map_of_mem _ he))
  exact ⟨hmem, h.row.mem hmem⟩

theorem toNat_natCast {k : Nat} (hk : k < 2 ^ 64) : ((k : Nat) : OffT).toNat = k := by
  rw [show ((k : Nat) : OffT) = BitVec.ofNat 64 k from rfl, BitVec.toNat_ofNat, Nat.mod_eq_of_lt hk]

/-! ## Passing reads -/

variable {entry : Entry}

theorem InSequence.first (h : InSequence n file s l a b slots) (heof : EofLast s.queued)
    (hfirst : s.orderedBufferQ.first = some entry) :
    ∃ q, (s.orderedBufferQ.dequeue qCompare).2 = q ∧ q.WF offsetCompare ∧
      s.orderedBufferQ.entries = q.entries + {⟨entry, entry⟩} ∧ ∀ e ∈ s.queued, offsetCompare entry e ≤ 0 := by
  have hne : s.orderedBufferQ.entries ≠ 0 := by
    intro hzero
    have hsize := size_eq_card s.orderedBufferQ
    have hpos := h.wf.next_pos
    rw [hzero, card_zero, size] at hsize
    rw [PriorityQ.first, if_pos (by have : priorityQTopSlot = 1 := rfl; omega)] at hfirst
    cases hfirst
  have hkeys : (s.orderedBufferQ.entries.map fun x => x.datum.offset.toNat).Nodup := by
    have hnodup := h.nodup
    rw [waiting, map_add, queued, Multiset.map_map] at hnodup
    exact (nodup_add.1 hnodup).2.1
  have hcongr : s.orderedBufferQ.dequeue qCompare = s.orderedBufferQ.dequeue offsetCompare := by
    refine dequeue_congr hkeys fun x hx y hy hkey => ?_
    rw [h.priority x hx, h.priority y hy]
    refine heof.qCompare_eq (Multiset.mem_map_of_mem _ hx) (Multiset.mem_map_of_mem _ hy) ?_
    rintro heq
    rw [heq] at hkey
    exact hkey rfl
  obtain ⟨x, hx, hfirst', -, hdequeued, hmin⟩ := first_spec offsetCompare_totalPreorder h.wf hne
  obtain rfl : x.datum = entry := Option.some.inj (hfirst'.symm.trans hfirst)
  obtain ⟨hwf, hbag⟩ := dequeue_spec offsetCompare_totalPreorder h.wf
  rw [hdequeued] at hbag
  refine ⟨_, rfl, by rw [hcongr]; exact hwf, ?_, fun e he => ?_⟩
  · rw [hcongr]
    generalize hentries : s.orderedBufferQ.entries = entries at hbag ⊢
    generalize hdatum : x.datum = datum at hbag ⊢
    cases hbag with
    | @dequeue _ y hmin' =>
      obtain ⟨priority, datum⟩ := y
      obtain rfl : priority = datum := h.priority ⟨priority, datum⟩ (by rw [hentries]; simp)
      rfl
  · obtain ⟨y, hy, rfl⟩ := Multiset.mem_map.1 he
    have := hmin y hy
    rwa [h.priority x hx, h.priority y hy] at this

theorem InSequence.pass (h : InSequence n file s l a b slots) (heof : EofLast s.queued)
    (hfirst : s.orderedBufferQ.first = some entry) (hpassed : s.orderNextOffsetPassed = entry.offset) :
    ∃ rest, InSequence n file
        ({ s with
            orderedBufferQ := (s.orderedBufferQ.dequeue qCompare).2
            orderNextOffsetPassed := s.orderNextOffsetPassed + BitVec.ofNat 64 entry.length }.callback entry)
        l (a + entry.length) b rest ∧
      s.orderedBufferQ.entries = (s.orderedBufferQ.dequeue qCompare).2.entries + {⟨entry, entry⟩} := by
  obtain ⟨q, hq, hwf, hentries, -⟩ := h.first heof hfirst
  have hqueued : s.queued = entry ::ₘ q.entries.map datum := by
    rw [queued, hentries, map_add, Multiset.map_singleton, add_comm, singleton_add]
  have hwaiting : s.waiting = entry ::ₘ (↑s.orderCbs + q.entries.map datum) := by
    rw [waiting, hqueued, add_cons]
  have hmem : entry ∈ s.waiting := by rw [hwaiting]; exact Multiset.mem_cons_self _ _
  obtain ⟨hslot, ha, hb⟩ := h.mem hmem
  have hle := h.le
  have hoffset : entry.offset = (a : OffT) := by rw [← hpassed, h.passed]
  have hstart : entry.offset.toNat = a := by rw [hoffset, toNat_natCast (by omega)]
  obtain ⟨rest, hslots, hrest⟩ := h.row.uncons hslot hstart
  obtain ⟨⟨c, hc, hconn⟩, hlength, hbuffer⟩ := h.fits entry hmem
  refine ⟨rest, ?_, by rw [hq]; exact hentries⟩
  constructor
  · rw [h.passed, Nat.cast_add]
    rfl
  · exact h.next
  · exact hrest
  · exact h.le
  · have hreads := h.reads
    rw [hwaiting, hslots, Multiset.map_cons, ← cons_coe, add_cons] at hreads
    rw [(Multiset.cons_inj_right _).1 hreads, waiting, queued]
    simp only [callback_orderedBufferQ, callback_orderCbs, hq]
    rfl
  · intro e he
    simp only [hq] at he
    exact h.fits e (by rw [hwaiting]; exact Multiset.mem_cons_of_mem he)
  · simpa only [callback_orderedBufferQ, hq] using hwf
  · intro x hx
    simp only [callback_orderedBufferQ, hq] at hx
    exact h.priority x (by rw [hentries]; exact mem_add.2 (.inl hx))
  · have hcut : Cut (0 + ((file.take a).length : OffT)) entry.buffer [(entry.offset, entry.buffer)] := by
      rw [zero_add, length_take, min_eq_left (by omega), ← hoffset]
      exact .singleton _ _
    have hcalls := h.calls.append hcut
    rw [hbuffer, hstart, ← take_add] at hcalls
    rw [hstart] at hbuffer
    simpa [dataCalls, hconn, hbuffer] using hcalls
  · intro c' hc'
    have hpieces := h.pieces c' hc'
    rw [hwaiting, ← singleton_add, piecesOf_add, ← add_assoc] at hpieces
    rw [passed_callback, waiting, queued]
    simp only [callback_orderedBufferQ, callback_orderCbs, hq]
    exact hpieces

theorem Receiver.orderLoop_frame : ∀ (fuel : Nat) (s : Receiver), ∃ q passed log,
    orderLoop fuel s = { s with orderedBufferQ := q, orderNextOffsetPassed := passed, log }
  | 0, s => ⟨_, _, _, rfl⟩
  | fuel + 1, s => by
    rw [orderLoop]
    split
    case h_1 => exact ⟨_, _, _, rfl⟩
    case h_2 entry hfirst =>
      split
      case isFalse => exact ⟨_, _, _, rfl⟩
      case isTrue =>
        obtain ⟨q, passed, log, hloop⟩ := orderLoop_frame fuel ({ s with
          orderedBufferQ := (s.orderedBufferQ.dequeue qCompare).2
          orderNextOffsetPassed := s.orderNextOffsetPassed + BitVec.ofNat 64 entry.length }.callback entry)
        exact ⟨q, passed, log, hloop⟩

/-- The loop passes reads until the one in front is not to be passed next. -/
theorem InSequence.orderLoop (hfile : file.length < 2 ^ 63) : ∀ (fuel : Nat) {s : Receiver} {a : Nat}
    {slots : List (Nat × Nat)}, InSequence n file s l a b slots → EofLast s.queued → s.orderedBufferQ.size ≤ fuel →
    (∃ a' slots', InSequence n file (Receiver.orderLoop fuel s) l a' b slots') ∧ Stalled (Receiver.orderLoop fuel s)
  | 0, s, a, slots, h, _, hfuel => by
    refine ⟨⟨a, slots, h⟩, fun e hfirst => ?_⟩
    have hpos := h.wf.next_pos
    have htop : priorityQTopSlot = 1 := rfl
    rw [size] at hfuel
    rw [Receiver.orderLoop, PriorityQ.first, if_pos (by omega)] at hfirst
    cases hfirst
  | fuel + 1, s, a, slots, h, heof, hfuel => by
    rw [Receiver.orderLoop]
    split
    case h_1 hfirst =>
      refine ⟨⟨a, slots, h⟩, fun e he => ?_⟩
      rw [hfirst] at he
      cases he
    case h_2 entry hfirst =>
      split
      case isFalse hne =>
        refine ⟨⟨a, slots, h⟩, fun e he => ?_⟩
        obtain rfl : entry = e := Option.some.inj (hfirst.symm.trans he)
        exact hne
      case isTrue hpassed =>
        obtain ⟨rest, hrest, hentries⟩ := h.pass heof hfirst hpassed
        refine InSequence.orderLoop hfile fuel hrest (heof.mono ?_) ?_
        · intro e he
          rw [queued, hentries, map_add]
          exact mem_add.2 (.inl he)
        · have hcard := congrArg Multiset.card hentries
          rw [card_add, ← size_eq_card, ← size_eq_card, Multiset.card_singleton] at hcard
          show (s.orderedBufferQ.dequeue qCompare).2.size ≤ fuel
          omega

theorem InSequence.enqueue (h : InSequence n file s l a b slots) {i : Nat}
    (hi : s.orderCbs[i]? = some entry) (heof : EofLast (entry ::ₘ s.queued)) :
    let t := { s with
      orderCbs := s.orderCbs.eraseIdx i
      orderedBufferQ := s.orderedBufferQ.enqueue qCompare entry entry }
    InSequence n file t l a b slots ∧ t.queued = entry ::ₘ s.queued ∧
      t.orderedBufferQ.size = s.orderedBufferQ.size + 1 := by
  have hcbs : (s.orderCbs : Multiset Entry) = entry ::ₘ ↑(s.orderCbs.eraseIdx i) := by
    rw [cons_coe, Multiset.coe_eq_coe]
    exact perm_eraseIdx hi
  have hnodup := h.nodup
  rw [waiting, hcbs, cons_add, Multiset.map_cons, Multiset.nodup_cons] at hnodup
  have hcongr : s.orderedBufferQ.enqueue qCompare entry entry = s.orderedBufferQ.enqueue offsetCompare entry entry := by
    refine enqueue_congr fun x hx => ?_
    have hmem : x.datum ∈ s.queued := Multiset.mem_map_of_mem _ hx
    rw [h.priority x hx]
    refine heof.qCompare_eq (Multiset.mem_cons_of_mem hmem) (Multiset.mem_cons_self _ _) ?_
    rintro rfl
    exact hnodup.1 (Multiset.mem_map_of_mem _ (mem_add.2 (.inr hmem)))
  obtain ⟨hwf, hentries⟩ := enqueue_spec offsetCompare_totalPreorder h.wf entry entry
  rw [← hcongr] at hwf hentries
  generalize s.orderedBufferQ.enqueue qCompare entry entry = q at hwf hentries ⊢
  have hqueued : q.entries.map datum = entry ::ₘ s.queued := by
    rw [hentries, map_add, Multiset.map_singleton, add_comm, singleton_add]
    rfl
  have hwaiting : ({ s with orderCbs := s.orderCbs.eraseIdx i, orderedBufferQ := q } : Receiver).waiting = s.waiting := by
    show ↑(s.orderCbs.eraseIdx i) + q.entries.map datum = s.waiting
    rw [hqueued, waiting, hcbs, add_cons, cons_add]
  refine ⟨⟨h.passed, h.next, h.row, h.le, ?_, ?_, hwf, ?_, h.calls, ?_⟩, hqueued, ?_⟩
  · rw [hwaiting]
    exact h.reads
  · intro e he
    exact h.fits e (hwaiting ▸ he)
  · intro x hx
    rw [hentries] at hx
    obtain hx | hx := mem_add.1 hx
    · exact h.priority x hx
    · obtain rfl := Multiset.mem_singleton.1 hx
      rfl
  · intro c hc
    rw [hwaiting]
    exact h.pieces c hc
  · dsimp only
    rw [size_eq_card, size_eq_card, hentries, card_add, Multiset.card_singleton]

theorem InSequence.orderReadCb (h : InSequence n file s l a b slots) (hfile : file.length < 2 ^ 63) {i : Nat}
    (hi : s.orderCbs[i]? = some entry) (heof : EofLast (entry ::ₘ s.queued)) :
    (∃ a' slots', InSequence n file ({ s with orderCbs := s.orderCbs.eraseIdx i }.orderReadCb entry) l a' b slots') ∧
      Stalled ({ s with orderCbs := s.orderCbs.eraseIdx i }.orderReadCb entry) := by
  obtain ⟨hqueue, hqueued, hsize⟩ := h.enqueue hi heof
  exact hqueue.orderLoop hfile _ (by rw [hqueued]; exact heof) hsize.le

/-- When no read is registered and none is to be put in the queue, none is left there. -/
theorem InSequence.queued_eq_zero (h : InSequence n file s l a b slots) (hfile : file.length < 2 ^ 63)
    (hstalled : Stalled s) (hcount : s.count n Io.slots = 0) (hcbs : s.orderCbs = []) : s.orderedBufferQ.entries = 0 := by
  by_contra hne
  obtain ⟨x, hx, hfirst, -, -, hmin⟩ := first_spec offsetCompare_totalPreorder h.wf hne
  have hqueued : s.waiting = s.queued := by rw [waiting, hcbs, Multiset.coe_nil, zero_add]
  have hmem : ∀ y ∈ s.orderedBufferQ.entries, y.datum ∈ s.waiting := by
    intro y hy
    rw [hqueued]
    exact Multiset.mem_map_of_mem _ hy
  have hreads := h.reads
  rw [hcount, zero_add] at hreads
  have hle := h.le
  -- the first of the reads is the one to be passed next, and no other one can be in front of it
  obtain ⟨e, he, hstart⟩ : ∃ e ∈ s.waiting, e.offset.toNat = a := by
    have hslot := (h.mem (hmem x hx)).1
    cases hrow : h.row with
    | nil => cases hslot
    | @cons _ k _ rest hpos hrest =>
      have hhead : (a, k) ∈ s.waiting.map Entry.slot := by
        rw [← hreads]
        exact mem_coe.2 mem_cons_self
      obtain ⟨e, he, hslot⟩ := Multiset.mem_map.1 hhead
      exact ⟨e, he, congrArg Prod.fst hslot⟩
  rw [hqueued] at he
  obtain ⟨y, hy, rfl⟩ := Multiset.mem_map.1 he
  have hxy := hmin y hy
  rw [h.priority x hx, h.priority y hy, offsetCompare_le_zero] at hxy
  obtain ⟨-, hax, hxb⟩ := h.mem (hmem x hx)
  obtain ⟨-, hay, hyb⟩ := h.mem (hmem y hy)
  rw [BitVec.toInt_eq_toNat_of_lt (by omega), BitVec.toInt_eq_toNat_of_lt (by omega)] at hxy
  apply hstalled x.datum hfirst
  rw [h.passed]
  apply BitVec.eq_of_toNat_eq
  rw [toNat_natCast (by omega)]
  omega

/-! ## Registering and completing reads -/

/-- The payload of a message is a part of the file, at its offset. -/
def Placed (file : List Byte) (m : Message) : Prop :=
  ∃ k : Nat, m.offset = (k : OffT) ∧ k + m.payload.length ≤ file.length ∧ m.payload = (file.drop k).take m.payload.length

theorem Placed.part {m : Message} (h : Placed file m) (hfile : file.length < 2 ^ 63) {got buf left : List Byte}
    (hm : m.payload = got ++ buf ++ left) {x : OffT} (hx : x = m.offset + (got.length : OffT)) :
    x.toNat + (buf.length + left.length) ≤ file.length ∧ buf = (file.drop x.toNat).take buf.length := by
  obtain ⟨k, hk, hle, hpayload⟩ := h
  have hlength : m.payload.length = got.length + (buf.length + left.length) := by
    rw [hm, length_append, length_append, add_assoc]
  have htoNat : x.toNat = k + got.length := by
    rw [hx, hk, ← Nat.cast_add, toNat_natCast (by omega)]
  refine ⟨by omega, ?_⟩
  have hbuf : buf = (m.payload.drop got.length).take buf.length := by
    rw [hm, append_assoc, drop_left, take_left]
  rw [hpayload, drop_take, drop_drop, take_take, min_eq_left (by omega)] at hbuf
  rw [htoNat]
  exact hbuf

/-- Only the connection `c` changes, and it is settled. -/
structure Settles (s t : Receiver) (c : Nat) : Prop where
  other : ∀ c', c' ≠ c → t.io c' = s.io c'
  settled : (t.io c).Settled

theorem Settles.trans {u : Receiver} (h : Settles s t c) (h' : Settles t u c) : Settles s u c :=
  ⟨fun c' hne => (h'.other c' hne).trans (h.other c' hne), h'.settled⟩

theorem Settles.keep (hio : (s.io c).Settled) (ht : t.io = s.io) : Settles s t c where
  other c' _ := congrFun ht c'
  settled := by rw [ht]; exact hio

theorem Settles.register {io : Io} (hio : io.Settled) (ht : t.io = Function.update s.io c io) : Settles s t c where
  other c' hne := by rw [ht, update_of_ne hne]
  settled := by rw [ht, update_self]; exact hio

theorem Settles.take (k : Nat) : Settles s (s.take c k) c := .register (.inl rfl) rfl

theorem headerNoPayload_settles (eod : Bool) (hio : (s.io c).Settled) : Settles s (s.headerNoPayload c eod) c := by
  unfold headerNoPayload
  dsimp only
  split_ifs
  · exact .register (.inr (.inr rfl)) rfl
  · exact .register (.inr (.inr rfl)) rfl
  · exact .register (.inr (.inr rfl)) rfl
  · exact .keep hio rfl
  · exact .register (.inr (.inl rfl)) rfl

theorem ebReadHeader_settles (hbig : s.bigBuffer = none) (hio : (s.io c).Settled) (h : EbHeader) :
    Settles s (s.ebReadHeader c h) c := by
  unfold ebReadHeader
  extract_lets u v w
  have hv : Settles s v c := .keep hio rfl
  have hw : Settles v w c := by
    show Settles v (if (v.conns c).bytesReady = 0 then v.headerNoPayload c (h.has descriptorEod) else v.headerPayload c) c
    have hnone : v.bigBuffer = none := hbig
    split
    case isTrue => exact headerNoPayload_settles _ hv.settled
    case isFalse =>
      rw [headerPayload, hnone]
      exact .keep hv.settled rfl
  exact (hv.trans hw).trans (.keep hw.settled rfl)

theorem bytesRead_settles (k : Nat) (hio : (s.io c).Settled) : Settles s (s.bytesRead c k) c := by
  unfold bytesRead blockRead
  dsimp only
  split_ifs
  · exact .register (.inr (.inr rfl)) rfl
  · exact .register (.inr (.inr rfl)) rfl
  · exact .keep hio rfl
  · exact .keep hio rfl
  · exact .register (.inr (.inl rfl)) rfl
  · exact .keep hio rfl

theorem InSequence.give {q : List Entry} {free : List Nat} (h : InSequence n file s l a b slots) (ctr : Nat)
    (hread : Reading n msgs s l ended) (hfile : file.length < 2 ^ 63)
    (hplaced : ∀ c < n, ∀ m ∈ msgs c, m.payload ≠ [] → Placed file m) (hperm : s.freeConnQ.Perm (c :: free))
    (hnext : (s.conns c).offset = s.orderNextOffset) (hlength : 0 < entry.length) :
    ∃ b' slots', InSequence n file
      ({ s with commandQ := q, freeConnQ := free, orderCtr := ctr }.registerRead entry c) l a b' slots' := by
  have hmem : c ∈ s.freeConnQ := hperm.mem_iff.2 (by simp)
  have hc := hread.free_lt c hmem
  obtain ⟨hinv, hio, -⟩ := hread.free_block hmem
  cases hinv with
  | down _ hnot => exact absurd hmem hnot
  | header _ hnot => exact absurd hmem hnot
  | @block before rest m got left l₁ l₂ _ hmsgs hpayload hne _ hready hoffset _ _ _ _ _ =>
    have hready : (s.conns c).bytesReady = left.length := hready
    have hoffset : (s.conns c).offset = m.offset + (got.length : OffT) := hoffset
    have hm : m.payload ≠ [] := by simp [hpayload, hne]
    have hpart := @Placed.part file m (hplaced c hc m (by rw [hmsgs]; simp) hm) hfile got left []
      (by rw [hpayload, append_nil]) _ hoffset
    have hle := h.le
    have hb : (s.conns c).offset.toNat = b := by rw [hnext, h.next, toNat_natCast (by omega)]
    have hleft := length_pos_of_ne_nil hne
    obtain ⟨k, hk⟩ : ∃ k, (if entry.length > (s.conns c).bytesReady then (s.conns c).bytesReady else entry.length) = k :=
      ⟨_, rfl⟩
    have hpos : 0 < k ∧ k ≤ left.length := by rw [← hk]; split <;> omega
    have hcount := count_change (s := s)
      (t := { s with commandQ := q, freeConnQ := free, orderCtr := ctr }.registerRead entry c) Io.slots hc
      fun c' hne' => by simp [hne']
    have hslot : (({ s with commandQ := q, freeConnQ := free, orderCtr := ctr }.registerRead entry c).io c).slots =
        {(b, k)} := by
      rw [registerRead_io, register_io, update_self, ← hb, ← hk]
      rfl
    rw [hio, hslot] at hcount
    refine ⟨b + k, slots ++ [(b, k)], ⟨h.passed, ?_, h.row.concat hpos.1, by omega, ?_, h.fits, h.wf, h.priority, h.calls,
      h.pieces⟩⟩
    · rw [registerRead_orderNextOffset, hk, h.next, Nat.cast_add]
      rfl
    · rw [← coe_add, h.reads, Multiset.coe_singleton]
      rw [show Io.slots .none = 0 from rfl, add_zero] at hcount
      rw [hcount, add_right_comm]
      rfl

theorem InSequence.complete {u : Receiver} {before rest : List Message} {m : Message}
    {got buf left : List Byte} (h : InSequence n file s l a b slots) (hfile : file.length < 2 ^ 63) (hc : c < n)
    (hplaced : Placed file m) (hio : s.io c = .payload entry)
    (hat : BlockAt (msgs c) s c entry (l c) before m rest got buf left) (hsettles : Settles s u c) (hsame : SameCalls s u)
    {e : Entry} (hbuffer : e.buffer = buf) (hoffset : e.offset = (s.conns c).offset) (hlength : e.length = buf.length)
    (hconn : e.conn = some c) {r : List (Entry × Bool)} :
    InSequence n file { u with orderCbs := u.orderCbs ++ [e], returning := r }
      (Function.update l c (l c ++ [((s.conns c).offset, buf)])) a b slots := by
  have hwaiting : ({ u with orderCbs := u.orderCbs ++ [e], returning := r } : Receiver).waiting = s.waiting + {e} := by
    show ↑(u.orderCbs ++ [e]) + u.orderedBufferQ.entries.map datum = _
    rw [hsame.orderCbs, hsame.orderedBufferQ, ← coe_add, waiting, queued, Multiset.coe_singleton, add_right_comm]
  have hslot : e.slot = entry.slot := by
    rw [Entry.slot, Entry.slot, hoffset, hlength, hat.entry_offset, hat.length]
  have hcount := count_change Io.slots hc hsettles.other
  rw [hio, hsettles.settled.counts.1, add_zero, show Io.slots (.payload entry) = {entry.slot} from rfl] at hcount
  obtain ⟨hpart, hbuf⟩ := hplaced.part hfile hat.payload hat.start
  constructor
  · exact hsame.orderNextOffsetPassed.trans h.passed
  · exact hsame.orderNextOffset.trans h.next
  · exact h.row
  · exact h.le
  · rw [h.reads, hwaiting, map_add, Multiset.map_singleton, hslot, ← hcount]
    exact add_right_comm _ _ _ |>.trans (add_assoc _ _ _)
  · intro e' he'
    rw [hwaiting] at he'
    obtain he' | he' := mem_add.1 he'
    · exact h.fits e' he'
    · obtain rfl := Multiset.mem_singleton.1 he'
      refine ⟨⟨c, hc, hconn⟩, by rw [hbuffer, hlength], ?_⟩
      rw [hbuffer, hoffset, hlength]
      exact hbuf
  · show u.orderedBufferQ.WF offsetCompare
    rw [hsame.orderedBufferQ]
    exact h.wf
  · intro x hx
    exact h.priority x (hsame.orderedBufferQ ▸ hx)
  · show Cut (0 : OffT) (file.take a) u.dataCalls
    rw [dataCalls, hsame.log]
    exact h.calls
  · intro c' hc'
    have hpieces := h.pieces c' hc'
    have hpassed : ({ u with orderCbs := u.orderCbs ++ [e], returning := r } : Receiver).passed c' = s.passed c' := by
      show u.passed c' = s.passed c'
      rw [Receiver.passed, Receiver.passed, hsame.log]
    rw [hpassed, hwaiting, piecesOf_add, ← add_assoc, hpieces]
    by_cases heq : c' = c
    · subst heq
      simp [piecesOf, Multiset.filter_singleton, hconn, hoffset, hbuffer, ← coe_add]
    · have hne : ¬c = c' := fun h => heq h.symm
      simp [piecesOf, Multiset.filter_singleton, hconn, hne, heq]

/-! ## The stripe -/

/-- A stripe that is read, whose counters are those of its connections. -/
structure Open (n : Nat) (msgs : Nat → List Message) (s : Receiver) (l : Nat → List Piece) (ended : Finset Nat) : Prop
    extends Reading n msgs s l ended where
  transferring : s.transferring = true
  state : s.state = .connectRead ∨ s.state = .eof
  total : s.count n Io.up = s.totalConnectionCount
  outstanding : s.count n Io.accepting = s.outstandingConnections
  lengths : ∀ e ∈ s.commandQ, 0 < e.length

/-- A stripe that is closed since the data is too far out of order. -/
structure Closed (s : Receiver) : Prop where
  transferring : s.transferring = false
  state : s.state ≠ .connectRead
  commandQ : s.commandQ = []
  io : ∀ c, s.io c = .unconnected ∨ s.io c = .none ∨ s.io c = .close

/-- A receiver that passes the data in order. -/
structure Ordered (n : Nat) (msgs : Nat → List Message) (file : List Byte) (s : Receiver) (l : Nat → List Piece) : Prop where
  stripe : (∃ ended, Open n msgs s l ended) ∨ Closed s
  orderData : s.orderData = true
  bigBuffer : s.bigBuffer = none
  aborted : s.aborted = false
  kickouts : ∀ entry ∈ s.kickouts, entry.conn = none
  flushes : ∀ entry ∈ s.flushes, entry.conn = none
  returning : ∀ r ∈ s.returning, r.2 = false
  tiled : ∀ c < n, ∃ rest, Tiled (msgs c) (l c ++ rest)
  order : ∃ a b slots, InSequence n file s l a b slots
  stalled : Stalled s

theorem count_up (s : Receiver) (n : Nat) :
    s.count n Io.up = ((Finset.range n).filter fun c => s.io c ≠ .unconnected).card := by
  rw [Finset.card_filter, Nat.cast_sum]
  refine Finset.sum_congr rfl fun c _ => ?_
  cases s.io c <;> simp [Io.up]

/-- When no connection can have the next offset, all that have come up wait for a read. -/
theorem Open.idle (h : Open n msgs s l ended)
    (hidle : s.totalConnectionCount + s.outstandingConnections - s.freeConnQ.length = 0) (c : Nat) :
    s.io c = .unconnected ∨ s.io c = .none ∨ s.io c = .close := by
  have hout : 0 ≤ s.count n Io.accepting := by
    refine Finset.sum_nonneg fun c _ => ?_
    cases s.io c <;> simp [Io.accepting]
  have hup := count_up s n
  rw [h.total] at hup
  rw [h.outstanding] at hout
  have hsub : s.freeConnQ.toFinset ⊆ (Finset.range n).filter fun c => s.io c ≠ .unconnected := by
    intro c hc
    have hc := mem_toFinset.1 hc
    rw [Finset.mem_filter, Finset.mem_range, (h.free_block hc).2.1]
    exact ⟨h.free_lt c hc, by simp⟩
  have heq := Finset.eq_of_subset_of_card_le hsub (by rw [toFinset_card_of_nodup h.nodup]; omega)
  by_cases hc : c < n
  · by_cases hio : s.io c = .unconnected
    · exact .inl hio
    · have hmem : c ∈ s.freeConnQ.toFinset := by
        rw [heq, Finset.mem_filter, Finset.mem_range]
        exact ⟨hc, hio⟩
      exact .inr (.inl (h.free_block (mem_toFinset.1 hmem)).2.1)
  · exact .inr (.inr (h.absent c (by omega)))

theorem Open.settles {l' : Nat → List Piece} {ended' : Finset Nat} (h : Open n msgs s l ended)
    (hread : Reading n msgs t l' ended') (hc : c < n) (hsettles : Settles s t c) (hsame : SameCalls s t)
    (hup : (s.io c).up = 1) (haccepting : (s.io c).accepting = 0) : Open n msgs t l' ended' where
  toReading := hread
  transferring := hsame.transferring.trans h.transferring
  state := by rw [hsame.state]; exact h.state
  total := by
    rw [hsame.totalConnectionCount, ← h.total]
    exact count_keep Io.up hc hsettles.other (by rw [hup, hsettles.settled.counts.2.1])
  outstanding := by
    rw [hsame.outstandingConnections, ← h.outstanding]
    exact count_keep Io.accepting hc hsettles.other (by rw [haccepting, hsettles.settled.counts.2.2])
  lengths := by rw [hsame.commandQ]; exact h.lengths

theorem count_slots_eq_zero (h : ∀ c, s.io c = .unconnected ∨ s.io c = .none ∨ s.io c = .close) :
    s.count n Io.slots = 0 := by
  refine Finset.sum_eq_zero fun c _ => ?_
  obtain hio | hio | hio := h c <;> rw [hio] <;> rfl

theorem Ordered.destroy (h : Ordered n msgs file s l) (hopen : Open n msgs s l ended)
    (hidle : s.totalConnectionCount + s.outstandingConnections - s.freeConnQ.length = 0) :
    Ordered n msgs file s.stripesDestroy l := by
  have hio := hopen.idle hidle
  have hio' : ∀ c, s.stripesDestroy.io c = .unconnected ∨ s.stripesDestroy.io c = .none ∨
      s.stripesDestroy.io c = .close := by
    intro c
    unfold stripesDestroy
    split
    case isTrue => exact hio c
    case isFalse =>
      dsimp only
      split
      case isTrue => exact .inr (.inr rfl)
      case isFalse => exact hio c
  have hnot : ¬(s.state = .closing ∨ ¬s.transferring = true) := by
    obtain hstate | hstate := hopen.state <;> simp [hstate, hopen.transferring]
  have hcount : s.stripesDestroy.count n Io.slots = s.count n Io.slots := by
    rw [count_slots_eq_zero hio', count_slots_eq_zero hio]
  obtain ⟨a, b, slots, horder⟩ := h.order
  unfold stripesDestroy at hio' hcount ⊢
  rw [if_neg hnot] at hio' hcount ⊢
  refine { h with
    stripe := .inr ⟨rfl, by simp, rfl, hio'⟩
    flushes := fun entry hentry => ?_
    order := ⟨a, b, slots, horder.congr rfl rfl hcount rfl rfl rfl fun _ => rfl⟩ }
  obtain hentry | hentry := mem_append.1 hentry
  · exact h.flushes entry hentry
  · exact (hopen.commands entry hentry).2

/-! ## Polls -/

section Polls

variable (hn : n < 2 ^ 64) (hfile : file.length < 2 ^ 63)
  (hplaced : ∀ c < n, ∀ m ∈ msgs c, m.payload ≠ [] → Placed file m)

include hn hfile hplaced

theorem Ordered.move_open (h : Ordered n msgs file s l) (hopen : Open n msgs s l ended) (hmove : PollMove s t) :
    Ordered n msgs file t l := by
  obtain ⟨a, b, slots, horder⟩ := h.order
  cases hmove with
  | destroy _ hidle => exact h.destroy hopen hidle
  | @kick _ entry q hq heof =>
    have hfree : s.freeConnQ.isEmpty = true := by rw [hopen.free_nil hn heof]; rfl
    have hconn : entry.conn = none := (hopen.commands entry (by rw [hq]; simp)).2
    exact { h with
      stripe := .inl ⟨ended, { hopen with
        toReading := hopen.toReading.move (.kick hq heof) hopen.transferring
        lengths := fun e he => hopen.lengths e (by rw [hq]; exact mem_cons_of_mem _ he) }⟩
      aborted := by simp [hfree, h.aborted]
      kickouts := forall_mem_append.2 ⟨h.kickouts, forall_mem_singleton.2 hconn⟩
      order := ⟨a, b, slots, { horder with }⟩ }
  | @give ctr _ entry q c free hq hperm hnext =>
    have hmem : c ∈ s.freeConnQ := hperm.mem_iff.2 (by simp)
    have hc := hopen.free_lt c hmem
    have hio := (hopen.free_block hmem).2.1
    have hlength := hopen.lengths entry (by rw [hq]; simp)
    obtain ⟨b', slots', horder'⟩ := horder.give ctr hopen.toReading hfile hplaced hperm (hnext h.orderData) hlength
    have hother : ∀ c', c' ≠ c →
        ({ s with commandQ := q, freeConnQ := free, orderCtr := ctr }.registerRead entry c).io c' = s.io c' :=
      fun c' hne => update_of_ne hne ..
    have hself : ({ s with commandQ := q, freeConnQ := free, orderCtr := ctr }.registerRead entry c).io c =
        .payload _ := update_self ..
    exact { h with
      stripe := .inl ⟨ended, { hopen with
        toReading := hopen.toReading.give ctr hq hperm
        total := (count_keep Io.up hc hother (by rw [hio, hself]; rfl)).trans hopen.total
        outstanding := (count_keep Io.accepting hc hother (by rw [hio, hself]; rfl)).trans hopen.outstanding
        lengths := fun e he => hopen.lengths e (by rw [hq]; exact mem_cons_of_mem _ he) }⟩
      order := ⟨a, b', slots', horder'⟩ }
  | turn hperm =>
    exact { h with
      stripe := .inl ⟨ended, { hopen with toReading := hopen.toReading.move (.turn hperm) hopen.transferring }⟩
      order := ⟨a, b, slots, { horder with }⟩ }
  | count ctr =>
    exact { h with
      stripe := .inl ⟨ended, { hopen with toReading := hopen.toReading.move (.count ctr) hopen.transferring }⟩
      order := ⟨a, b, slots, { horder with }⟩ }

omit hn hfile hplaced in
theorem Ordered.move_closed (h : Ordered n msgs file s l) (hclosed : Closed s) (hmove : PollMove s t) :
    Ordered n msgs file t l := by
  obtain ⟨a, b, slots, horder⟩ := h.order
  cases hmove with
  | kick hq => rw [hclosed.commandQ] at hq; cases hq
  | give ctr hq => rw [hclosed.commandQ] at hq; cases hq
  | destroy =>
    rw [stripesDestroy, if_pos (.inr (by simp [hclosed.transferring]))]
    exact h
  | turn => exact { h with stripe := .inr { hclosed with }, order := ⟨a, b, slots, { horder with }⟩ }
  | count ctr => exact { h with stripe := .inr { hclosed with }, order := ⟨a, b, slots, { horder with }⟩ }

variable (h : Ordered n msgs file s l)
include h

namespace Ordered

theorem poll : Ordered n msgs file s.poll l := by
  have hmoves := poll_moves h.bigBuffer
  generalize s.poll = t at hmoves
  induction hmoves with
  | refl => exact h
  | tail _ hmove ih =>
    obtain ⟨ended, hopen⟩ | hclosed := ih.stripe
    · exact ih.move_open hn hfile hplaced hopen hmove
    · exact ih.move_closed hclosed hmove

/-! ## Events -/

theorem listen (hio : s.io c = .unconnected) :
    Ordered n msgs file (s.ebListenCallback c) l := by
  unfold ebListenCallback
  split
  case isFalse => exact h.poll hn hfile hplaced
  case isTrue hstate =>
    obtain ⟨ended, hopen⟩ | hclosed := h.stripe
    case inr => exact absurd hstate hclosed.state
    obtain ⟨a, b, slots, horder⟩ := h.order
    have hc := hopen.lt (c := c) (by rw [hio]; simp)
    have hother : ∀ c', c' ≠ c → (s.register c .accept).io c' = s.io c' := fun c' hne => update_of_ne hne ..
    have hself : (s.register c .accept).io c = .accept := update_self ..
    have hslots : (s.register c .accept).count n Io.slots = s.count n Io.slots :=
      count_keep Io.slots hc hother (by rw [hio, hself]; rfl)
    refine poll hn hfile hplaced { h with
      stripe := .inl ⟨ended, { hopen with toReading := hopen.toReading.listen hio _ _, total := ?_, outstanding := ?_ }⟩
      order := ⟨a, b, slots, horder.congr rfl rfl hslots rfl rfl rfl fun _ => rfl⟩ }
    · have hcount := count_change Io.up hc hother
      rw [hio, hself, hopen.total] at hcount
      exact (add_zero _).symm.trans hcount
    · have hcount := count_change Io.accepting hc hother
      rw [hio, hself, hopen.outstanding] at hcount
      exact (add_zero _).symm.trans hcount

theorem accept (hp : Peers n msgs) (hio : s.io c = .accept) :
    Ordered n msgs file (s.ebAcceptCallback c) l := by
  obtain ⟨ended, hopen⟩ | hclosed := h.stripe
  case inr => have := hclosed.io c; rw [hio] at this; simp at this
  obtain ⟨a, b, slots, horder⟩ := h.order
  have hc := hopen.lt (c := c) (by rw [hio]; simp)
  have hclosing := ne_closing hopen.state
  have hread := hopen.toReading.accept (hp.ok c hc).ne_nil hio
  have hother : ∀ c', c' ≠ c →
      ((s.setConn c { s.conns c with bytesReady := 0 }).register c .header).io c' = s.io c' :=
    fun c' hne => update_of_ne hne ..
  have hself : ((s.setConn c { s.conns c with bytesReady := 0 }).register c .header).io c = .header :=
    update_self ..
  unfold ebAcceptCallback
  dsimp only
  rw [if_neg hclosing]
  have hslots := count_keep Io.slots hc hother (by rw [hio, hself]; rfl)
  refine poll hn hfile hplaced { h with
    stripe := .inl ⟨ended, { hopen with
      toReading := { hread with }
      total := (count_keep Io.up hc hother (by rw [hio, hself]; rfl)).trans hopen.total
      outstanding := ?_ }⟩
    order := ⟨a, b, slots, horder.congr rfl rfl hslots rfl rfl rfl fun _ => rfl⟩ }
  have hcount := count_change Io.accepting hc hother
  rw [hio, hself, hopen.outstanding] at hcount
  exact eq_sub_of_add_eq (hcount.trans (add_zero _))

theorem header (hp : Peers n msgs) (hio : s.io c = .header) :
    Ordered n msgs file ((s.take c ebHeaderSize).ebReadHeaderCallback c (EbHeader.ofBytes (s.wire c))) l := by
  obtain ⟨ended, hopen⟩ | hclosed := h.stripe
  case inr => have := hclosed.io c; rw [hio] at this; simp at this
  obtain ⟨a, b, slots, horder⟩ := h.order
  have hc := hopen.lt (c := c) (by rw [hio]; simp)
  obtain ⟨ended', -, hread, hsame⟩ := hopen.toReading.header (hp.ok c hc) hio
  have htake : Settles s (s.take c ebHeaderSize) c := .take _
  have hsettles := htake.trans (ebReadHeader_settles (s := s.take c ebHeaderSize) h.bigBuffer htake.settled
    (EbHeader.ofBytes (s.wire c)))
  rw [ebReadHeaderCallback]
  generalize (s.take c ebHeaderSize).ebReadHeader c (EbHeader.ofBytes (s.wire c)) = u at *
  have hslots : u.count n Io.slots = s.count n Io.slots :=
    count_keep Io.slots hc hsettles.other (by rw [hio, hsettles.settled.counts.1]; rfl)
  exact poll hn hfile hplaced {
    stripe := .inl ⟨ended', hopen.settles hread hc hsettles hsame (by rw [hio]; rfl) (by rw [hio]; rfl)⟩
    orderData := hsame.orderData.trans h.orderData
    bigBuffer := hread.bigBuffer
    aborted := hsame.aborted.trans h.aborted
    kickouts := by rw [hsame.kickouts]; exact h.kickouts
    flushes := by rw [hsame.flushes]; exact h.flushes
    returning := by rw [hsame.returning]; exact h.returning
    tiled := h.tiled
    order := ⟨a, b, slots, horder.congr hsame.orderNextOffsetPassed hsame.orderNextOffset hslots hsame.orderCbs
      hsame.orderedBufferQ (by rw [dataCalls, dataCalls, hsame.log])
      fun c => by rw [Receiver.passed, Receiver.passed, hsame.log]⟩
    stalled := by rw [Stalled, hsame.orderedBufferQ, hsame.orderNextOffsetPassed]; exact h.stalled }

end Ordered

omit h

variable {entry : Entry}

omit hn in
theorem Ordered.payload (h : Ordered n msgs file s l) (hio : s.io c = .payload entry)
    (hread : streamRead entry.type ((s.wire c).take entry.length) = (s.wire c).take entry.length) :
    ∃ l', Ordered n msgs file ((s.take c entry.length).ebReadCallback c entry ((s.wire c).take entry.length)) l' := by
  obtain ⟨ended, hopen⟩ | hclosed := h.stripe
  case inr => have := hclosed.io c; rw [hio] at this; simp at this
  obtain ⟨a, b, slots, horder⟩ := h.order
  have hc := hopen.lt (c := c) (by rw [hio]; simp)
  have hclosing := ne_closing hopen.state
  obtain ⟨before, m, rest, got, buf, left, ended', hat, htake, -, hreading, hsame⟩ := hopen.toReading.payload hio
  have hsettles : Settles s ((s.take c entry.length).bytesRead c entry.length) c := by
    have hsettles : Settles s (s.take c entry.length) c := .take _
    exact hsettles.trans (bytesRead_settles _ hsettles.settled)
  rw [htake] at hread ⊢
  unfold ebReadCallback
  rw [if_neg (by simpa using hclosing)]
  dsimp only
  rw [hat.length, hread, complete, if_pos (hsame.orderData.trans h.orderData)]
  have hplace : Placed file m := hplaced c hc m (by rw [hat.msgs]; simp) hat.nonempty
  generalize (s.take c entry.length).bytesRead c entry.length = u at *
  have hopen' := hopen.settles hreading hc hsettles hsame (by rw [hio]; rfl) (by rw [hio]; rfl)
  refine ⟨Function.update l c (l c ++ [((s.conns c).offset, buf)]), {
    stripe := .inl ⟨ended', { hopen' with toReading := { hreading with } }⟩
    orderData := hsame.orderData.trans h.orderData
    bigBuffer := hreading.bigBuffer
    aborted := hsame.aborted.trans h.aborted
    kickouts := fun e he => h.kickouts e (hsame.kickouts ▸ he)
    flushes := fun e he => h.flushes e (hsame.flushes ▸ he)
    returning := forall_mem_append.2 ⟨by rw [hsame.returning]; exact h.returning, forall_mem_singleton.2 rfl⟩
    tiled := fun c' hc' => (hreading.conns c' hc').tiled
    order := ⟨a, b, slots, horder.complete hfile hc hplace hio hat hsettles hsame (by rfl) (by rfl) (by rfl)
      (by exact hat.conn)⟩
    stalled := fun e he => ?_ }⟩
  rw [show _ = s.orderNextOffsetPassed from hsame.orderNextOffsetPassed]
  exact h.stalled e (hsame.orderedBufferQ ▸ he)

omit hn hfile hplaced in
theorem InSequence.silent (h : InSequence n file s l a b slots) {calls : List Callback}
    (hcalls : ∀ call ∈ calls, call.conn = none) : InSequence n file { s with log := s.log ++ calls } l a b slots := by
  refine h.congr rfl rfl rfl rfl rfl ?_ fun c => ?_
  · have hnone : calls.filter (fun call => call.conn.isSome) = [] :=
      filter_eq_nil_iff.2 fun call hcall => by simp [hcalls call hcall]
    rw [dataCalls, dataCalls, filter_append, hnone, append_nil]
  · have hnone : calls.filter (fun call => call.conn = some c) = [] :=
      filter_eq_nil_iff.2 fun call hcall => by simp [hcalls call hcall]
    rw [Receiver.passed, Receiver.passed, filter_append, hnone, append_nil]

theorem Ordered.return {i : Nat} {r : Entry × Bool} (h : Ordered n msgs file s l) (hr : s.returning[i]? = some r) :
    Ordered n msgs file ({ s with returning := s.returning.eraseIdx i }.ebReadReturn r.1 r.2) l := by
  have hfires : r.2 = false := h.returning r (mem_of_getElem? hr)
  have hreturning : ∀ r ∈ s.returning.eraseIdx i, r.2 = false := fun r hr => h.returning r (mem_of_mem_eraseIdx hr)
  obtain ⟨a, b, slots, horder⟩ := h.order
  unfold ebReadReturn
  dsimp only
  rw [hfires, if_neg Bool.false_ne_true]
  apply Ordered.poll hn hfile hplaced
  split
  case isTrue =>
    exact { h with
      stripe := h.stripe.imp (Exists.imp fun _ hopen => { hopen with toReading := { hopen with }, state := .inr rfl })
        fun hclosed => { hclosed with state := by simp }
      returning := hreturning
      order := ⟨a, b, slots, { horder with }⟩ }
  case isFalse =>
    exact { h with
      stripe := h.stripe.imp (Exists.imp fun _ hopen => { hopen with toReading := { hopen with } })
        fun hclosed => { hclosed with }
      returning := hreturning
      order := ⟨a, b, slots, { horder with }⟩ }

theorem Ordered.kickout {i : Nat} (h : Ordered n msgs file s l) (hr : s.kickouts[i]? = some entry) :
    Ordered n msgs file ({ s with kickouts := s.kickouts.eraseIdx i }.commandKickout entry) l := by
  have hconn := h.kickouts entry (mem_of_getElem? hr)
  obtain ⟨a, b, slots, horder⟩ := h.order
  unfold commandKickout
  apply Ordered.poll hn hfile hplaced
  exact { h with
    stripe := h.stripe.imp (Exists.imp fun _ hopen => { hopen with toReading := { hopen with }, state := .inr rfl })
      fun hclosed => { hclosed with state := by simp }
    kickouts := fun e he => h.kickouts e (mem_of_mem_eraseIdx he)
    order := ⟨a, b, slots, { horder.silent (forall_mem_singleton.2 hconn) with }⟩ }

omit hn hfile hplaced in
theorem Ordered.flush {i : Nat} (h : Ordered n msgs file s l) (hr : s.flushes[i]? = some entry) :
    Ordered n msgs file ({ s with flushes := s.flushes.eraseIdx i }.commandFlush entry) l := by
  have hconn := h.flushes entry (mem_of_getElem? hr)
  obtain ⟨a, b, slots, horder⟩ := h.order
  unfold commandFlush
  exact { h with
    stripe := h.stripe.imp (Exists.imp fun _ hopen => { hopen with toReading := { hopen with } })
      fun hclosed => { hclosed with }
    flushes := fun e he => h.flushes e (mem_of_mem_eraseIdx he)
    order := ⟨a, b, slots, { horder.silent (forall_mem_singleton.2 hconn) with }⟩ }

omit hn hplaced in
theorem Ordered.orderReadCb {i : Nat} (h : Ordered n msgs file s l) (hr : s.orderCbs[i]? = some entry)
    (heof : EofLast (entry ::ₘ s.queued)) :
    Ordered n msgs file ({ s with orderCbs := s.orderCbs.eraseIdx i }.orderReadCb entry) l := by
  obtain ⟨a, b, slots, horder⟩ := h.order
  obtain ⟨⟨a', slots', horder'⟩, hstalled⟩ := horder.orderReadCb hfile hr heof
  obtain ⟨q, passed, log, hframe⟩ := orderLoop_frame (s.orderedBufferQ.size + 1)
    { s with orderCbs := s.orderCbs.eraseIdx i, orderedBufferQ := s.orderedBufferQ.enqueue qCompare entry entry }
  unfold Receiver.orderReadCb at horder' hstalled ⊢
  rw [hframe] at horder' hstalled ⊢
  exact { h with
    stripe := h.stripe.imp (Exists.imp fun _ hopen => { hopen with toReading := { hopen with } })
      fun hclosed => { hclosed with }
    order := ⟨a', b, slots', horder'⟩
    stalled := hstalled }

theorem Ordered.read {arg maxLength : Nat} (h : Ordered n msgs file s l) (hlength : 0 < maxLength) :
    Ordered n msgs file (s.dataRead arg maxLength) l := by
  unfold dataRead
  split
  case isFalse => exact h
  case isTrue htransfer =>
    obtain ⟨ended, hopen⟩ | hclosed := h.stripe
    case inr => rw [hclosed.transferring] at htransfer; cases htransfer.1
    obtain ⟨a, b, slots, horder⟩ := h.order
    apply Ordered.poll hn hfile hplaced
    exact { h with
      stripe := .inl ⟨ended, { hopen with
        commands := forall_mem_append.2 ⟨hopen.commands, forall_mem_singleton.2 ⟨rfl, rfl⟩⟩
        lengths := forall_mem_append.2 ⟨hopen.lengths, forall_mem_singleton.2 hlength⟩ }⟩
      order := ⟨a, b, slots, { horder with }⟩ }

end Polls

/-! ## Runs -/

/-- The read that is registered. -/
def Io.entryOf : Io → Option Entry
  | .payload entry => some entry
  | _ => Option.none

/-- An event after which the data can still be passed in order: a read asks for some bytes, no line end is stripped from
the bytes that are read, and the read that is put in the queue leaves an entry with the end of file behind all others. -/
def Orderly (s : Receiver) : ReceiverEvent → Prop
  | .payload c => ∀ entry ∈ (s.io c).entryOf,
      streamRead entry.type ((s.wire c).take entry.length) = (s.wire c).take entry.length
  | .order i => ∀ entry ∈ s.orderCbs[i]?, EofLast (entry ::ₘ s.queued)
  | .read _ maxLength => 0 < maxLength
  | _ => True

instance (s : Receiver) : ∀ e, Decidable (Orderly s e)
  | .payload c => inferInstanceAs (Decidable (∀ entry ∈ (s.io c).entryOf,
      streamRead entry.type ((s.wire c).take entry.length) = (s.wire c).take entry.length))
  | .order i => inferInstanceAs (Decidable (∀ entry ∈ s.orderCbs[i]?, EofLast (entry ::ₘ s.queued)))
  | .read _ maxLength => inferInstanceAs (Decidable (0 < maxLength))
  | .listen _ | .accept _ | .header _ | .return _ | .kickout _ | .flush _ => .isTrue trivial

theorem Ordered.step (hp : Peers n msgs) (hfile : file.length < 2 ^ 63)
    (hplaced : ∀ c < n, ∀ m ∈ msgs c, m.payload ≠ [] → Placed file m) {e : ReceiverEvent}
    (h : Ordered n msgs file s l) (he : Orderly s e) (hstep : s.step e = some t) : ∃ l', Ordered n msgs file t l' := by
  obtain ⟨-, hevent⟩ := step_event hstep
  cases hevent with
  | listen hio => exact ⟨l, h.listen hp.lt hfile hplaced hio⟩
  | accept hio => exact ⟨l, h.accept hp.lt hfile hplaced hp hio⟩
  | header hio => exact ⟨l, h.header hp.lt hfile hplaced hp hio⟩
  | payload hio => exact h.payload hfile hplaced hio (he _ (by rw [hio]; rfl))
  | «return» hr => exact ⟨l, h.return hp.lt hfile hplaced hr⟩
  | kickout hr => exact ⟨l, h.kickout hp.lt hfile hplaced hr⟩
  | flush hr => exact ⟨l, h.flush hr⟩
  | order hr => exact ⟨l, h.orderReadCb hfile hr (he _ hr)⟩
  | read => exact ⟨l, h.read hp.lt hfile hplaced he⟩

theorem Ordered.init (type : ControlType) (heap : Nat → PriorityQEntry Entry Entry) :
    Ordered n msgs file (Receiver.init type true n (wires msgs) heap) fun _ => [] where
  stripe := by
    refine .inl ⟨∅, ⟨⟨fun c hc => ?_, fun c hc => by simp [Receiver.init, Nat.not_lt.2 hc], nodup_nil,
      by simp [Receiver.init], by simp, rfl, .inr rfl, rfl, ?_, by simp [Receiver.init]⟩, rfl, .inl rfl, ?_, ?_,
      by simp [Receiver.init]⟩⟩
    · refine .down (.inl ?_) (by simp [view, Receiver.init]) rfl rfl rfl
      simp [view, Receiver.init, hc]
    · intro c entry hentry
      simp only [Receiver.init] at hentry
      split at hentry <;> cases hentry
    · refine Finset.sum_eq_zero fun c hc => ?_
      simp [Receiver.init, Finset.mem_range.1 hc, Io.up]
    · refine Finset.sum_eq_zero fun c hc => ?_
      simp [Receiver.init, Finset.mem_range.1 hc, Io.accepting]
  orderData := rfl
  bigBuffer := rfl
  aborted := rfl
  kickouts := by simp [Receiver.init]
  flushes := by simp [Receiver.init]
  returning := by simp [Receiver.init]
  tiled c _ := ⟨_, Tiled.whole (msgs c)⟩
  order := by
    have hempty : (Receiver.init type true n (wires msgs) heap).waiting = 0 := rfl
    refine ⟨0, 0, [], ⟨rfl, rfl, .nil 0, Nat.zero_le _, ?_, by simp [hempty], PriorityQ.WF.init heap, ?_, ?_, ?_⟩⟩
    · rw [hempty, Multiset.map_zero, add_zero]
      refine (Finset.sum_eq_zero fun c hc => ?_).symm
      simp [Receiver.init, Finset.mem_range.1 hc, Io.slots]
    · intro x hx
      exact absurd hx (Multiset.notMem_zero x)
    · exact .nil 0
    · intro c _
      rw [hempty]
      rfl
  stalled e he := by
    have hnone : (Receiver.init type true n (wires msgs) heap).orderedBufferQ.first = none := rfl
    rw [hnone] at he
    cases he

/-- Reading in order, in every run of orderly events: the callbacks with data are called with the file from its start, one
piece behind the other, and every read that is complete is passed or waits, once. When no payload is to be read and no
read is to be put in the queue, the queue is empty. -/
theorem ordered_reception {type : ControlType} (hp : Peers n msgs) (hfile : file.length < 2 ^ 63)
    (hplaced : ∀ c < n, ∀ m ∈ msgs c, m.payload ≠ [] → Placed file m) (heap : Nat → PriorityQEntry Entry Entry)
    (es : List ReceiverEvent) (hes : Meets step Orderly (Receiver.init type true n (wires msgs) heap) es)
    (s : Receiver) (hrun : exec step (Receiver.init type true n (wires msgs) heap) es = some s) :
    s.aborted = false ∧
    (∃ a, Cut (0 : OffT) (file.take a) s.dataCalls) ∧
    (∀ c < n, ∃ l rest : List Piece, (s.passed c : Multiset Piece) + piecesOf s.waiting c = l ∧
      Tiled (msgs c) (l ++ rest)) ∧
    ((∀ c < n, ∀ entry, s.io c ≠ .payload entry) → s.orderCbs = [] → s.orderedBufferQ.size = 0) := by
  have hinv : ∃ l, Ordered n msgs file s l := by
    refine exec_invariant_of (I := fun s => ∃ l, Ordered n msgs file s l) ?_ ⟨_, Ordered.init type heap⟩ hes hrun
    rintro s e t ⟨l, h⟩ he hstep
    exact h.step hp hfile hplaced he hstep
  obtain ⟨l, h⟩ := hinv
  obtain ⟨a, b, slots, horder⟩ := h.order
  refine ⟨h.aborted, ⟨a, horder.calls⟩, fun c hc => ?_, fun hio hcbs => ?_⟩
  · obtain ⟨rest, htiled⟩ := h.tiled c hc
    exact ⟨l c, rest, horder.pieces c hc, htiled⟩
  · have hcount : s.count n Io.slots = 0 := by
      refine Finset.sum_eq_zero fun c hc => ?_
      have hne := hio c (Finset.mem_range.1 hc)
      cases hc : s.io c with
      | payload entry => exact absurd hc (hne entry)
      | _ => rfl
    rw [size_eq_card, horder.queued_eq_zero hfile h.stalled hcount hcbs, card_zero]

end Ordered

/-- A file of three bytes, each in a block of its own on its own connection. -/
def threeBlocks (c : Nat) : List Message :=
  let block : Message := ⟨⟨descriptorEod, dataEncode 1, dataEncode (BitVec.ofNat 64 c)⟩, [BitVec.ofNat 8 (10 + c)]⟩
  if c = 0 then [⟨⟨descriptorEof, dataEncode 0, dataEncode 3⟩, []⟩, block] else [block]

theorem threeBlocks_peers : Peers 3 threeBlocks where
  ok c hc := by
    interval_cases c
    · exact ⟨⟨by decide, by decide, by decide, by decide⟩, ⟨by decide, by decide, by decide, by decide⟩⟩
    · exact ⟨by decide, by decide, by decide, by decide⟩
    · exact ⟨by decide, by decide, by decide, by decide⟩
  eof := ⟨0, by decide, _, mem_cons_self .., by decide⟩

theorem threeBlocks_placed : ∀ c < 3, ∀ m ∈ threeBlocks c, m.payload ≠ [] → Placed [10, 11, 12] m := by
  intro c hc m hm _
  refine ⟨c, ?_⟩
  interval_cases c
  · obtain rfl | rfl : m = _ ∨ m = _ := by simpa [threeBlocks] using hm
    · contradiction
    · decide
  · obtain rfl : m = _ := by simpa [threeBlocks] using hm
    decide
  · obtain rfl : m = _ := by simpa [threeBlocks] using hm
    decide

/-- Three reads, one for each of the blocks. -/
def readThreeBlocks : List ReceiverEvent :=
  [.listen 0, .listen 1, .listen 2, .accept 0, .accept 1, .accept 2, .read 0 1, .read 1 1, .read 2 1, .header 0, .header 0,
    .header 1, .header 2]

/-- The handle that reads them. -/
def threeBlocksReceiver : Receiver :=
  .init .image true 3 (wires threeBlocks) fun _ => ⟨.new 0 0 0 false .image, .new 0 0 0 false .image⟩

/-- The last block is read last, and is the first one to be put in the queue. -/
theorem ordered_reception_last :
    ∃ s, exec step threeBlocksReceiver
        (readThreeBlocks ++ [.payload 0, .payload 1, .payload 2, .order 2, .order 0, .order 0]) = some s ∧
      s.dataCalls = [(0, [10]), (1, [11]), (2, [12])] ∧ s.orderedBufferQ.size = 0 := by
  have hmeets : Meets step Orderly threeBlocksReceiver
      (readThreeBlocks ++ [.payload 0, .payload 1, .payload 2, .order 2, .order 0, .order 0]) := by
    decide +kernel
  have hrun : (exec step threeBlocksReceiver
      (readThreeBlocks ++ [.payload 0, .payload 1, .payload 2, .order 2, .order 0, .order 0])).map
      (fun s => decide (s.dataCalls = [(0, [10]), (1, [11]), (2, [12])] ∧ s.io 0 = .none ∧ s.io 1 = .none ∧
        s.io 2 = .none ∧ s.orderCbs = [])) = some true := by
    decide +kernel
  obtain ⟨s, hs, hrun⟩ := Option.map_eq_some_iff.1 hrun
  obtain ⟨hcalls, hio0, hio1, hio2, hcbs⟩ := of_decide_eq_true hrun
  refine ⟨s, hs, hcalls, ?_⟩
  refine (ordered_reception threeBlocks_peers (by decide) threeBlocks_placed _ _ hmeets s hs).2.2.2 ?_ hcbs
  intro c hc entry
  interval_cases c
  · rw [hio0]; simp
  · rw [hio1]; simp
  · rw [hio2]; simp

/-- The second block is read last, so that its read has the end of file, and the third one is put in the queue before it:
the queue then holds both, the third one in front. -/
theorem ordered_reception_stuck :
    Peers 3 threeBlocks ∧ (∀ c < 3, ∀ m ∈ threeBlocks c, m.payload ≠ [] → Placed [10, 11, 12] m) ∧
    ∃ s, exec step threeBlocksReceiver
        (readThreeBlocks ++ [.payload 2, .payload 0, .payload 1, .order 0, .order 1, .order 0]) = some s ∧
      s.dataCalls = [(0, [10])] ∧ s.io 0 = .none ∧ s.io 1 = .none ∧ s.io 2 = .none ∧ s.orderCbs = [] ∧
      s.orderedBufferQ.size = 2 := by
  have hrun : (exec step threeBlocksReceiver
      (readThreeBlocks ++ [.payload 2, .payload 0, .payload 1, .order 0, .order 1, .order 0])).map
      (fun s => decide (s.dataCalls = [(0, [10])] ∧ s.io 0 = .none ∧ s.io 1 = .none ∧ s.io 2 = .none ∧
        s.orderCbs = [] ∧ s.orderedBufferQ.size = 2)) = some true := by
    decide +kernel
  obtain ⟨s, hs, hrun⟩ := Option.map_eq_some_iff.1 hrun
  exact ⟨threeBlocks_peers, threeBlocks_placed, s, hs, of_decide_eq_true hrun⟩

end Globus.Ftp
