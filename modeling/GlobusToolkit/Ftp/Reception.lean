/-
Reading in extended block mode, without order, is exact: however the events of `n` connections and of the user fall, the
pieces passed to the callbacks tile the blocks of every connection, each at its own offset, and nothing is passed twice.
The number of ends of data that was announced is reached only when all bytes are read, and from then on every read is
completed with the end of file.
-/
import GlobusToolkit.Ftp.Connection

namespace Globus.Ftp

open Lib Receiver List

/-- What `n` peers send: one of them announces the number. -/
structure Peers (n : Nat) (msgs : Nat → List Message) : Prop where
  ok : ∀ c < n, PeerOK n (msgs c)
  eof : ∃ c < n, ∃ m ∈ msgs c, m.header.has descriptorEof = true

/-- The bytes of the connections. -/
def wires (msgs : Nat → List Message) (c : Nat) : List Byte := (msgs c).flatMap Message.bytes

/-- The pieces of a connection that were passed to callbacks. -/
def Receiver.passed (s : Receiver) (c : Nat) : List Piece :=
  (s.log.filter fun call => call.conn = some c).map fun call => (call.offset, call.buffer)

/-- The pieces of a connection that are passed to callbacks next. -/
def Receiver.passing (s : Receiver) (c : Nat) : List Piece :=
  (s.returning.filter fun r => r.1.conn = some c).map fun r => (r.1.offset, r.1.buffer)

/-- The reads that are completed, or are to be completed, without data: those in the queue, those whose callback is
registered, and the calls of callbacks with no data connection. -/
def Receiver.emptyReads (s : Receiver) : Multiset Nat :=
  ↑(s.commandQ.map Entry.arg) + ↑(s.kickouts.map Entry.arg) +
    ↑((s.log.filter fun call => call.conn = none).map Callback.arg)

/-- A receiver in the middle of a transfer. -/
structure Receiving (n : Nat) (msgs : Nat → List Message) (s : Receiver) (l : Nat → List Piece) (ended : Finset Nat) :
    Prop extends Reading n msgs s l ended where
  orderData : s.orderData = false
  transferring : s.transferring = true
  state : s.state = .connectRead ∨ s.state = .eof
  type : s.type ≠ .ascii
  aborted : s.aborted = false
  flushes : s.flushes = []
  orderCbs : s.orderCbs = []
  pieces : ∀ c < n, (s.passed c ++ s.passing c).Perm (l c)
  returning : ∀ r ∈ s.returning, r.2 = true ∧ ∃ c < n, r.1.conn = some c
  kickouts : ∀ entry ∈ s.kickouts, entry.conn = none
  log : ∀ call ∈ s.log, (∃ c < n, call.conn = some c) ∨ (call.conn = none ∧ call.buffer = [] ∧ call.eof = true)

section Reception

variable {n : Nat} {msgs : Nat → List Message} {s t : Receiver} {l : Nat → List Piece} {ended : Finset Nat} {c : Nat}

theorem Peers.lt (h : Peers n msgs) : n < 2 ^ 64 := by
  obtain ⟨c, hc, m, hm, heof⟩ := h.eof
  obtain ⟨before, rest, hmsgs⟩ := append_of_mem hm
  have hok : m.OK n rest.isEmpty := PeerOK.ok (by rw [← hmsgs]; exact h.ok c hc)
  rw [← (hok.eof heof).2]
  exact (dataDecode m.header.offset).isLt

theorem Reading.all_ended (h : Reading n msgs s l ended) (hn : n < 2 ^ 64) (heof : s.eodCount = s.eodsReceived) :
    ∀ c < n, c ∈ ended := by
  have hsub : ended ⊆ Finset.range n := fun c hc => Finset.mem_range.2 (h.ended_lt c hc)
  have hle := Finset.card_le_card hsub
  have heq : ended = Finset.range n := by
    refine Finset.eq_of_subset_of_card_le hsub ?_
    rw [Finset.card_range, ← h.eods, ← heof]
    obtain hcount | hcount := h.eodCount <;> omega
  intro c hc
  rw [heq]
  exact Finset.mem_range.2 hc

theorem Reading.ended_inv (h : Reading n msgs s l ended) (hc : c ∈ ended) :
    (s.io c = .none ∨ s.io c = .close) ∧ c ∉ s.freeConnQ ∧ s.wire c = [] ∧ Tiled (msgs c) (l c) := by
  have hinv := h.conns c (h.ended_lt c hc)
  rw [decide_eq_true hc] at hinv
  cases hinv with
  | done hio hfree hwire hl => exact ⟨hio, hfree, hwire, hl⟩

theorem Reading.free_nil (h : Reading n msgs s l ended) (hn : n < 2 ^ 64) (heof : s.eodCount = s.eodsReceived) :
    s.freeConnQ = [] := by
  rw [eq_nil_iff_forall_not_mem]
  intro c hc
  exact (h.free_block hc).2.2 (h.all_ended hn heof c (h.free_lt c hc))

/-! ## Polls -/

theorem Receiving.same {ended' : Finset Nat} (h : Receiving n msgs s l ended) (hread : Reading n msgs t l ended')
    (hsame : SameLog s t) (haborted : t.aborted = false) (hkickouts : ∀ entry ∈ t.kickouts, entry.conn = none) :
    Receiving n msgs t l ended' where
  toReading := hread
  orderData := hsame.orderData.trans h.orderData
  transferring := hsame.transferring.trans h.transferring
  state := by rw [hsame.state]; exact h.state
  type := by rw [hsame.type]; exact h.type
  aborted := haborted
  flushes := hsame.flushes.trans h.flushes
  orderCbs := hsame.orderCbs.trans h.orderCbs
  pieces c hc := by
    rw [passed, passing, hsame.log, hsame.returning]
    exact h.pieces c hc
  returning := by rw [hsame.returning]; exact h.returning
  kickouts := hkickouts
  log := by rw [hsame.log]; exact h.log

theorem Receiving.move (h : Receiving n msgs s l ended) (hn : n < 2 ^ 64) (hmove : PollMove s t) :
    Receiving n msgs t l ended ∧ SameLog s t ∧ t.eodCount = s.eodCount ∧ t.eodsReceived = s.eodsReceived ∧
      (s.eodCount = s.eodsReceived → t.emptyReads = s.emptyReads) := by
  have htransferring : t.transferring = true := by
    cases hmove with
    | destroy horder => rw [h.orderData] at horder; cases horder
    | kick => exact h.transferring
    | give => exact h.transferring
    | turn => exact h.transferring
    | count => exact h.transferring
  have hread := h.toReading.move hmove htransferring
  have hsame := hmove.sameLog htransferring
  cases hmove with
  | destroy horder => rw [h.orderData] at horder; cases horder
  | @kick _ entry q hq heof =>
    have hfree : s.freeConnQ.isEmpty = true := by rw [h.free_nil hn heof]; rfl
    have hconn : entry.conn = none := (h.commands entry (by rw [hq]; simp)).2
    refine ⟨h.same hread hsame ?_ ?_, hsame, rfl, rfl, fun _ => ?_⟩
    · simp [hfree, h.aborted]
    · exact forall_mem_append.2 ⟨h.kickouts, forall_mem_singleton.2 hconn⟩
    · simp only [emptyReads, assert_log, hq, map_append, map_cons, map_nil, ← Multiset.coe_add,
        ← Multiset.cons_coe, Multiset.coe_nil, ← Multiset.singleton_add, add_zero]
      abel
  | @give ctr _ entry q c free hq hperm hnext =>
    refine ⟨h.same hread hsame h.aborted h.kickouts, hsame, rfl, rfl, fun heof => ?_⟩
    rw [h.free_nil hn heof] at hperm
    cases nil_perm.1 hperm
  | turn hperm => exact ⟨h.same hread hsame h.aborted h.kickouts, hsame, rfl, rfl, fun _ => rfl⟩
  | count ctr => exact ⟨h.same hread hsame h.aborted h.kickouts, hsame, rfl, rfl, fun _ => rfl⟩

theorem Receiving.moves (h : Receiving n msgs s l ended) (hn : n < 2 ^ 64) (hmoves : PollMoves s t) :
    Receiving n msgs t l ended ∧ SameLog s t ∧ t.eodCount = s.eodCount ∧ t.eodsReceived = s.eodsReceived ∧
      (s.eodCount = s.eodsReceived → t.emptyReads = s.emptyReads) := by
  induction hmoves with
  | refl => exact ⟨h, .refl s, rfl, rfl, fun _ => rfl⟩
  | tail _ hmove ih =>
    obtain ⟨h', hsame, hcount, heods, hempty⟩ := ih
    obtain ⟨h'', hsame', hcount', heods', hempty'⟩ := h'.move hn hmove
    refine ⟨h'', hsame.trans hsame', hcount'.trans hcount, heods'.trans heods, fun heof => ?_⟩
    rw [hempty' (by rw [hcount, heods, heof]), hempty heof]

theorem pollLoop_commandQ : ∀ (q : List Entry) {s : Receiver} (checked : Bool), s.commandQ = q →
    s.eodCount = s.eodsReceived → (pollLoop q s checked).1.commandQ = []
  | [], s, checked, hq, _ => hq
  | entry :: q, s, checked, _, heof => by
    rw [pollLoop]
    split
    case isTrue => exact pollLoop_commandQ q checked rfl heof
    case isFalse hne => exact absurd heof hne

theorem Receiving.poll (h : Receiving n msgs s l ended) (hn : n < 2 ^ 64) :
    Receiving n msgs s.poll l ended ∧ SameLog s s.poll ∧
      (s.poll.eodCount = s.poll.eodsReceived ↔ s.eodCount = s.eodsReceived) ∧
      (s.eodCount = s.eodsReceived → s.poll.emptyReads = s.emptyReads ∧ s.poll.commandQ = []) := by
  obtain ⟨h', hsame, hcount, heods, hempty⟩ := h.moves hn (poll_moves h.bigBuffer)
  refine ⟨h', hsame, by rw [hcount, heods], fun heof => ⟨hempty heof, ?_⟩⟩
  have horder : (pollLoop s.commandQ s false).1.orderData = false := by
    obtain ⟨h', -⟩ := h.moves hn (pollLoop_moves s.commandQ false rfl h.bigBuffer)
    exact h'.orderData
  have hbig : s.pollBigBuffer = s := by rw [pollBigBuffer, h.bigBuffer]
  rw [Receiver.poll, if_pos ⟨h.transferring, h.state⟩]
  rw [hbig, pollOrder, if_neg (by simp [horder])]
  exact pollLoop_commandQ s.commandQ false rfl heof

/-! ## Events -/

/-- When the announced number is reached, the reads in the queue are there because a callback is to be called, and a poll
follows. -/
def Drained (s : Receiver) : Prop := s.eodCount = s.eodsReceived → s.commandQ = [] ∨ s.returning ≠ []

/-- The argument of the read of an event. -/
def ReceiverEvent.reads : ReceiverEvent → Multiset Nat
  | .read arg _ => {arg}
  | _ => 0

/-- What an event with the reads `args` leaves. -/
structure Stepped (n : Nat) (msgs : Nat → List Message) (s t : Receiver) (args : Multiset Nat) : Prop where
  receiving : ∃ l ended, Receiving n msgs t l ended
  drained : Drained t
  eof : s.eodCount = s.eodsReceived → t.eodCount = t.eodsReceived ∧ t.emptyReads = s.emptyReads + args

theorem Receiving.stepped {u : Receiver} {args : Multiset Nat} (h : Receiving n msgs u l ended) (hn : n < 2 ^ 64)
    (heof : s.eodCount = s.eodsReceived → u.eodCount = u.eodsReceived ∧ u.emptyReads = s.emptyReads + args) :
    Stepped n msgs s u.poll args := by
  obtain ⟨h', -, hiff, hempty⟩ := h.poll hn
  refine ⟨⟨l, ended, h'⟩, fun hpoll => .inl (hempty (hiff.1 hpoll)).2, fun hs => ?_⟩
  obtain ⟨hu, hargs⟩ := heof hs
  exact ⟨hiff.2 hu, (hempty hu).1.trans hargs⟩

theorem ne_closing (h : s.state = .connectRead ∨ s.state = .eof) : s.state ≠ .closing := by
  obtain h | h := h <;> rw [h] <;> simp

variable (h : Receiving n msgs s l ended)
include h

namespace Receiving

theorem listen (hn : n < 2 ^ 64) (hio : s.io c = .unconnected) :
    Stepped n msgs s (s.ebListenCallback c) 0 := by
  unfold ebListenCallback
  split
  case isTrue =>
    refine stepped (h.same (h.toReading.listen hio _ _) (by constructor <;> rfl) h.aborted h.kickouts) hn fun heof => ?_
    exact ⟨heof, (add_zero _).symm⟩
  case isFalse => exact h.stepped hn fun heof => ⟨heof, (add_zero _).symm⟩

theorem accept (hp : Peers n msgs) (hio : s.io c = .accept) :
    Stepped n msgs s (s.ebAcceptCallback c) 0 := by
  have hc := h.lt (c := c) (by rw [hio]; simp)
  have hclosing := ne_closing h.state
  have hread := h.toReading.accept (hp.ok c hc).ne_nil hio
  unfold ebAcceptCallback
  rw [if_neg hclosing]
  refine @stepped n msgs s l ended _ _ (h.same ?_ (by constructor <;> rfl) h.aborted h.kickouts) hp.lt fun heof =>
    ⟨heof, (add_zero _).symm⟩
  exact { hread with }

theorem io_of_eof (hp : Peers n msgs) (hc : c < n)
    (heof : s.eodCount = s.eodsReceived) : s.io c = .none ∨ s.io c = .close :=
  (h.ended_inv (h.all_ended hp.lt heof c hc)).1

theorem header (hp : Peers n msgs) (hio : s.io c = .header) :
    Stepped n msgs s ((s.take c ebHeaderSize).ebReadHeaderCallback c (EbHeader.ofBytes (s.wire c))) 0 := by
  have hc := h.lt (c := c) (by rw [hio]; simp)
  obtain ⟨ended', -, hread, hsame⟩ := h.toReading.header (hp.ok c hc) hio
  refine stepped (h.same hread hsame.toSameLog (hsame.aborted.trans h.aborted)
    (by rw [hsame.kickouts]; exact h.kickouts)) hp.lt fun heof => ?_
  simpa [hio] using h.io_of_eof hp hc heof

end Receiving

omit h

variable {type : ControlType}

theorem streamRead_of_ne (h : type ≠ .ascii) (buf : List Byte) : streamRead type buf = buf := by
  rw [streamRead, if_neg h]

theorem Receiving.payload {entry : Entry} (h : Receiving n msgs s l ended) (hp : Peers n msgs)
    (hio : s.io c = .payload entry) :
    Stepped n msgs s ((s.take c entry.length).ebReadCallback c entry ((s.wire c).take entry.length)) 0 := by
  have hc := h.lt (c := c) (by rw [hio]; simp)
  have hclosing := ne_closing h.state
  obtain ⟨before, m, rest, got, buf, left, ended', hat, htake, -, hread, hsame⟩ := h.toReading.payload hio
  have hlength := hat.length
  have hconn := hat.conn
  have htype : entry.type ≠ .ascii := by rw [h.payloads c entry hio]; exact h.type
  rw [htake]
  unfold ebReadCallback
  rw [if_neg (by simpa using hclosing)]
  rw [hlength]
  have horder : ((s.take c entry.length).bytesRead c entry.length).orderData = false := hsame.orderData.trans h.orderData
  rw [complete, if_neg (by rw [horder]; simp), streamRead_of_ne htype]
  clear hat
  generalize (s.take c entry.length).bytesRead c entry.length = u at *
  refine ⟨⟨Function.update l c (l c ++ [((s.conns c).offset, buf)]), ended', ?_⟩, fun _ => .inr (by simp), fun heof => ?_⟩
  · exact {
      toReading := { hread with }
      orderData := horder
      transferring := hsame.transferring.trans h.transferring
      state := by rw [hsame.state]; exact h.state
      type := by rw [hsame.type]; exact h.type
      aborted := hsame.aborted.trans h.aborted
      flushes := hsame.flushes.trans h.flushes
      orderCbs := hsame.orderCbs.trans h.orderCbs
      pieces := by
        intro c' hc'
        have hpieces := h.pieces c' hc'
        by_cases heq : c' = c
        · subst heq
          rw [Function.update_self]
          simpa [passed, passing, hsame.log, hsame.returning, hconn] using hpieces.append_right _
        · rw [Function.update_of_ne heq]
          have hne : ¬c = c' := fun h => heq h.symm
          simpa [passed, passing, hsame.log, hsame.returning, hconn, hne] using hpieces
      returning := forall_mem_append.2
        ⟨by rw [hsame.returning]; exact h.returning, forall_mem_singleton.2 ⟨rfl, c, hc, hconn⟩⟩
      kickouts := fun e he => h.kickouts e (hsame.kickouts ▸ he)
      log := fun call hcall => h.log call (hsame.log ▸ hcall) }
  · simpa [hio] using h.io_of_eof hp hc heof

theorem perm_eraseIdx {α : Type} {l : List α} {i : Nat} {a : α} (h : l[i]? = some a) : l.Perm (a :: l.eraseIdx i) := by
  obtain ⟨hi, rfl⟩ := List.getElem?_eq_some_iff.1 h
  exact (getElem_cons_eraseIdx_perm hi).symm

variable (h : Receiving n msgs s l ended)
include h

theorem Receiving.return {i : Nat} {r : Entry × Bool} (hn : n < 2 ^ 64)
    (hr : s.returning[i]? = some r) :
    Stepped n msgs s ({ s with returning := s.returning.eraseIdx i }.ebReadReturn r.1 r.2) 0 := by
  obtain ⟨hfires, c, hc, hconn⟩ := h.returning r (mem_of_getElem? hr)
  have hperm := perm_eraseIdx hr
  unfold ebReadReturn
  dsimp only
  rw [hfires, if_pos rfl]
  have hu : Receiving n msgs ({ s with returning := s.returning.eraseIdx i }.callback r.1) l ended := { h with
    toReading := { h with }
    pieces := by
      intro c hc
      refine .trans ?_ (h.pieces c hc)
      have hpassing := (hperm.filter fun r => r.1.conn = some c).map fun r => (r.1.offset, r.1.buffer)
      by_cases hrc : r.1.conn = some c
      · simp only [filter_cons, hrc, decide_true, if_true, map_cons] at hpassing
        simpa [passed, passing, hrc] using (hpassing.append_left (s.passed c)).symm
      · simp only [filter_cons, hrc, decide_false, Bool.false_eq_true, if_false] at hpassing
        simpa [passed, passing, hrc] using (hpassing.append_left (s.passed c)).symm
    returning := fun r' hr' => h.returning r' (mem_of_mem_eraseIdx hr')
    log := forall_mem_append.2 ⟨h.log, forall_mem_singleton.2 (.inl ⟨c, hc, hconn⟩)⟩ }
  have hempty : ({ s with returning := s.returning.eraseIdx i }.callback r.1).emptyReads = s.emptyReads := by
    simp [emptyReads, hconn]
  split
  case isFalse => exact hu.stepped hn fun heof => ⟨heof, by rw [hempty, add_zero]⟩
  case isTrue =>
    refine @Receiving.stepped n msgs s l ended _ _ { hu with toReading := ?_, state := .inr rfl } hn
      fun heof => ⟨heof, by rw [add_zero, ← hempty]; rfl⟩
    exact { hu with }

theorem Receiving.kickout {i : Nat} {entry : Entry} (hn : n < 2 ^ 64)
    (hr : s.kickouts[i]? = some entry) :
    Stepped n msgs s ({ s with kickouts := s.kickouts.eraseIdx i }.commandKickout entry) 0 := by
  have hconn := h.kickouts entry (mem_of_getElem? hr)
  unfold commandKickout
  refine @Receiving.stepped n msgs s l ended _ _ { h with
    toReading := { h with }
    state := .inr rfl
    pieces := fun c hc => by simpa [passed, passing, hconn] using h.pieces c hc
    kickouts := fun e he => h.kickouts e (mem_of_mem_eraseIdx he)
    log := forall_mem_append.2 ⟨h.log, forall_mem_singleton.2 (.inr ⟨hconn, rfl, rfl⟩)⟩ } hn
    fun heof => ⟨heof, ?_⟩
  have hargs := Multiset.coe_eq_coe.2 ((perm_eraseIdx hr).map Entry.arg)
  simp only [emptyReads, hargs]
  simp only [callback_commandQ, callback_kickouts, callback_log, filter_append, map_append, map_cons,
    ← Multiset.coe_add, ← Multiset.cons_coe, ← Multiset.singleton_add, filter_cons, hconn, decide_true, if_true,
    filter_nil, map_nil, Multiset.coe_nil, add_zero]
  abel

theorem Receiving.read (hn : n < 2 ^ 64) (arg maxLength : Nat) :
    Stepped n msgs s (s.dataRead arg maxLength) {arg} := by
  unfold dataRead
  rw [if_pos ⟨h.transferring, h.state⟩]
  refine @Receiving.stepped n msgs s l ended _ _ (h.same ?_ (by constructor <;> rfl) h.aborted h.kickouts) hn
    fun heof => ⟨heof, ?_⟩
  · exact { h.toReading with
      commands := forall_mem_append.2 ⟨h.commands, forall_mem_singleton.2 ⟨rfl, rfl⟩⟩ }
  · simp only [emptyReads, map_append, ← Multiset.coe_add, map_cons, map_nil, Multiset.coe_singleton,
      Entry.new]
    abel

theorem Receiving.step {e : ReceiverEvent} (hp : Peers n msgs)
    (hstep : s.step e = some t) : Stepped n msgs s t e.reads := by
  obtain ⟨-, hevent⟩ := step_event hstep
  cases hevent with
  | listen hio => exact h.listen hp.lt hio
  | accept hio => exact h.accept hp hio
  | header hio => exact h.header hp hio
  | payload hio => exact h.payload hp hio
  | «return» hr => exact h.return hp.lt hr
  | kickout hr => exact h.kickout hp.lt hr
  | flush hr => simp [h.flushes] at hr
  | order hr => simp [h.orderCbs] at hr
  | read arg maxLength => exact h.read hp.lt arg maxLength

omit h

theorem Receiving.init (htype : type ≠ .ascii)
    (heap : Nat → PriorityQEntry Entry Entry) :
    Receiving n msgs (Receiver.init type false n (wires msgs) heap) (fun _ => []) ∅ where
  conns c hc := by
    refine .down (.inl ?_) (by simp [view, Receiver.init]) rfl rfl rfl
    simp [view, Receiver.init, hc]
  absent c hc := by simp [Receiver.init, Nat.not_lt.2 hc]
  nodup := nodup_nil
  free_lt := by simp [Receiver.init]
  ended_lt := by simp
  eods := rfl
  eodCount := .inr rfl
  bigBuffer := rfl
  payloads c entry hentry := by
    simp only [Receiver.init] at hentry
    split at hentry <;> cases hentry
  commands := by simp [Receiver.init]
  orderData := rfl
  transferring := rfl
  state := .inl rfl
  type := htype
  aborted := rfl
  flushes := rfl
  orderCbs := rfl
  pieces := by simp [passed, passing, Receiver.init]
  returning := by simp [Receiver.init]
  kickouts := by simp [Receiver.init]
  log := by simp [Receiver.init]

/-- The reads of a run. -/
def reads (es : List ReceiverEvent) : Multiset Nat := (es.map ReceiverEvent.reads).sum

theorem Receiving.run_eof (hp : Peers n msgs) : ∀ {es : List ReceiverEvent} {s : Receiver},
    (∃ l ended, Receiving n msgs s l ended) → Drained s → s.eodCount = s.eodsReceived → exec Receiver.step s es = some t →
    t.emptyReads = s.emptyReads + reads es ∧ t.eodCount = t.eodsReceived ∧ Drained t
  | [], s, _, hd, heof, hrun => by
    cases hrun
    exact ⟨by simp [reads], heof, hd⟩
  | e :: es, s, ⟨l, ended, h⟩, _, heof, hrun => by
    obtain ⟨s', hstep, hrun⟩ := exec_cons hrun
    have hs := h.step hp hstep
    obtain ⟨heof', hreads⟩ := hs.eof heof
    obtain ⟨hreads', heof'', hd⟩ := Receiving.run_eof hp hs.receiving hs.drained heof' hrun
    refine ⟨?_, heof'', hd⟩
    rw [hreads', hreads, reads, reads, map_cons, sum_cons, add_assoc]

theorem Tiled.whole : ∀ ms : List Message, Tiled ms (ms.flatMap fun m => [(m.offset, m.payload)])
  | [] => .nil
  | m :: ms => .cons (.singleton m.offset m.payload) (Tiled.whole ms)

theorem ConnInv.tiled {ms : List Message} {v : ConnView} {ps : List Piece} {b : Bool} (h : ConnInv ms c v ps b) :
    ∃ rest, Tiled ms (ps ++ rest) := by
  cases h with
  | down _ _ _ _ hl =>
    rw [hl]
    exact ⟨_, Tiled.whole ms⟩
  | header _ _ hmsgs _ _ _ _ hl =>
    rw [hmsgs]
    exact ⟨_, hl.append (Tiled.whole _)⟩
  | @block before rest m got left l₁ l₂ _ hmsgs hpayload _ _ _ _ _ _ hl hbefore hgot =>
    have hm : Cut m.offset m.payload (l₂ ++ [(m.offset + (got.length : OffT), left)]) := by
      rw [hpayload]
      exact hgot.append (.singleton _ _)
    rw [hmsgs, hl]
    refine ⟨[(m.offset + (got.length : OffT), left)] ++ rest.flatMap fun m => [(m.offset, m.payload)], ?_⟩
    have := hbefore.append (.cons hm (Tiled.whole rest))
    simpa using this
  | done _ _ _ hl => exact ⟨[], by rwa [append_nil]⟩

theorem Receiving.run (hp : Peers n msgs) (htype : type ≠ .ascii)
    {heap : Nat → PriorityQEntry Entry Entry} {es : List ReceiverEvent}
    (hrun : exec Receiver.step (Receiver.init type false n (wires msgs) heap) es = some s) :
    (∃ l ended, Receiving n msgs s l ended) ∧ Drained s := by
  refine exec_invariant (I := fun s => (∃ l ended, Receiving n msgs s l ended) ∧ Drained s) ?_
    ⟨⟨_, _, Receiving.init htype heap⟩, fun _ => .inl rfl⟩ hrun
  rintro s e s' ⟨⟨l, ended, h⟩, -⟩ hstep
  have hs := h.step hp hstep
  exact ⟨hs.receiving, hs.drained⟩

/-- The calls without data. -/
def Receiver.emptyCalls (s : Receiver) : List Callback := s.log.filter fun call => call.conn = none

/-- The callbacks that are still to be called. -/
def Receiver.outstanding (s : Receiver) : Nat := s.returning.length + (s.commandQ.length + s.kickouts.length)

theorem outstanding_add (s : Receiver) :
    s.outstanding + s.emptyCalls.length = s.returning.length + s.emptyReads.card := by
  simp [outstanding, emptyReads, emptyCalls]
  omega

theorem Receiving.outstanding_lt (h : Receiving n msgs s l ended) (hp : Peers n msgs) (hd : Drained s)
    (heof : s.eodCount = s.eodsReceived) (hpos : 0 < s.outstanding) :
    ∃ e t, s.step e = some t ∧ e.reads = 0 ∧ t.outstanding < s.outstanding := by
  have hs := outstanding_add s
  by_cases hreturning : s.returning = []
  · have hq : s.commandQ = [] := (hd heof).resolve_right (by simpa using hreturning)
    obtain ⟨entry, kickouts, hkick⟩ : ∃ entry kickouts, s.kickouts = entry :: kickouts :=
      exists_cons_of_ne_nil (by rintro hkick; simp [outstanding, hreturning, hq, hkick] at hpos)
    have hstep : s.step (.kickout 0) = some ({ s with kickouts := s.kickouts.eraseIdx 0 }.commandKickout entry) := by
      simp [Receiver.step, h.aborted, hkick]
    have hempty := (((h.step hp hstep).eof heof).2).trans (add_zero _)
    obtain ⟨hlog, hret⟩ := poll_calls (s := { { s with kickouts := s.kickouts.eraseIdx 0 }.callback
      { entry with buffer := [], offset := 0, eof := true } with state := .eof }) h.bigBuffer
    refine ⟨.kickout 0, _, hstep, rfl, ?_⟩
    rw [← commandKickout] at hlog hret
    generalize { s with kickouts := s.kickouts.eraseIdx 0 }.commandKickout entry = t at *
    have hcalls : t.emptyCalls.length = s.emptyCalls.length + 1 := by
      simp [emptyCalls, hlog, h.kickouts entry (by rw [hkick]; simp)]
    have ht := outstanding_add t
    have hsame : t.returning = s.returning := hret
    rw [hempty, hsame] at ht
    omega
  · obtain ⟨r, returning, hr⟩ := exists_cons_of_ne_nil hreturning
    obtain ⟨hfires, c, hc, hconn⟩ := h.returning r (by rw [hr]; simp)
    have hstep : s.step (.return 0) = some ({ s with returning := s.returning.eraseIdx 0 }.ebReadReturn r.1 r.2) := by
      simp [Receiver.step, h.aborted, hr]
    have hempty := (((h.step hp hstep).eof heof).2).trans (add_zero _)
    have hpoll : ({ s with returning := s.returning.eraseIdx 0 }.ebReadReturn r.1 r.2).log =
        s.log ++ [⟨r.1.arg, r.1.buffer, r.1.offset, r.1.eof, false, r.1.conn⟩] ∧
        ({ s with returning := s.returning.eraseIdx 0 }.ebReadReturn r.1 r.2).returning = returning := by
      unfold ebReadReturn
      dsimp only
      rw [hfires, if_pos rfl]
      split
      · obtain ⟨hlog, hret⟩ := poll_calls (s := { { s with returning := s.returning.eraseIdx 0 }.callback r.1 with
          state := .eof }) h.bigBuffer
        rw [hlog, hret]
        simp [hr]
      · obtain ⟨hlog, hret⟩ := poll_calls (s := { s with returning := s.returning.eraseIdx 0 }.callback r.1) h.bigBuffer
        rw [hlog, hret]
        simp [hr]
    refine ⟨.return 0, _, hstep, rfl, ?_⟩
    obtain ⟨hlog, hret⟩ := hpoll
    generalize { s with returning := s.returning.eraseIdx 0 }.ebReadReturn r.1 r.2 = t at *
    have hcalls : t.emptyCalls.length = s.emptyCalls.length := by
      simp [emptyCalls, hlog, hconn]
    have ht := outstanding_add t
    rw [hempty, hret] at ht
    rw [hr, length_cons] at hs
    omega

theorem Receiving.finish (hp : Peers n msgs) : ∀ (k : Nat) {s : Receiver}, (∃ l ended, Receiving n msgs s l ended) →
    Drained s → s.eodCount = s.eodsReceived → s.outstanding ≤ k →
    ∃ es t, exec Receiver.step s es = some t ∧ reads es = 0 ∧ t.outstanding = 0
  | 0, s, _, _, _, hk => ⟨[], s, rfl, rfl, by omega⟩
  | k + 1, s, ⟨l, ended, h⟩, hd, heof, hk => by
    by_cases hpos : 0 < s.outstanding
    · obtain ⟨e, t, hstep, hreads, hlt⟩ := h.outstanding_lt hp hd heof hpos
      have hs := h.step hp hstep
      obtain ⟨es, u, hrun, hreads', hu⟩ := Receiving.finish hp k hs.receiving hs.drained (hs.eof heof).1 (by omega)
      refine ⟨e :: es, u, ?_, by simp [reads, hreads, ← hreads'], hu⟩
      rw [exec, foldlM_cons, hstep]
      exact hrun
    · exact ⟨[], s, rfl, rfl, by omega⟩

/-- Reading from `n` peers, in every run: the pieces that callbacks are called with tile the blocks of the connections,
each at its own offset, and all other calls have no data and the end of file. The announced number is reached only when
all bytes are read; then the pieces tile all blocks, and whatever follows, the reads in the queue and those to come are
completed without data and with the end of file, all of them once the callbacks are called. -/
theorem reception_exact {type : ControlType} (hp : Peers n msgs) (htype : type ≠ .ascii)
    (heap : Nat → PriorityQEntry Entry Entry) (es : List ReceiverEvent) (s : Receiver)
    (hrun : exec Receiver.step (Receiver.init type false n (wires msgs) heap) es = some s) :
    s.aborted = false ∧
    (∀ c < n, ∃ l rest, (s.passed c ++ s.passing c).Perm l ∧ Tiled (msgs c) (l ++ rest)) ∧
    (∀ call ∈ s.log, (∃ c < n, call.conn = some c) ∨ (call.conn = none ∧ call.buffer = [] ∧ call.eof = true)) ∧
    (s.eodCount = s.eodsReceived →
      (∀ c < n, s.wire c = [] ∧ ∃ l, (s.passed c ++ s.passing c).Perm l ∧ Tiled (msgs c) l) ∧
      (∀ es' t, exec Receiver.step s es' = some t →
        t.emptyReads = s.emptyReads + reads es' ∧ (t.returning = [] → t.commandQ = [])) ∧
      ∃ es' t, exec Receiver.step s es' = some t ∧ reads es' = 0 ∧ t.outstanding = 0) := by
  obtain ⟨⟨l, ended, h⟩, hd⟩ := Receiving.run hp htype hrun
  refine ⟨h.aborted, fun c hc => ?_, h.log, fun heof => ⟨fun c hc => ?_, fun es' t hrun' => ?_, ?_⟩⟩
  · obtain ⟨rest, htiled⟩ := (h.conns c hc).tiled
    exact ⟨l c, rest, h.pieces c hc, htiled⟩
  · obtain ⟨-, -, hwire, htiled⟩ := h.ended_inv (h.all_ended hp.lt heof c hc)
    exact ⟨hwire, l c, h.pieces c hc, htiled⟩
  · obtain ⟨hreads, heof', hd'⟩ := Receiving.run_eof hp ⟨l, ended, h⟩ hd heof hrun'
    exact ⟨hreads, fun hnil => (hd' heof').resolve_right (by simpa using hnil)⟩
  · exact Receiving.finish hp _ ⟨l, ended, h⟩ hd heof le_rfl

end Reception

/-- A block of three bytes at offset 5 and one of two bytes at offset 8; the first connection announces the two. -/
def twoBlocks : Nat → List Message
  | 0 => [⟨⟨0, dataEncode 3, dataEncode 5⟩, [1, 2, 3]⟩, ⟨⟨descriptorEod ||| descriptorEof, dataEncode 0, dataEncode 2⟩, []⟩]
  | _ => [⟨⟨0, dataEncode 2, dataEncode 8⟩, [4, 5]⟩, ⟨⟨descriptorEod, dataEncode 0, dataEncode 0⟩, []⟩]

theorem twoBlocks_peers : Peers 2 twoBlocks where
  ok c _ := by
    cases c <;> exact ⟨⟨by decide, by decide, by decide, by decide⟩, ⟨by decide, by decide, by decide, by decide⟩⟩
  eof := ⟨0, by decide, _, mem_cons_of_mem _ (mem_singleton.2 rfl), by decide⟩

/-- Both connections wait for buffers with a block; three reads take the blocks, and the end of file is passed to a fourth
one. -/
def readOfTwo : List ReceiverEvent :=
  [.listen 0, .listen 1, .accept 1, .accept 0, .read 7 2, .header 0, .header 1, .payload 0, .read 8 2, .payload 1, .read 9 2,
    .return 1, .payload 0, .return 0, .return 0, .header 0, .read 10 2, .header 1]

theorem reception_exact_two :
    ∃ s, exec Receiver.step (Receiver.init .image false 2 (wires twoBlocks)
        fun _ => ⟨.new 0 0 0 false .image, .new 0 0 0 false .image⟩) readOfTwo = some s ∧
      s.eodCount = s.eodsReceived ∧ ∀ c < 2, ∃ l, (s.passed c ++ s.passing c).Perm l ∧ Tiled (twoBlocks c) l := by
  have heof : (exec Receiver.step (Receiver.init .image false 2 (wires twoBlocks)
      fun _ => ⟨.new 0 0 0 false .image, .new 0 0 0 false .image⟩) readOfTwo).map
      (fun s => decide (s.eodCount = s.eodsReceived)) = some true := by
    decide +kernel
  obtain ⟨s, hs, heof⟩ := Option.map_eq_some_iff.1 heof
  have heof : s.eodCount = s.eodsReceived := by simpa using heof
  refine ⟨s, hs, heof, fun c hc => ?_⟩
  exact (((reception_exact twoBlocks_peers (by decide) _ readOfTwo s hs).2.2.2 heof).1 c hc).2

end Globus.Ftp
