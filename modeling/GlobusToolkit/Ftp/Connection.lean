/-
What a poll of the receiver can do, in single moves, and how far every data connection has been read. A connection is not
up yet, waits for a header, has a block of which some bytes are read, or has come to the end of its data; this holds
through all events, whether order is asked for or not.
-/
import GlobusToolkit.Ftp.Receiver
import GlobusToolkit.Lib.Pieces
import Mathlib.Data.BitVec

namespace Globus.Ftp

open Lib List Function DataConn

namespace Receiver

variable {s t : Receiver}

/-! ## Events -/

/-- What the events do. -/
inductive Event (s : Receiver) : ReceiverEvent → Receiver → Prop
  | listen {c : Nat} (hio : s.io c = .unconnected) : Event s (.listen c) (s.ebListenCallback c)
  | accept {c : Nat} (hio : s.io c = .accept) : Event s (.accept c) (s.ebAcceptCallback c)
  | header {c : Nat} (hio : s.io c = .header) (hwire : ebHeaderSize ≤ (s.wire c).length) :
      Event s (.header c) ((s.take c ebHeaderSize).ebReadHeaderCallback c (EbHeader.ofBytes (s.wire c)))
  | payload {c : Nat} {entry : Entry} (hio : s.io c = .payload entry) (hwire : entry.length ≤ (s.wire c).length) :
      Event s (.payload c) ((s.take c entry.length).ebReadCallback c entry ((s.wire c).take entry.length))
  | return {i : Nat} {r : Entry × Bool} (hr : s.returning[i]? = some r) :
      Event s (.return i) ({ s with returning := s.returning.eraseIdx i }.ebReadReturn r.1 r.2)
  | kickout {i : Nat} {entry : Entry} (hr : s.kickouts[i]? = some entry) :
      Event s (.kickout i) ({ s with kickouts := s.kickouts.eraseIdx i }.commandKickout entry)
  | flush {i : Nat} {entry : Entry} (hr : s.flushes[i]? = some entry) :
      Event s (.flush i) ({ s with flushes := s.flushes.eraseIdx i }.commandFlush entry)
  | order {i : Nat} {entry : Entry} (hr : s.orderCbs[i]? = some entry) :
      Event s (.order i) ({ s with orderCbs := s.orderCbs.eraseIdx i }.orderReadCb entry)
  | read (arg maxLength : Nat) : Event s (.read arg maxLength) (s.dataRead arg maxLength)

theorem step_event {e : ReceiverEvent} (h : s.step e = some t) : s.aborted = false ∧ Event s e t := by
  unfold step at h
  split at h
  case isTrue => cases h
  case isFalse haborted =>
    refine ⟨by simpa using haborted, ?_⟩
    cases e with
    | listen c =>
      dsimp only at h
      split at h
      case isTrue hio => exact Option.some.inj h ▸ .listen hio
      case isFalse => cases h
    | accept c =>
      dsimp only at h
      split at h
      case isTrue hio => exact Option.some.inj h ▸ .accept hio
      case isFalse => cases h
    | header c =>
      dsimp only at h
      split at h
      case isTrue hio => exact Option.some.inj h ▸ .header hio.1 hio.2
      case isFalse => cases h
    | payload c =>
      dsimp only at h
      split at h
      case h_1 entry hio =>
        split at h
        case isTrue hwire => exact Option.some.inj h ▸ .payload hio hwire
        case isFalse => cases h
      case h_2 => cases h
    | «return» i =>
      obtain ⟨r, hr, rfl⟩ := Option.map_eq_some_iff.1 h
      exact .return hr
    | kickout i =>
      obtain ⟨r, hr, rfl⟩ := Option.map_eq_some_iff.1 h
      exact .kickout hr
    | flush i =>
      obtain ⟨r, hr, rfl⟩ := Option.map_eq_some_iff.1 h
      exact .flush hr
    | order i =>
      obtain ⟨r, hr, rfl⟩ := Option.map_eq_some_iff.1 h
      exact .order hr
    | read arg maxLength => exact Option.some.inj h ▸ .read arg maxLength

/-! ## Moves of a poll -/

@[simp] theorem assert_true (s : Receiver) : s.assert true = s := by
  simp [assert]

/-- What a poll can do, while there is no buffer for all data. -/
inductive PollMove : Receiver → Receiver → Prop
  | kick {s : Receiver} {entry : Entry} {q : List Entry} (hq : s.commandQ = entry :: q)
      (heof : s.eodCount = s.eodsReceived) :
      PollMove s { s.assert s.freeConnQ.isEmpty with commandQ := q, kickouts := s.kickouts ++ [entry] }
  | give (ctr : Nat) {s : Receiver} {entry : Entry} {q : List Entry} {c : Nat} {free : List Nat}
      (hq : s.commandQ = entry :: q) (hfree : s.freeConnQ.Perm (c :: free))
      (hnext : s.orderData = true → (s.conns c).offset = s.orderNextOffset) :
      PollMove s ({ s with commandQ := q, freeConnQ := free, orderCtr := ctr }.registerRead entry c)
  | turn {s : Receiver} {free : List Nat} (hfree : s.freeConnQ.Perm free) : PollMove s { s with freeConnQ := free }
  | count (ctr : Nat) {s : Receiver} : PollMove s { s with orderCtr := ctr }
  | destroy {s : Receiver} (horder : s.orderData = true)
      (hidle : s.totalConnectionCount + s.outstandingConnections - s.freeConnQ.length = 0) : PollMove s s.stripesDestroy

/-- Moves one after the other. -/
abbrev PollMoves : Receiver → Receiver → Prop := Relation.ReflTransGen PollMove

theorem orderedSearch_eq {conns : Nat → DataConn} {wanted : OffT} : ∀ (c : Nat) (free remaining : List Nat),
    let found := orderedSearch conns wanted c free remaining
    found.2.2 ++ found.1 :: found.2.1 = remaining ++ c :: free
  | c, [], remaining => rfl
  | c, c' :: free, remaining => by
    rw [orderedSearch]
    split
    · exact (orderedSearch_eq c' free (remaining ++ [c])).trans (by simp)
    · rfl

theorem orderedSearch_perm (conns : Nat → DataConn) (wanted : OffT) (c : Nat) (free : List Nat) :
    let found := orderedSearch conns wanted c free []
    (c :: free).Perm (found.1 :: (found.2.1 ++ found.2.2)) := by
  have h := @orderedSearch_eq conns wanted c free []
  rw [← nil_append (c :: free), ← h]
  exact perm_append_comm.trans (by simp)

theorem pollLoop_moves : ∀ (q : List Entry) {s : Receiver} (checked : Bool), s.commandQ = q → s.bigBuffer = none →
    PollMoves s (pollLoop q s checked).1
  | [], s, checked, _, _ => .refl
  | entry :: q, s, checked, hq, hbig => by
    have hnone : s.bigBuffer.isNone = true := by rw [hbig]; rfl
    rw [pollLoop, hnone, assert_true]
    dsimp only
    split
    case isTrue heof =>
      refine .head (.kick hq heof) ?_
      exact pollLoop_moves q checked rfl hbig
    case isFalse hne =>
      split
      case h_1 => exact .refl
      case h_2 c free hfree =>
        have hperm := orderedSearch_perm s.conns s.orderNextOffset c free
        split
        case isTrue horder =>
          split
          case isTrue hoffset =>
            refine .head (.give 0 hq (hfree ▸ hperm) fun _ => hoffset) ?_
            exact pollLoop_moves q true rfl hbig
          case isFalse =>
            refine .single (.turn ?_)
            rw [hfree]
            exact hperm.trans (by rw [← append_assoc]; exact (perm_append_singleton _ _).symm)
        case isFalse horder =>
          refine .head (.give s.orderCtr hq (by rw [hfree]) fun h => absurd h horder) ?_
          exact pollLoop_moves q checked rfl hbig

theorem pollOrder_moves (checked : Bool) : PollMoves s (s.pollOrder checked) := by
  unfold pollOrder
  split
  case isFalse => exact .refl
  case isTrue horder =>
    split
    case isFalse => exact .refl
    case isTrue hidle =>
      split
      case isFalse => exact .single (.count _)
      case isTrue => exact .head (.destroy horder.2 hidle.1) (.single (.count _))

theorem poll_moves (hbig : s.bigBuffer = none) : PollMoves s s.poll := by
  unfold poll
  split
  case isFalse => exact .refl
  case isTrue =>
    have hpoll : s.pollBigBuffer = s := by rw [pollBigBuffer, hbig]
    rw [hpoll]
    exact (pollLoop_moves s.commandQ false rfl hbig).trans (pollOrder_moves _)

theorem PollMove.calls (h : PollMove s t) : t.log = s.log ∧ t.returning = s.returning := by
  cases h with
  | kick => exact ⟨rfl, rfl⟩
  | give => exact ⟨rfl, rfl⟩
  | turn => exact ⟨rfl, rfl⟩
  | count => exact ⟨rfl, rfl⟩
  | destroy =>
    unfold stripesDestroy
    split <;> exact ⟨rfl, rfl⟩

theorem poll_calls (hbig : s.bigBuffer = none) : s.poll.log = s.log ∧ s.poll.returning = s.returning := by
  have hmoves := poll_moves hbig
  generalize s.poll = t at hmoves
  induction hmoves with
  | refl => exact ⟨rfl, rfl⟩
  | tail _ hmove ih => exact ⟨hmove.calls.1.trans ih.1, hmove.calls.2.trans ih.2⟩

end Receiver

/-! ## What a peer sends -/

/-- A header and the bytes behind it. -/
structure Message where
  header : EbHeader
  payload : List Byte
  deriving DecidableEq, Repr

open Message

def Message.bytes (m : Message) : List Byte := m.header.bytes ++ m.payload

/-- The offset of the payload. -/
def Message.offset (m : Message) : OffT := dataDecode m.header.offset

/-- The messages of one of `n` connections: the last one has the EOD flag. A header with the EOF flag announces `n`; any
other one has the length of its payload, which is not empty but for the last one. -/
structure Message.OK (n : Nat) (last : Bool) (m : Message) : Prop where
  eod : m.header.has descriptorEod = last
  close : m.header.has descriptorClose = true → last = true
  eof : m.header.has descriptorEof = true → m.payload = [] ∧ (dataDecode m.header.offset).toNat = n
  block : m.header.has descriptorEof = false →
    (dataDecode m.header.count).toNat = m.payload.length ∧ (m.payload = [] → last = true)

/-- All messages of a connection. -/
def PeerOK (n : Nat) : List Message → Prop
  | [] => False
  | [m] => m.OK n true
  | m :: ms => m.OK n false ∧ PeerOK n ms

theorem PeerOK.ne_nil {n : Nat} {ms : List Message} (h : PeerOK n ms) : ms ≠ [] := by
  rintro rfl
  exact h

theorem PeerOK.ok {n : Nat} {m : Message} {rest : List Message} : ∀ {before : List Message},
    PeerOK n (before ++ m :: rest) → m.OK n rest.isEmpty
  | [], h => by
    cases rest with
    | nil => exact h
    | cons m' rest => exact h.1
  | [m'], h => @PeerOK.ok n m rest [] h.2
  | m' :: m'' :: before, h => @PeerOK.ok n m rest (m'' :: before) h.2

/-- Bytes at an offset, as they are passed to a callback. -/
abbrev Piece := OffT × List Byte

/-- The payload of every message is cut into pieces, each at its own offset. -/
inductive Tiled : List Message → List Piece → Prop
  | nil : Tiled [] []
  | cons {m : Message} {ms : List Message} {l l' : List Piece} : Cut m.offset m.payload l → Tiled ms l' →
      Tiled (m :: ms) (l ++ l')

theorem Tiled.append {ms ms' : List Message} {l l' : List Piece} (h : Tiled ms l) (h' : Tiled ms' l') :
    Tiled (ms ++ ms') (l ++ l') := by
  induction h with
  | nil => exact h'
  | cons hcut _ ih =>
    rw [append_assoc]
    exact .cons hcut ih

theorem Tiled.concat {ms : List Message} {m : Message} {l l' : List Piece} (h : Tiled ms l)
    (hcut : Cut m.offset m.payload l') : Tiled (ms ++ [m]) (l ++ l') := by
  have := h.append (.cons hcut .nil)
  rwa [append_nil] at this

/-! ## How far a connection is read -/

/-- What the receiver has of a connection. -/
structure ConnView where
  io : Io
  conn : DataConn
  wire : List Byte
  free : Prop

def Receiver.view (s : Receiver) (c : Nat) : ConnView := ⟨s.io c, s.conns c, s.wire c, c ∈ s.freeConnQ⟩

/-- A connection on which the messages `msgs` are sent, and from which the pieces `l` are read. -/
inductive ConnInv (msgs : List Message) (c : Nat) (v : ConnView) (l : List Piece) : Bool → Prop
  | down (hio : v.io = .unconnected ∨ v.io = .accept) (hfree : ¬v.free) (hconn : v.conn = .new)
      (hwire : v.wire = msgs.flatMap bytes) (hl : l = []) : ConnInv msgs c v l false
  | header {before rest : List Message} (hio : v.io = .header) (hfree : ¬v.free) (hmsgs : msgs = before ++ rest)
      (hne : rest ≠ []) (hwire : v.wire = rest.flatMap bytes) (heod : v.conn.eod = false)
      (hclose : v.conn.close = false) (hl : Tiled before l) : ConnInv msgs c v l false
  | block {before rest : List Message} {m : Message} {got left : List Byte} {l₁ l₂ : List Piece}
      (hio : (v.io = .none ∧ v.free) ∨ (¬v.free ∧ ∃ entry, v.io = .payload entry ∧ entry.length ≤ left.length ∧
        entry.conn = some c ∧ entry.offset = v.conn.offset))
      (hmsgs : msgs = before ++ m :: rest) (hpayload : m.payload = got ++ left) (hne : left ≠ [])
      (hwire : v.wire = left ++ rest.flatMap bytes) (hready : v.conn.bytesReady = left.length)
      (hoffset : v.conn.offset = m.offset + (got.length : OffT)) (heod : v.conn.eod = rest.isEmpty)
      (hclose : v.conn.close = true → v.conn.eod = true)
      (hl : l = l₁ ++ l₂) (hbefore : Tiled before l₁) (hgot : Cut m.offset got l₂) : ConnInv msgs c v l false
  | done (hio : v.io = .none ∨ v.io = .close) (hfree : ¬v.free) (hwire : v.wire = []) (hl : Tiled msgs l) :
      ConnInv msgs c v l true

/-- The `n` connections of a receiver, the pieces read from each and those that have come to their end. -/
structure Reading (n : Nat) (msgs : Nat → List Message) (s : Receiver) (l : Nat → List Piece) (ended : Finset Nat) :
    Prop where
  conns : ∀ c < n, ConnInv (msgs c) c (s.view c) (l c) (decide (c ∈ ended))
  absent : ∀ c, n ≤ c → s.io c = .close
  nodup : s.freeConnQ.Nodup
  free_lt : ∀ c ∈ s.freeConnQ, c < n
  ended_lt : ∀ c ∈ ended, c < n
  eods : s.eodsReceived = ended.card
  eodCount : s.eodCount = n ∨ s.eodCount = 2 ^ 64 - 1
  bigBuffer : s.bigBuffer = none
  payloads : ∀ c entry, s.io c = .payload entry → entry.type = s.type
  commands : ∀ entry ∈ s.commandQ, entry.type = s.type ∧ entry.conn = none

/-- The receivers agree in what is to be done with the reads that are complete. -/
structure SameLog (s t : Receiver) : Prop where
  state : t.state = s.state
  transferring : t.transferring = s.transferring
  type : t.type = s.type
  orderData : t.orderData = s.orderData
  orderNextOffsetPassed : t.orderNextOffsetPassed = s.orderNextOffsetPassed
  orderedBufferQ : t.orderedBufferQ = s.orderedBufferQ
  flushes : t.flushes = s.flushes
  orderCbs : t.orderCbs = s.orderCbs
  returning : t.returning = s.returning
  log : t.log = s.log

/-- The receivers differ in their connections and their stripe only. -/
structure SameCalls (s t : Receiver) : Prop extends SameLog s t where
  orderNextOffset : t.orderNextOffset = s.orderNextOffset
  commandQ : t.commandQ = s.commandQ
  totalConnectionCount : t.totalConnectionCount = s.totalConnectionCount
  outstandingConnections : t.outstandingConnections = s.outstandingConnections
  kickouts : t.kickouts = s.kickouts
  aborted : t.aborted = s.aborted

theorem SameLog.refl (s : Receiver) : SameLog s s := by
  constructor <;> rfl

theorem SameLog.trans {s t u : Receiver} (h : SameLog s t) (h' : SameLog t u) : SameLog s u where
  state := h'.state.trans h.state
  transferring := h'.transferring.trans h.transferring
  type := h'.type.trans h.type
  orderData := h'.orderData.trans h.orderData
  orderNextOffsetPassed := h'.orderNextOffsetPassed.trans h.orderNextOffsetPassed
  orderedBufferQ := h'.orderedBufferQ.trans h.orderedBufferQ
  flushes := h'.flushes.trans h.flushes
  orderCbs := h'.orderCbs.trans h.orderCbs
  returning := h'.returning.trans h.returning
  log := h'.log.trans h.log

/-- The receivers agree in the connections other than `c`, and the reads of one are among those of the other. -/
structure Elsewhere (c : Nat) (s t : Receiver) : Prop where
  io : ∀ c', c' ≠ c → t.io c' = s.io c'
  conns : ∀ c', c' ≠ c → t.conns c' = s.conns c'
  wire : ∀ c', c' ≠ c → t.wire c' = s.wire c'
  bigBuffer : t.bigBuffer = s.bigBuffer
  type : t.type = s.type
  commandQ : t.commandQ ⊆ s.commandQ

theorem Receiver.PollMove.sameLog {s t : Receiver} (h : Receiver.PollMove s t) (ht : t.transferring = true) : SameLog s t := by
  cases h with
  | kick => constructor <;> rfl
  | give => constructor <;> rfl
  | turn => constructor <;> rfl
  | count => constructor <;> rfl
  | destroy =>
    unfold Receiver.stripesDestroy at ht ⊢
    split at ht
    case isTrue hclosing =>
      rw [if_pos hclosing]
      exact .refl s
    case isFalse => cases ht

section Reading

open Receiver

variable {n : Nat} {msgs : Nat → List Message} {s t : Receiver} {l : Nat → List Piece} {ended : Finset Nat} {c : Nat}

variable {ms : List Message} {ps : List Piece}

theorem ConnInv.congr {v v' : ConnView} {b : Bool} (h : ConnInv ms c v ps b)
    (hio : v'.io = v.io) (hconn : v'.conn = v.conn) (hwire : v'.wire = v.wire) (hfree : v'.free ↔ v.free) :
    ConnInv ms c v' ps b := by
  obtain ⟨io, conn, wire, free⟩ := v
  obtain ⟨io', conn', wire', free'⟩ := v'
  obtain rfl : io' = io := hio
  obtain rfl : conn' = conn := hconn
  obtain rfl : wire' = wire := hwire
  obtain rfl : free' = free := propext hfree
  exact h

variable (h : Reading n msgs s l ended)
include h

/-- Only the connection `c`, the pieces read from it and whether it has ended change. -/
theorem Reading.change {l' : Nat → List Piece} {ended' : Finset Nat} (hc : c < n) (hsame : Elsewhere c s t)
    (hfree : ∀ c', c' ≠ c → (c' ∈ t.freeConnQ ↔ c' ∈ s.freeConnQ)) (hl : ∀ c', c' ≠ c → l' c' = l c')
    (hended : ended' = ended ∨ ended' = insert c ended)
    (hinv : ConnInv (msgs c) c (t.view c) (l' c) (decide (c ∈ ended'))) (hnodup : t.freeConnQ.Nodup)
    (heods : t.eodsReceived = ended'.card) (heodCount : t.eodCount = n ∨ t.eodCount = 2 ^ 64 - 1)
    (hpayload : ∀ entry, t.io c = .payload entry → entry.type = s.type) : Reading n msgs t l' ended' where
  conns c' hc' := by
    by_cases heq : c' = c
    · subst heq
      exact hinv
    · have hmem : decide (c' ∈ ended') = decide (c' ∈ ended) := by
        obtain rfl | rfl := hended
        · rfl
        · simp [heq]
      rw [hl c' heq, hmem]
      exact (h.conns c' hc').congr (hsame.io c' heq) (hsame.conns c' heq) (hsame.wire c' heq) (hfree c' heq)
  absent c' hc' := by
    rw [hsame.io c' (by omega)]
    exact h.absent c' hc'
  nodup := hnodup
  free_lt c' hc' := by
    by_cases heq : c' = c
    · rwa [heq]
    · exact h.free_lt c' ((hfree c' heq).1 hc')
  ended_lt c' hc' := by
    obtain rfl | rfl := hended
    · exact h.ended_lt c' hc'
    · obtain rfl | hc' := Finset.mem_insert.1 hc'
      · exact hc
      · exact h.ended_lt c' hc'
  eods := heods
  eodCount := heodCount
  bigBuffer := hsame.bigBuffer.trans h.bigBuffer
  payloads c' entry hentry := by
    rw [hsame.type]
    by_cases heq : c' = c
    · subst heq
      exact hpayload entry hentry
    · rw [hsame.io c' heq] at hentry
      exact h.payloads c' entry hentry
  commands entry hentry := by
    rw [hsame.type]
    exact h.commands entry (hsame.commandQ hentry)

theorem Reading.free_block (hc : c ∈ s.freeConnQ) :
    ConnInv (msgs c) c (s.view c) (l c) false ∧ s.io c = .none ∧ c ∉ ended := by
  have hinv := h.conns c (h.free_lt c hc)
  have hfree : (s.view c).free := hc
  generalize hb : decide (c ∈ ended) = b at hinv
  cases hinv with
  | down _ hnot => exact absurd hfree hnot
  | header _ hnot => exact absurd hfree hnot
  | done _ hnot => exact absurd hfree hnot
  | block hio hmsgs hpayload hne hwire hready hoffset heod hclose hl hbefore hgot =>
    refine ⟨.block hio hmsgs hpayload hne hwire hready hoffset heod hclose hl hbefore hgot, ?_, by simpa using hb⟩
    obtain ⟨hio, _⟩ | ⟨hnot, _⟩ := hio
    · exact hio
    · exact absurd hfree hnot

theorem Reading.give {entry : Entry} {q : List Entry} {free : List Nat} (ctr : Nat)
    (hq : s.commandQ = entry :: q) (hperm : s.freeConnQ.Perm (c :: free)) :
    Reading n msgs ({ s with commandQ := q, freeConnQ := free, orderCtr := ctr }.registerRead entry c) l ended := by
  have hmem : c ∈ s.freeConnQ := hperm.mem_iff.2 (by simp)
  obtain ⟨hinv, -, hnotEnded⟩ := h.free_block hmem
  obtain ⟨hnotFree, hnodup⟩ := nodup_cons.1 (hperm.nodup_iff.1 h.nodup)
  have htype : entry.type = s.type := (h.commands entry (by rw [hq]; simp)).1
  have hsame : Elsewhere c s ({ s with commandQ := q, freeConnQ := free, orderCtr := ctr }.registerRead entry c) := by
    constructor <;> simp +contextual [hq]
  refine h.change (h.free_lt c hmem) hsame ?_ (fun _ _ => rfl) (.inl rfl) ?_ hnodup h.eods h.eodCount ?_
  · intro c' hne
    rw [hperm.mem_iff]
    simp [registerRead, register, hne]
  · rw [decide_eq_false hnotEnded]
    cases hinv with
    | down _ hnot => exact absurd hmem hnot
    | header _ hnot => exact absurd hmem hnot
    | block hio hmsgs hpayload hne hwire hready hoffset heod hclose hl hbefore hgot =>
      refine .block (.inr ⟨hnotFree, _, update_self .., ?_, rfl, rfl⟩) hmsgs hpayload hne hwire hready hoffset heod
        hclose hl hbefore hgot
      have hready : (s.conns c).bytesReady = _ := hready
      dsimp only
      split <;> omega
  · intro entry' hentry
    obtain rfl := Io.payload.inj ((update_self ..).symm.trans hentry)
    exact htype

theorem Reading.move (hmove : PollMove s t) (ht : t.transferring = true) :
    Reading n msgs t l ended := by
  cases hmove with
  | kick hq heof =>
    exact { h with commands := fun entry hentry => h.commands entry (by rw [hq]; exact mem_cons_of_mem _ hentry) }
  | give ctr hq hperm => exact h.give ctr hq hperm
  | turn hperm =>
    exact { h with
      conns := fun c hc => (h.conns c hc).congr rfl rfl rfl hperm.mem_iff.symm
      nodup := hperm.nodup_iff.1 h.nodup
      free_lt := fun c hc => h.free_lt c (hperm.mem_iff.2 hc) }
  | count ctr => exact { h with }
  | destroy =>
    unfold Receiver.stripesDestroy at ht ⊢
    split at ht
    case isTrue hclosing =>
      rw [if_pos hclosing]
      exact h
    case isFalse => cases ht

theorem Reading.lt (hio : s.io c ≠ .close) : c < n := by
  by_contra hc
  exact hio (h.absent c (by omega))

/-- A connection that waits for the header of `m`. -/
structure HeaderAt (n : Nat) (ms : List Message) (s : Receiver) (c : Nat) (ps : List Piece) (before : List Message)
    (m : Message) (rest : List Message) : Prop where
  msgs : ms = before ++ m :: rest
  ok : m.OK n rest.isEmpty
  header : EbHeader.ofBytes (s.wire c) = m.header
  rest : (s.wire c).drop ebHeaderSize = m.payload ++ rest.flatMap bytes
  free : c ∉ s.freeConnQ
  eod : (s.conns c).eod = false
  close : (s.conns c).close = false
  before : Tiled before ps

theorem Reading.at_header (hok : PeerOK n (msgs c)) (hio : s.io c = .header) :
    ∃ before m rest, HeaderAt n (msgs c) s c (l c) before m rest ∧ c ∉ ended := by
  have hinv := h.conns c (h.lt (by rw [hio]; simp))
  have hview : (s.view c).io = .header := hio
  generalize hb : decide (c ∈ ended) = b at hinv
  cases hinv with
  | down hio' => rw [hview] at hio'; simp at hio'
  | block hio' => rw [hview] at hio'; simp at hio'
  | done hio' => rw [hview] at hio'; simp at hio'
  | @header before rest _ hfree hmsgs hne hwire heod hclose hl =>
    obtain ⟨m, rest, rfl⟩ := exists_cons_of_ne_nil hne
    have hwire : s.wire c = m.header.bytes ++ (m.payload ++ rest.flatMap bytes) := by
      rw [← append_assoc, ← bytes, ← flatMap_cons]
      exact hwire
    refine ⟨before, m, rest, ⟨hmsgs, PeerOK.ok (by rw [← hmsgs]; exact hok), ?_, ?_, hfree, heod, hclose, hl⟩, by
      simpa using hb⟩
    · rw [hwire]
      exact EbHeader.ofBytes_bytes ..
    · rw [hwire, ← m.header.length_bytes, drop_left]

omit h

/-- A connection with a read of `buf` registered, in the middle of the message `m`. -/
structure BlockAt (ms : List Message) (s : Receiver) (c : Nat) (entry : Entry) (ps : List Piece) (before : List Message)
    (m : Message) (rest : List Message) (got buf left : List Byte) : Prop where
  msgs : ms = before ++ m :: rest
  payload : m.payload = got ++ buf ++ left
  nonempty : m.payload ≠ []
  length : buf.length = entry.length
  conn : entry.conn = some c
  entry_offset : entry.offset = (s.conns c).offset
  start : (s.conns c).offset = m.offset + (got.length : OffT)
  wire : s.wire c = buf ++ (left ++ rest.flatMap bytes)
  free : c ∉ s.freeConnQ
  ready : (s.conns c).bytesReady - entry.length = left.length
  eod : (s.conns c).eod = rest.isEmpty
  close : (s.conns c).close = true → (s.conns c).eod = true
  offset : (s.conns c).offset + (buf.length : OffT) = m.offset + ((got ++ buf).length : OffT)
  read : ∃ l₁ l₂, ps ++ [((s.conns c).offset, buf)] = l₁ ++ l₂ ∧ Tiled before l₁ ∧ Cut m.offset (got ++ buf) l₂

theorem BlockAt.tiled {entry : Entry} {before rest : List Message} {m : Message}
    {got buf : List Byte} (h : BlockAt ms s c entry ps before m rest got buf []) :
    Tiled (before ++ [m]) (ps ++ [((s.conns c).offset, buf)]) := by
  obtain ⟨l₁, l₂, hread, hbefore, hcut⟩ := h.read
  rw [hread]
  exact hbefore.concat (by rwa [h.payload, append_nil])

theorem Reading.at_payload {entry : Entry} (h : Reading n msgs s l ended) (hio : s.io c = .payload entry) :
    ∃ before m rest got buf left, BlockAt (msgs c) s c entry (l c) before m rest got buf left ∧ c ∉ ended := by
  have hinv := h.conns c (h.lt (by rw [hio]; simp))
  have hview : (s.view c).io = .payload entry := hio
  generalize hb : decide (c ∈ ended) = b at hinv
  cases hinv with
  | header hio' => rw [hview] at hio'; simp at hio'
  | down hio' => rw [hview] at hio'; simp at hio'
  | done hio' => rw [hview] at hio'; simp at hio'
  | @block before rest m got left l₁ l₂ hio' hmsgs hpayload hne hwire hready hoffset heod hclose hl hbefore hgot =>
    obtain ⟨hio', _⟩ | ⟨hfree, entry', hentry, hlen, hconn, hstart⟩ := hio'
    · rw [hview] at hio'; cases hio'
    obtain rfl := Io.payload.inj (hview.symm.trans hentry)
    have hoffset : (s.conns c).offset = m.offset + (got.length : OffT) := hoffset
    have hready : (s.conns c).bytesReady = left.length := hready
    have hbuf : (left.take entry.length).length = entry.length := by simpa using hlen
    refine ⟨before, m, rest, got, left.take entry.length, left.drop entry.length, ⟨hmsgs, ?_, by simp [hpayload, hne], hbuf, hconn, hstart,
      hoffset, ?_, hfree, ?_, heod, hclose, ?_, ?_⟩, by simpa using hb⟩
    · rw [hpayload, append_assoc, take_append_drop]
    · rw [← append_assoc, take_append_drop]
      exact hwire
    · rw [hready, length_drop]
    · rw [hoffset, length_append, Nat.cast_add, add_assoc]
    · refine ⟨l₁, l₂ ++ [((s.conns c).offset, left.take entry.length)], by rw [hl, append_assoc], hbefore, ?_⟩
      rw [hoffset]
      exact hgot.append (.singleton _ _)

theorem Reading.at_down (h : Reading n msgs s l ended) (hio : s.io c = .unconnected ∨ s.io c = .accept) :
    c < n ∧ c ∉ ended ∧ c ∉ s.freeConnQ ∧ s.conns c = .new ∧ s.wire c = (msgs c).flatMap bytes ∧ l c = [] := by
  have hc : c < n := h.lt (by rcases hio with hio | hio <;> rw [hio] <;> simp)
  have hinv := h.conns c hc
  have hview : (s.view c).io = .unconnected ∨ (s.view c).io = .accept := hio
  generalize hb : decide (c ∈ ended) = b at hinv
  cases hinv with
  | down _ hfree hconn hwire hl => exact ⟨hc, by simpa using hb, hfree, hconn, hwire, hl⟩
  | header hio' => simp [hio'] at hview
  | block hio' => rcases hio' with ⟨hio', -⟩ | ⟨-, _, hio', -⟩ <;> simp [hio'] at hview
  | done hio' => rcases hio' with hio' | hio' <;> simp [hio'] at hview

theorem Reading.listen (h : Reading n msgs s l ended) (hio : s.io c = .unconnected) (total outstanding : Int) :
    Reading n msgs { s.register c .accept with
      totalConnectionCount := total, outstandingConnections := outstanding } l ended := by
  obtain ⟨hc, hnot, hfree, hconn, hwire, hl⟩ := h.at_down (.inl hio)
  refine h.change hc (by constructor <;> simp +contextual) (fun _ _ => .rfl) (fun _ _ => rfl) (.inl rfl) ?_ h.nodup h.eods
    h.eodCount (by simp)
  rw [decide_eq_false hnot]
  exact .down (.inr (update_self ..)) hfree hconn hwire hl

theorem Reading.accept (h : Reading n msgs s l ended) (hmsgs : msgs c ≠ []) (hio : s.io c = .accept) :
    Reading n msgs ((s.setConn c { s.conns c with bytesReady := 0 }).register c .header) l ended := by
  obtain ⟨hc, hnot, hfree, hnew, hwire, hl⟩ := h.at_down (.inr hio)
  refine h.change hc (by constructor <;> simp +contextual) (fun _ _ => .rfl) (fun _ _ => rfl) (.inl rfl) ?_ h.nodup h.eods
    h.eodCount (by simp)
  rw [decide_eq_false hnot, hl]
  refine @ConnInv.header _ _ _ _ [] (msgs c) (update_self ..) hfree rfl hmsgs hwire ?_ ?_ .nil
  · simp [view, register, setConn, hnew, new]
  · simp [view, register, setConn, hnew, new]

/-! ## Headers -/

/-- The connection and the count of the stripe after a header. -/
@[simps]
def Receiver.withHeader (s : Receiver) (c : Nat) (h : EbHeader) : Receiver :=
  { s.setConn c { (s.conns c).readHeader h with reusing := false } with
    eodCount := if h.has descriptorEof then (dataDecode h.offset).toNat else s.eodCount }

theorem ebReadHeader_payload {h : EbHeader} (hbig : s.bigBuffer = none) (hready : ((s.conns c).readHeader h).bytesReady ≠ 0) :
    s.ebReadHeader c h = (s.withHeader c h).freeConn c := by
  unfold ebReadHeader
  simp [setConn, hready, headerPayload, hbig, freeConn, withHeader]

theorem ebReadHeader_next {h : EbHeader} (hready : ((s.conns c).readHeader h).bytesReady = 0)
    (heod : ((s.conns c).readHeader h).eod = false) (hclose : ((s.conns c).readHeader h).close = false) :
    s.ebReadHeader c h = (s.withHeader c h).register c .header := by
  unfold ebReadHeader
  simp [setConn, hready, headerNoPayload, heod, hclose, register, withHeader]

theorem ebReadHeader_eod {h : EbHeader} (hready : ((s.conns c).readHeader h).bytesReady = 0)
    (heod : h.has descriptorEod = true) :
    s.ebReadHeader c h =
      if ((s.conns c).readHeader h).close then (s.withHeader c h).endOfData.closeConn c
      else (s.withHeader c h).endOfData.cacheConn c := by
  have heod' : ((s.conns c).readHeader h).eod = true := by simp [readHeader, heod]
  unfold ebReadHeader
  cases hclose : ((s.conns c).readHeader h).close with
  | true => simp [setConn, hready, headerNoPayload, heod, heod', hclose, closeConn, endOfData, register, withHeader]
  | false => simp [setConn, hready, headerNoPayload, heod', hclose, cacheConn, endOfData, withHeader]

theorem nodup_freeConn (h : s.freeConnQ.Nodup) (hc : c ∉ s.freeConnQ) : (s.freeConn c).freeConnQ.Nodup := by
  simpa [nodup_append] using ⟨h, fun a ha heq => hc (heq ▸ ha)⟩

theorem Tiled.snoc_nil {m : Message} (h : Tiled ms ps) (hm : m.payload = []) :
    Tiled (ms ++ [m]) ps := by
  have := @Tiled.concat ms m ps [] h (by rw [hm]; exact .nil _)
  rwa [append_nil] at this

/-- The end of the data on a connection is counted, and the connection is closed or cached. -/
theorem Reading.endOfData (h : Reading n msgs s l ended) (hc : c < n) (hnot : c ∉ ended) (hsame : Elsewhere c s t)
    (hio : t.io c = .none) (hfree : t.freeConnQ = s.freeConnQ) (hnotFree : c ∉ s.freeConnQ) (hread : t.wire c = [])
    (hl : Tiled (msgs c) ps) (heods : t.eodsReceived = s.eodsReceived)
    (heodCount : t.eodCount = n ∨ t.eodCount = 2 ^ 64 - 1) (close : Bool) :
    Reading n msgs (if close then t.endOfData.closeConn c else t.endOfData.cacheConn c) (Function.update l c ps)
      (insert c ended) := by
  generalize hu : (if close then t.endOfData.closeConn c else t.endOfData.cacheConn c) = u
  have hend : u.io c = .none ∨ u.io c = .close := by cases close <;> simp [← hu, hio]
  refine h.change hc ?_ ?_ (fun c' hne => update_of_ne hne ..) (.inr rfl) ?_ ?_ ?_ ?_ ?_
  · obtain ⟨h1, h2, h3, h4, h5, h6⟩ := hsame
    cases close <;> subst hu <;> constructor <;> simp +contextual [*]
  · cases close <;> simp [← hu, hfree]
  · rw [decide_eq_true (Finset.mem_insert_self c ended), update_self]
    refine .done hend ?_ ?_ hl
    · cases close <;> simpa [← hu, view, hfree] using hnotFree
    · cases close <;> simpa [← hu, view] using hread
  · cases close <;> simpa [← hu, hfree] using h.nodup
  · rw [Finset.card_insert_of_notMem hnot, ← h.eods, ← heods]
    cases close <;> simp [← hu]
  · cases close <;> simpa [← hu] using heodCount
  · intro entry hentry
    obtain hend | hend := hend <;> rw [hend] at hentry <;> cases hentry

section Header

variable {before rest : List Message} {m : Message}

theorem HeaderAt.eodCount {ps : List Piece} (h : HeaderAt n (msgs c) s c ps before m rest)
    (hcount : s.eodCount = n ∨ s.eodCount = 2 ^ 64 - 1) :
    (s.withHeader c m.header).eodCount = n ∨ (s.withHeader c m.header).eodCount = 2 ^ 64 - 1 := by
  cases heof : m.header.has descriptorEof with
  | true => exact .inl (by simp [withHeader, heof, (h.ok.eof heof).2])
  | false =>
    have : (s.withHeader c m.header).eodCount = s.eodCount := by simp [withHeader, heof]
    rw [this]
    exact hcount

variable (h : Reading n msgs s l ended)
include h

theorem Reading.header_end (hc : c < n) (hnot : c ∉ ended)
    (hat : HeaderAt n (msgs c) s c (l c) before m []) (hpayload : m.payload = [])
    (hready : ((s.conns c).readHeader m.header).bytesReady = 0) :
    Reading n msgs ((s.take c ebHeaderSize).ebReadHeader c m.header) l (insert c ended) ∧
      SameCalls s ((s.take c ebHeaderSize).ebReadHeader c m.header) := by
  have htiled : Tiled (msgs c) (l c) := by
    rw [hat.msgs]
    exact hat.before.snoc_nil hpayload
  have hwire : (s.wire c).drop ebHeaderSize = [] := by rw [hat.rest, hpayload]; rfl
  rw [ebReadHeader_eod (s := s.take c ebHeaderSize) hready hat.ok.eod]
  refine ⟨?_, by split <;> (constructor; constructor; all_goals simp)⟩
  rw [← update_eq_self c l]
  exact h.endOfData hc hnot (by constructor <;> simp +contextual) (by simp) (by simp) hat.free (by simpa using hwire) htiled
    (by simp) (by simpa using hat.eodCount h.eodCount) _

theorem Reading.header_next (hc : c < n) (hnot : c ∉ ended)
    (hat : HeaderAt n (msgs c) s c (l c) before m rest) (hpayload : m.payload = []) (hlast : rest ≠ [])
    (hready : ((s.conns c).readHeader m.header).bytesReady = 0) :
    Reading n msgs ((s.take c ebHeaderSize).ebReadHeader c m.header) l ended ∧
      SameCalls s ((s.take c ebHeaderSize).ebReadHeader c m.header) := by
  have hlast' : rest.isEmpty = false := by simpa using hlast
  have heod : ((s.conns c).readHeader m.header).eod = false := by
    simp [readHeader, hat.eod, hat.ok.eod, hlast']
  have hclose : ((s.conns c).readHeader m.header).close = false := by
    cases hm : m.header.has descriptorClose with
    | false => simp [readHeader, hat.close, hm]
    | true => rw [hat.ok.close hm] at hlast'; cases hlast'
  have hwire : (s.wire c).drop ebHeaderSize = rest.flatMap bytes := by rw [hat.rest, hpayload]; rfl
  rw [ebReadHeader_next (s := s.take c ebHeaderSize) hready heod hclose]
  refine ⟨?_, by constructor; constructor; all_goals simp⟩
  refine h.change hc (by constructor <;> simp +contextual) (fun _ _ => by simp) (fun _ _ => rfl) (.inl rfl) ?_
    (by simpa using h.nodup) (by simpa using h.eods) (by simpa using hat.eodCount h.eodCount) (by simp)
  rw [decide_eq_false hnot]
  exact @ConnInv.header _ _ _ _ (before ++ [m]) rest (by simp [view]) (by simpa [view] using hat.free)
    (by rw [hat.msgs]; simp) hlast (by simpa [view] using hwire) (by simpa [view] using heod)
    (by simpa [view] using hclose) (hat.before.snoc_nil hpayload)

theorem Reading.header_block (hc : c < n) (hnot : c ∉ ended)
    (hat : HeaderAt n (msgs c) s c (l c) before m rest) (hpayload : m.payload ≠ []) :
    Reading n msgs ((s.take c ebHeaderSize).ebReadHeader c m.header) l ended ∧
      SameCalls s ((s.take c ebHeaderSize).ebReadHeader c m.header) := by
  have heof : m.header.has descriptorEof = false := by
    cases heof : m.header.has descriptorEof with
    | false => rfl
    | true => exact absurd (hat.ok.eof heof).1 hpayload
  have hready : ((s.conns c).readHeader m.header).bytesReady = m.payload.length := by
    simp [readHeader, heof, (hat.ok.block heof).1]
  rw [ebReadHeader_payload (s := s.take c ebHeaderSize) h.bigBuffer
    (by rw [show (s.take c ebHeaderSize).conns = s.conns from rfl, hready]; simpa using hpayload)]
  refine ⟨?_, by constructor; constructor; all_goals simp⟩
  refine h.change hc (by constructor <;> simp +contextual) (fun c' hne => by simp [hne]) (fun _ _ => rfl) (.inl rfl) ?_
    (nodup_freeConn (by simpa using h.nodup) (by simpa using hat.free)) (by simpa using h.eods)
    (by simpa using hat.eodCount h.eodCount) (by simp)
  · rw [decide_eq_false hnot]
    refine @ConnInv.block _ _ _ _ before rest m [] m.payload (l c) []
      (.inl (by simp [view])) hat.msgs rfl hpayload (by simpa [view] using hat.rest) (by simpa [view] using hready) ?_ ?_
      ?_ (by simp) hat.before (.nil _)
    · simp [view, readHeader, heof, Message.offset]
    · simp [view, readHeader, hat.ok.eod, hat.eod]
    · intro hclose
      have hflag : m.header.has descriptorClose = true := by simpa [view, readHeader, hat.close] using hclose
      simpa [view, readHeader, hat.eod, hat.ok.eod] using hat.ok.close hflag

theorem Reading.header (hok : PeerOK n (msgs c)) (hio : s.io c = .header) :
    ∃ ended', ended ⊆ ended' ∧
      Reading n msgs ((s.take c ebHeaderSize).ebReadHeader c (EbHeader.ofBytes (s.wire c))) l ended' ∧
      SameCalls s ((s.take c ebHeaderSize).ebReadHeader c (EbHeader.ofBytes (s.wire c))) := by
  have hc := h.lt (c := c) (by rw [hio]; simp)
  obtain ⟨before, m, rest, hat, hnot⟩ := h.at_header hok hio
  rw [hat.header]
  by_cases hpayload : m.payload = []
  · have hready : ((s.conns c).readHeader m.header).bytesReady = 0 := by
      cases heof : m.header.has descriptorEof with
      | true => simp [readHeader, heof]
      | false => simp [readHeader, heof, (hat.ok.block heof).1, hpayload]
    by_cases hlast : rest = []
    · subst hlast
      exact ⟨insert c ended, Finset.subset_insert c ended, h.header_end hc hnot hat hpayload hready⟩
    · exact ⟨ended, subset_rfl, h.header_next hc hnot hat hpayload hlast hready⟩
  · exact ⟨ended, subset_rfl, h.header_block hc hnot hat hpayload⟩

end Header

/-! ## Payload -/

/-- The connection after `k` bytes are read. -/
@[simps!]
def Receiver.withBytes (s : Receiver) (c k : Nat) : Receiver :=
  s.setConn c { s.conns c with offset := (s.conns c).offset + BitVec.ofNat 64 k, bytesReady := (s.conns c).bytesReady - k }

theorem bytesRead_more {k : Nat} (hready : (s.conns c).bytesReady - k ≠ 0) :
    s.bytesRead c k = (s.withBytes c k).freeConn c := by
  unfold bytesRead
  dsimp only
  rw [if_neg hready, withBytes]

theorem bytesRead_next {k : Nat} (hready : (s.conns c).bytesReady - k = 0) (heod : (s.conns c).eod = false) :
    s.bytesRead c k = (s.withBytes c k).register c .header := by
  unfold bytesRead
  dsimp only
  rw [if_pos hready, blockRead, ← withBytes]
  simp [heod]

theorem bytesRead_eod {k : Nat} (hbig : s.bigBuffer = none) (hready : (s.conns c).bytesReady - k = 0)
    (heod : (s.conns c).eod = true) :
    s.bytesRead c k =
      if (s.conns c).close then (s.withBytes c k).endOfData.closeConn c else (s.withBytes c k).endOfData.cacheConn c := by
  have hnone : ∀ t : Receiver, t.bigBuffer = none → { t with bigBuffer := none } = t := by
    rintro ⟨⟩ rfl
    rfl
  unfold bytesRead
  dsimp only
  rw [if_pos hready, blockRead, ← withBytes]
  simp only [withBytes_conns, update_self, heod, if_true]
  rw [hnone _ (by simpa using hbig), ite_self]

section Payload

variable {entry : Entry} {before rest : List Message} {m : Message} {got buf left : List Byte}

variable (h : Reading n msgs s l ended)
include h

theorem Reading.payload_more (hc : c < n) (hnot : c ∉ ended)
    (hat : BlockAt (msgs c) s c entry (l c) before m rest got buf left) (hleft : left ≠ []) :
    Reading n msgs ((s.take c entry.length).bytesRead c entry.length)
        (Function.update l c (l c ++ [((s.conns c).offset, buf)])) ended ∧
      SameCalls s ((s.take c entry.length).bytesRead c entry.length) := by
  obtain ⟨l₁, l₂, hread, hbefore, hcut⟩ := hat.read
  have hdrop : (s.wire c).drop entry.length = left ++ rest.flatMap bytes := by
    rw [hat.wire, ← hat.length, drop_left]
  have hready : ((s.take c entry.length).conns c).bytesReady - entry.length ≠ 0 := by
    simpa [hat.ready] using hleft
  rw [bytesRead_more hready]
  refine ⟨?_, by constructor; constructor; all_goals simp⟩
  refine h.change hc (by constructor <;> simp +contextual) (fun c' hne => by simp [hne]) (fun c' hne => by simp [hne])
    (.inl rfl) ?_ (nodup_freeConn (by simpa using h.nodup) (by simpa using hat.free)) (by simpa using h.eods)
    (by simpa using h.eodCount) (by simp)
  · rw [decide_eq_false hnot, update_self]
    refine @ConnInv.block _ _ _ _ before rest m (got ++ buf) left l₁ l₂
      (.inl (by simp [view])) hat.msgs hat.payload hleft (by simpa [view] using hdrop) (by simpa [view] using hat.ready)
      ?_ (by simpa [view] using hat.eod) (by simpa [view] using hat.close) hread hbefore hcut
    have hoffset := hat.offset
    rw [hat.length] at hoffset
    simpa [view] using hoffset

theorem Reading.payload_next (hc : c < n) (hnot : c ∉ ended)
    (hat : BlockAt (msgs c) s c entry (l c) before m rest got buf []) (hlast : rest ≠ []) :
    Reading n msgs ((s.take c entry.length).bytesRead c entry.length)
        (Function.update l c (l c ++ [((s.conns c).offset, buf)])) ended ∧
      SameCalls s ((s.take c entry.length).bytesRead c entry.length) := by
  have hdrop : (s.wire c).drop entry.length = rest.flatMap bytes := by
    rw [hat.wire, ← hat.length, drop_left, nil_append]
  have heod : (s.conns c).eod = false := by simpa [hat.eod] using hlast
  have hclose : (s.conns c).close = false := by
    cases hclose : (s.conns c).close with
    | false => rfl
    | true => rw [hat.close hclose] at heod; cases heod
  rw [bytesRead_next (s := s.take c entry.length) hat.ready heod]
  refine ⟨?_, by constructor; constructor; all_goals simp⟩
  refine h.change hc (by constructor <;> simp +contextual) (fun _ _ => by simp) (fun c' hne => by simp [hne]) (.inl rfl) ?_
    (by simpa using h.nodup) (by simpa using h.eods) (by simpa using h.eodCount) (by simp)
  rw [decide_eq_false hnot, update_self]
  exact @ConnInv.header _ _ _ _ (before ++ [m]) rest (by simp [view]) (by simpa [view] using hat.free)
    (by rw [hat.msgs]; simp) hlast (by simpa [view] using hdrop) (by simpa [view] using heod)
    (by simpa [view] using hclose) hat.tiled

theorem Reading.payload_end (hc : c < n) (hnot : c ∉ ended)
    (hat : BlockAt (msgs c) s c entry (l c) before m [] got buf []) :
    Reading n msgs ((s.take c entry.length).bytesRead c entry.length)
        (Function.update l c (l c ++ [((s.conns c).offset, buf)])) (insert c ended) ∧
      SameCalls s ((s.take c entry.length).bytesRead c entry.length) := by
  have hdrop : (s.wire c).drop entry.length = [] := by
    rw [hat.wire, ← hat.length, drop_left]; rfl
  have htiled : Tiled (msgs c) (l c ++ [((s.conns c).offset, buf)]) := by
    rw [hat.msgs]
    exact hat.tiled
  rw [bytesRead_eod (s := s.take c entry.length) h.bigBuffer hat.ready hat.eod]
  refine ⟨?_, by split <;> (constructor; constructor; all_goals simp)⟩
  exact h.endOfData hc hnot (by constructor <;> simp +contextual) (by simp) (by simp) hat.free (by simpa using hdrop) htiled
    (by simp) (by simpa using h.eodCount) _

theorem Reading.payload (hio : s.io c = .payload entry) :
    ∃ before m rest got buf left ended', BlockAt (msgs c) s c entry (l c) before m rest got buf left ∧
      (s.wire c).take entry.length = buf ∧ ended ⊆ ended' ∧
      Reading n msgs ((s.take c entry.length).bytesRead c entry.length)
        (Function.update l c (l c ++ [((s.conns c).offset, buf)])) ended' ∧
      SameCalls s ((s.take c entry.length).bytesRead c entry.length) := by
  have hc := h.lt (c := c) (by rw [hio]; simp)
  obtain ⟨before, m, rest, got, buf, left, hat, hnot⟩ := h.at_payload hio
  have htake : (s.wire c).take entry.length = buf := by rw [hat.wire, ← hat.length, take_left]
  refine ⟨before, m, rest, got, buf, left, ?_⟩
  by_cases hleft : left = []
  · subst hleft
    by_cases hlast : rest = []
    · subst hlast
      exact ⟨insert c ended, hat, htake, Finset.subset_insert c ended, h.payload_end hc hnot hat⟩
    · exact ⟨ended, hat, htake, subset_rfl, h.payload_next hc hnot hat hlast⟩
  · exact ⟨ended, hat, htake, subset_rfl, h.payload_more hc hnot hat hleft⟩

end Payload

end Reading

end Globus.Ftp
