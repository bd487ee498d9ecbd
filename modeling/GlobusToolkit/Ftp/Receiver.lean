/-
The receiver of extended block mode (gridftp/control/source/globus_ftp_control_data.c), with the one stripe it reads. The
headers of a data connection are read by `globus_l_ftp_eb_read_header_callback`; a connection with a block to read waits
in `free_conn_q` until `globus_l_ftp_data_eb_poll` gives it to a read of `command_q`, and goes back there or to its next
header when that read has completed. Where order is asked for, reads are given in the order of the file and their
callbacks wait in a priority queue. A read that is registered completes with the bytes it asks for; results that are no
success, and the references that keep the transfer handle alive, are left out. An assertion that fails ends the process.
-/
import GlobusToolkit.Ftp.ExtendedBlock
import GlobusToolkit.Common.PriorityQueue
import GlobusToolkit.Lib.Machine

namespace Globus.Ftp

open Lib

/-! ## The data -/

/-- `globus_ftp_data_connection_state_t`. -/
inductive DataState where
  | none
  | pasv
  | port
  | spor
  | connectRead
  | connectWrite
  | closing
  | eof
  | sendEof
  deriving DecidableEq, Repr

/-- `globus_ftp_data_connection_t`, as far as reading goes. -/
structure DataConn where
  offset : OffT
  bytesReady : Nat
  eod : Bool
  close : Bool
  reusing : Bool
  deriving DecidableEq, Repr

/-- `DATA_CONN_MALLOC`. -/
def DataConn.new : DataConn where
  offset := 0
  bytesReady := 0
  eod := false
  close := false
  reusing := false

/-- `globus_l_ftp_handle_table_entry_t`: a read, with the argument of its callback, the connection it is read from and
the bytes in its buffer. -/
structure Entry where
  arg : Nat
  length : Nat
  offset : OffT
  eof : Bool
  type : ControlType
  conn : Option Nat
  buffer : List Byte
  deriving DecidableEq, Repr

/-- `TABLE_ENTRY_MALLOC`. -/
def Entry.new (arg length : Nat) (offset : OffT) (eof : Bool) (type : ControlType) : Entry where
  arg
  length
  offset
  eof
  type
  conn := none
  buffer := []

/-- What is registered for a data connection. -/
inductive Io where
  | unconnected
  | accept
  | none
  | header
  | payload (entry : Entry)
  | close
  deriving DecidableEq, Repr

/-- A call of a callback: its argument, the bytes and their offset, and whether an error is passed. `conn` is the
connection of the entry, which the callback does not see. -/
structure Callback where
  arg : Nat
  buffer : List Byte
  offset : OffT
  eof : Bool
  error : Bool
  conn : Option Nat
  deriving DecidableEq, Repr

/-- The buffer of `globus_ftp_control_data_read_all`: its length, and the argument of its callback. -/
structure BigBuffer where
  length : Nat
  arg : Nat
  deriving DecidableEq, Repr

/-- The handle of the data channel, the transfer handle and its stripe; what globus_io and globus_callback have
registered, and the bytes of the connections that are not read yet; the calls of callbacks so far. -/
structure Receiver where
  state : DataState
  /-- Whether `dc_handle->transfer_handle` is set. -/
  transferring : Bool
  type : ControlType
  bigBuffer : Option BigBuffer
  orderData : Bool
  orderCtr : Nat
  orderNextOffset : OffT
  orderNextOffsetPassed : OffT
  orderedBufferQ : PriorityQ Entry Entry
  freeConnQ : List Nat
  freeCacheList : List Nat
  allConnList : List Nat
  commandQ : List Entry
  connectionCount : Int
  totalConnectionCount : Int
  outstandingConnections : Int
  eodCount : Nat
  eodsReceived : Nat
  conns : Nat → DataConn
  io : Nat → Io
  wire : Nat → List Byte
  kickouts : List Entry
  flushes : List Entry
  orderCbs : List Entry
  /-- Reads that are complete, and whose callback is called next, if it is to be called. -/
  returning : List (Entry × Bool)
  log : List Callback
  aborted : Bool

/-- `globus_l_ftp_control_q_compare`. -/
def qCompare (entry1 entry2 : Entry) : Int :=
  if entry2.offset.slt entry1.offset ∨ entry1.eof then 1
  else if entry1.offset.slt entry2.offset ∨ entry2.eof then -1
  else 0

namespace Receiver

/-- `globus_assert`. -/
@[simps]
def assert (s : Receiver) (assertion : Bool) : Receiver := { s with aborted := s.aborted || !assertion }

/-- Register `io` for the connection `c`. -/
@[simps]
def register (s : Receiver) (c : Nat) (io : Io) : Receiver := { s with io := Function.update s.io c io }

/-- Store the connection `c`. -/
@[simps]
def setConn (s : Receiver) (c : Nat) (d : DataConn) : Receiver := { s with conns := Function.update s.conns c d }

/-- `globus_l_ftp_control_stripes_destroy`, with `globus_l_error_flush_command_q`. -/
def stripesDestroy (s : Receiver) : Receiver :=
  if s.state = .closing ∨ ¬s.transferring then s
  else
    { s with
      state := .closing
      transferring := false
      flushes := s.flushes ++ s.commandQ
      commandQ := []
      io := fun c => if c ∈ s.allConnList then .close else s.io c
      allConnList := [] }

/-- The end of data on a connection is counted. -/
@[simps]
def endOfData (s : Receiver) : Receiver :=
  { s with eodsReceived := s.eodsReceived + 1, connectionCount := s.connectionCount - 1 }

/-- The connection is closed. -/
@[simps]
def closeConn (s : Receiver) (c : Nat) : Receiver := { s.register c .close with allConnList := s.allConnList.erase c }

/-- The connection is cached. -/
@[simps]
def cacheConn (s : Receiver) (c : Nat) : Receiver := { s with freeCacheList := c :: s.freeCacheList }

/-- The connection waits for a read. -/
@[simps]
def freeConn (s : Receiver) (c : Nat) : Receiver := { s with freeConnQ := s.freeConnQ ++ [c] }

/-! ## The poll -/

/-- The loop that looks for a connection at the offset `wanted`: the connection it stops at, those behind it in the queue
and those it has passed over. -/
def orderedSearch (conns : Nat → DataConn) (wanted : OffT) : Nat → List Nat → List Nat → Nat × List Nat × List Nat
  | c, [], remaining => (c, [], remaining)
  | c, c' :: free, remaining =>
    if (conns c).offset ≠ wanted then orderedSearch conns wanted c' free (remaining ++ [c])
    else (c, c' :: free, remaining)

/-- The entry gets the offset of the connection, and no more bytes than are ready; a read of it is registered. -/
@[simps]
def registerRead (s : Receiver) (entry : Entry) (c : Nat) : Receiver :=
  let d := s.conns c
  let length := if entry.length > d.bytesReady then d.bytesReady else entry.length
  let entry := { entry with conn := some c, offset := d.offset, length }
  { s.register c (.payload entry) with orderNextOffset := s.orderNextOffset + BitVec.ofNat 64 length }

/-- The loop over the reads in `command_q`, which are listed, and `checked_order`. -/
def pollLoop : List Entry → Receiver → Bool → Receiver × Bool
  | [], s, checked => (s, checked)
  | entry :: q, s, checked =>
    let s := s.assert s.bigBuffer.isNone
    if s.eodCount = s.eodsReceived then
      let s := s.assert s.freeConnQ.isEmpty
      pollLoop q { s with commandQ := q, kickouts := s.kickouts ++ [entry] } checked
    else
      match s.freeConnQ with
      | [] => (s, checked)
      | c :: free =>
        if s.orderData then
          let found := orderedSearch s.conns s.orderNextOffset c free []
          let c := found.1
          let free := found.2.1
          let remaining := found.2.2
          if (s.conns c).offset = s.orderNextOffset then
            pollLoop q
              ({ s with commandQ := q, freeConnQ := free ++ remaining, orderCtr := 0 }.registerRead entry c) true
          -- the reads stay as they were
          else ({ s with freeConnQ := free ++ (remaining ++ [c]) }, true)
        else pollLoop q ({ s with commandQ := q, freeConnQ := free }.registerRead entry c) checked

/-- The buffer of a read of everything is handed over when all data is there. -/
def pollBigBuffer (s : Receiver) : Receiver :=
  match s.bigBuffer with
  | none => s
  | some b =>
    if s.eodCount = s.eodsReceived then
      { s with
        kickouts := s.kickouts ++ [Entry.new b.arg 0 (BitVec.ofNat 64 b.length) true s.type]
        bigBuffer := none }
    else s

/-- Where order is asked for, and no connection that is to come can have the next offset. -/
def pollOrder (s : Receiver) (checked : Bool) : Receiver :=
  if s.state = .connectRead ∧ s.orderData then
    if s.totalConnectionCount + s.outstandingConnections - s.freeConnQ.length = 0 ∧ checked then
      let s := if s.orderCtr > s.totalConnectionCount * 2 + 10 then s.stripesDestroy else s
      { s with orderCtr := s.orderCtr + 1 }
    else s
  else s

/-- `globus_l_ftp_data_stripe_poll` with `globus_l_ftp_data_eb_poll`, for a handle that is read. -/
def poll (s : Receiver) : Receiver :=
  if s.transferring ∧ (s.state = .connectRead ∨ s.state = .eof) then
    let s := s.pollBigBuffer
    let polled := pollLoop s.commandQ s false
    polled.1.pollOrder polled.2
  else s

/-! ## The callbacks -/

end Receiver

/-- What a header does to its connection. -/
def DataConn.readHeader (d : DataConn) (h : EbHeader) : DataConn where
  offset := if h.has descriptorEof then 0 else dataDecode h.offset
  bytesReady := if h.has descriptorEof then 0 else (dataDecode h.count).toNat
  eod := d.eod || h.has descriptorEod
  close := d.close || h.has descriptorClose
  reusing := d.reusing

namespace Receiver

/-- A message without payload; `eod` is the flag of its header. -/
def headerNoPayload (s : Receiver) (c : Nat) (eod : Bool) : Receiver :=
  let d := s.conns c
  if d.close then
    let s := s.assert (d.reusing || d.eod)
    let s :=
      if eod then s.endOfData
      else if d.eod then { s with freeCacheList := s.freeCacheList.erase c }
      else s
    s.closeConn c
  else if d.eod then s.endOfData.cacheConn c
  else s.register c .header

/-- A message with payload. -/
def headerPayload (s : Receiver) (c : Nat) : Receiver :=
  let d := s.conns c
  match s.bigBuffer with
  | none => s.freeConn c
  | some b =>
    let endOffset := BitVec.ofNat 64 d.bytesReady + d.offset
    let endBuffer := BitVec.ofNat 64 b.length
    if endBuffer.slt endOffset then s.stripesDestroy
    else
      -- read directly to `big_buffer[offset]`
      s.register c (.payload { Entry.new b.arg d.bytesReady d.offset false s.type with conn := some c })

/-- What `globus_l_ftp_eb_read_header_callback` does with a header. -/
def ebReadHeader (s : Receiver) (c : Nat) (h : EbHeader) : Receiver :=
  let s := s.setConn c ((s.conns c).readHeader h)
  let s := { s with eodCount := if h.has descriptorEof then (dataDecode h.offset).toNat else s.eodCount }
  let s := if (s.conns c).bytesReady = 0 then s.headerNoPayload c (h.has descriptorEod) else s.headerPayload c
  s.setConn c { s.conns c with reusing := false }

/-- `globus_l_ftp_eb_read_header_callback`. -/
def ebReadHeaderCallback (s : Receiver) (c : Nat) (h : EbHeader) : Receiver := (s.ebReadHeader c h).poll

/-- What follows for the connection and the stripe when all bytes of a block are read. -/
def blockRead (s : Receiver) (c : Nat) : Receiver :=
  let d := s.conns c
  if d.eod then
    let s := s.endOfData
    let s := if s.eodCount = s.eodsReceived then { s with bigBuffer := none } else s
    if d.close then s.closeConn c else s.cacheConn c
  else s.register c .header

/-- What follows for them when `nbyte` bytes are read. -/
def bytesRead (s : Receiver) (c nbyte : Nat) : Receiver :=
  let d := s.conns c
  let d := { d with offset := d.offset + BitVec.ofNat 64 nbyte, bytesReady := d.bytesReady - nbyte }
  let s := s.setConn c d
  if d.bytesReady = 0 then s.blockRead c else s.freeConn c

/-- The callback of the entry is called next, or where order is asked for, it is left to `globus_l_ftp_data_order_read_cb`. -/
def complete (s : Receiver) (entry : Entry) : Receiver :=
  if s.orderData then { s with orderCbs := s.orderCbs ++ [entry], returning := s.returning ++ [(entry, false)] }
  else { s with returning := s.returning ++ [(entry, true)] }

/-- The first part of `globus_l_ftp_eb_read_callback`, for the bytes `buf` that were read. -/
def ebReadCallback (s : Receiver) (c : Nat) (entry : Entry) (buf : List Byte) : Receiver :=
  if s.state = .closing then s.complete { entry with buffer := buf, offset := 0, eof := true }
  else
    let d := s.conns c
    let s := s.bytesRead c buf.length
    let eof := d.bytesReady - buf.length = 0 ∧ d.eod ∧ s.eodCount = s.eodsReceived
    let buf := streamRead entry.type buf
    s.complete { entry with buffer := buf, offset := d.offset, length := buf.length, eof }

/-- The call of the callback of an entry. -/
@[simps]
def callback (s : Receiver) (entry : Entry) : Receiver :=
  { s with log := s.log ++ [⟨entry.arg, entry.buffer, entry.offset, entry.eof, false, entry.conn⟩] }

/-- The second part of `globus_l_ftp_eb_read_callback`. -/
def ebReadReturn (s : Receiver) (entry : Entry) (fires : Bool) : Receiver :=
  let s := if fires then s.callback entry else s
  let s := if entry.eof then { s with state := .eof } else s
  s.poll

/-- `globus_l_ftp_control_command_kickout`. -/
def commandKickout (s : Receiver) (entry : Entry) : Receiver :=
  { s.callback { entry with buffer := [], offset := 0, eof := true } with state := .eof }.poll

/-- `globus_l_ftp_control_command_flush_callback`, for a read. -/
def commandFlush (s : Receiver) (entry : Entry) : Receiver :=
  { s with log := s.log ++ [⟨entry.arg, [], 0, true, true, entry.conn⟩] }

/-- The loop of `globus_l_ftp_data_order_read_cb`. -/
def orderLoop : Nat → Receiver → Receiver
  | 0, s => s
  | fuel + 1, s =>
    match s.orderedBufferQ.first with
    | none => s
    | some entry =>
      if s.orderNextOffsetPassed = entry.offset then
        orderLoop fuel
          ({ s with
              orderedBufferQ := (s.orderedBufferQ.dequeue qCompare).2
              orderNextOffsetPassed := s.orderNextOffsetPassed + BitVec.ofNat 64 entry.length }.callback entry)
      else s

/-- `globus_l_ftp_data_order_read_cb`: the loop takes an entry from the queue each time around. -/
def orderReadCb (s : Receiver) (entry : Entry) : Receiver :=
  orderLoop (s.orderedBufferQ.size + 1) { s with orderedBufferQ := s.orderedBufferQ.enqueue qCompare entry entry }

/-- `globus_ftp_control_data_read`, with `globus_l_ftp_control_data_stream_read_write`. -/
def dataRead (s : Receiver) (arg maxLength : Nat) : Receiver :=
  if s.transferring ∧ (s.state = .connectRead ∨ s.state = .eof) then
    { s with commandQ := s.commandQ ++ [Entry.new arg maxLength 0 false s.type] }.poll
  else s

/-- `globus_l_ftp_eb_listen_callback`. -/
def ebListenCallback (s : Receiver) (c : Nat) : Receiver :=
  if s.state = .connectRead then
    { s.register c .accept with
      totalConnectionCount := s.totalConnectionCount + 1
      outstandingConnections := s.outstandingConnections + 1 }.poll
  else s.poll

/-- `globus_l_ftp_eb_accept_callback`. -/
def ebAcceptCallback (s : Receiver) (c : Nat) : Receiver :=
  let s := { s with outstandingConnections := s.outstandingConnections - 1 }
  if s.state = .closing then (s.register c .none).poll
  else
    let s := (s.setConn c { s.conns c with bytesReady := 0 }).register c .header
    { s with connectionCount := s.connectionCount + 1, allConnList := c :: s.allConnList }.poll

end Receiver

/-! ## Runs -/

/-- What can happen to a receiver: a connection comes up, is accepted, or has the bytes of its header or of the read that
is registered; one of the callbacks that are registered is called; the user reads. -/
inductive ReceiverEvent where
  | listen (c : Nat)
  | accept (c : Nat)
  | header (c : Nat)
  | payload (c : Nat)
  | return (i : Nat)
  | kickout (i : Nat)
  | flush (i : Nat)
  | order (i : Nat)
  | read (arg maxLength : Nat)
  deriving DecidableEq, Repr

namespace Receiver

/-- The bytes of a read are taken from the connection. -/
@[simps]
def take (s : Receiver) (c n : Nat) : Receiver :=
  { s.register c .none with wire := Function.update s.wire c ((s.wire c).drop n) }

/-- One event. -/
def step (s : Receiver) (e : ReceiverEvent) : Option Receiver :=
  if s.aborted then none
  else
    match e with
    | .listen c => if s.io c = .unconnected then some (s.ebListenCallback c) else none
    | .accept c => if s.io c = .accept then some (s.ebAcceptCallback c) else none
    | .header c =>
      if s.io c = .header ∧ ebHeaderSize ≤ (s.wire c).length then
        some ((s.take c ebHeaderSize).ebReadHeaderCallback c (EbHeader.ofBytes (s.wire c)))
      else none
    | .payload c =>
      match s.io c with
      | .payload entry =>
        if entry.length ≤ (s.wire c).length then
          some ((s.take c entry.length).ebReadCallback c entry ((s.wire c).take entry.length))
        else none
      | _ => none
    | .return i => s.returning[i]?.map fun r => { s with returning := s.returning.eraseIdx i }.ebReadReturn r.1 r.2
    | .kickout i => s.kickouts[i]?.map fun r => { s with kickouts := s.kickouts.eraseIdx i }.commandKickout r
    | .flush i => s.flushes[i]?.map fun r => { s with flushes := s.flushes.eraseIdx i }.commandFlush r
    | .order i => s.orderCbs[i]?.map fun r => { s with orderCbs := s.orderCbs.eraseIdx i }.orderReadCb r
    | .read arg maxLength => some (s.dataRead arg maxLength)

/-- The handle when reading starts, with `n` connections that may come up; what is in the memory of the queue is not set. -/
def init (type : ControlType) (orderData : Bool) (n : Nat) (wire : Nat → List Byte)
    (heap : Nat → PriorityQEntry Entry Entry) : Receiver where
  state := .connectRead
  transferring := true
  type
  bigBuffer := none
  orderData
  orderCtr := 0
  orderNextOffset := 0
  orderNextOffsetPassed := 0
  orderedBufferQ := priorityQInit heap
  freeConnQ := []
  freeCacheList := []
  allConnList := []
  commandQ := []
  connectionCount := 0
  totalConnectionCount := 0
  outstandingConnections := 0
  eodCount := 2 ^ 64 - 1
  eodsReceived := 0
  conns := fun _ => .new
  io := fun c => if c < n then .unconnected else .close
  wire
  kickouts := []
  flushes := []
  orderCbs := []
  returning := []
  log := []
  aborted := false

end Receiver

/-! ## Reads to the buffer of the user -/

namespace Receiver

variable {s : Receiver} {c : Nat} {h : EbHeader} {b : BigBuffer}

theorem toInt_add_eq_bmod (n : Nat) (x : OffT) : (BitVec.ofNat 64 n + x).toInt = (x.toInt + n).bmod (2 ^ 64) := by
  rw [BitVec.toInt_add, BitVec.toInt_ofNat', Int.bmod_add_bmod, Int.add_comm]

theorem toInt_ofNat_eq {n : Nat} (hn : n < 2 ^ 63) : (BitVec.ofNat 64 n).toInt = n := by
  rw [BitVec.toInt_ofNat']
  exact Int.bmod_eq_of_le (by omega) (by omega)

theorem io_headerNoPayload (eod : Bool) (hio : s.io c = .none) (entry : Entry) :
    (s.headerNoPayload c eod).io c ≠ .payload entry := by
  unfold headerNoPayload
  dsimp only
  split
  case isTrue => simp [closeConn, register]
  case isFalse =>
    split
    case isTrue => simp [cacheConn, endOfData, hio]
    case isFalse => simp [register]

theorem io_stripesDestroy (hio : s.io c = .none) (entry : Entry) : s.stripesDestroy.io c ≠ .payload entry := by
  unfold stripesDestroy
  split
  case isTrue => simp [hio]
  case isFalse =>
    dsimp only
    split <;> simp [hio]

/-- A read to the buffer is registered unless the sum of the offset and the count, as it wraps, is beyond its end. -/
theorem io_headerPayload (hb : s.bigBuffer = some b) (hlen : b.length < 2 ^ 63) (hio : s.io c = .none) :
    (∃ entry, (s.headerPayload c).io c = .payload entry) ↔
      ((s.conns c).offset.toInt + (s.conns c).bytesReady).bmod (2 ^ 64) ≤ b.length := by
  unfold headerPayload
  rw [hb]
  dsimp only
  rw [BitVec.slt, toInt_add_eq_bmod, toInt_ofNat_eq hlen]
  by_cases hlt : (b.length : Int) < ((s.conns c).offset.toInt + (s.conns c).bytesReady).bmod (2 ^ 64)
  · rw [if_pos (by simpa using hlt)]
    exact iff_of_false (by simpa using io_stripesDestroy hio) (by omega)
  · rw [if_neg (by simpa using hlt)]
    exact iff_of_true ⟨_, Function.update_self ..⟩ (by omega)

theorem io_ebReadHeader (hb : s.bigBuffer = some b) (hlen : b.length < 2 ^ 63) (hio : s.io c = .none)
    (heof : h.has descriptorEof = false) :
    (∃ entry, (s.ebReadHeader c h).io c = .payload entry) ↔
      (dataDecode h.count).toNat ≠ 0 ∧
        ((dataDecode h.offset).toInt + (dataDecode h.count).toNat).bmod (2 ^ 64) ≤ b.length := by
  unfold ebReadHeader
  simp only [setConn, Function.update_self, DataConn.readHeader, heof, Bool.false_eq_true, if_false]
  split
  case isTrue hzero =>
    refine iff_of_false ?_ fun hne => hne.1 hzero
    rintro ⟨entry, hentry⟩
    exact io_headerNoPayload _ (by exact hio) entry hentry
  case isFalse hne =>
    rw [and_iff_right hne]
    refine (io_headerPayload (c := c) (by exact hb) hlen (by exact hio)).trans ?_
    simp

/-- A header that comes while there is a buffer of length `b.length` for all data directs its payload into the buffer
exactly if it has none, or an offset that is not negative and a sum that does not overflow, or a sum that is refused as
it wraps. -/
theorem ebReadHeader_inBounds_iff (s : Receiver) (c : Nat) (h : EbHeader) (b : BigBuffer) (hb : s.bigBuffer = some b)
    (hlen : b.length < 2 ^ 63) (hio : s.io c = .none) (heof : h.has descriptorEof = false) :
    ((∃ entry, (s.ebReadHeader c h).io c = .payload entry) →
      0 ≤ (dataDecode h.offset).toInt ∧ (dataDecode h.offset).toInt + (dataDecode h.count).toNat ≤ b.length) ↔
    ((dataDecode h.count).toNat = 0 ∨
      (0 ≤ (dataDecode h.offset).toInt ∧ (dataDecode h.offset).toInt + (dataDecode h.count).toNat < 2 ^ 63) ∨
      b.length < ((dataDecode h.offset).toInt + (dataDecode h.count).toNat).bmod (2 ^ 64)) := by
  rw [io_ebReadHeader hb hlen hio heof]
  constructor
  · intro hin
    by_contra hcond
    push Not at hcond
    obtain ⟨hn, hsum, hwrap⟩ := hcond
    have := hin ⟨hn, hwrap⟩
    omega
  · rintro (hn | ⟨ho, hsum⟩ | hwrap) ⟨hne, hle⟩
    · exact absurd hn hne
    · rw [Int.bmod_eq_of_le (by omega) (by omega)] at hle
      exact ⟨ho, hle⟩
    · omega

/-- A receiver with a buffer of `length` bytes, with nothing registered for its connections. -/
def installed (length : Nat) : Receiver :=
  { init .image false 1 (fun _ => []) fun _ => ⟨.new 0 0 0 false .image, .new 0 0 0 false .image⟩ with
    bigBuffer := some ⟨length, 0⟩
    io := fun _ => .none }

/-- Three bytes at offset 2 of a buffer of ten. -/
theorem ebReadHeader_inBounds_block :
    (∃ entry, ((installed 10).ebReadHeader 0 ⟨0, dataEncode 3, dataEncode 2⟩).io 0 = .payload entry) ∧
      0 ≤ (dataDecode (dataEncode 2)).toInt ∧
        (dataDecode (dataEncode 2)).toInt + (dataDecode (dataEncode 3)).toNat ≤ 10 := by
  have hread : ∃ entry, ((installed 10).ebReadHeader 0 ⟨0, dataEncode 3, dataEncode 2⟩).io 0 = .payload entry :=
    (io_ebReadHeader (b := ⟨10, 0⟩) rfl (by decide) rfl (by decide)).2 (by decide)
  refine ⟨hread, (ebReadHeader_inBounds_iff (installed 10) 0 ⟨0, dataEncode 3, dataEncode 2⟩ ⟨10, 0⟩ rfl (by decide) rfl
    (by decide)).2 (.inr (.inl (by decide))) hread⟩

/-- One byte at offset -1: it is read to the byte in front of the buffer. -/
theorem ebReadHeader_in_front :
    (⟨0, dataEncode 1, dataEncode (-1)⟩ : EbHeader).has descriptorEof = false ∧
    (∃ entry, ((installed 10).ebReadHeader 0 ⟨0, dataEncode 1, dataEncode (-1)⟩).io 0 = .payload entry) ∧
    ¬0 ≤ (dataDecode (dataEncode (-1))).toInt :=
  ⟨by decide, (io_ebReadHeader (b := ⟨10, 0⟩) rfl (by decide) rfl (by decide)).2 (by decide), by decide⟩

end Receiver

end Globus.Ftp
