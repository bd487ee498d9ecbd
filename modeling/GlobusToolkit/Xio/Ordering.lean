/-
The ordering driver (xio/src/builtins/ordering/globus_xio_ordering_driver.c): the driver below delivers chunks of a stream in
any order, each with its offset; they wait in a priority queue and are copied to the buffers of the user in the order of
their offsets. Each function holds the mutex of the handle while it changes it, and is one step here. Calls into the driver
below and into the framework succeed, the user does not cancel, close or seek, and memory is never short; the number of
the driver's own buffers is limited.
-/
import GlobusToolkit.Common.PriorityQueue
import GlobusToolkit.Lib.Iovec
import GlobusToolkit.Lib.Machine
import GlobusToolkit.Lib.Reassembly

namespace Globus.Xio.Ordering

open Lib List PriorityQ

/-! ## The data -/

/-- `globus_i_xio_ordering_state_t`, without the states of opening and closing. -/
inductive DriverState where
  | ready
  | ioPending
  | eofReceived
  | eofDelivered
  | error
  deriving DecidableEq

/-- The results of a read. -/
inductive Result where
  | success
  | eof
  | canceled
  | failed
  deriving DecidableEq

structure Attr where
  maxReadCount : Nat
  buffering : Bool
  maxBufCount : Nat

/-- `globus_l_xio_ordering_buffer_t`: the bytes that were read, how many of them were copied, and the offset of the next one. -/
structure Buffer where
  bytes : List UInt8
  offset : Nat
  dataOffset : Nat
  error : Result

/-- `globus_l_xio_ordering_user_req_t`. -/
structure UserReq where
  iov : IovCursor UInt8
  waitFor : Nat
  error : Result

/-- `globus_l_xio_ordering_handle_t`; of the list of operations only the length is kept. -/
structure Handle where
  attr : Attr
  state : DriverState
  userReq : UserReq
  bufferQ : PriorityQ Nat Buffer
  driverOps : Nat
  offset : Nat
  expectedOffset : Nat
  outstandingReadCount : Nat
  readCount : Nat
  writeCount : Nat
  bufferCount : Nat

/-- A read that is finished: what is in the buffers of the user, and the result. -/
structure Finished where
  bytes : List UInt8
  result : Result

/-- `globus_l_xio_ordering_offset_cmp`. -/
def offsetCmp (offset1 offset2 : Nat) : Int := if offset1 > offset2 then 1 else if offset1 < offset2 then -1 else 0

/-! ## Copying -/

/-- The loop that copies a buffer to the vectors of the user. -/
def copyBytes : Nat → IovCursor UInt8 → Buffer → IovCursor UInt8 × Buffer
  | 0, iov, buffer => (iov, buffer)
  | fuel + 1, iov, buffer =>
    if buffer.bytes.length - buffer.offset > 0 ∧ iov.nbytes < iov.length then
      let len := min (iov.current.length - iov.offset) (buffer.bytes.length - buffer.offset)
      copyBytes fuel (iov.write ((buffer.bytes.drop buffer.offset).take len)) { buffer with offset := buffer.offset + len }
    else (iov, buffer)

/-- The first buffer of the queue is the one that is expected. -/
def expectedFirst (h : Handle) : Bool := h.bufferQ.firstPriority = some h.expectedOffset

/-- There is room for more, and the first buffer is the one that is expected. -/
def canCopy (h : Handle) : Bool := h.userReq.iov.nbytes < h.userReq.iov.length && !h.bufferQ.empty && expectedFirst h

/-- What `globus_l_xio_ordering_copy` does with a buffer that it took from the queue, and whether the loop is done: the
buffer is copied as far as there is room; it is passed down to be read into again if all of it was copied, and put back
into the queue otherwise. -/
def copyBuffer (h : Handle) (buffer : Buffer) : Handle × Bool :=
  let error := if h.userReq.error = .success then buffer.error else h.userReq.error
  let copied := copyBytes (h.userReq.iov.iovecs.length + 1) h.userReq.iov buffer
  let totalLen := copied.2.offset - buffer.offset
  let h := { h with
    userReq := { h.userReq with iov := copied.1, error }
    expectedOffset := h.expectedOffset + totalLen }
  if copied.2.bytes.length - copied.2.offset = 0 then
    let h := { h with outstandingReadCount := h.outstandingReadCount + 1 }
    (h, !canCopy h)
  else
    let dataOffset := buffer.dataOffset + totalLen
    ({ h with bufferQ := h.bufferQ.enqueue offsetCmp { copied.2 with dataOffset } dataOffset }, true)

/-- One round of the loop. -/
def copyRound (h : Handle) : Handle × Bool :=
  match h.bufferQ.dequeue offsetCmp with
  | (none, _) => (h, true)
  | (some buffer, bufferQ) => copyBuffer { h with bufferQ } buffer

/-- The loop of `globus_l_xio_ordering_copy`, as long as there are buffers. -/
def copyLoop : Nat → Handle → Handle
  | 0, h => h
  | fuel + 1, h => if (copyRound h).2 then (copyRound h).1 else copyLoop fuel (copyRound h).1

/-- `globus_l_xio_ordering_copy`: whether enough was copied, and the handle. -/
def copy (h : Handle) : Bool × Handle :=
  let h' := copyLoop h.bufferQ.size h
  (h'.userReq.iov.nbytes ≥ h'.userReq.waitFor, h')

/-! ## The functions of the driver -/

/-- `globus_i_xio_ordering_register_read` with a new buffer. -/
def registerRead (h : Handle) : Option Handle :=
  if h.bufferCount ≥ h.attr.maxBufCount then none
  else some { h with
    bufferCount := h.bufferCount + 1
    driverOps := h.driverOps + 1
    outstandingReadCount := h.outstandingReadCount + 1 }

/-- The reads after the handle was opened: the handle, and whether all of them could be made. -/
def registerReads : Nat → Handle → Handle × Bool
  | 0, h => (h, true)
  | n + 1, h =>
    match registerRead h with
    | none => (h, false)
    | some h => registerReads n h

/-- The finished read of a request. -/
def UserReq.finish (r : UserReq) (result : Result) : Finished := ⟨r.iov.placed, result⟩

/-- The end of `globus_l_xio_ordering_read_cb` for a handle with an error. -/
def readCbError (h : Handle) : Handle × Option Finished :=
  let h := { h with driverOps := h.driverOps - 1 }
  if h.readCount = 1 then ({ h with readCount := 0 }, some (h.userReq.finish .failed)) else (h, none)

/-- Data is copied to the vectors of the pending read, which is finished if it has enough. -/
def copyToPending (h : Handle) (eof : Bool) : Handle × Option Finished :=
  let copied := copy h
  let h := copied.2
  if eof || copied.1 then
    ({ h with
        readCount := h.readCount - 1
        state := if eof then .eofReceived else if h.writeCount = 0 then .ready else h.state },
      if copied.1 then some (h.userReq.finish h.userReq.error) else none)
  else (h, none)

/-- Another buffer is passed down if too few are. -/
def registerMore (h : Handle) : Handle :=
  if h.outstandingReadCount < h.attr.maxReadCount then (registerRead h).getD { h with state := .error } else h

/-- A chunk that was read is put into the queue, and copied if it is the one that is expected. -/
def readCbData (h : Handle) (eof : Bool) (result : Result) (ddOffset : Nat) (bytes : List UInt8) : Handle × Option Finished :=
  let offset := if h.attr.buffering then h.expectedOffset else ddOffset
  let dataOffset := if h.attr.buffering then h.offset else ddOffset
  let h := { h with
    offset := if h.attr.buffering then h.offset + bytes.length else h.offset
    bufferQ := h.bufferQ.enqueue offsetCmp ⟨bytes, 0, dataOffset, result⟩ dataOffset }
  let read := if h.readCount = 1 ∧ offset = h.expectedOffset then copyToPending h eof else (h, none)
  (registerMore read.1, read.2)

/-- `globus_l_xio_ordering_read_cb`, with the offset that the driver below has set. -/
def readCb (h : Handle) (result : Result) (ddOffset : Nat) (bytes : List UInt8) : Handle × Option Finished :=
  let h := { h with outstandingReadCount := h.outstandingReadCount - 1 }
  let eof : Bool := result = .eof
  match h.state with
  | .ready
  | .ioPending =>
    if result = .success ∨ (eof ∧ bytes ≠ []) then readCbData h eof result ddOffset bytes
    else if eof then
      ({ h with state := .eofReceived },
        if h.readCount > 0 ∧ h.bufferQ.empty then some (h.userReq.finish result) else none)
    else if result = .canceled then ({ h with outstandingReadCount := h.outstandingReadCount + 1 }, none)
    else readCbError { h with state := .error }
  | .eofReceived
  | .eofDelivered => (h, none)
  | .error => readCbError h

/-- `globus_i_xio_ordering_user_req_init`. -/
def userReqInit (h : Handle) (iovecs : List (List UInt8)) (waitFor : Nat) : Handle :=
  { h with userReq := { h.userReq with iov := .start iovecs, waitFor } }

/-- The first buffer is copied to the vectors of a new read, if it is the one that is expected. -/
def copyExpected (h : Handle) : Bool × Handle := if expectedFirst h then copy h else (false, h)

/-- The read is finished, or pending from now on. -/
def finishOrWait (h : Handle) (finish : Bool) : Handle × Option Finished :=
  if finish then (h, some (h.userReq.finish h.userReq.error))
  else ({ h with state := .ioPending, readCount := h.readCount + 1 }, none)

/-- A read when none is pending. The first read after the handle was opened makes the reads of the driver. -/
def readReady (h : Handle) (iovecs : List (List UInt8)) (waitFor : Nat) : Handle × Option Finished :=
  let h := userReqInit h iovecs waitFor
  if ¬ h.bufferQ.empty then finishOrWait (copyExpected h).2 (copyExpected h).1
  else if h.driverOps = 0 then
    let registered := registerReads h.attr.maxReadCount h
    if registered.2 then finishOrWait registered.1 false else (registered.1, none)
  else finishOrWait h false

/-- `globus_l_xio_ordering_read`: the read that is finished at once; there is none also if it is refused. -/
def read (h : Handle) (iovecs : List (List UInt8)) (waitFor : Nat) : Handle × Option Finished :=
  match h.state with
  | .eofReceived =>
    if ¬ h.bufferQ.empty then
      let copied := copyExpected (userReqInit h iovecs waitFor)
      (copied.2, if copied.1 then some (copied.2.userReq.finish copied.2.userReq.error) else none)
    else ({ h with state := .eofDelivered }, some ⟨[], .eof⟩)
  | .eofDelivered => (h, some ⟨[], .eof⟩)
  | .ioPending => if h.readCount = 1 then (h, none) else readReady h iovecs waitFor
  | .ready => readReady h iovecs waitFor
  | .error => (h, none)

/-- `globus_l_xio_ordering_write`. -/
def write (h : Handle) (length : Nat) : Handle :=
  match h.state with
  | .error => h
  | .ready => { h with state := .ioPending, writeCount := h.writeCount + 1, offset := h.offset + length }
  | _ => { h with writeCount := h.writeCount + 1, offset := h.offset + length }

/-- `globus_l_xio_ordering_write_cb`. -/
def writeCb (h : Handle) : Handle :=
  let h := { h with writeCount := h.writeCount - 1 }
  if h.writeCount = 0 ∧ h.readCount = 0 ∧ h.state = .ioPending then { h with state := .ready } else h

/-! ## Runs -/

inductive Event where
  | complete (result : Result) (offset : Nat) (bytes : List UInt8)
  | read (iovecs : List (List UInt8)) (waitFor : Nat)
  | write (length : Nat)
  | writeDone

/-- The driver, the chunks that the driver below has still to deliver, and the reads that are finished. -/
structure System where
  handle : Handle
  chunks : Multiset (Segment UInt8)
  finished : List Finished

/-- The bytes in the buffers of the finished reads, in the order in which they finished. -/
def System.received (s : System) : List UInt8 := (s.finished.map Finished.bytes).flatten

/-- One event. Data that the driver below delivers is one of the chunks; a write is finished only if there is one. -/
def System.step (s : System) : Event → Option System
  | .complete result offset bytes =>
    if 0 < s.handle.outstandingReadCount ∧ (result = .success → (offset, bytes) ∈ s.chunks) then
      let (handle, finished) := readCb s.handle result offset bytes
      some ⟨handle, s.chunks.erase (offset, bytes), s.finished ++ finished.toList⟩
    else none
  | .read iovecs waitFor =>
    let (handle, finished) := read s.handle iovecs waitFor
    some ⟨handle, s.chunks, s.finished ++ finished.toList⟩
  | .write length => some { s with handle := write s.handle length }
  | .writeDone => if 0 < s.handle.writeCount then some { s with handle := writeCb s.handle } else none

/-- After the handle is opened, with the memory of the queue and of the request. -/
def initial (attr : Attr) (heap : Nat → PriorityQEntry Nat Buffer) (pieces : List (List UInt8)) : System where
  handle := {
    attr
    state := .ready
    userReq := ⟨.start [], 0, .success⟩
    bufferQ := priorityQInit heap
    driverOps := 0
    offset := 0
    expectedOffset := 0
    outstandingReadCount := 0
    readCount := 0
    writeCount := 0
    bufferCount := 0 }
  chunks := segmentsFrom 0 pieces
  finished := []

/-! ## The queue -/

theorem offsetCmp_le_zero {a b : Nat} : offsetCmp a b ≤ 0 ↔ a ≤ b := by
  unfold offsetCmp
  split
  · omega
  · split <;> omega

theorem offsetCmp_preorder : TotalPreorder offsetCmp where
  total a b := by
    rw [offsetCmp_le_zero, offsetCmp_le_zero]
    exact le_total a b
  trans a b c := by
    rw [offsetCmp_le_zero, offsetCmp_le_zero, offsetCmp_le_zero]
    exact le_trans

/-- The bytes of a buffer that were not copied yet, and where they begin. -/
def Buffer.segment (b : Buffer) : Segment UInt8 := (b.dataOffset, b.bytes.drop b.offset)

/-- The buffers in the queue and the chunks that are still to come tile the stream from the expected offset on. -/
structure Stored (stream : List UInt8) (chunks : Multiset (Segment UInt8)) (h : Handle) : Prop where
  wf : h.bufferQ.WF offsetCmp
  priority : ∀ e ∈ h.bufferQ.entries, e.priority = e.datum.dataOffset
  tiles : Tiles stream h.expectedOffset (chunks + h.bufferQ.entries.map fun e => e.datum.segment)

variable {stream done : List UInt8} {chunks : Multiset (Segment UInt8)} {h : Handle}

/-! ## Copying keeps the stream -/

/-- What the inner loop has done: the bytes that it moved are no longer to be copied and are behind those in the vectors,
and it did not stop too early. -/
structure CopiedBytes (iov : IovCursor UInt8) (b : Buffer) (r : IovCursor UInt8 × Buffer) (moved : List UInt8) : Prop where
  cursor : ∃ before after, r.1.At before after
  placed_eq : r.1.placed = iov.placed ++ moved
  rest_eq : b.bytes.drop b.offset = moved ++ r.2.bytes.drop r.2.offset
  offset_eq : r.2.offset = b.offset + moved.length
  stopped : r.2.bytes.length - r.2.offset = 0 ∨ r.1.length ≤ r.1.nbytes

/-- Each round but the last one fills a vector. -/
theorem copyBytes_spec : ∀ (fuel : Nat) {iov : IovCursor UInt8} {b : Buffer} {before after : List (List UInt8)},
    iov.At before after → after.length < fuel ∨ b.bytes.length - b.offset = 0 →
    ∃ moved, CopiedBytes iov b (copyBytes fuel iov b) moved
  | 0, iov, b, before, after, hat, hfuel => by
    refine ⟨[], ⟨⟨before, after, hat⟩, (append_nil _).symm, rfl, rfl, ?_⟩⟩
    rcases hfuel with hfuel | hempty
    · omega
    · exact .inl hempty
  | fuel + 1, iov, b, before, after, hat, hfuel => by
    rw [copyBytes]
    split
    · next hmore =>
      obtain ⟨hleft, hroom⟩ := hmore
      obtain ⟨v, rest, rfl⟩ := exists_cons_of_ne_nil (hat.ne_nil hroom)
      rw [hat.current_eq]
      dsimp only
      have hoffset : iov.offset ≤ v.length := hat.offset_le
      generalize hlen : min (v.length - iov.offset) (b.bytes.length - b.offset) = len
      generalize hsrc : (b.bytes.drop b.offset).take len = src
      have hsrclen : src.length = len := by
        rw [← hsrc, length_take_of_le]
        rw [length_drop]
        omega
      have hfits : iov.offset + src.length ≤ v.length := by omega
      obtain ⟨⟨before', after', hat', -, hfull⟩, -, hplaced⟩ := hat.write hfits
      have hfuel' : after'.length < fuel ∨ b.bytes.length - (b.offset + len) = 0 := by
        rw [length_cons] at hfuel
        by_cases hv : iov.offset + src.length = v.length
        · omega
        · omega
      obtain ⟨moved, hm⟩ := copyBytes_spec fuel (b := { b with offset := b.offset + len }) hat' hfuel'
      refine ⟨src ++ moved, ⟨hm.cursor, ?_, ?_, ?_, hm.stopped⟩⟩
      · rw [hm.placed_eq, hplaced, append_assoc]
      · rw [append_assoc, ← hm.rest_eq, ← hsrc, ← drop_drop, take_append_drop]
      · rw [hm.offset_eq, length_append, hsrclen, Nat.add_assoc]
    · next hmore =>
      refine ⟨[], ⟨⟨before, after, hat⟩, (append_nil _).symm, rfl, rfl, ?_⟩⟩
      show b.bytes.length - b.offset = 0 ∨ iov.length ≤ iov.nbytes
      omega

/-- While a read is pending: what was finished and what is in its vectors is the stream up to the expected offset. -/
structure Copying (stream done : List UInt8) (chunks : Multiset (Segment UInt8)) (h : Handle) : Prop where
  stored : Stored stream chunks h
  cursor : ∃ before after, h.userReq.iov.At before after
  delivered : done ++ h.userReq.iov.placed = stream.take h.expectedOffset

/-- Copying leaves the rest of the handle as it is. -/
structure SameStatus (h h' : Handle) : Prop where
  attr : h'.attr = h.attr
  state : h'.state = h.state
  readCount : h'.readCount = h.readCount
  writeCount : h'.writeCount = h.writeCount

theorem SameStatus.refl (h : Handle) : SameStatus h h := ⟨rfl, rfl, rfl, rfl⟩

theorem SameStatus.trans {h₁ h₂ h₃ : Handle} (h : SameStatus h₁ h₂) (h' : SameStatus h₂ h₃) : SameStatus h₁ h₃ where
  attr := h'.attr.trans h.attr
  state := h'.state.trans h.state
  readCount := h'.readCount.trans h.readCount
  writeCount := h'.writeCount.trans h.writeCount

/-- A buffer does not begin behind the expected offset. -/
def Due (h : Handle) : Prop := ∃ e ∈ h.bufferQ.entries, e.priority ≤ h.expectedOffset

theorem Stored.due_of_expectedFirst (hs : Stored stream chunks h) (hfirst : expectedFirst h = true) : Due h := by
  obtain ⟨e, he, hp⟩ := exists_of_firstPriority hs.wf (of_decide_eq_true hfirst)
  exact ⟨e, he, hp.le⟩

/-- A buffer from the front of the queue is copied: its bytes are the next ones of the stream, or it has none. -/
theorem copyBuffer_spec {b : Buffer} (hwf : h.bufferQ.WF offsetCmp)
    (hpriority : ∀ e ∈ h.bufferQ.entries, e.priority = e.datum.dataOffset)
    (htiles : Tiles stream h.expectedOffset (chunks + (h.bufferQ.entries.map fun e => e.datum.segment) + {b.segment}))
    (hcursor : ∃ before after, h.userReq.iov.At before after)
    (hdelivered : done ++ h.userReq.iov.placed = stream.take h.expectedOffset) (hb : b.dataOffset ≤ h.expectedOffset) :
    Copying stream done chunks (copyBuffer h b).1 ∧ SameStatus h (copyBuffer h b).1 ∧
      ((copyBuffer h b).2 = !canCopy (copyBuffer h b).1) ∧
      ((copyBuffer h b).2 = false → (copyBuffer h b).1.bufferQ = h.bufferQ) := by
  obtain ⟨before, after, hat⟩ := hcursor
  have hfuel : after.length < h.userReq.iov.iovecs.length + 1 := by
    rw [hat.iovecs_eq, length_append]
    omega
  obtain ⟨moved, hm⟩ := copyBytes_spec _ (b := b) hat (.inl hfuel)
  generalize hcopied : copyBytes (h.userReq.iov.iovecs.length + 1) h.userReq.iov b = copied at hm
  have htotal : copied.2.offset - b.offset = moved.length := by rw [hm.offset_eq, Nat.add_sub_cancel_left]
  rw [Buffer.segment, hm.rest_eq] at htiles
  obtain ⟨htiles', htake⟩ := htiles.consume_of_le hb
  have hdelivered' : done ++ copied.1.placed = stream.take (h.expectedOffset + moved.length) := by
    rw [htake, ← hdelivered, hm.placed_eq, append_assoc]
  rw [copyBuffer, hcopied, htotal]
  split
  · next hempty =>
    rw [drop_eq_nil_of_le (Nat.sub_eq_zero_iff_le.1 hempty)] at htiles'
    exact ⟨⟨⟨hwf, hpriority, htiles'.of_empty⟩, hm.cursor, hdelivered'⟩, ⟨rfl, rfl, rfl, rfl⟩, rfl, fun _ => rfl⟩
  · next hrest =>
    obtain ⟨hwf', hentries⟩ := enqueue_spec offsetCmp_preorder hwf
      { copied.2 with dataOffset := b.dataOffset + moved.length } (b.dataOffset + moved.length)
    refine ⟨⟨⟨hwf', ?_, ?_⟩, hm.cursor, hdelivered'⟩, ⟨rfl, rfl, rfl, rfl⟩, ?_, fun hf => nomatch hf⟩
    · intro e he
      rw [hentries, Multiset.mem_add, Multiset.mem_singleton] at he
      rcases he with he | rfl
      · exact hpriority e he
      · rfl
    · rw [hentries, Multiset.map_add, ← add_assoc]
      exact htiles'
    · have hfull := hm.stopped.resolve_left hrest
      rw [canCopy, decide_eq_false (by dsimp only; omega)]
      rfl

theorem Due.entries_ne_zero (hdue : Due h) : h.bufferQ.entries ≠ 0 := by
  obtain ⟨e, he, -⟩ := hdue
  rintro hzero
  rw [hzero] at he
  exact Multiset.notMem_zero e he

/-- One round copies the first buffer, and the queue gets shorter if there is another round. -/
theorem copyRound_spec (hc : Copying stream done chunks h) (hdue : Due h) :
    Copying stream done chunks (copyRound h).1 ∧ SameStatus h (copyRound h).1 ∧ (copyRound h).2 = !canCopy (copyRound h).1 ∧
      ((copyRound h).2 = false → (copyRound h).1.bufferQ.size < h.bufferQ.size) := by
  obtain ⟨e, bufferQ, hdequeue, hwf, hentries, hmin⟩ :=
    exists_dequeue offsetCmp_preorder hc.stored.wf hdue.entries_ne_zero
  obtain ⟨f, hf, hfle⟩ := hdue
  have hdataOffset : e.priority = e.datum.dataOffset := hc.stored.priority e (by rw [hentries]; simp)
  have hle : e.datum.dataOffset ≤ h.expectedOffset := by
    rw [← hdataOffset]
    exact (offsetCmp_le_zero.1 (hmin f hf)).trans hfle
  have hpriority : ∀ g ∈ bufferQ.entries, g.priority = g.datum.dataOffset := fun g hg =>
    hc.stored.priority g (by rw [hentries]; exact Multiset.mem_add.2 (.inl hg))
  have htiles := hc.stored.tiles
  rw [hentries, Multiset.map_add, Multiset.map_singleton, ← add_assoc] at htiles
  obtain ⟨hcopying, hsame, hdone, hqueue⟩ :=
    copyBuffer_spec (h := { h with bufferQ }) hwf hpriority htiles hc.cursor hc.delivered hle
  rw [copyRound, hdequeue]
  refine ⟨hcopying, ⟨hsame.attr, hsame.state, hsame.readCount, hsame.writeCount⟩, hdone, fun hagain => ?_⟩
  rw [hqueue hagain, size_eq_card, size_eq_card, hentries, Multiset.card_add, Multiset.card_singleton]
  exact Nat.lt_succ_self _

/-- There is no buffer left to copy when the loop ends. -/
theorem copyLoop_spec : ∀ (fuel : Nat) {h : Handle}, h.bufferQ.size ≤ fuel → Copying stream done chunks h → Due h →
    Copying stream done chunks (copyLoop fuel h) ∧ SameStatus h (copyLoop fuel h) ∧ canCopy (copyLoop fuel h) = false
  | 0, h, hsize, _, hdue => by
    rw [size_eq_card, Nat.le_zero, Multiset.card_eq_zero] at hsize
    exact absurd hsize hdue.entries_ne_zero
  | fuel + 1, h, hsize, hc, hdue => by
    obtain ⟨hc', hsame, hdone, hshorter⟩ := copyRound_spec hc hdue
    rw [copyLoop]
    split
    · next hend =>
      rw [hend] at hdone
      exact ⟨hc', hsame, by simpa using hdone.symm⟩
    · next hagain =>
      rw [Bool.not_eq_true] at hagain
      have hsize' := hshorter hagain
      have hcan : canCopy (copyRound h).1 = true := by
        rw [hagain] at hdone
        simpa using hdone.symm
      have hdue' := hc'.stored.due_of_expectedFirst (Bool.and_eq_true_iff.1 hcan).2
      obtain ⟨hc'', hsame', hstop⟩ := copyLoop_spec fuel (by omega) hc' hdue'
      exact ⟨hc'', hsame.trans hsame', hstop⟩

theorem copy_spec (hc : Copying stream done chunks h) (hdue : Due h) :
    Copying stream done chunks (copy h).2 ∧ SameStatus h (copy h).2 ∧ canCopy (copy h).2 = false :=
  copyLoop_spec _ le_rfl hc hdue

/-! ## Every function keeps the stream -/

/-- The bytes of a read, if one was finished. -/
def bytesOf (finished : Option Finished) : List UInt8 := (finished.map Finished.bytes).getD []

/-- What holds between the functions: at most one read is pending, and what was delivered, with what is in the vectors of
a pending read, is the stream up to the expected offset. -/
structure Inv (stream done : List UInt8) (chunks : Multiset (Segment UInt8)) (h : Handle) : Prop where
  unbuffered : h.attr.buffering = false
  live : h.state = .ready ∨ h.state = .ioPending ∨ h.state = .error
  readCount_le : h.readCount ≤ 1
  idle : h.state = .ready → h.readCount = 0
  stored : h.state ≠ .error → Stored stream chunks h
  cursor : h.readCount = 1 → ∃ before after, h.userReq.iov.At before after
  delivered : done ++ (if h.readCount = 1 then h.userReq.iov.placed else []) = stream.take h.expectedOffset

variable (hi : Inv stream done chunks h)
include hi

theorem Inv.copying (hstate : h.state ≠ .error) (hread : h.readCount = 1) :
    Copying stream done chunks h where
  stored := hi.stored hstate
  cursor := hi.cursor hread
  delivered := by
    have := hi.delivered
    rwa [if_pos hread] at this

theorem Inv.of_counts (outstandingReadCount driverOps bufferCount : Nat) :
    Inv stream done chunks { h with outstandingReadCount, driverOps, bufferCount } :=
  { hi with stored := fun hne => { hi.stored hne with } }

/-- After an error nothing is stored any more, but what was delivered stays. -/
theorem Inv.failed {chunks' : Multiset (Segment UInt8)} :
    Inv stream done chunks' { h with state := .error } :=
  { hi with
    live := .inr (.inr rfl)
    idle := by rintro ⟨⟩
    stored := fun hne => absurd rfl hne }

theorem Inv.registerMore : Inv stream done chunks (registerMore h) := by
  unfold Ordering.registerMore registerRead
  split
  · split
    · exact hi.failed
    · exact hi.of_counts _ _ _
  · exact hi

omit hi

theorem Inv.of_idle (hattr : h.attr.buffering = false) (hlive : h.state = .ready ∨ h.state = .ioPending ∨ h.state = .error)
    (hread : h.readCount = 0) (hstored : h.state ≠ .error → Stored stream chunks h)
    (hdelivered : done = stream.take h.expectedOffset) : Inv stream done chunks h := by
  refine ⟨hattr, hlive, by omega, fun _ => hread, hstored, fun hone => by omega, ?_⟩
  rw [if_neg (by omega), append_nil]
  exact hdelivered

theorem Inv.eq_take_of_idle (hi : Inv stream done chunks h) (hread : h.readCount = 0) :
    done = stream.take h.expectedOffset := by
  have := hi.delivered
  rwa [if_neg (by omega), append_nil] at this

theorem Copying.inv (hc : Copying stream done chunks h) (hattr : h.attr.buffering = false) (hstate : h.state = .ioPending)
    (hread : h.readCount = 1) : Inv stream done chunks h := by
  refine ⟨hattr, .inr (.inl hstate), hread.le, ?_, fun _ => hc.stored, fun _ => hc.cursor, ?_⟩
  · rintro hready
    cases hstate.symm.trans hready
  · rw [if_pos hread]
    exact hc.delivered

theorem Inv.ioPending_of_readCount (hi : Inv stream done chunks h) (hstate : h.state ≠ .error) (hread : h.readCount = 1) :
    h.state = .ioPending := by
  rcases hi.live with hready | hpending | herror
  · have := hi.idle hready
    omega
  · exact hpending
  · exact absurd herror hstate

@[simp]
theorem bytesOf_none : bytesOf none = [] := rfl

@[simp]
theorem bytesOf_finish (r : UserReq) (result : Result) : bytesOf (some (r.finish result)) = r.iov.placed := rfl

theorem Inv.copyToPending (hi : Inv stream done chunks h) (hstate : h.state ≠ .error) (hread : h.readCount = 1) (hdue : Due h) :
    Inv stream (done ++ bytesOf (copyToPending h false).2) chunks (copyToPending h false).1 := by
  have hpending := hi.ioPending_of_readCount hstate hread
  obtain ⟨hc, hsame, -⟩ := copy_spec (hi.copying hstate hread) hdue
  have hattr : (copy h).2.attr.buffering = false := by rw [hsame.attr, hi.unbuffered]
  have hstate' : (copy h).2.state = .ioPending := hsame.state.trans hpending
  have hread' : (copy h).2.readCount = 1 := hsame.readCount.trans hread
  unfold Ordering.copyToPending
  dsimp only
  rw [Bool.false_or]
  split
  · rw [bytesOf_finish, if_neg Bool.false_ne_true, hread']
    apply Inv.of_idle
    · exact hattr
    · dsimp only
      split
      · exact .inl rfl
      · exact .inr (.inl hstate')
    · rfl
    · exact fun _ => { hc.stored with }
    · exact hc.delivered
  · rw [bytesOf_none, append_nil]
    exact hc.inv hattr hstate' hread'

variable {offset : Nat} {bytes : List UInt8}

theorem Stored.enqueue (hs : Stored stream chunks h) (hmem : (offset, bytes) ∈ chunks)
    (result : Result) : Stored stream (chunks.erase (offset, bytes))
      { h with bufferQ := h.bufferQ.enqueue offsetCmp ⟨bytes, 0, offset, result⟩ offset } := by
  obtain ⟨hwf, hentries⟩ := enqueue_spec offsetCmp_preorder hs.wf ⟨bytes, 0, offset, result⟩ offset
  refine ⟨hwf, ?_, ?_⟩
  · intro e he
    rw [hentries, Multiset.mem_add, Multiset.mem_singleton] at he
    rcases he with he | rfl
    · exact hs.priority e he
    · rfl
  · have htiles := hs.tiles
    rw [← Multiset.cons_erase hmem, ← Multiset.singleton_add, add_comm {_} _, add_right_comm] at htiles
    dsimp only
    rw [hentries, Multiset.map_add, Multiset.map_singleton, ← add_assoc]
    exact htiles

theorem Inv.readCbData (hi : Inv stream done chunks h) (hstate : h.state ≠ .error)
    (hmem : (offset, bytes) ∈ chunks) (result : Result) :
    Inv stream (done ++ bytesOf (readCbData h false result offset bytes).2) (chunks.erase (offset, bytes))
      (readCbData h false result offset bytes).1 := by
  have hs := (hi.stored hstate).enqueue hmem result
  unfold Ordering.readCbData
  simp only [hi.unbuffered, Bool.false_eq_true, if_false]
  generalize hq : h.bufferQ.enqueue offsetCmp ⟨bytes, 0, offset, result⟩ offset = bufferQ at hs
  have hi' : Inv stream done (chunks.erase (offset, bytes)) { h with bufferQ } := { hi with stored := fun _ => hs }
  apply Inv.registerMore
  split
  · next hexpected =>
    obtain ⟨hread, hoffset⟩ := hexpected
    -- the chunk that was just put into the queue is due
    have hdue : Due { h with bufferQ } := by
      refine ⟨⟨offset, ⟨bytes, 0, offset, result⟩⟩, ?_, hoffset.le⟩
      show _ ∈ bufferQ.entries
      rw [← hq, (enqueue_spec offsetCmp_preorder (hi.stored hstate).wf _ _).2]
      exact Multiset.mem_add.2 (.inr (Multiset.mem_singleton_self _))
    exact hi'.copyToPending hstate hread hdue
  · rw [bytesOf_none, append_nil]
    exact hi'

theorem Inv.readCbError (hi : Inv stream done chunks h) (hstate : h.state = .error) {chunks' : Multiset (Segment UInt8)} :
    Inv stream (done ++ bytesOf (readCbError h).2) chunks' (readCbError h).1 := by
  unfold Ordering.readCbError
  dsimp only
  split
  · next hread =>
    apply Inv.of_idle
    · exact hi.unbuffered
    · exact .inr (.inr hstate)
    · rfl
    · exact fun hne => absurd hstate hne
    · have := hi.delivered
      rwa [if_pos hread] at this
  · rw [bytesOf_none, append_nil]
    exact { hi with stored := fun hne => absurd hstate hne }

theorem readCb_success (hstate : h.state = .ready ∨ h.state = .ioPending) :
    readCb h .success offset bytes =
      readCbData { h with outstandingReadCount := h.outstandingReadCount - 1 } false .success offset bytes := by
  unfold readCb
  dsimp only
  rcases hstate with hstate | hstate <;> rw [hstate] <;> dsimp only <;> rw [if_pos (.inl rfl)] <;> rfl

theorem readCb_of_error {result : Result} (hstate : h.state = .error) :
    readCb h result offset bytes = readCbError { h with outstandingReadCount := h.outstandingReadCount - 1 } := by
  unfold readCb
  dsimp only
  rw [hstate]

theorem Inv.readCb (hi : Inv stream done chunks h) (hmem : (offset, bytes) ∈ chunks) :
    Inv stream (done ++ bytesOf (readCb h .success offset bytes).2) (chunks.erase (offset, bytes))
      (readCb h .success offset bytes).1 := by
  have hi' := hi.of_counts (h.outstandingReadCount - 1) h.driverOps h.bufferCount
  by_cases hstate : h.state = .error
  · rw [readCb_of_error hstate]
    exact hi'.readCbError hstate
  · rw [readCb_success (hi.live.imp_right fun hor => hor.resolve_right hstate)]
    exact hi'.readCbData hstate hmem _

theorem Inv.copying_init (hi : Inv stream done chunks h) (hstate : h.state ≠ .error) (hread : h.readCount = 0)
    (iovecs : List (List UInt8)) (waitFor : Nat) : Copying stream done chunks (userReqInit h iovecs waitFor) where
  stored := { hi.stored hstate with }
  cursor := ⟨[], iovecs, IovCursor.at_start iovecs⟩
  delivered := by
    show done ++ (IovCursor.start iovecs).placed = _
    rw [IovCursor.placed_start, append_nil]
    exact hi.eq_take_of_idle hread

theorem copyExpected_spec (hc : Copying stream done chunks h) :
    Copying stream done chunks (copyExpected h).2 ∧ SameStatus h (copyExpected h).2 := by
  unfold copyExpected
  split
  · next hfirst =>
    obtain ⟨hc', hsame, -⟩ := copy_spec hc (hc.stored.due_of_expectedFirst hfirst)
    exact ⟨hc', hsame⟩
  · exact ⟨hc, SameStatus.refl h⟩

/-- The driver's own reads change only its counts. -/
theorem registerReads_eq : ∀ (n : Nat) (h : Handle), ∃ bufferCount driverOps outstandingReadCount,
    (registerReads n h).1 = { h with bufferCount, driverOps, outstandingReadCount }
  | 0, h => ⟨h.bufferCount, h.driverOps, h.outstandingReadCount, rfl⟩
  | n + 1, h => by
    rw [registerReads, registerRead]
    split
    · exact ⟨h.bufferCount, h.driverOps, h.outstandingReadCount, rfl⟩
    · next h' hregister =>
      split at hregister
      · cases hregister
      · cases hregister
        exact registerReads_eq n _

theorem Copying.finishOrWait (hc : Copying stream done chunks h) (hattr : h.attr.buffering = false)
    (hstate : h.state = .ready ∨ h.state = .ioPending) (hread : h.readCount = 0) (finish : Bool) :
    Inv stream (done ++ bytesOf (finishOrWait h finish).2) chunks (finishOrWait h finish).1 := by
  unfold Ordering.finishOrWait
  split
  · exact Inv.of_idle hattr (hstate.imp_right .inl) hread (fun _ => hc.stored) hc.delivered
  · rw [bytesOf_none, append_nil, hread]
    apply Copying.inv
    · exact { hc with stored := { hc.stored with } }
    · exact hattr
    · rfl
    · rfl

variable (hi : Inv stream done chunks h)
include hi

theorem Inv.readReady (hstate : h.state = .ready ∨ h.state = .ioPending)
    (hread : h.readCount = 0) (iovecs : List (List UInt8)) (waitFor : Nat) :
    Inv stream (done ++ bytesOf (readReady h iovecs waitFor).2) chunks (readReady h iovecs waitFor).1 := by
  have hne : h.state ≠ .error := by rcases hstate with hstate | hstate <;> simp [hstate]
  have hc := hi.copying_init hne hread iovecs waitFor
  unfold Ordering.readReady
  dsimp only
  split
  · obtain ⟨hc', hsame⟩ := copyExpected_spec hc
    apply hc'.finishOrWait
    · rw [hsame.attr]
      exact hi.unbuffered
    · rw [hsame.state]
      exact hstate
    · rw [hsame.readCount]
      exact hread
  · split
    · obtain ⟨bufferCount, driverOps, outstandingReadCount, hregistered⟩ :=
        registerReads_eq h.attr.maxReadCount (userReqInit h iovecs waitFor)
      have hc' : Copying stream done chunks
          { userReqInit h iovecs waitFor with bufferCount, driverOps, outstandingReadCount } :=
        { hc with stored := { hc.stored with } }
      rw [show (userReqInit h iovecs waitFor).attr = h.attr from rfl]
      rw [hregistered]
      split
      · exact hc'.finishOrWait hi.unbuffered hstate hread false
      · rw [bytesOf_none, append_nil]
        exact Inv.of_idle hi.unbuffered (hstate.imp_right .inl) hread (fun _ => hc'.stored) (hi.eq_take_of_idle hread)
    · exact hc.finishOrWait hi.unbuffered hstate hread false

theorem Inv.read (iovecs : List (List UInt8)) (waitFor : Nat) :
    Inv stream (done ++ bytesOf (read h iovecs waitFor).2) chunks (read h iovecs waitFor).1 := by
  unfold Ordering.read
  rcases hi.live with hstate | hstate | hstate <;> rw [hstate] <;> dsimp only
  · exact hi.readReady (.inl hstate) (hi.idle hstate) iovecs waitFor
  · split
    · rw [bytesOf_none, append_nil]
      exact hi
    · have := hi.readCount_le
      exact hi.readReady (.inr hstate) (by omega) iovecs waitFor
  · rw [bytesOf_none, append_nil]
    exact hi

theorem Inv.write (length : Nat) : Inv stream done chunks (write h length) := by
  unfold Ordering.write
  rcases hi.live with hstate | hstate | hstate <;> rw [hstate] <;> dsimp only
  · exact Inv.of_idle hi.unbuffered (.inr (.inl rfl)) (hi.idle hstate)
      (fun _ => { hi.stored (by simp [hstate]) with }) (hi.eq_take_of_idle (hi.idle hstate))
  · rw [← hstate]
    exact { hi with stored := fun hne => { hi.stored hne with } }
  · exact hi

theorem Inv.writeCb : Inv stream done chunks (writeCb h) := by
  unfold Ordering.writeCb
  dsimp only
  split
  · next hlast =>
    exact Inv.of_idle hi.unbuffered (.inl rfl) hlast.2.1 (fun _ => { hi.stored (by simp [hlast.2.2]) with })
      (hi.eq_take_of_idle hlast.2.1)
  · exact { hi with stored := fun hne => { hi.stored hne with } }

omit hi

/-! ## Runs deliver the stream -/

/-- Data comes without an error, and the stream does not end. -/
def Event.Delivers : Event → Prop
  | .complete result _ _ => result = .success
  | _ => True

theorem received_append (s : System) (finished : Option Finished) :
    ((s.finished ++ finished.toList).map Finished.bytes).flatten = s.received ++ bytesOf finished := by
  cases finished <;> simp [System.received, bytesOf]

theorem inv_step {s s' : System} {e : Event} (hi : Inv stream s.received s.chunks s.handle) (he : e.Delivers)
    (hstep : s.step e = some s') : Inv stream s'.received s'.chunks s'.handle := by
  cases e with
  | complete result offset bytes =>
    obtain rfl : result = .success := he
    rw [System.step] at hstep
    split at hstep
    · next hguard =>
      cases hstep
      rw [System.received, received_append]
      exact hi.readCb (hguard.2 rfl)
    · cases hstep
  | read iovecs waitFor =>
    cases hstep
    rw [System.received, received_append]
    exact hi.read iovecs waitFor
  | write length =>
    cases hstep
    exact hi.write length
  | writeDone =>
    rw [System.step] at hstep
    split at hstep
    · cases hstep
      exact hi.writeCb
    · cases hstep

theorem inv_initial {attr : Attr} (hattr : attr.buffering = false) (heap : Nat → PriorityQEntry Nat Buffer)
    (pieces : List (List UInt8)) : Inv pieces.flatten (initial attr heap pieces).received (initial attr heap pieces).chunks
      (initial attr heap pieces).handle := by
  apply Inv.of_idle
  · exact hattr
  · exact .inl rfl
  · rfl
  · intro _
    refine ⟨PriorityQ.WF.init heap, ?_, ?_⟩
    · rintro e he
      exact absurd he (Multiset.notMem_zero e)
    · rw [show (initial attr heap pieces).handle.bufferQ.entries = 0 from rfl, Multiset.map_zero, add_zero]
      exact tiles_segmentsFrom pieces
  · rfl

/-- Whatever the order in which the chunks come, and whatever the reads between them, the finished reads hold a prefix of
the stream. -/
theorem received_prefix (attr : Attr) (heap : Nat → PriorityQEntry Nat Buffer) (pieces : List (List UInt8)) (es : List Event)
    (s : System) (hattr : attr.buffering = false) (hes : ∀ e ∈ es, e.Delivers)
    (hrun : exec System.step (initial attr heap pieces) es = some s) : s.received <+: pieces.flatten := by
  have hi : Inv pieces.flatten s.received s.chunks s.handle :=
    exec_invariant_of (I := fun s => Inv pieces.flatten s.received s.chunks s.handle) (P := fun _ e => e.Delivers)
      (fun _ _ _ => inv_step) (inv_initial hattr heap pieces) (Meets.of_forall hes) hrun
  calc s.received <+: s.received ++ _ := prefix_append _ _
    _ = pieces.flatten.take s.handle.expectedOffset := hi.delivered
    _ <+: pieces.flatten := take_prefix _ _

/-- The last of three bytes comes first, and the second read is served from what is left of a buffer. -/
def reordered : List Event :=
  [.read [[0], [0]] 2, .complete .success 2 [7], .complete .success 0 [5, 6], .read [[0, 0]] 1]

theorem received_prefix_reordered : ∃ s, exec System.step (initial ⟨2, false, 4⟩ (fun _ => ⟨0, ⟨[], 0, 0, .success⟩⟩) [[5, 6], [7]])
      reordered = some s ∧ s.received = [5, 6, 7] ∧ s.received <+: [5, 6, 7] := by
  have hend : (exec System.step (initial ⟨2, false, 4⟩ (fun _ => ⟨0, ⟨[], 0, 0, .success⟩⟩) [[5, 6], [7]]) reordered).map
      System.received = some [5, 6, 7] := by
    decide +kernel
  obtain ⟨s, hrun, hs⟩ := Option.map_eq_some_iff.1 hend
  have hes : ∀ e ∈ reordered, e.Delivers := by
    intro e he
    simp only [reordered, mem_cons, not_mem_nil, or_false] at he
    rcases he with rfl | rfl | rfl | rfl
    · trivial
    · rfl
    · rfl
    · trivial
  exact ⟨s, hrun, hs, received_prefix _ _ [[5, 6], [7]] reordered s rfl hes hrun⟩

end Globus.Xio.Ordering
