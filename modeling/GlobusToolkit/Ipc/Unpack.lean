/-
The decoders of the messages between the nodes of a GridFTP server: the `GFSDecode` macros
(gridftp/server/src/globus_i_gfs_ipc.h) and the `globus_l_gfs_ipc_unpack` functions that use them
(gridftp/server/src/globus_i_gfs_ipc.c). Every macro tests `_len - n < 0` before it reads. The lengths are
of the unsigned type `globus_size_t`, so the difference wraps around and the test never fails: a message is
decoded as if it went on behind its end. Memory behind the message can be read, and allocation succeeds.
-/
import GlobusToolkit.Lib.Decode
import GlobusToolkit.Path.Normalize
import GlobusToolkit.RangeList.Insert

namespace Globus

open Lib

/-! ## The macros -/

/-- The test `_len - n < 0`, with a 64 bit `globus_size_t`. -/
def lenTest (len : BitVec 64) (n : Nat) : Bool := (len - BitVec.ofNat 64 n).ult 0#64

/-- The number in network byte order. -/
def bigEndian (bs : List UInt8) : Nat := bs.foldl (fun v b => 256 * v + b.toNat) 0

/-- `GFSDecodeUInt32`. -/
def decodeUInt32 : Dec (BitVec 32) := .read 4 fun bs => .ret (BitVec.ofNat 32 (bigEndian bs))

/-- `GFSDecodeUInt32P`: the number as a pointer. -/
def decodeUInt32P : Dec (BitVec 64) := .read 4 fun bs => .ret (BitVec.ofNat 64 (bigEndian bs))

/-- `GFSDecodeUInt64`. -/
def decodeUInt64 : Dec (BitVec 64) := .read 8 fun bs => .ret (BitVec.ofNat 64 (bigEndian bs))

/-- `GFSDecodeChar`. -/
def decodeChar : Dec UInt8 := .read 1 fun bs => .ret (bs.headD 0)

/-- `GFSDecodeString`: no string for the length 0, and otherwise all but the null character, one after the
other. -/
def decodeString : Dec (Option (List UInt8)) := do
  let sz ← decodeUInt32
  if sz = 0#32 then pure none
  else
    let str ← Dec.times (sz.toNat - 1) decodeChar
    pure (some str)

/-- A count that was read into an `int`; a loop up to a negative count does nothing. -/
def loopCount (count : BitVec 32) : Nat := count.toInt.toNat

/-! ## Replies -/

/-- `globus_gfs_operation_type_t`, as the reply has it in one byte. -/
inductive GfsOpType where
  | finalReply
  | eventReply
  | event
  | sessionStart
  | sessionStop
  | recv
  | send
  | list
  | command
  | passive
  | active
  | destroy
  | transfer
  | stat
  | bufferSend
  | handshake
  | sessionStartReply
  | intermediateReply
  | other (value : UInt8)
  deriving DecidableEq, Repr

def GfsOpType.ofByte (value : UInt8) : GfsOpType :=
  match value.toNat with
  | 1 => finalReply
  | 2 => eventReply
  | 3 => event
  | 4 => sessionStart
  | 5 => sessionStop
  | 6 => recv
  | 7 => send
  | 8 => list
  | 9 => command
  | 10 => passive
  | 11 => active
  | 12 => destroy
  | 13 => transfer
  | 14 => stat
  | 15 => bufferSend
  | 16 => handshake
  | 17 => sessionStartReply
  | 18 => intermediateReply
  | _ => other value

/-- `globus_gfs_stat_t`. -/
structure GfsStat where
  mode : BitVec 32
  nlink : BitVec 32
  name : Option (List UInt8)
  symlinkTarget : Option (List UInt8)
  uid : BitVec 32
  gid : BitVec 32
  size : BitVec 64
  atime : BitVec 32
  ctime : BitVec 32
  mtime : BitVec 32
  dev : BitVec 32
  ino : BitVec 32
  deriving DecidableEq, Repr

def decodeStat : Dec GfsStat := do
  let mode ← decodeUInt32
  let nlink ← decodeUInt32
  let name ← decodeString
  let symlinkTarget ← decodeString
  let uid ← decodeUInt32
  let gid ← decodeUInt32
  let size ← decodeUInt64
  let atime ← decodeUInt32
  let ctime ← decodeUInt32
  let mtime ← decodeUInt32
  let dev ← decodeUInt32
  let ino ← decodeUInt32
  pure { mode, nlink, name, symlinkTarget, uid, gid, size, atime, ctime, mtime, dev, ino }

/-- The part of `globus_gfs_finished_info_t` that depends on the type. -/
inductive FinishedBody where
  | nothing
  | stat (statCount : BitVec 32) (statArray : List GfsStat) (uid gidCount : BitVec 32) (gidArray : List (BitVec 32))
  | command (command : BitVec 32) (checksum createdDir : Option (List UInt8))
  | passive (dataArg : BitVec 64) (csCount : BitVec 32) (contactStrings : List (Option (List UInt8)))
      (ipv6 biDirectional : UInt8)
  | active (dataArg : BitVec 64) (biDirectional : UInt8)
  deriving DecidableEq, Repr

/-- `globus_gfs_finished_info_t`; the result is the error it stands for. -/
structure FinishedInfo where
  type : GfsOpType
  code : BitVec 32
  result : Option GfsError
  msg : Option (List UInt8)
  info : FinishedBody
  deriving DecidableEq, Repr

def textOf (bs : List UInt8) : String := String.ofList (bs.map fun b => Char.ofNat b.toNat)

/-- The `switch` over the type of a reply. -/
def decodeFinishedBody : GfsOpType → Dec FinishedBody
  | .stat => do
    let statCount ← decodeUInt32
    let statArray ← Dec.times (loopCount statCount) decodeStat
    let uid ← decodeUInt32
    let gidCount ← decodeUInt32
    let gidArray ← Dec.times (loopCount gidCount) decodeUInt32
    pure (.stat statCount statArray uid gidCount gidArray)
  | .command => do
    let command ← decodeUInt32
    let checksum ← decodeString
    let createdDir ← decodeString
    pure (.command command checksum createdDir)
  | .passive => do
    let dataArg ← decodeUInt32P
    let csCount ← decodeUInt32
    let contactStrings ← Dec.times (loopCount csCount) decodeString
    let ipv6 ← decodeChar
    let biDirectional ← decodeChar
    pure (.passive dataArg csCount contactStrings ipv6 biDirectional)
  | .active => do
    let dataArg ← decodeUInt32P
    let biDirectional ← decodeChar
    pure (.active dataArg biDirectional)
  | _ => pure .nothing

/-- `globus_l_gfs_ipc_unpack_reply`. -/
def unpackReply : Dec FinishedInfo := do
  let type ← decodeChar
  let code ← decodeUInt32
  let result ← decodeUInt32
  let msg ← decodeString
  let info ← decodeFinishedBody (.ofByte type)
  if result = 0#32 then pure { type := .ofByte type, code, result := none, msg, info }
  else
    let reason := (msg.map textOf).getD "unknown error"
    pure { type := .ofByte type, code, result := some (.generic reason), msg := none, info }

/-! ## Events -/

/-- The events that a reply to them has fields for. -/
inductive GfsEventType where
  | transferBegin
  | disconnected
  | bytesRecvd
  | rangesRecvd
  | transferConnected
  | partialEofCount
  | other (value : BitVec 32)
  deriving DecidableEq, Repr

def GfsEventType.ofWord (value : BitVec 32) : GfsEventType :=
  match value.toNat with
  | 0x0001 => transferBegin
  | 0x0008 => disconnected
  | 0x0010 => bytesRecvd
  | 0x0020 => rangesRecvd
  | 0x0040 => transferConnected
  | 0x0100 => partialEofCount
  | _ => other value

/-- The part of `globus_gfs_event_info_t` that depends on the type. -/
inductive EventBody where
  | nothing
  | transferBegin (eventArg : BitVec 64) (eventMask nodeCount : BitVec 32)
  | transferConnected (remoteIp : Option (List UInt8))
  | disconnected (dataArg : BitVec 64)
  | bytesRecvd (recvdBytes : BitVec 64) (nodeCount : BitVec 32)
  | rangesRecvd (recvdRanges : RangeList)
  | partialEofCount (nodeCount : BitVec 32) (eofCount : List (BitVec 32))
  deriving DecidableEq, Repr

/-- `globus_gfs_event_info_t`. -/
structure EventInfo where
  type : GfsEventType
  nodeNdx : BitVec 32
  info : EventBody
  deriving DecidableEq, Repr

/-- One range of a list of ranges. -/
def decodeRange : Dec RangeEnt := do
  let offset ← decodeUInt64
  let length ← decodeUInt64
  pure ⟨offset.toInt, length.toInt⟩

/-- The number of ranges and the ranges, each inserted into the list. -/
def decodeRanges : Dec RangeList := do
  let rangeSize ← decodeUInt32
  let ranges ← Dec.times (loopCount rangeSize) decodeRange
  pure (insertRanges ranges)

/-- The `switch` over the type of an event. -/
def decodeEventBody : GfsEventType → Dec EventBody
  | .transferBegin => do
    let eventArg ← decodeUInt32P
    let eventMask ← decodeUInt32
    let nodeCount ← decodeUInt32
    pure (.transferBegin eventArg eventMask nodeCount)
  | .transferConnected => do
    let remoteIp ← decodeString
    pure (.transferConnected remoteIp)
  | .disconnected => do
    let dataArg ← decodeUInt32P
    pure (.disconnected dataArg)
  | .bytesRecvd => do
    let recvdBytes ← decodeUInt64
    let nodeCount ← decodeUInt32
    pure (.bytesRecvd recvdBytes nodeCount)
  | .rangesRecvd => do
    let recvdRanges ← decodeRanges
    pure (.rangesRecvd recvdRanges)
  | .partialEofCount => do
    let nodeCount ← decodeUInt32
    let eofCount ← Dec.times (loopCount nodeCount) decodeUInt32
    pure (.partialEofCount nodeCount eofCount)
  | .other _ => pure .nothing

/-- `globus_l_gfs_ipc_unpack_event_reply`. -/
def unpackEventReply : Dec EventInfo := do
  let type ← decodeUInt32
  let nodeNdx ← decodeUInt32
  let info ← decodeEventBody (.ofWord type)
  pure { type := .ofWord type, nodeNdx, info }

/-! ## Requests -/

/-- `globus_gfs_command_info_t`. -/
structure CommandInfo where
  command : BitVec 32
  pathname : Option (List UInt8)
  cksmOffset : BitVec 64
  cksmLength : BitVec 64
  cksmAlg : Option (List UInt8)
  chmodMode : BitVec 32
  utimeTime : BitVec 32
  chgrpGroup : Option (List UInt8)
  fromPathname : Option (List UInt8)
  authzAssert : Option (List UInt8)
  argv : List (Option (List UInt8))
  deriving DecidableEq, Repr

/-- `globus_l_gfs_ipc_unpack_command`. -/
def unpackCommand : Dec CommandInfo := do
  let command ← decodeUInt32
  let pathname ← decodeString
  let cksmOffset ← decodeUInt64
  let cksmLength ← decodeUInt64
  let cksmAlg ← decodeString
  let chmodMode ← decodeUInt32
  let utimeTime ← decodeUInt32
  let chgrpGroup ← decodeString
  let fromPathname ← decodeString
  let authzAssert ← decodeString
  let argc ← decodeUInt32
  let argv ← Dec.times (loopCount argc) decodeString
  pure { command, pathname, cksmOffset, cksmLength, cksmAlg, chmodMode, utimeTime, chgrpGroup, fromPathname,
         authzAssert, argv }

/-- `globus_gfs_transfer_info_t`. -/
structure TransferInfo where
  pathname : Option (List UInt8)
  moduleName : Option (List UInt8)
  moduleArgs : Option (List UInt8)
  listType : Option (List UInt8)
  listDepth : BitVec 32
  traversalOptions : BitVec 32
  partialOffset : BitVec 64
  partialLength : BitVec 64
  allocSize : BitVec 64
  dataArg : BitVec 64
  eofCount : BitVec 32
  stripeCount : BitVec 32
  nodeCount : BitVec 32
  nodeNdx : BitVec 32
  truncate : UInt8
  expectedChecksum : Option (List UInt8)
  expectedChecksumAlg : Option (List UInt8)
  rangeList : RangeList
  deriving DecidableEq, Repr

/-- `globus_l_gfs_ipc_unpack_transfer`. -/
def unpackTransfer : Dec TransferInfo := do
  let pathname ← decodeString
  let moduleName ← decodeString
  let moduleArgs ← decodeString
  let listType ← decodeString
  let listDepth ← decodeUInt32
  let traversalOptions ← decodeUInt32
  let partialOffset ← decodeUInt64
  let partialLength ← decodeUInt64
  let allocSize ← decodeUInt64
  let dataArg ← decodeUInt32P
  let eofCount ← decodeUInt32
  let stripeCount ← decodeUInt32
  let nodeCount ← decodeUInt32
  let nodeNdx ← decodeUInt32
  let truncate ← decodeChar
  let expectedChecksum ← decodeString
  let expectedChecksumAlg ← decodeString
  let rangeList ← decodeRanges
  pure { pathname, moduleName, moduleArgs, listType, listDepth, traversalOptions, partialOffset, partialLength,
         allocSize, dataArg, eofCount, stripeCount, nodeCount, nodeNdx, truncate, expectedChecksum,
         expectedChecksumAlg, rangeList }

/-- `globus_gfs_stat_info_t`. -/
structure StatInfo where
  fileOnly : UInt8
  internal : UInt8
  pathname : Option (List UInt8)
  deriving DecidableEq, Repr

/-- `globus_l_gfs_ipc_unpack_stat`. -/
def unpackStat : Dec StatInfo := do
  let fileOnly ← decodeChar
  let internal ← decodeChar
  let pathname ← decodeString
  pure { fileOnly, internal, pathname }

/-! ## Truncated messages -/

theorem lenTest_eq_false (len : BitVec 64) (n : Nat) : lenTest len n = false := by
  simp [lenTest, BitVec.ult]

/-- The decoders stay within a message and reject it if it is too short, exactly for the messages that
are not. -/
theorem ipc_unpack_sound_iff (buffer : Nat → UInt8) (len : BitVec 64) :
    (unpackTransfer.Sound lenTest buffer len ↔ unpackTransfer.Fits buffer 0 len.toNat) ∧
    (unpackCommand.Sound lenTest buffer len ↔ unpackCommand.Fits buffer 0 len.toNat) ∧
    (unpackReply.Sound lenTest buffer len ↔ unpackReply.Fits buffer 0 len.toNat) ∧
    (unpackEventReply.Sound lenTest buffer len ↔ unpackEventReply.Fits buffer 0 len.toNat) ∧
    (unpackStat.Sound lenTest buffer len ↔ unpackStat.Fits buffer 0 len.toNat) :=
  ⟨Dec.sound_iff_fits lenTest_eq_false _ len, Dec.sound_iff_fits lenTest_eq_false _ len,
    Dec.sound_iff_fits lenTest_eq_false _ len, Dec.sound_iff_fits lenTest_eq_false _ len,
    Dec.sound_iff_fits lenTest_eq_false _ len⟩

/-- From an empty message in zeroed memory every decoder returns a result, and has read the byte at its
end. -/
theorem ipc_unpack_empty_message :
    (¬ unpackTransfer.Sound lenTest (fun _ => 0) 0#64 ∧ ¬ unpackCommand.Sound lenTest (fun _ => 0) 0#64 ∧
      ¬ unpackReply.Sound lenTest (fun _ => 0) 0#64 ∧ ¬ unpackEventReply.Sound lenTest (fun _ => 0) 0#64 ∧
      ¬ unpackStat.Sound lenTest (fun _ => 0) 0#64) ∧
    unpackStat.run lenTest (fun _ => 0) 0 0#64 = ⟨some ⟨0, 0, none⟩, [0, 1, 2, 3, 4, 5]⟩ := by
  refine ⟨⟨?_, ?_, ?_, ?_, ?_⟩, by decide⟩ <;>
  · intro h
    have := h.examined_lt 0 (by decide)
    exact absurd this (by decide)

end Globus
