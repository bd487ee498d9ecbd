/-
Extended block mode, the mode E of the data channel (gridftp/control/source/globus_ftp_control_data.c): every block on a
data connection has a header of 17 bytes, a descriptor with flags, the number of bytes in the block and their offset in
the file, both in network order.
-/
import GlobusToolkit.Ftp.Ascii

namespace Globus.Ftp

/-- `globus_off_t`: signed, of 64 bits. -/
abbrev OffT := BitVec 64

/-- `globus_l_ftp_eb_header_t`. -/
structure EbHeader where
  descriptor : Byte
  count : Vector Byte 8
  offset : Vector Byte 8
  deriving DecidableEq, Repr

def descriptorClose : Byte := 0x04

def descriptorEod : Byte := 0x08

def descriptorEof : Byte := 0x40

/-- `eb_header->descriptor & flag`. -/
def EbHeader.has (h : EbHeader) (flag : Byte) : Bool := h.descriptor &&& flag ≠ 0

/-- `sizeof(globus_l_ftp_eb_header_t)`. -/
def ebHeaderSize : Nat := 17

namespace EbHeader

/-- The bytes of a header. -/
def bytes (h : EbHeader) : List Byte := h.descriptor :: (h.count.toList ++ h.offset.toList)

@[simp] theorem length_bytes (h : EbHeader) : h.bytes.length = ebHeaderSize := by
  simp [bytes, ebHeaderSize]

/-- The header in a buffer. -/
def ofBytes (buf : List Byte) : EbHeader where
  descriptor := buf.getD 0 0
  count := Vector.ofFn fun i => buf.getD (1 + i) 0
  offset := Vector.ofFn fun i => buf.getD (9 + i) 0

theorem ofBytes_bytes (h : EbHeader) (rest : List Byte) : ofBytes (h.bytes ++ rest) = h := by
  obtain ⟨d, c, o⟩ := h
  simp only [ofBytes, bytes, mk.injEq]
  refine ⟨rfl, ?_, ?_⟩
  · ext i hi
    simp [Nat.add_comm 1 i, List.getElem?_append_left, hi]
  · ext i hi
    simp [show 9 + i = 8 + i + 1 by omega, List.getElem?_append_right, List.getElem?_append_left, hi]

end EbHeader

/-- `(x >> shift) & 0xff`. -/
def encodeByte (x : OffT) (shift : Nat) : Byte := (x.sshiftRight shift &&& 0xff).setWidth 8

/-- `globus_l_ftp_control_data_encode`. -/
def dataEncode (x : OffT) : Vector Byte 8 :=
  #v[encodeByte x 56, encodeByte x 48, encodeByte x 40, encodeByte x 32, encodeByte x 24, encodeByte x 16, encodeByte x 8,
    encodeByte x 0]

/-- `globus_l_ftp_control_data_decode`. -/
def dataDecode (buf : Vector Byte 8) : OffT :=
  0 + buf[0].setWidth 64 <<< 56 + buf[1].setWidth 64 <<< 48 + buf[2].setWidth 64 <<< 40 + buf[3].setWidth 64 <<< 32 +
    buf[4].setWidth 64 <<< 24 + buf[5].setWidth 64 <<< 16 + buf[6].setWidth 64 <<< 8 + buf[7].setWidth 64

theorem toNat_encodeByte {x : OffT} {shift : Nat} (h : shift ≤ 56) :
    (encodeByte x shift).toNat = x.toNat / 2 ^ shift % 256 := by
  have hbyte : encodeByte x shift = (x >>> shift).setWidth 8 := by
    apply BitVec.eq_of_getLsbD_eq
    intro i hi
    have hmask : (0xff : OffT).getLsbD i = true := by
      interval_cases i <;> rfl
    have hlt : ¬64 ≤ i := by omega
    simp only [encodeByte, BitVec.getLsbD_setWidth, BitVec.getLsbD_and, BitVec.getLsbD_sshiftRight, hmask,
      BitVec.getLsbD_ushiftRight, Bool.and_true]
    rw [if_pos (by omega)]
    simp [hlt]
  rw [hbyte, BitVec.toNat_setWidth, BitVec.toNat_ushiftRight, Nat.shiftRight_eq_div_pow]

theorem dataDecode_dataEncode (x : OffT) : dataDecode (dataEncode x) = x := by
  apply BitVec.eq_of_toNat_eq
  simp [dataDecode, dataEncode, toNat_encodeByte, Nat.shiftLeft_eq]
  omega

end Globus.Ftp
