/-
The base64 coding of the control channel (gridftp/control/source/globus_ftp_control_client.c). The encoder carries the
bits of a byte that are left over to the next one, in three phases; the decoder carries bits in four. The buffers are large
enough, but the encoder counts what it writes in an `int`.
-/
import GlobusToolkit.Lib.CString

namespace Globus.Ftp

open Lib List
open BitVec (ofNat or_zero toNat ushiftRight_or_distrib zero_or)

/-! ## The functions -/

abbrev Byte := BitVec 8

def radixN : List Char := "ABCDEFGHIJKLMNOPQRSTUVWXYZabcdefghijklmnopqrstuvwxyz0123456789+/".toList

def pad : Char := '='

/-- `radixN[d]`. -/
def radixChar (d : Byte) : Char := radixN.getD d.toNat '\x00'

/-- The index, the output and the bits that are carried in the loop of the encoder. -/
structure EncodeState where
  i : Nat
  outbuf : List Char
  c : Byte

/-- One time around the loop. -/
def EncodeState.step (s : EncodeState) (b : Byte) : EncodeState :=
  match s.i % 3 with
  | 0 => ⟨s.i + 1, s.outbuf ++ [radixChar (b >>> 2)], (b &&& 3) <<< 4⟩
  | 1 => ⟨s.i + 1, s.outbuf ++ [radixChar (s.c ||| b >>> 4)], (b &&& 15) <<< 2⟩
  | _ => ⟨s.i + 1, s.outbuf ++ [radixChar (s.c ||| b >>> 6), radixChar (b &&& 63)], 0⟩

/-- What is written behind the loop. -/
def EncodeState.finish (s : EncodeState) : List Char :=
  let outbuf := if s.i % 3 ≠ 0 then s.outbuf ++ [radixChar s.c] else s.outbuf
  match s.i % 3 with
  | 1 => outbuf ++ [pad, pad]
  | 2 => outbuf ++ [pad]
  | _ => outbuf

/-- `globus_i_ftp_control_radix_encode`, with what is in `c` before it is set. The index `j` is the length of what is
written: an `int` that grows with each character, and overflows if all of them are more than it holds. -/
def radixEncode (c : Byte) (inbuf : List Byte) : Option (List Char) :=
  let outbuf := (inbuf.foldl EncodeState.step ⟨0, [], c⟩).finish
  if outbuf.length < 2 ^ 31 then some outbuf else none

/-- The errors of the decoder. -/
inductive RadixError where
  | charset
  | padding
  deriving DecidableEq, Repr

/-- The index, the output up to it, the byte `outbuf[j]` that has some of its bits, and the last digit. -/
structure DecodeState where
  i : Nat
  outbuf : List Byte
  last : Byte
  D : Nat

/-- One time around the loop, with the digit of a character. -/
def DecodeState.step (s : DecodeState) (D : Nat) : DecodeState :=
  match s.i % 4 with
  | 0 => ⟨s.i + 1, s.outbuf, ofNat 8 (D <<< 2), D⟩
  | 1 => ⟨s.i + 1, s.outbuf ++ [s.last ||| ofNat 8 (D >>> 4)], ofNat 8 ((D &&& 15) <<< 4), D⟩
  | 2 => ⟨s.i + 1, s.outbuf ++ [s.last ||| ofNat 8 (D >>> 2)], ofNat 8 ((D &&& 3) <<< 6), D⟩
  | _ => ⟨s.i + 1, s.outbuf ++ [s.last ||| ofNat 8 D], s.last, D⟩

/-- `strchr(radixN, ch) - radixN`. -/
def radixIndex (ch : Char) : Option Nat := (strchr ch radixN).map fun p => radixN.length - p.length

/-- The switch behind the loop, where `rest` has not been read. -/
def DecodeState.finish (s : DecodeState) (rest : List Char) : Except RadixError (List Byte) :=
  match s.i % 4 with
  | 1 => .error .padding
  | 2 => if s.D &&& 15 ≠ 0 ∨ rest ≠ ['=', '='] then .error .padding else .ok s.outbuf
  | 3 => if s.D &&& 3 ≠ 0 ∨ rest ≠ ['='] then .error .padding else .ok s.outbuf
  | _ => .ok s.outbuf

/-- The loop of the decoder. -/
def decodeLoop (s : DecodeState) : List Char → Except RadixError (List Byte)
  | [] => s.finish []
  | ch :: rest =>
    if ch = pad then s.finish (ch :: rest)
    else
      match radixIndex ch with
      | none => .error .charset
      | some D => decodeLoop (s.step D) rest

/-- `globus_i_ftp_control_radix_decode`, with what is in the output buffer and in `D` before they are set. -/
def radixDecode (last : Byte) (D : Nat) (inbuf : List Char) : Except RadixError (List Byte) :=
  decodeLoop ⟨0, [], last, D⟩ (cstr inbuf)

/-! ## Groups of three bytes -/

/-- The digits of three bytes. -/
def quad (a b c : Byte) : List Byte := [a >>> 2, (a &&& 3) <<< 4 ||| b >>> 4, (b &&& 15) <<< 2 ||| c >>> 6, c &&& 63]

/-- The digits of a text; the last group may be short. -/
def digits : List Byte → List Byte
  | a :: b :: c :: x => quad a b c ++ digits x
  | [a, b] => [a >>> 2, (a &&& 3) <<< 4 ||| b >>> 4, (b &&& 15) <<< 2]
  | [a] => [a >>> 2, (a &&& 3) <<< 4]
  | [] => []

/-- The padding of a text. -/
def padding (x : List Byte) : List Char := List.replicate ((3 - x.length % 3) % 3) pad

open DecodeState

theorem padding_cons (a b c : Byte) (x : List Byte) : padding (a :: b :: c :: x) = padding x := by
  have hlength : (a :: b :: c :: x).length = x.length + 3 := rfl
  rw [padding, padding, hlength, Nat.add_mod_right]

theorem finish_foldl_step : ∀ (x : List Byte) {s : EncodeState}, s.i % 3 = 0 →
    (x.foldl EncodeState.step s).finish = s.outbuf ++ ((digits x).map radixChar ++ padding x)
  | a :: b :: c :: x, s, hs => by
    have h1 : (s.i + 1) % 3 = 1 := by omega
    have h2 : (s.i + 1 + 1) % 3 = 2 := by omega
    have hgroup : [a, b, c].foldl EncodeState.step s =
        ⟨s.i + 3, s.outbuf ++ (quad a b c).map radixChar, 0⟩ := by
      simp [EncodeState.step, hs, h1, h2, quad]
    rw [show a :: b :: c :: x = [a, b, c] ++ x from rfl, foldl_append, hgroup,
      finish_foldl_step x (s := ⟨s.i + 3, _, _⟩) ((Nat.add_mod_right s.i 3).trans hs)]
    simp [digits, padding_cons]
  | [a, b], s, hs => by
    have h1 : (s.i + 1) % 3 = 1 := by omega
    have h2 : (s.i + 1 + 1) % 3 = 2 := by omega
    simp [EncodeState.step, EncodeState.finish, hs, h1, h2, digits, padding]
  | [a], s, hs => by
    have h1 : (s.i + 1) % 3 = 1 := by omega
    simp [EncodeState.step, EncodeState.finish, hs, h1, digits, padding]
  | [], s, hs => by simp [EncodeState.finish, hs, digits, padding]

/-- What the encoder writes. -/
def radixText (x : List Byte) : List Char := (digits x).map radixChar ++ padding x

/-! ## Digits -/

theorem radixN_props : radixN.Nodup ∧ radixN.length = 64 ∧ pad ∉ radixN := by decide +kernel

theorem toNat_lt_of_digit {d : Byte} : d >>> 6 = 0 ↔ d.toNat < radixN.length := by
  rw [radixN_props.2.1, ← BitVec.toNat_inj, BitVec.toNat_ushiftRight, Nat.shiftRight_eq_div_pow]
  exact Nat.div_eq_zero_iff_lt (by decide)

theorem radixChar_digit {d : Byte} (hd : d >>> 6 = 0) :
    radixIndex (radixChar d) = some d.toNat ∧ radixChar d ∈ radixN ∧ radixChar d ≠ pad := by
  obtain ⟨hnodup, -, hpad⟩ := radixN_props
  have hlt := toNat_lt_of_digit.1 hd
  have hchar : radixChar d = radixN[d.toNat] := (getElem_eq_getD _).symm
  have hmem : radixChar d ∈ radixN := hchar ▸ getElem_mem hlt
  have hsplit : radixN.take d.toNat ++ radixChar d :: radixN.drop (d.toNat + 1) = radixN := by
    rw [hchar, ← drop_eq_getElem_cons hlt, take_append_drop]
  have hfirst : radixChar d ∉ radixN.take d.toNat := fun h => by
    rw [← hsplit] at hnodup
    exact disjoint_of_nodup_append hnodup h mem_cons_self
  refine ⟨?_, hmem, fun h => hpad (h ▸ hmem)⟩
  have hstr := strchr_append hfirst (radixN.drop (d.toNat + 1))
  rw [hsplit] at hstr
  rw [radixIndex, hstr, Option.map_some, length_cons, length_drop]
  congr 1
  omega

theorem digits_lt : ∀ x : List Byte, ∀ d ∈ digits x, d >>> 6 = 0 := by
  have hbits : ∀ a : Byte, (a >>> 2) >>> 6 = 0 ∧ ((a &&& 3) <<< 4) >>> 6 = 0 ∧ ((a &&& 15) <<< 2) >>> 6 = 0 ∧
      (a >>> 4) >>> 6 = 0 ∧ (a >>> 6) >>> 6 = 0 ∧ (a &&& 63) >>> 6 = 0 := by
    decide +kernel
  intro x
  fun_induction digits x with
  | case1 a b c x ih =>
    simp only [quad, cons_append, nil_append, forall_mem_cons, ushiftRight_or_distrib, hbits,
      BitVec.or_self, true_and]
    exact ih
  | case2 a b =>
    simp only [forall_mem_cons, ushiftRight_or_distrib, hbits, BitVec.or_self, true_and]
    simp
  | case3 a =>
    simp only [forall_mem_cons, hbits, true_and]
    simp
  | case4 => simp

theorem mem_radixN (x : List Byte) : ∀ ch ∈ (digits x).map radixChar, ch ∈ radixN := by
  intro ch hch
  obtain ⟨d, hd, rfl⟩ := mem_map.1 hch
  exact (radixChar_digit (digits_lt x d hd)).2.1

theorem DecodeState.step_digit (s : DecodeState) (d : Byte) : s.step d.toNat =
    match s.i % 4 with
    | 0 => ⟨s.i + 1, s.outbuf, d <<< 2, d.toNat⟩
    | 1 => ⟨s.i + 1, s.outbuf ++ [s.last ||| d >>> 4], (d &&& 15) <<< 4, d.toNat⟩
    | 2 => ⟨s.i + 1, s.outbuf ++ [s.last ||| d >>> 2], (d &&& 3) <<< 6, d.toNat⟩
    | _ => ⟨s.i + 1, s.outbuf ++ [s.last ||| d], s.last, d.toNat⟩ := by
  have hshift : ∀ d : Byte, ofNat 8 (d.toNat <<< 2) = d <<< 2 ∧ ofNat 8 (d.toNat >>> 4) = d >>> 4 ∧
      ofNat 8 (d.toNat >>> 2) = d >>> 2 ∧ ofNat 8 ((d.toNat &&& 15) <<< 4) = (d &&& 15) <<< 4 ∧
      ofNat 8 ((d.toNat &&& 3) <<< 6) = (d &&& 3) <<< 6 := by
    decide +kernel
  simp only [step, hshift, BitVec.ofNat_toNat, BitVec.setWidth_eq]

theorem decodeLoop_digit {s : DecodeState} {d : Byte} (hd : d >>> 6 = 0) (rest : List Char) :
    decodeLoop s (radixChar d :: rest) = decodeLoop (s.step d.toNat) rest := by
  obtain ⟨hindex, -, hpad⟩ := radixChar_digit hd
  rw [decodeLoop, if_neg hpad, hindex]

theorem decodeLoop_digits : ∀ {ds : List Byte}, (∀ d ∈ ds, d >>> 6 = 0) → ∀ {s : DecodeState} (rest : List Char),
    decodeLoop s (ds.map radixChar ++ rest) = decodeLoop (ds.foldl (fun s d => s.step d.toNat) s) rest
  | [], _, s, rest => rfl
  | d :: ds, h, s, rest => by
    obtain ⟨hd, hds⟩ := forall_mem_cons.1 h
    rw [map_cons, cons_append, decodeLoop_digit hd, decodeLoop_digits hds]
    rfl

/-! ## The bytes from their digits -/

theorem byte_or_and (x y m : Byte) : (x ||| y) &&& m = x &&& m ||| y &&& m := by
  rw [BitVec.and_comm, BitVec.and_or_distrib_left, BitVec.and_comm m x, BitVec.and_comm m y]

/-- The bits of a byte in its digits, put together, and those of another byte that are shifted out or masked. -/
theorem byte_bits : ∀ a : Byte,
    ((a >>> 2) <<< 2 ||| ((a &&& 3) <<< 4) >>> 4 = a ∧ (a >>> 4) >>> 4 = 0#8) ∧
    ((a >>> 4 &&& 15) <<< 4 ||| ((a &&& 15) <<< 2) >>> 2 = a ∧ (a &&& 3) <<< 4 &&& 15 = 0#8 ∧ (a >>> 6) >>> 2 = 0#8) ∧
    (a >>> 6 &&& 3) <<< 6 ||| (a &&& 63) = a ∧ (a &&& 15) <<< 2 &&& 3 = 0#8 := by
  decide +kernel

theorem first_bits (a : Byte) : (a >>> 2) <<< 2 ||| ((a &&& 3) <<< 4) >>> 4 = a := (byte_bits a).1.1

theorem first_byte (a b : Byte) : (a >>> 2) <<< 2 ||| ((a &&& 3) <<< 4 ||| b >>> 4) >>> 4 = a := by
  rw [ushiftRight_or_distrib, (byte_bits b).1.2, or_zero, first_bits]

/-- The upper four bits, with bits of the byte before, and the lower four. -/
theorem second_bits (a b : Byte) :
    (((a &&& 3) <<< 4 ||| b >>> 4) &&& 15) <<< 4 ||| ((b &&& 15) <<< 2) >>> 2 = b := by
  rw [byte_or_and, (byte_bits a).2.1.2.1, zero_or, (byte_bits b).2.1.1]

theorem second_byte (a b c : Byte) :
    (((a &&& 3) <<< 4 ||| b >>> 4) &&& 15) <<< 4 ||| ((b &&& 15) <<< 2 ||| c >>> 6) >>> 2 = b := by
  rw [ushiftRight_or_distrib, (byte_bits c).2.1.2.2, or_zero, second_bits]

/-- The upper two bits, with bits of the byte before, and the lower six. -/
theorem third_byte (b c : Byte) : (((b &&& 15) <<< 2 ||| c >>> 6) &&& 3) <<< 6 ||| (c &&& 63) = c := by
  rw [byte_or_and, (byte_bits b).2.2.2, zero_or, (byte_bits c).2.2.1]

theorem decodeLoop_padding : ∀ (x : List Byte) {s : DecodeState}, s.i % 4 = 0 →
    decodeLoop ((digits x).foldl (fun s d => s.step d.toNat) s) (padding x) = .ok (s.outbuf ++ x)
  | a :: b :: c :: x, s, hs => by
    have h1 : (s.i + 1) % 4 = 1 := by omega
    have h2 : (s.i + 1 + 1) % 4 = 2 := by omega
    have h3 : (s.i + 1 + 1 + 1) % 4 = 3 := by omega
    have hgroup : (quad a b c).foldl (fun s d => s.step d.toNat) s = ⟨s.i + 4, s.outbuf ++ [a, b, c],
        (((b &&& 15) <<< 2 ||| c >>> 6) &&& 3) <<< 6, (c &&& 63).toNat⟩ := by
      simp only [quad, foldl_cons, foldl_nil, step_digit, hs, h1, h2, h3, first_byte, second_byte,
        third_byte, append_assoc, cons_append, nil_append]
    rw [digits, foldl_append, hgroup, padding_cons,
      decodeLoop_padding x (s := ⟨s.i + 4, _, _, _⟩) ((Nat.add_mod_right s.i 4).trans hs)]
    simp
  | [a, b], s, hs => by
    have hzero : ((b &&& 15) <<< 2).toNat &&& 3 = 0 := congrArg toNat (byte_bits b).2.2.2
    have h1 : (s.i + 1) % 4 = 1 := by omega
    have h2 : (s.i + 1 + 1) % 4 = 2 := by omega
    have h3 : (s.i + 1 + 1 + 1) % 4 = 3 := by omega
    have hgroup : (digits [a, b]).foldl (fun s d => s.step d.toNat) s = ⟨s.i + 3, s.outbuf ++ [a, b],
        ((b &&& 15) <<< 2 &&& 3) <<< 6, ((b &&& 15) <<< 2).toNat⟩ := by
      simp only [digits, foldl_cons, foldl_nil, step_digit, hs, h1, h2, first_byte, second_bits,
        append_assoc, cons_append, nil_append]
    have hpadding : padding [a, b] = ['='] := rfl
    rw [hgroup, hpadding, decodeLoop, if_pos (show '=' = pad from rfl), finish]
    simp only [h3, hzero, ne_eq, not_true, or_self, if_false]
  | [a], s, hs => by
    have hzero : ((a &&& 3) <<< 4).toNat &&& 15 = 0 := congrArg toNat (byte_bits a).2.1.2.1
    have h1 : (s.i + 1) % 4 = 1 := by omega
    have h2 : (s.i + 1 + 1) % 4 = 2 := by omega
    have hgroup : (digits [a]).foldl (fun s d => s.step d.toNat) s = ⟨s.i + 2, s.outbuf ++ [a],
        ((a &&& 3) <<< 4 &&& 15) <<< 4, ((a &&& 3) <<< 4).toNat⟩ := by
      simp only [digits, foldl_cons, foldl_nil, step_digit, hs, h1, first_bits]
    have hpadding : padding [a] = ['=', '='] := rfl
    rw [hgroup, hpadding, decodeLoop, if_pos (show '=' = pad from rfl), finish]
    simp only [h2, hzero, ne_eq, not_true, or_self, if_false]
  | [], s, hs => by simp [digits, padding, decodeLoop, finish, hs]

/-! ## The round trip -/

theorem length_digits_padding : ∀ x : List Byte, (digits x).length + (padding x).length = 4 * ((x.length + 2) / 3)
  | a :: b :: c :: x => by
    have ih := length_digits_padding x
    rw [padding_cons, digits, length_append]
    simp only [quad, length_cons, length_nil]
    omega
  | [_, _] => by simp [digits, padding]
  | [_] => by simp [digits, padding]
  | [] => rfl

theorem length_radixText (x : List Byte) : (radixText x).length = 4 * ((x.length + 2) / 3) := by
  rw [radixText, length_append, length_map, length_digits_padding]

theorem radixEncode_eq (c : Byte) (x : List Byte) :
    radixEncode c x = if x.length ≤ 1610612733 then some (radixText x) else none := by
  have htext : (x.foldl EncodeState.step ⟨0, [], c⟩).finish = radixText x := finish_foldl_step x rfl
  have hlen : 4 * ((x.length + 2) / 3) < 2 ^ 31 ↔ x.length ≤ 1610612733 := by omega
  simp only [radixEncode, htext, length_radixText, hlen]

/-- The encoder writes four characters for each three bytes, the last of them padded, and the decoder gives the bytes
back, exactly if there are no more bytes than the encoder can count the characters of. -/
theorem radix_roundTrip_iff (c last : Byte) (D : Nat) (x : List Byte) :
    (∃ s, radixEncode c x = some s ∧ s.length = 4 * ((x.length + 2) / 3) ∧
      (∃ body pads : List Char, s = body ++ pads ∧ (∀ ch ∈ body, ch ∈ radixN) ∧ ∀ ch ∈ pads, ch = pad) ∧
      radixDecode last D s = .ok x) ↔ x.length ≤ 1610612733 := by
  have hlt := digits_lt x
  have hbody := mem_radixN x
  have hpads : ∀ ch ∈ padding x, ch = pad := fun ch hch => eq_of_mem_replicate hch
  have hnul : '\x00' ∉ radixText x := by
    intro h
    rcases mem_append.1 h with h | h
    · exact absurd (hbody _ h) (by decide)
    · exact absurd (hpads _ h) (by decide)
  rw [radixEncode_eq]
  constructor
  · rintro ⟨s, hs, -⟩
    split at hs
    · assumption
    · cases hs
  · refine fun hlen => ⟨_, if_pos hlen, length_radixText x, ⟨_, _, rfl, hbody, hpads⟩, ?_⟩
    rw [radixDecode, cstr_eq_self hnul, radixText, decodeLoop_digits hlt, decodeLoop_padding x rfl]
    rfl

/-- One byte more, and the count of the characters overflows. -/
theorem radixEncode_overflow : radixEncode 0 (List.replicate 1610612734 0) = none := by
  rw [radixEncode_eq, length_replicate]
  rfl

/-! ## The strings that are accepted -/

/-- The bits of a digit in the bytes that it is part of, put together, and those of its neighbours in them. -/
theorem digit_bits : ∀ d : Byte, d >>> 6 = 0 →
    ((d <<< 2) >>> 2 = d ∧ (d >>> 4) >>> 2 = 0#8 ∧ d <<< 2 &&& 3 = 0#8) ∧
    ((d >>> 4 &&& 3) <<< 4 ||| ((d &&& 15) <<< 4) >>> 4 = d ∧ (d >>> 2) >>> 4 = 0#8 ∧ (d &&& 15) <<< 4 &&& 15 = 0#8) ∧
    (d >>> 2 &&& 15) <<< 2 ||| ((d &&& 3) <<< 6) >>> 6 = d ∧ (d &&& 3) <<< 6 &&& 63 = 0#8 ∧ d >>> 6 = 0#8 ∧ d &&& 63 = d := by
  decide +kernel

theorem quad_bytes {d₁ d₂ d₃ d₄ : Byte} (h₁ : d₁ >>> 6 = 0) (h₂ : d₂ >>> 6 = 0) (h₃ : d₃ >>> 6 = 0) (h₄ : d₄ >>> 6 = 0) :
    quad (d₁ <<< 2 ||| d₂ >>> 4) ((d₂ &&& 15) <<< 4 ||| d₃ >>> 2) ((d₃ &&& 3) <<< 6 ||| d₄) = [d₁, d₂, d₃, d₄] := by
  simp only [quad, ushiftRight_or_distrib, byte_or_and, digit_bits _ h₁, digit_bits _ h₂, digit_bits _ h₃,
    digit_bits _ h₄, or_zero, zero_or]

theorem DecodeState.step_i_D (s : DecodeState) (D : Nat) : (s.step D).i = s.i + 1 ∧ (s.step D).D = D := by
  unfold step
  split <;> exact ⟨rfl, rfl⟩

/-- The digits that the decoder accepts are those of some bytes, and what it has not read is their padding unless it stands
behind complete groups. -/
theorem exists_digits : ∀ {ds : List Byte}, (∀ d ∈ ds, d >>> 6 = 0) → ∀ {s : DecodeState} {rest : List Char}
    {x : List Byte}, s.i % 4 = 0 → (ds.foldl (fun s d => s.step d.toNat) s).finish rest = .ok x →
    ∃ y, digits y = ds ∧ (rest = padding y ∨ y.length % 3 = 0)
  | d₁ :: d₂ :: d₃ :: d₄ :: ds, hlt, s, rest, x, hs, h => by
    simp only [forall_mem_cons] at hlt
    obtain ⟨h₁, h₂, h₃, h₄, hlt⟩ := hlt
    obtain ⟨y, hy, hrest⟩ := exists_digits hlt (by simp only [step_i_D]; omega) h
    refine ⟨(d₁ <<< 2 ||| d₂ >>> 4) :: ((d₂ &&& 15) <<< 4 ||| d₃ >>> 2) :: ((d₃ &&& 3) <<< 6 ||| d₄) :: y, ?_, ?_⟩
    · rw [digits, quad_bytes h₁ h₂ h₃ h₄, hy]
      rfl
    · rw [padding_cons]
      exact hrest.imp_right (Nat.add_mod_right y.length 3).trans
  | [d₁, d₂, d₃], hlt, s, rest, x, hs, h => by
    simp only [forall_mem_cons] at hlt
    obtain ⟨h₁, h₂, h₃, -⟩ := hlt
    have h3 : (s.i + 1 + 1 + 1) % 4 = 3 := by omega
    simp only [foldl_cons, foldl_nil, finish, step_i_D, h3] at h
    split at h
    case isTrue => cases h
    case isFalse hpad =>
      obtain ⟨hzero, hrest⟩ := not_or.1 hpad
      have hbits : d₃ &&& 3 = 0 := BitVec.eq_of_toNat_eq (not_not.1 hzero)
      have hquad := @quad_bytes d₁ d₂ d₃ 0 h₁ h₂ h₃ rfl
      rw [hbits] at hquad
      refine ⟨[d₁ <<< 2 ||| d₂ >>> 4, (d₂ &&& 15) <<< 4 ||| d₃ >>> 2], ?_, .inl (not_not.1 hrest)⟩
      simpa [quad, digits] using hquad
  | [d₁, d₂], hlt, s, rest, x, hs, h => by
    simp only [forall_mem_cons] at hlt
    obtain ⟨h₁, h₂, -⟩ := hlt
    have h2 : (s.i + 1 + 1) % 4 = 2 := by omega
    simp only [foldl_cons, foldl_nil, finish, step_i_D, h2] at h
    split at h
    case isTrue => cases h
    case isFalse hpad =>
      obtain ⟨hzero, hrest⟩ := not_or.1 hpad
      have hbits : d₂ &&& 15 = 0 := BitVec.eq_of_toNat_eq (not_not.1 hzero)
      have hquad := @quad_bytes d₁ d₂ 0 0 h₁ h₂ rfl rfl
      rw [hbits] at hquad
      refine ⟨[d₁ <<< 2 ||| d₂ >>> 4], ?_, .inl (not_not.1 hrest)⟩
      simpa [quad, digits] using hquad
  | [d], _, s, rest, x, hs, h => by
    have h1 : (s.i + 1) % 4 = 1 := by omega
    simp [step_i_D, h1, finish] at h
  | [], _, _, _, _, _, _ => ⟨[], rfl, .inr rfl⟩

theorem exists_digit {ch : Char} (h : ch ∈ radixN) : ∃ d : Byte, d >>> 6 = 0 ∧ radixChar d = ch := by
  obtain ⟨i, hi, rfl⟩ := getElem_of_mem h
  have hd : (ofNat 8 i).toNat = i := Nat.mod_eq_of_lt (hi.trans (by decide +kernel))
  exact ⟨ofNat 8 i, toNat_lt_of_digit.2 (hd.symm ▸ hi), by rw [radixChar, hd, getElem_eq_getD '\x00']⟩

theorem decodeLoop_ok : ∀ {cs : List Char} {s : DecodeState} {x : List Byte}, decodeLoop s cs = .ok x →
    ∃ (ds : List Byte) (rest : List Char), (∀ d ∈ ds, d >>> 6 = 0) ∧ cs = ds.map radixChar ++ rest ∧
      (∀ c ∈ rest.head?, c = pad) ∧ (ds.foldl (fun s d => s.step d.toNat) s).finish rest = .ok x
  | [], s, x, h => ⟨[], [], by simp, rfl, by simp, h⟩
  | ch :: cs, s, x, h => by
    by_cases hpad : ch = pad
    · rw [decodeLoop, if_pos hpad] at h
      exact ⟨[], ch :: cs, by simp, rfl, by simpa using hpad, h⟩
    · have hmem : ch ∈ radixN := by
        by_contra hnot
        rw [decodeLoop, if_neg hpad, radixIndex, strchr_eq_none hnot] at h
        cases h
      obtain ⟨d, hd, rfl⟩ := exists_digit hmem
      rw [decodeLoop_digit hd] at h
      obtain ⟨ds, rest, hds, rfl, hrest, hfinish⟩ := decodeLoop_ok h
      exact ⟨d :: ds, rest, forall_mem_cons.2 ⟨hd, hds⟩, rfl, hrest, hfinish⟩

/-- What is decoded is written as it was exactly if no padding stands behind complete groups of four characters: there the
decoder looks at nothing that follows. -/
theorem radixText_eq_cstr_iff {last : Byte} {D : Nat} {s : List Char} {x : List Byte} (h : radixDecode last D s = .ok x) :
    radixText x = cstr s ↔ pad ∉ cstr s ∨ ((cstr s).takeWhile (· ≠ pad)).length % 4 ≠ 0 := by
  have hne : ∀ z, ∀ ch ∈ (digits z).map radixChar, ch ≠ pad := fun z ch hch h =>
    radixN_props.2.2 (h ▸ mem_radixN z ch hch)
  have hread : ∀ z {t : List Char}, (∀ ch ∈ t.head?, ch = pad) →
      ((digits z).map radixChar ++ t).takeWhile (· ≠ pad) = (digits z).map radixChar := fun z t ht =>
    takeWhile_append_of_head (fun ch hch => by simpa using hne z ch hch) fun ch hch => by simpa using ht ch hch
  have htotal : ∀ z, (digits z).length + (3 - z.length % 3) % 3 = 4 * ((z.length + 2) / 3) := fun z => by
    simpa only [padding, length_replicate] using length_digits_padding z
  rw [radixDecode] at h
  generalize cstr s = cs at h ⊢
  obtain ⟨ds, rest, hds, rfl, hrest, hfinish⟩ := decodeLoop_ok h
  obtain ⟨y, rfl, hpad⟩ := exists_digits hds rfl hfinish
  constructor
  · intro henc
    have hpads : ∀ ch ∈ (padding x).head?, ch = pad := fun ch hch => eq_of_mem_replicate (mem_of_mem_head? hch)
    rw [← henc, radixText, hread x hpads, length_map]
    by_cases hx : x.length % 3 = 0
    · left
      simpa [padding, hx] using fun d hd => hne x _ (mem_map_of_mem hd)
    · right
      have := htotal x
      omega
  · intro hcond
    have hpadding : rest = padding y := by
      refine hpad.elim id fun hy => ?_
      cases rest with
      | nil => simp [padding, hy]
      | cons ch rest =>
        obtain rfl : ch = pad := hrest ch rfl
        rw [hread y hrest, length_map] at hcond
        have := htotal y
        exact absurd hcond (by simp; omega)
    rw [hpadding, decodeLoop_digits hds, decodeLoop_padding y rfl] at h
    cases h
    rw [radixText, hpadding]
    rfl

/-- What is decoded is encoded as it was exactly if the encoder can count it and no padding stands behind complete groups. -/
theorem radixDecode_canonical_iff {last : Byte} {D : Nat} {s : List Char} {x : List Byte}
    (h : radixDecode last D s = .ok x) (c : Byte) : radixEncode c x = some (cstr s) ↔
      (cstr s).length < 2 ^ 31 ∧ (pad ∉ cstr s ∨ ((cstr s).takeWhile (· ≠ pad)).length % 4 ≠ 0) := by
  rw [← radixText_eq_cstr_iff h, radixEncode_eq]
  have hlen := length_radixText x
  constructor
  · intro henc
    split at henc
    · next hle =>
      have heq := Option.some.inj henc
      exact ⟨by rw [← heq]; omega, heq⟩
    · cases henc
  · rintro ⟨hlt, heq⟩
    rw [heq] at hlen
    rw [if_pos (by omega), heq]

theorem radixDecode_canonical_group : radixEncode 0 [0x4d#8, 0x61#8, 0x6e#8] = some (cstr "TWFu".toList) :=
  (radixDecode_canonical_iff (show radixDecode 0 0 "TWFu".toList = _ by decide) 0).2 ⟨by decide, .inl (by decide)⟩

theorem radixDecode_padded :
    radixDecode 0 0 "TWFu=".toList = .ok [0x4d#8, 0x61#8, 0x6e#8] ∧
      radixEncode 0 [0x4d#8, 0x61#8, 0x6e#8] ≠ some (cstr "TWFu=".toList) := by
  decide

end Globus.Ftp
