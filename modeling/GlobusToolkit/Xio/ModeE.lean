/-
The mode E driver of XIO (xio/src/builtins/mode_e/globus_xio_mode_e_driver.c): the headers of its blocks, which the FTP
control library at the other end reads, and the functions of its table of connections by offset. An offset of 64 bits is
compared as a string of the bytes it has in memory, the lowest one first.
-/
import GlobusToolkit.Common.HashTableRun
import GlobusToolkit.Ftp.ExtendedBlock

namespace Globus.Xio.ModeE

open Ftp

/-! ## Headers -/

/-- `globus_i_xio_mode_e_header_encode`, with `i = 8 - j`. -/
def modeEHeaderEncode (x : OffT) : Vector Byte 8 := Vector.ofFn fun j => encodeByte x ((8 - j - 1) * 8)

/-- `globus_i_xio_mode_e_header_decode`. -/
def modeEHeaderDecode (buf : Vector Byte 8) : OffT :=
  (List.finRange 8).foldl (fun x (i : Fin 8) => x + shifted buf[i] ((8 - i - 1) * 8)) 0
where
  shifted (b : Byte) (n : Nat) : OffT := b.setWidth 64 <<< n

theorem dataEncode_dataDecode (buf : Vector Byte 8) : dataEncode (dataDecode buf) = buf := by
  have hvalue : (dataDecode buf).toNat =
      buf[0].toNat * 2 ^ 56 + buf[1].toNat * 2 ^ 48 + buf[2].toNat * 2 ^ 40 + buf[3].toNat * 2 ^ 32 +
        buf[4].toNat * 2 ^ 24 + buf[5].toNat * 2 ^ 16 + buf[6].toNat * 2 ^ 8 + buf[7].toNat := by
    simp [dataDecode, Nat.shiftLeft_eq]
    omega
  ext1 i hi
  apply BitVec.eq_of_toNat_eq
  interval_cases i
  all_goals
    refine (toNat_encodeByte (by decide)).trans ?_
    omega

theorem modeEHeaderEncode_eq (x : OffT) : modeEHeaderEncode x = dataEncode x := by
  ext1 i hi
  interval_cases i <;> rfl

theorem modeEHeaderDecode_eq (buf : Vector Byte 8) : modeEHeaderDecode buf = dataDecode buf := by
  simp [modeEHeaderDecode, modeEHeaderDecode.shifted, dataDecode, List.finRange_succ]

/-- The headers of the two libraries are the same bytes, and each reads what the other writes. -/
theorem modeE_wire_compatible :
    (∀ x : OffT, modeEHeaderEncode x = dataEncode x ∧ modeEHeaderDecode (dataEncode x) = x ∧ dataDecode (dataEncode x) = x) ∧
    ∀ buf : Vector Byte 8, modeEHeaderDecode buf = dataDecode buf ∧ dataEncode (dataDecode buf) = buf := by
  refine ⟨fun x => ⟨modeEHeaderEncode_eq x, ?_, dataDecode_dataEncode x⟩, fun buf => ⟨modeEHeaderDecode_eq buf, ?_⟩⟩
  · rw [modeEHeaderDecode_eq, dataDecode_dataEncode]
  · exact dataEncode_dataDecode buf

/-! ## The table of offsets -/

/-- The bytes of an offset in memory. -/
def offsetBytes (x : OffT) : List Byte := (List.range 8).map fun i => (x >>> (8 * i)).setWidth 8

/-- `globus_l_xio_mode_e_hashtable_offset_hash`, with characters that have a sign. -/
def offsetHash (x : OffT) (limit : Nat) : Nat :=
  ((offsetBytes x).foldl step 0).toNat % limit
where
  step (h : BitVec 64) (key : Byte) : BitVec 64 :=
    let h := h <<< 4 + key.signExtend 64
    let g := h &&& 0xF0
    if g ≠ 0 then (h ^^^ g >>> 24) ^^^ g else h

/-- `strncmp(xs, ys, n) == 0`, with the first `n` bytes of the two. -/
def strncmpZero : List Byte → List Byte → Bool
  | x :: xs, y :: ys => x = y && (x = 0 || strncmpZero xs ys)
  | _, _ => true

/-- `globus_l_xio_mode_e_hashtable_offset_keyeq`. -/
def offsetKeyeq (x y : OffT) : Bool := strncmpZero (offsetBytes x) (offsetBytes y)

/-- The bytes of two offsets are the same up to a null byte. -/
def SameToNul (x y : OffT) : Prop :=
  ∃ us vs ws, offsetBytes x = us ++ 0 :: vs ∧ offsetBytes y = us ++ 0 :: ws

theorem strncmpZero_iff : ∀ {xs ys : List Byte}, xs.length = ys.length →
    (strncmpZero xs ys ↔ xs = ys ∨ ∃ us vs ws, xs = us ++ 0 :: vs ∧ ys = us ++ 0 :: ws)
  | [], [], _ => by simp [strncmpZero]
  | x :: xs, y :: ys, h => by
    rw [strncmpZero, Bool.and_eq_true, Bool.or_eq_true, decide_eq_true_eq, decide_eq_true_eq,
      strncmpZero_iff (Nat.succ.inj h)]
    constructor
    · rintro ⟨rfl, rfl | rfl | ⟨us, vs, ws, rfl, rfl⟩⟩
      · exact .inr ⟨[], xs, ys, rfl, rfl⟩
      · exact .inl rfl
      · exact .inr ⟨x :: us, vs, ws, rfl, rfl⟩
    · rintro (heq | ⟨_ | ⟨u, us⟩, vs, ws, hx, hy⟩)
      · cases heq
        exact ⟨rfl, .inr (.inl rfl)⟩
      · cases hx
        cases hy
        exact ⟨rfl, .inl rfl⟩
      · cases hx
        cases hy
        exact ⟨rfl, .inr (.inr ⟨us, vs, ws, rfl, rfl⟩)⟩

theorem offsetBytes_injective : Function.Injective offsetBytes := by
  intro x y h
  apply BitVec.eq_of_getLsbD_eq
  intro i hi
  have hbyte : (x >>> (8 * (i / 8))).setWidth 8 = (y >>> (8 * (i / 8))).setWidth 8 :=
    List.map_inj_left.1 h (i / 8) (List.mem_range.2 (by omega))
  have hbit := congrArg (fun b : Byte => b.getLsbD (i % 8)) hbyte
  simpa [Nat.mod_lt, show i % 8 < 8 by omega, Nat.div_add_mod] using hbit

theorem offsetKeyeq_iff (x y : OffT) : offsetKeyeq x y ↔ x = y ∨ SameToNul x y := by
  rw [offsetKeyeq, strncmpZero_iff (by simp [offsetBytes]), offsetBytes_injective.eq_iff]
  rfl

/-- Among the offsets of a set: equal keys are equal offsets, the index is inside of the table, and in every run on a table
and its copies an entry that is found is one of the offset that is asked for. This is so exactly if no two of them
have the same bytes up to a null byte. -/
theorem offsetTable_iff {C : Type} (S : Set OffT) {size : Nat} (hsize : 0 < size) (mem : Nat → HashEntry S C) :
    ((∀ x y : S, offsetKeyeq x y ↔ x = y) ∧ (∀ x : S, offsetHash x size < size) ∧
      ∀ (calls : List (Nat × HashOp (fun x y : S => offsetKeyeq x y) C)) (fuel : Nat), calls.length < fuel →
        ∃ ts, hashRun (fun x : S => offsetHash x) fuel mem size calls = some ts ∧
          List.Forall₂ (fun t m => (∃ l, t.Refines (fun x : S => offsetHash x) (fun x y : S => offsetKeyeq x y) fuel m l) ∧
            ∀ x e, m x = some e → e.1 = x) ts (mapRun calls)) ↔
      ∀ x ∈ S, ∀ y ∈ S, SameToNul x y → x = y := by
  constructor
  · rintro ⟨hkey, -, -⟩ x hx y hy hsame
    exact congrArg Subtype.val ((hkey ⟨x, hx⟩ ⟨y, hy⟩).1 ((offsetKeyeq_iff x y).2 (.inr hsame)))
  · intro hS
    have hkey : ∀ x y : S, offsetKeyeq x y ↔ x = y := by
      intro x y
      rw [offsetKeyeq_iff, Subtype.ext_iff]
      exact ⟨Or.rec id (hS x x.2 y y.2), .inl⟩
    have hlt : ∀ x : S, offsetHash x size < size := fun x => Nat.mod_lt _ hsize
    have ok : HashFuncsOk (fun x : S => offsetHash x) (fun x y : S => offsetKeyeq x y) size := {
      lt := hlt
      respects := fun x y h => by rw [(hkey x y).1 h]
      refl := fun x => (hkey x x).2 rfl
      symm := fun x y h => (hkey y x).2 ((hkey x y).1 h).symm
      trans := fun x y z h h' => (hkey x z).2 (((hkey x y).1 h).trans ((hkey y z).1 h')) }
    refine ⟨hkey, hlt, fun calls fuel hfuel => ?_⟩
    obtain ⟨ts, hts, hrun⟩ := hashtable_run ok hsize mem calls hfuel
    refine ⟨ts, hts, hrun.imp fun t m ⟨l, href⟩ => ⟨⟨l, href⟩, fun x e he => ?_⟩⟩
    obtain ⟨a, -, hxa, rfl⟩ := (href.entries x e).1 he
    exact (hkey _ _).1 hxa

theorem offsetTable_pair : ¬ offsetKeyeq 1 257 ∧ ∃ ts, hashRun (fun x : ({1, 257} : Set OffT) => offsetHash x) 2
    (fun _ => ⟨⟨1, .inl rfl⟩, 'z', none, none⟩) 8 ([(0, .insert ⟨257, .inr rfl⟩ 'a')] :
      List (Nat × HashOp (fun x y : ({1, 257} : Set OffT) => offsetKeyeq x y) Char)) = some ts := by
  have hpair : ∀ x ∈ ({1, 257} : Set OffT), ∀ y ∈ ({1, 257} : Set OffT), SameToNul x y → x = y := by
    intro x hx y hy h
    have hkey := (offsetKeyeq_iff x y).2 (.inr h)
    rcases hx with rfl | rfl <;> rcases hy with rfl | rfl
    · rfl
    · exact absurd hkey (by decide)
    · exact absurd hkey (by decide)
    · rfl
  obtain ⟨hkey, -, hrun⟩ := (offsetTable_iff {1, 257} (by decide : 0 < 8) fun _ => ⟨⟨1, .inl rfl⟩, 'z', none, none⟩).2 hpair
  obtain ⟨ts, hts, -⟩ := hrun [(0, .insert ⟨257, .inr rfl⟩ 'a')] 2 (by decide)
  refine ⟨fun h => ?_, ts, hts⟩
  exact absurd (congrArg Subtype.val ((hkey ⟨1, .inl rfl⟩ ⟨257, .inr rfl⟩).1 h)) (by decide)

/-- The connection of the offset 0 is found for the offset 256. -/
theorem offsetTable_confused : offsetKeyeq 0 256 ∧
    ((hashRun offsetHash 2 (fun _ => ⟨0, 'z', none, none⟩) 8
      ([(0, .insert 0 'a')] : List (Nat × HashOp offsetKeyeq Char))).bind fun ts =>
        ts.head?.bind fun t => t.lookup offsetHash offsetKeyeq 2 256) = some (some 'a') := by
  decide +kernel

end Globus.Xio.ModeE
