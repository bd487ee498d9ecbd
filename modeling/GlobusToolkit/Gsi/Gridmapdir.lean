/-
The names of the leases in the directory of pool accounts (gsi/gss_assist/source/gridmap.c): a distinguished name is
encoded into the name of a file. `char` is signed, and the locale is the C locale.
-/
import GlobusToolkit.Lib.Cursor

namespace Globus.Gsi

open Lib List

/-- What the loop writes for one character. -/
def urlencodePiece (c : Octet) : Write := if c.chr.isAlphanum then .char c.chr.toLower else hexPiece c

/-- `gridmapdir_urlencode`: the memory behind the pointer it returns, as far as it was written. -/
def gridmapdirUrlencode (rawstring : List Octet) : List Char :=
  Cursor.string (rawstring.map urlencodePiece)

/-- What a reader of the name sees of one character. -/
def urlencodeSeen (c : Octet) : Char := (hexSeen c).chr.toLower

/-- Letters and digits are neither negative nor part of an escape, nothing else has a case, and no character that is
shown looks like a negative one. -/
theorem chr_facts : ∀ c : Octet,
    (c.chr.isAlphanum → c.msb = false ∧ c.chr.toLower ≠ '%' ∧ c.chr.toLower ≠ '\x00') ∧
      (c.chr.isAlphanum = false → urlencodeSeen c = (hexSeen c).chr) ∧
      (c.msb = false → c.chr.toLower ≠ (Octet.chr 255#8).toLower) := by
  decide +kernel

theorem nul_not_mem_shown (c : Octet) : '\x00' ∉ (urlencodePiece c).shown := by
  unfold urlencodePiece
  split
  · next h => simpa using Ne.symm ((chr_facts c).1 h).2.2
  · exact nul_not_mem_hexPiece c

theorem unescape_urlencodePiece (c : Octet) (rest : List Char) :
    unescape ((urlencodePiece c).shown ++ rest) = urlencodeSeen c :: unescape rest := by
  unfold urlencodePiece
  split
  · next h =>
    obtain ⟨hmsb, hpct, -⟩ := (chr_facts c).1 h
    rw [Write.shown_char, singleton_append, unescape_cons hpct, urlencodeSeen, hexSeen, if_neg (by simp [hmsb])]
  · next h => rw [unescape_hexPiece, (chr_facts c).2.1 (by simpa using h)]

/-- The encoded name. -/
def encodedName (rawstring : List Octet) : List Char := rawstring.flatMap fun c => (urlencodePiece c).shown

theorem cstr_gridmapdirUrlencode (s : List Octet) : cstr (gridmapdirUrlencode s) = encodedName s := by
  rw [gridmapdirUrlencode, Cursor.cstr_string, flatMap_map]
  · rfl
  · intro p hp
    obtain ⟨c, -, rfl⟩ := mem_map.1 hp
    exact nul_not_mem_shown c

theorem unescape_encodedName : ∀ s : List Octet, unescape (encodedName s) = s.map urlencodeSeen
  | [] => rfl
  | c :: s => by
    show unescape ((urlencodePiece c).shown ++ encodedName s) = _
    rw [unescape_urlencodePiece, unescape_encodedName s, map_cons]

/-- Equal up to the case of ASCII letters. -/
def SameName (a b : List Octet) : Prop := a.map (fun c => c.chr.toLower) = b.map fun c => c.chr.toLower

instance (a b : List Octet) : Decidable (SameName a b) := inferInstanceAs (Decidable (_ = _))

theorem toLower_eq_of_seen {a b : Octet} (ha : a.msb = false) (h : urlencodeSeen a = urlencodeSeen b) :
    a.chr.toLower = b.chr.toLower := by
  unfold urlencodeSeen hexSeen at h
  rw [if_neg (by simp [ha])] at h
  split at h
  · exact absurd h ((chr_facts a).2.2 ha)
  · exact h

theorem sameName_of_encodedName_eq {a b : List Octet} (ha : ∀ c ∈ a, c.msb = false) (h : encodedName a = encodedName b) :
    SameName a b := by
  have hseen : a.map urlencodeSeen = b.map urlencodeSeen := by
    rw [← unescape_encodedName, h, unescape_encodedName]
  clear h
  induction a generalizing b with
  | nil => rw [map_eq_nil_iff.1 hseen.symm]; rfl
  | cons c a ih =>
    obtain ⟨d, b, rfl, hd, hb⟩ := map_eq_cons_iff.1 hseen.symm
    have htail : SameName a b := ih (fun x hx => ha x (by simp [hx])) hb.symm
    rw [SameName, map_cons, map_cons, toLower_eq_of_seen (ha c (by simp)) hd.symm, htail]

theorem encodedName_flip {u v : List Octet} {c d : Octet} (hc : c.msb) (hd : d.msb) :
    encodedName (u ++ c :: v) = encodedName (u ++ d :: v) := by
  have hshown : ∀ {x : Octet}, x.msb → (urlencodePiece x).shown = ['%', 'f', 'f'] := fun {x} hx => by
    rw [urlencodePiece, if_neg (by simp [(shown_of_msb x hx).2.1]), (shown_of_msb x hx).1]
  simp only [encodedName, flatMap_append, flatMap_cons, hshown hc, hshown hd]

theorem length_gridmapdirUrlencode {a : List Octet} (ha : ∀ c ∈ a, c.msb = false) :
    (gridmapdirUrlencode a).length = (encodedName a).length + 1 := by
  rw [gridmapdirUrlencode, Cursor.length_string, flatMap_map]
  · rfl
  · intro p hp
    obtain ⟨c, hc, rfl⟩ := mem_map.1 hp
    unfold urlencodePiece
    split
    · exact Nat.le_succ 1
    · rw [length_stored_hexPiece, if_neg (by simp [ha c hc]), advance_hexPiece]

theorem length_encodedName_le : ∀ a : List Octet, (encodedName a).length ≤ 3 * a.length
  | [] => le_rfl
  | c :: a => by
    have hc : (urlencodePiece c).shown.length ≤ 3 := by
      rw [Write.length_shown, urlencodePiece]
      split <;> simp
    have := length_encodedName_le a
    show ((urlencodePiece c).shown ++ encodedName a).length ≤ _
    rw [length_append, length_cons]
    omega

/-- No other identity has the encoded name of this one, and the encoding fits into the memory that is allocated for it. -/
def FaithfulName (a : CBytes) : Prop :=
  (∀ b : CBytes, cstr (gridmapdirUrlencode a.bytes) = cstr (gridmapdirUrlencode b.bytes) → SameName a.bytes b.bytes) ∧
    (gridmapdirUrlencode a.bytes).length ≤ 3 * a.bytes.length + 1

theorem exists_collision {a : CBytes} {c : Octet} (hc : c ∈ a.bytes) (hmsb : c.msb) : ∃ b : CBytes,
    cstr (gridmapdirUrlencode a.bytes) = cstr (gridmapdirUrlencode b.bytes) ∧ ¬ SameName a.bytes b.bytes := by
  obtain ⟨u, v, ha⟩ := append_of_mem hc
  have hflip : (c ^^^ 1#8).msb ∧ (c ^^^ 1#8).chr.toLower ≠ c.chr.toLower := by
    clear ha hc
    revert c
    decide +kernel
  have hnul : 0#8 ∉ u ++ (c ^^^ 1#8) :: v := by
    have := a.nul
    rw [ha] at this
    simp only [mem_append, mem_cons, not_or] at this ⊢
    refine ⟨this.1, fun h => ?_, this.2.2⟩
    rw [← h] at hflip
    exact absurd hflip.1 (by decide)
  refine ⟨⟨u ++ (c ^^^ 1#8) :: v, hnul⟩, ?_, fun h => ?_⟩
  · rw [cstr_gridmapdirUrlencode, cstr_gridmapdirUrlencode, ha]
    exact encodedName_flip hmsb hflip.1
  · rw [ha, SameName, map_append, map_append, append_cancel_left_eq, map_cons, map_cons] at h
    exact hflip.2 (List.cons.inj h).1.symm

/-- A name keeps its lease to itself exactly if all of it is ASCII. -/
theorem urlencode_faithful (a : CBytes) : FaithfulName a ↔ ∀ c ∈ a.bytes, c.msb = false := by
  constructor
  · rintro ⟨hinj, -⟩ c hc
    by_contra hmsb
    obtain ⟨b, heq, hne⟩ := exists_collision hc (by simpa using hmsb)
    exact hne (hinj b heq)
  · intro hascii
    refine ⟨fun b hb => ?_, ?_⟩
    · rw [cstr_gridmapdirUrlencode, cstr_gridmapdirUrlencode] at hb
      exact sameName_of_encodedName_eq hascii hb
    · have := length_encodedName_le a.bytes
      rw [length_gridmapdirUrlencode hascii]
      omega

/-- `/CN=é` and `/CN=è` in Latin-1 share a lease, and the last byte of the name is written past the memory. -/
theorem urlencode_collides :
    cstr (gridmapdirUrlencode [0x2f#8, 0x43#8, 0x4e#8, 0x3d#8, 0xe9#8]) =
      cstr (gridmapdirUrlencode [0x2f#8, 0x43#8, 0x4e#8, 0x3d#8, 0xe8#8]) ∧
    ¬ SameName [0x2f#8, 0x43#8, 0x4e#8, 0x3d#8, 0xe9#8] [0x2f#8, 0x43#8, 0x4e#8, 0x3d#8, 0xe8#8] ∧
    3 * 5 + 1 < (gridmapdirUrlencode [0x2f#8, 0x43#8, 0x4e#8, 0x3d#8, 0xe9#8]).length := by
  decide +kernel

end Globus.Gsi
