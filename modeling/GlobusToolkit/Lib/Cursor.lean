/-
Text written into memory with a cursor. Every piece is stored where the cursor stands, and the cursor then moves on by a
length of its own, which may be less than what was stored: the next piece hides the rest. The memory is the part that was
touched, so its length is the furthest place that was written to. The escapes `%xx` are such pieces: a negative `char` is
printed with eight digits, of which two are shown.
-/
import GlobusToolkit.Lib.CString

namespace Lib

open List

/-- What one step stores, and how far the cursor moves. -/
structure Write where
  stored : List Char
  advance : Nat
  advance_le : advance ≤ stored.length

/-- The part of a piece that the next one does not hide. -/
def Write.shown (p : Write) : List Char := p.stored.take p.advance

@[simp] theorem Write.length_shown (p : Write) : p.shown.length = p.advance := by
  rw [shown, length_take, min_eq_left p.advance_le]

/-- One character, with the cursor behind it. -/
def Write.char (c : Char) : Write := ⟨[c], 1, le_rfl⟩

@[simp] theorem Write.shown_char (c : Char) : (Write.char c).shown = [c] := rfl

@[simp] theorem Write.advance_char (c : Char) : (Write.char c).advance = 1 := rfl

/-- The memory that was touched, and the cursor in it. -/
structure Cursor where
  mem : List Char
  pos : Nat
  pos_le : pos ≤ mem.length

namespace Cursor

/-- Nothing is written yet. -/
def start : Cursor := ⟨[], 0, le_rfl⟩

/-- The text in front of the cursor. -/
def text (c : Cursor) : List Char := c.mem.take c.pos

/-- Storing a piece. -/
def put (c : Cursor) (p : Write) : Cursor where
  mem := c.mem.take c.pos ++ p.stored ++ c.mem.drop (c.pos + p.stored.length)
  pos := c.pos + p.advance
  pos_le := by
    have := p.advance_le
    have := c.pos_le
    simp only [length_append, length_take]
    omega

@[simp] theorem put_pos (c : Cursor) (p : Write) : (c.put p).pos = c.pos + p.advance := rfl

theorem length_text (c : Cursor) : c.text.length = c.pos := by
  rw [text, length_take, min_eq_left c.pos_le]

theorem text_put (c : Cursor) (p : Write) : (c.put p).text = c.text ++ p.shown := by
  have hlen : (c.mem.take c.pos).length = c.pos := c.length_text
  show (c.mem.take c.pos ++ p.stored ++ c.mem.drop (c.pos + p.stored.length)).take (c.pos + p.advance) = _
  rw [append_assoc, take_append, hlen, Nat.add_sub_cancel_left, take_of_length_le (by omega),
    take_append_of_le_length p.advance_le]
  rfl

theorem length_mem_put (c : Cursor) (p : Write) :
    (c.put p).mem.length = max c.mem.length (c.pos + p.stored.length) := by
  have := c.pos_le
  simp only [put, length_append, length_take, length_drop]
  omega

/-- The pieces one after the other. -/
def write (c : Cursor) (ps : List Write) : Cursor := ps.foldl put c

theorem text_write : ∀ (ps : List Write) (c : Cursor), (c.write ps).text = c.text ++ ps.flatMap Write.shown
  | [], c => by simp [write]
  | p :: ps, c => by
    have h := text_write ps (c.put p)
    rw [text_put, append_assoc] at h
    exact h

/-- Where no piece stores more than one character behind the new place of the cursor, neither do all of them. -/
theorem length_mem_write_le : ∀ (ps : List Write) (c : Cursor), (∀ p ∈ ps, p.stored.length ≤ p.advance + 1) →
    c.mem.length ≤ c.pos + 1 → (c.write ps).mem.length ≤ (c.write ps).pos + 1
  | [], c, _, h => h
  | p :: ps, c, hps, h => by
    refine length_mem_write_le ps (c.put p) (fun q hq => hps q (by simp [hq])) ?_
    have := hps p (by simp)
    rw [length_mem_put, put_pos]
    omega

/-- The character that ends the string is stored at the cursor. -/
def terminate (c : Cursor) : Cursor := c.put ⟨['\x00'], 0, Nat.zero_le _⟩

theorem mem_terminate (c : Cursor) : c.terminate.mem = c.text ++ '\x00' :: c.mem.drop (c.pos + 1) := by
  simp [terminate, put, text]

theorem cstr_mem_terminate {c : Cursor} (h : '\x00' ∉ c.text) : cstr c.terminate.mem = c.text := by
  rw [mem_terminate, cstr, takeWhile_ne_append h]

theorem length_mem_terminate (c : Cursor) : c.terminate.mem.length = max c.mem.length (c.pos + 1) :=
  length_mem_put c _

/-- The string of some pieces, in fresh memory. -/
def string (ps : List Write) : List Char := (start.write ps).terminate.mem

theorem text_start_write (ps : List Write) : (start.write ps).text = ps.flatMap Write.shown := text_write ps start

theorem cstr_string {ps : List Write} (h : ∀ p ∈ ps, '\x00' ∉ p.shown) : cstr (string ps) = ps.flatMap Write.shown := by
  have hnul : '\x00' ∉ (start.write ps).text := fun hmem => by
    rw [text_start_write] at hmem
    obtain ⟨p, hp, hc⟩ := mem_flatMap.1 hmem
    exact h p hp hc
  rw [string, cstr_mem_terminate hnul, text_start_write]

/-- Where the pieces store no more than they show and a null, nothing is written behind the null of the string. -/
theorem length_string {ps : List Write} (h : ∀ p ∈ ps, p.stored.length ≤ p.advance + 1) :
    (string ps).length = (ps.flatMap Write.shown).length + 1 := by
  have hpos : (start.write ps).pos = (ps.flatMap Write.shown).length := by rw [← length_text, text_start_write]
  have hmem := length_mem_write_le ps start h (Nat.zero_le _)
  rw [string, length_mem_terminate]
  omega

end Cursor

/-! ## Escapes -/

/-- A byte of a string. -/
abbrev Octet := BitVec 8

/-- A string of `char`s, without the null that ends it. -/
structure CBytes where
  bytes : List Octet
  nul : 0#8 ∉ bytes

/-- The byte as a character of the text. -/
def Octet.chr (b : Octet) : Char := Char.ofNat b.toNat

theorem Octet.toNat_chr (b : Octet) : b.chr.toNat = b.toNat := by
  have hvalid : b.toNat.isValidChar := Or.inl (by have := b.isLt; omega)
  rw [chr, Char.ofNat, dif_pos hvalid]
  rfl

theorem Octet.chr_injective : Function.Injective Octet.chr := fun a b h => by
  have := congrArg Char.toNat h
  rw [toNat_chr, toNat_chr] at this
  exact BitVec.eq_of_toNat_eq this

/-- The output of `%02x`. -/
def printHex (v : BitVec 32) : List Char :=
  let digits := Nat.toDigits 16 v.toNat
  List.replicate (2 - digits.length) '0' ++ digits

/-- `sprintf(p, "%%%02x", c)` with a signed `char`, and the cursor three characters on. -/
def hexPiece (b : Octet) : Write where
  stored := '%' :: printHex (b.signExtend 32) ++ ['\x00']
  advance := 3
  advance_le := by
    simp only [printHex, cons_append, length_cons, length_append, length_replicate, length_nil]
    omega

/-- The byte that the two digits stand for: all negative values begin alike. -/
def hexSeen (b : Octet) : Octet := if b.msb then 255#8 else b

theorem printHex_signExtend : ∀ b : Octet,
    (printHex (b.signExtend 32)).length = (if b.msb then 8 else 2) ∧ '\x00' ∉ printHex (b.signExtend 32) ∧
      hexByte ((printHex (b.signExtend 32)).getD 0 '0') ((printHex (b.signExtend 32)).getD 1 '0') = (hexSeen b).chr := by
  decide +kernel

@[simp] theorem advance_hexPiece (b : Octet) : (hexPiece b).advance = 3 := rfl

theorem length_stored_hexPiece (b : Octet) : (hexPiece b).stored.length = if b.msb then 10 else 4 := by
  show ('%' :: printHex (b.signExtend 32) ++ ['\x00']).length = _
  rw [length_append, length_cons, (printHex_signExtend b).1]
  split <;> rfl

theorem shown_hexPiece (b : Octet) : ∃ h l, (hexPiece b).shown = ['%', h, l] ∧ h ≠ '\x00' ∧ l ≠ '\x00' ∧
    hexByte h l = (hexSeen b).chr := by
  obtain ⟨hlen, hnul, hseen⟩ := printHex_signExtend b
  show ∃ h l, ('%' :: printHex (b.signExtend 32) ++ ['\x00']).take 3 = _ ∧ _
  match hd : printHex (b.signExtend 32) with
  | [] => rw [hd] at hlen; split at hlen <;> cases hlen
  | [_] => rw [hd] at hlen; split at hlen <;> cases hlen
  | h :: l :: rest =>
    rw [hd] at hnul hseen
    simp only [mem_cons, not_or] at hnul
    exact ⟨h, l, rfl, Ne.symm hnul.1, Ne.symm hnul.2.1, hseen⟩

/-- All negative values look alike, and no text copies them. -/
theorem shown_of_msb : ∀ b : Octet, b.msb →
    (hexPiece b).shown = ['%', 'f', 'f'] ∧ b.chr.isAlphanum = false ∧ b.chr ∉ "$-_.+!*'(),/%".toList := by
  decide +kernel

/-- Reading escaped text. -/
def unescape : List Char → List Char
  | [] => []
  | '%' :: h :: l :: rest => hexByte h l :: unescape rest
  | c :: rest => c :: unescape rest

theorem unescape_cons {c : Char} (h : c ≠ '%') (rest : List Char) : unescape (c :: rest) = c :: unescape rest := by
  rw [unescape]
  rintro h' l' rest' rfl
  exact absurd rfl h

theorem unescape_hexPiece (b : Octet) (rest : List Char) :
    unescape ((hexPiece b).shown ++ rest) = (hexSeen b).chr :: unescape rest := by
  obtain ⟨h, l, hshown, -, -, hbyte⟩ := shown_hexPiece b
  rw [hshown, ← hbyte]
  rfl

theorem nul_not_mem_hexPiece (b : Octet) : '\x00' ∉ (hexPiece b).shown := by
  obtain ⟨h, l, hshown, hh, hl, -⟩ := shown_hexPiece b
  rw [hshown]
  simp [Ne.symm hh, Ne.symm hl]

end Lib
