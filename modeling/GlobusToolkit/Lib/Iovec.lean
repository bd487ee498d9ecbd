/-
Buffers that are filled piece by piece: an array of vectors and the place behind the bytes that were stored, as an index, an
offset into the vector with this index, and the number of bytes.
-/
import Mathlib.Data.List.Basic
import Mathlib.Tactic

namespace Lib

open List

variable {β : Type*}

structure IovCursor (β : Type*) where
  iovecs : List (List β)
  index : Nat
  offset : Nat
  nbytes : Nat

namespace IovCursor

/-- Nothing is stored yet. -/
def start (iovecs : List (List β)) : IovCursor β := ⟨iovecs, 0, 0, 0⟩

/-- The number of bytes that fit. -/
def length (c : IovCursor β) : Nat := c.iovecs.flatten.length

/-- The bytes that were stored. -/
def placed (c : IovCursor β) : List β := c.iovecs.flatten.take c.nbytes

/-- The vector that is being filled. -/
def current (c : IovCursor β) : List β := c.iovecs.getD c.index []

/-- Storing bytes that fit into the vector, and moving to the next one if it is full. -/
def write (c : IovCursor β) (src : List β) : IovCursor β where
  iovecs := c.iovecs.set c.index (c.current.take c.offset ++ src ++ c.current.drop (c.offset + src.length))
  index := if c.offset + src.length = c.current.length then c.index + 1 else c.index
  offset := if c.offset + src.length = c.current.length then 0 else c.offset + src.length
  nbytes := c.nbytes + src.length

/-- The vectors in front of the place, and the others, of which the first one is filled up to the offset. -/
structure At (c : IovCursor β) (before after : List (List β)) : Prop where
  iovecs_eq : c.iovecs = before ++ after
  index_eq : c.index = before.length
  offset_le : c.offset ≤ (after.headD []).length
  nbytes_eq : c.nbytes = before.flatten.length + c.offset

theorem at_start (iovecs : List (List β)) : (start iovecs).At [] iovecs := ⟨rfl, rfl, Nat.zero_le _, rfl⟩

theorem placed_start (iovecs : List (List β)) : (start iovecs).placed = [] := rfl

variable {c : IovCursor β} {before after : List (List β)} {iov src : List β}

theorem At.ne_nil (h : c.At before after) (hroom : c.nbytes < c.length) : after ≠ [] := by
  rintro rfl
  have hoffset := h.offset_le
  rw [length, h.iovecs_eq, append_nil, h.nbytes_eq] at hroom
  omega

theorem At.current_eq (h : c.At before (iov :: after)) : c.current = iov := by
  rw [current, h.iovecs_eq, h.index_eq]
  simp

theorem At.placed_eq (h : c.At before (iov :: after)) : c.placed = before.flatten ++ iov.take c.offset := by
  have hoffset : c.offset ≤ iov.length := h.offset_le
  rw [placed, h.nbytes_eq, h.iovecs_eq, flatten_append, flatten_cons, take_length_add_append,
    take_append_of_le_length hoffset]

theorem At.write (h : c.At before (iov :: after)) (hsrc : c.offset + src.length ≤ iov.length) :
    (∃ before' after', (c.write src).At before' after' ∧ after'.length ≤ after.length + 1 ∧
      (c.offset + src.length = iov.length → after'.length = after.length)) ∧
    (c.write src).length = c.length ∧ (c.write src).placed = c.placed ++ src := by
  have hcurrent := h.current_eq
  generalize hnew : iov.take c.offset ++ src ++ iov.drop (c.offset + src.length) = new
  have htake : new.take (c.offset + src.length) = iov.take c.offset ++ src := by
    have hlen : (iov.take c.offset ++ src).length = c.offset + src.length := by
      rw [length_append, length_take_of_le (by omega)]
    rw [← hnew, ← hlen, take_left]
  have hlen : new.length = iov.length := by
    rw [← hnew, length_append, length_append, length_take_of_le (by omega), length_drop]
    omega
  have hiovecs : (c.write src).iovecs = before ++ new :: after := by
    show c.iovecs.set c.index _ = _
    rw [hcurrent, hnew, h.iovecs_eq, h.index_eq, set_append_right _ _ le_rfl, Nat.sub_self]
    rfl
  have hnbytes : (c.write src).nbytes = before.flatten.length + (c.offset + src.length) := by
    show c.nbytes + src.length = _
    rw [h.nbytes_eq, Nat.add_assoc]
  refine ⟨?_, ?_, ?_⟩
  · by_cases hfull : c.offset + src.length = iov.length
    · refine ⟨before ++ [new], after, ⟨by rw [hiovecs, append_assoc]; rfl, ?_, ?_, ?_⟩, by omega, fun _ => rfl⟩
      · simp [IovCursor.write, hcurrent, hfull, h.index_eq]
      · simp [IovCursor.write, hcurrent, hfull]
      · rw [hnbytes]
        simp [IovCursor.write, hcurrent, hfull, hlen]
    · refine ⟨before, new :: after, ⟨hiovecs, ?_, ?_, ?_⟩, by simp, fun hf => absurd hf hfull⟩
      · simp [IovCursor.write, hcurrent, hfull, h.index_eq]
      · simpa [IovCursor.write, hcurrent, hfull, hlen] using hsrc
      · rw [hnbytes]
        simp [IovCursor.write, hcurrent, hfull]
  · rw [length, length, hiovecs, h.iovecs_eq]
    simp [hlen]
  · rw [h.placed_eq, placed, hnbytes, hiovecs, flatten_append, flatten_cons, take_length_add_append,
      take_append_of_le_length (by omega), htake, append_assoc]

end IovCursor

end Lib
