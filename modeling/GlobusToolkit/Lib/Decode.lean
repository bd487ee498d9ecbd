/-
Decoders of byte messages as programs that read some bytes at a time, each read depending on what was
read before. A run over memory keeps the number of bytes left in a machine word and leaves the decoder
when a test of that word says that the next read is too long. `Fits` compares the lengths as numbers.
-/
import Mathlib.Tactic

namespace Lib

/-- A decoder: done, or a read of `n` bytes and what to do with them. -/
inductive Dec (α : Type) where
  | ret (a : α)
  | read (n : Nat) (k : List UInt8 → Dec α)

namespace Dec

def bind {α β : Type} : Dec α → (α → Dec β) → Dec β
  | .ret a, f => f a
  | .read n k, f => .read n fun bs => (k bs).bind f

instance : Monad Dec where
  pure := .ret
  bind := bind

/-- The decoder `n` times over. -/
def times {α : Type} : Nat → Dec α → Dec (List α)
  | 0, _ => pure []
  | n + 1, d => do
    let a ← d
    let as ← times n d
    pure (a :: as)

/-- The bytes of the memory from a position on. -/
def bytesAt (mem : Nat → UInt8) (pos n : Nat) : List UInt8 := (List.range n).map fun i => mem (pos + i)

/-- What a run returns, and the positions it has read. -/
structure Outcome (α : Type) where
  result : Option α
  examined : List Nat
  deriving DecidableEq, Repr

variable {α : Type} {w : Nat}

/-- The decoder over memory, from a position on and with a word for the bytes left. -/
def run (rejects : BitVec w → Nat → Bool) (mem : Nat → UInt8) : Dec α → Nat → BitVec w → Outcome α
  | .ret a, _, _ => ⟨some a, []⟩
  | .read n k, pos, len =>
    if rejects len n then ⟨none, []⟩
    else
      let rest := (k (bytesAt mem pos n)).run rejects mem (pos + n) (len - BitVec.ofNat w n)
      ⟨rest.result, List.range' pos n ++ rest.examined⟩

/-- Every read of the decoder stays within the bytes left. -/
def Fits (mem : Nat → UInt8) : Dec α → Nat → Nat → Prop
  | .ret _, _, _ => True
  | .read n k, pos, left => n ≤ left ∧ (k (bytesAt mem pos n)).Fits mem (pos + n) (left - n)

/-- The decoder reads nothing behind the message and returns nothing if the message is too short. -/
structure Sound (rejects : BitVec w → Nat → Bool) (mem : Nat → UInt8) (d : Dec α) (len : BitVec w) : Prop where
  examined_lt : ∀ i ∈ (d.run rejects mem 0 len).examined, i < len.toNat
  result_eq_none : ¬ d.Fits mem 0 len.toNat → (d.run rejects mem 0 len).result = none

variable {rejects : BitVec w → Nat → Bool} {mem : Nat → UInt8}

theorem run_result_isSome (hrejects : ∀ len n, rejects len n = false) : ∀ (d : Dec α) (pos : Nat) (len : BitVec w),
    (d.run rejects mem pos len).result.isSome = true
  | .ret _, _, _ => rfl
  | .read n k, pos, len => by
    rw [run, hrejects]
    exact run_result_isSome hrejects (k _) _ _

theorem examined_lt_of_fits : ∀ (d : Dec α) (pos : Nat) (len : BitVec w), d.Fits mem pos len.toNat →
    ∀ i ∈ (d.run rejects mem pos len).examined, i < pos + len.toNat
  | .ret _, _, _, _ => by simp [run]
  | .read n k, pos, len, h => by
    obtain ⟨hn, hrest⟩ := h
    rw [run]
    split
    · simp
    · have hsub : (len - BitVec.ofNat w n).toNat = len.toNat - n := by
        have hlt : n < 2 ^ w := Nat.lt_of_le_of_lt hn len.isLt
        have hle : BitVec.ofNat w n ≤ len := by
          rw [BitVec.le_def, BitVec.toNat_ofNat, Nat.mod_eq_of_lt hlt]; exact hn
        rw [BitVec.toNat_sub_of_le hle, BitVec.toNat_ofNat, Nat.mod_eq_of_lt hlt]
      rw [← hsub] at hrest
      intro i hi
      rcases List.mem_append.1 hi with hi | hi
      · have := (List.mem_range'_1.1 hi).2
        omega
      · have := examined_lt_of_fits _ _ _ hrest i hi
        omega

/-- With a test that rejects nothing, a decoder is sound for the messages that fit and no others. -/
theorem sound_iff_fits (hrejects : ∀ len n, rejects len n = false) (d : Dec α) (len : BitVec w) :
    d.Sound rejects mem len ↔ d.Fits mem 0 len.toNat := by
  constructor
  · intro h
    by_contra hfits
    have hsome : (d.run rejects mem 0 len).result.isSome = true := run_result_isSome hrejects d 0 len
    rw [h.result_eq_none hfits] at hsome
    cases hsome
  · intro hfits
    refine ⟨fun i hi => ?_, fun h => absurd hfits h⟩
    have := examined_lt_of_fits d 0 len hfits i hi
    omega

end Dec

end Lib
