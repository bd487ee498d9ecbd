/-
Sums over the slots 1 to `n` of an array that is a function of the slot, where the content of one slot
changes.
-/
import Mathlib.Tactic

namespace Lib

open Function Finset

variable {α M : Type*} [AddCommMonoid M]

/-- What the slots add up to. -/
def slotSum (g : α → M) (h : Nat → α) (n : Nat) : M := ∑ i ∈ Finset.Icc 1 n, g (h i)

variable {g : α → M} {h h' : Nat → α} {n hole : Nat}

theorem slotSum_congr (heq : ∀ i, 1 ≤ i → i ≤ n → h i = h' i) : slotSum g h n = slotSum g h' n := by
  refine sum_congr rfl fun i hi => ?_
  rw [mem_Icc] at hi
  rw [heq i hi.1 hi.2]

theorem slotSum_succ (g : α → M) (h : Nat → α) (n : Nat) : slotSum g h (n + 1) = slotSum g h n + g (h (n + 1)) := by
  unfold slotSum
  rw [← sum_Icc_succ_top (by omega)]

theorem slotSum_extend {m : Nat} (hnm : n ≤ m) (hzero : ∀ i, n < i → g (h i) = 0) : slotSum g h m = slotSum g h n := by
  induction m, hnm using Nat.le_induction with
  | base => rfl
  | succ m hle ih => rw [slotSum_succ, ih, hzero (m + 1) (by omega), add_zero]

theorem slotSum_update_succ (g : α → M) (h : Nat → α) (n : Nat) (x : α) :
    slotSum g (Function.update h (n + 1) x) (n + 1) = slotSum g h n + g x := by
  rw [slotSum_succ, update_self, slotSum_congr fun i _ hi => update_of_ne (by omega) x h]

/-- The slots but one, and that one with any content. -/
theorem exists_slotSum_eq (g : α → M) (h : Nat → α) (hhole : 1 ≤ hole ∧ hole ≤ n) :
    ∃ s, slotSum g h n = s + g (h hole) ∧ ∀ x, slotSum g (Function.update h hole x) n = s + g x := by
  have hmem : hole ∈ Finset.Icc 1 n := mem_Icc.2 hhole
  have hsplit : ∀ f : Nat → α, slotSum g f n = ∑ i ∈ (Finset.Icc 1 n).erase hole, g (f i) + g (f hole) := fun f => by
    rw [slotSum, ← sum_erase_add _ _ hmem]
  refine ⟨_, hsplit h, fun x => ?_⟩
  rw [hsplit, update_self]
  congr 1
  refine sum_congr rfl fun i hi => ?_
  rw [update_of_ne (ne_of_mem_erase hi)]

theorem slotSum_move {j : Nat} {x : α} (hhole : 1 ≤ hole ∧ hole ≤ n) (hj : 1 ≤ j ∧ j ≤ n) :
    slotSum g (Function.update (Function.update h hole (h j)) j x) n = slotSum g (Function.update h hole x) n := by
  refine sum_equiv (Equiv.swap hole j) (fun i => ?_) fun i _ => ?_
  · simp only [mem_Icc, Equiv.swap_apply_def]
    split_ifs <;> omega
  · rw [Equiv.swap_apply_def]
    split_ifs with h1 h2
    · subst h1
      by_cases hij : j = i
      · subst hij; simp
      · simp [update_of_ne (Ne.symm hij), update_of_ne hij]
    · subst h2; simp
    · simp [update_of_ne h1, update_of_ne h2]

end Lib
