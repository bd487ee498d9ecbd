/-
Lists that are cut into pieces. Every piece has its position, which is the position of the list for the first one and
moves by the length of a piece behind it. Rows are such pieces without their content, none of them empty.
-/
import Mathlib.Tactic

namespace Lib

variable {P α : Type*} [AddMonoidWithOne P]

/-- The list at `pos` is cut into the pieces. -/
inductive Cut : P → List α → List (P × List α) → Prop
  | nil (pos : P) : Cut pos [] []
  | cons (pos : P) (piece : List α) {xs : List α} {pieces : List (P × List α)} :
      Cut (pos + piece.length) xs pieces → Cut pos (piece ++ xs) ((pos, piece) :: pieces)

variable {pos : P} {xs ys : List α} {pieces pieces' : List (P × List α)}

theorem Cut.append (h : Cut pos xs pieces) (h' : Cut (pos + xs.length) ys pieces') :
    Cut pos (xs ++ ys) (pieces ++ pieces') := by
  induction h with
  | nil pos => simpa using h'
  | cons pos piece _ ih =>
    rw [List.append_assoc]
    refine .cons pos piece (ih ?_)
    rwa [List.length_append, Nat.cast_add, ← add_assoc] at h'

theorem Cut.singleton (pos : P) (xs : List α) : Cut pos xs [(pos, xs)] := by
  simpa using Cut.cons pos xs (.nil (pos + (xs.length : P)))

/-! ## Rows -/

/-- Slots of some length, one behind the other from `a` to `b`; each is given by its start and its length. -/
inductive Row : Nat → List (Nat × Nat) → Nat → Prop
  | nil (a : Nat) : Row a [] a
  | cons {a k b : Nat} {slots : List (Nat × Nat)} : 0 < k → Row (a + k) slots b → Row a ((a, k) :: slots) b

section Row

variable {a b : Nat} {slots : List (Nat × Nat)} {x : Nat × Nat}

variable (h : Row a slots b)
include h

theorem Row.le : a ≤ b := by
  induction h with
  | nil => exact le_rfl
  | cons _ _ ih => omega

theorem Row.append {c : Nat} {slots' : List (Nat × Nat)} (h' : Row b slots' c) :
    Row a (slots ++ slots') c := by
  induction h with
  | nil => exact h'
  | cons hpos _ ih => exact .cons hpos (ih h')

theorem Row.concat {k : Nat} (hk : 0 < k) : Row a (slots ++ [(b, k)]) (b + k) :=
  h.append (.cons hk (.nil _))

theorem Row.mem (hx : x ∈ slots) : a ≤ x.1 ∧ x.1 + x.2 ≤ b := by
  induction h with
  | nil => cases hx
  | cons _ hrow ih =>
    have hle := hrow.le
    obtain rfl | hx := List.mem_cons.1 hx
    · exact ⟨le_rfl, hle⟩
    · have := ih hx
      omega

theorem Row.nodup : (slots.map Prod.fst).Nodup := by
  induction h with
  | nil => exact List.nodup_nil
  | @cons a k b slots hpos hrow ih =>
    refine List.nodup_cons.2 ⟨fun ha => ?_, ih⟩
    obtain ⟨x, hx, rfl⟩ := List.mem_map.1 ha
    have := hrow.mem hx
    omega

theorem Row.uncons (hx : x ∈ slots) (hstart : x.1 = a) :
    ∃ rest, slots = x :: rest ∧ Row (a + x.2) rest b := by
  cases h with
  | nil => cases hx
  | @cons _ k _ rest hpos hrow =>
    obtain rfl | hx := List.mem_cons.1 hx
    · exact ⟨rest, rfl, hrow⟩
    · have := hrow.mem hx
      omega

end Row

end Lib
