/-
The set of points that a list of pieces covers, for any kind of piece: `span` says which points one
piece stands for, `cover span l` collects them over the list. Data structures that keep a set as a
list of pieces are specified by how their operations change this set.
-/
import Mathlib.Data.Set.Lattice

namespace Lib

variable {ε α : Type*} (span : ε → Set α)

/-- The points covered by a list of pieces. -/
def cover (l : List ε) : Set α := {x | ∃ e ∈ l, x ∈ span e}

theorem mem_cover {l : List ε} {x : α} : x ∈ cover span l ↔ ∃ e ∈ l, x ∈ span e := Iff.rfl

@[simp] theorem cover_nil : cover span [] = ∅ := by
  ext x; simp [cover]

@[simp] theorem mem_cover_cons {e : ε} {l : List ε} {x : α} :
    x ∈ cover span (e :: l) ↔ x ∈ span e ∨ x ∈ cover span l := by
  simp [cover]

theorem mem_cover_singleton {e : ε} {x : α} : x ∈ cover span [e] ↔ x ∈ span e := by simp

@[simp] theorem mem_cover_append {l₁ l₂ : List ε} {x : α} :
    x ∈ cover span (l₁ ++ l₂) ↔ x ∈ cover span l₁ ∨ x ∈ cover span l₂ := by
  simp only [cover, List.mem_append, Set.mem_ofPred_eq]
  constructor
  · rintro ⟨e, he | he, hx⟩; exacts [.inl ⟨e, he, hx⟩, .inr ⟨e, he, hx⟩]
  · rintro (⟨e, he, hx⟩ | ⟨e, he, hx⟩); exacts [⟨e, .inl he, hx⟩, ⟨e, .inr he, hx⟩]

end Lib
