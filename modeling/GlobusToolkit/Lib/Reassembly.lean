/-
Segments of a stream that come in any order. They tile the stream from a place on if each one is where it belongs and every
byte from that place on is in exactly one of them; then what begins at that place can be passed on.
-/
import Mathlib.Data.Multiset.Basic
import Mathlib.Algebra.BigOperators.Group.Multiset.Basic
import Mathlib.Tactic

namespace Lib

open List

variable {β : Type*}

/-- Where a segment begins, and its bytes. -/
abbrev Segment (β : Type*) := Nat × List β

def covers (i : Nat) (g : Segment β) : Nat := if g.1 ≤ i ∧ i < g.1 + g.2.length then 1 else 0

/-- In how many segments a place is. -/
def coverage (i : Nat) (s : Multiset (Segment β)) : Nat := (s.map (covers i)).sum

theorem coverage_add_singleton (i : Nat) (s : Multiset (Segment β)) (g : Segment β) :
    coverage i (s + {g}) = coverage i s + covers i g := by
  simp [coverage]

structure Tiles (stream : List β) (start : Nat) (s : Multiset (Segment β)) : Prop where
  inPlace : ∀ g ∈ s, g.2 <+: stream.drop g.1
  once : ∀ i, coverage i s = if start ≤ i ∧ i < stream.length then 1 else 0

namespace Tiles

variable {stream : List β} {start : Nat} {s : Multiset (Segment β)}

theorem start_le (h : Tiles stream start s) {g : Segment β} (hg : g ∈ s) (hne : g.2 ≠ []) : start ≤ g.1 := by
  obtain ⟨t, rfl⟩ := Multiset.exists_cons_of_mem hg
  have honce := h.once g.1
  have hcover : covers g.1 g = 1 := if_pos ⟨le_rfl, Nat.lt_add_of_pos_right (length_pos_of_ne_nil hne)⟩
  rw [← Multiset.singleton_add, add_comm, coverage_add_singleton, hcover] at honce
  by_contra hlt
  rw [if_neg fun hc => hlt hc.1] at honce
  omega

theorem consume {a b : List β} (h : Tiles stream start (s + {(start, a ++ b)})) :
    Tiles stream (start + a.length) (s + {(start + a.length, b)}) ∧ stream.take (start + a.length) = stream.take start ++ a := by
  obtain ⟨r, hr⟩ := h.inPlace (start, a ++ b) (by simp)
  have hdrop : stream.drop start = a ++ (b ++ r) := by rw [← append_assoc, hr]
  have hlen : start + a.length + b.length ≤ stream.length ∨ a ++ b = [] := by
    by_cases hnil : a ++ b = []
    · exact .inr hnil
    · have := congrArg List.length hdrop
      rw [length_drop, length_append, length_append] at this
      have hpos := length_pos_of_ne_nil hnil
      rw [length_append] at hpos
      omega
  refine ⟨⟨?_, fun i => ?_⟩, ?_⟩
  · intro g hg
    rcases Multiset.mem_add.1 hg with hg | hg
    · exact h.inPlace g (Multiset.mem_add.2 (.inl hg))
    · obtain rfl := Multiset.mem_singleton.1 hg
      refine ⟨r, ?_⟩
      rw [← drop_drop, hdrop, drop_left]
  · have honce := h.once i
    rw [coverage_add_singleton] at honce ⊢
    unfold covers at honce ⊢
    rw [length_append] at honce
    rcases hlen with hlen | hnil
    · dsimp only at honce ⊢
      split at honce <;> split at honce <;> split <;> split <;> omega
    · obtain ⟨rfl, rfl⟩ := append_eq_nil_iff.1 hnil
      simpa using honce
  · rw [take_add, hdrop, take_left]

/-- A segment that does not begin behind the place is at the place, or empty. -/
theorem consume_of_le {o : Nat} {a b : List β} (h : Tiles stream start (s + {(o, a ++ b)})) (ho : o ≤ start) :
    Tiles stream (start + a.length) (s + {(o + a.length, b)}) ∧ stream.take (start + a.length) = stream.take start ++ a := by
  by_cases hnil : a ++ b = []
  · obtain ⟨rfl, rfl⟩ := append_eq_nil_iff.1 hnil
    exact ⟨h, (append_nil _).symm⟩
  · obtain rfl : o = start := le_antisymm ho (h.start_le (Multiset.mem_add.2 (.inr (Multiset.mem_singleton_self _))) hnil)
    exact h.consume

theorem of_empty {o : Nat} (h : Tiles stream start (s + {(o, [])})) : Tiles stream start s where
  inPlace g hg := h.inPlace g (Multiset.mem_add.2 (.inl hg))
  once i := by
    have honce := h.once i
    rw [coverage_add_singleton, covers, if_neg (by simp), add_zero] at honce
    exact honce

end Tiles

/-- The pieces of a stream, with the places where they begin. -/
def segmentsFrom : Nat → List (List β) → Multiset (Segment β)
  | _, [] => 0
  | start, piece :: pieces => segmentsFrom (start + piece.length) pieces + {(start, piece)}

theorem coverage_segmentsFrom (i : Nat) : ∀ (start : Nat) (pieces : List (List β)),
    coverage i (segmentsFrom start pieces) = if start ≤ i ∧ i < start + pieces.flatten.length then 1 else 0
  | start, [] => by
    rw [if_neg (by simp)]
    rfl
  | start, piece :: pieces => by
    rw [segmentsFrom, coverage_add_singleton, coverage_segmentsFrom i, covers, flatten_cons, length_append]
    dsimp only
    split <;> split <;> split <;> omega

theorem inPlace_segmentsFrom : ∀ (before : List β) (pieces : List (List β)) (g : Segment β),
    g ∈ segmentsFrom before.length pieces → g.2 <+: (before ++ pieces.flatten).drop g.1
  | _, [], g, hg => absurd hg (Multiset.notMem_zero g)
  | before, piece :: pieces, g, hg => by
    rcases Multiset.mem_add.1 hg with hg | hg
    · have := inPlace_segmentsFrom (before ++ piece) pieces g (by rwa [length_append])
      rwa [append_assoc] at this
    · obtain rfl := Multiset.mem_singleton.1 hg
      rw [flatten_cons, drop_left]
      exact prefix_append _ _

theorem tiles_segmentsFrom (pieces : List (List β)) : Tiles pieces.flatten 0 (segmentsFrom 0 pieces) where
  inPlace := inPlace_segmentsFrom [] pieces
  once i := by rw [coverage_segmentsFrom, Nat.zero_add]

end Lib
