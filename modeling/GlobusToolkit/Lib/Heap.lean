/-
Binary heaps in the slots 1 to `n` of an array, where slot `i / 2` is the parent of slot `i`, and heaps with
a hole: the entry `x` still has to be placed, and what is in the hole does not count. The hole moves up or
down by copying its parent or one of its children into it.
-/
import GlobusToolkit.Lib.Slots

namespace Lib

open Function Multiset

variable {α : Type*}

/-! ## Order -/

/-- No entry is in front of its parent. -/
def HeapOrder (le : α → α → Prop) (h : Nat → α) (n : Nat) : Prop := ∀ i, 2 ≤ i → i ≤ n → le (h (i / 2)) (h i)

/-- Off the hole the entries are in order, and the children of the hole with its parent. -/
structure HoleOrder (le : α → α → Prop) (h : Nat → α) (n hole : Nat) : Prop where
  except : ∀ i, 2 ≤ i → i ≤ n → i ≠ hole → i / 2 ≠ hole → le (h (i / 2)) (h i)
  grand : 2 ≤ hole → ∀ c, c ≤ n → c / 2 = hole → le (h (hole / 2)) (h c)

/-- In the hole, `x` is in order with the parent. -/
def Above (le : α → α → Prop) (h : Nat → α) (hole : Nat) (x : α) : Prop := 2 ≤ hole → le (h (hole / 2)) x

/-- In the hole, `x` is in order with the children. -/
def Below (le : α → α → Prop) (h : Nat → α) (n hole : Nat) (x : α) : Prop := ∀ c, c ≤ n → c / 2 = hole → le x (h c)

section Order

variable {le : α → α → Prop} {h : Nat → α} {n hole : Nat} {x : α}

theorem HeapOrder.root_le (ho : HeapOrder le h n) (hrefl : ∀ a, le a a) (htrans : ∀ a b c, le a b → le b c → le a c) :
    ∀ i, 1 ≤ i → i ≤ n → le (h 1) (h i) := by
  intro i
  induction i using Nat.strongRecOn with
  | ind i ih =>
    intro hpos hle
    rcases Nat.lt_or_ge i 2 with hi | hi
    · obtain rfl : i = 1 := by omega
      exact hrefl _
    · exact htrans _ _ _ (ih (i / 2) (by omega) (by omega) (by omega)) (ho i hi hle)

theorem HeapOrder.holeOrder (ho : HeapOrder le h n) (htrans : ∀ a b c, le a b → le b c → le a c) :
    HoleOrder le h n hole where
  except i hi hn _ _ := ho i hi hn
  grand hhole c hc hch := by
    have hup := ho c (by omega) hc
    rw [hch] at hup
    exact htrans _ _ _ (ho hole hhole (by omega)) hup

theorem HeapOrder.holeOrder_succ (ho : HeapOrder le h n) : HoleOrder le h (n + 1) (n + 1) where
  except i hi hn hne _ := ho i hi (by omega)
  grand _ c hc hch := by omega

theorem HoleOrder.update (o : HoleOrder le h n hole) (x : α) :
    HoleOrder le (Function.update h hole x) n hole where
  except i hi hn hne hpar := by
    rw [update_of_ne hne, update_of_ne hpar]
    exact o.except i hi hn hne hpar
  grand hhole c hc hch := by
    rw [update_of_ne (by omega), update_of_ne (by omega)]
    exact o.grand hhole c hc hch

theorem HeapOrder.mono {m : Nat} (ho : HeapOrder le h n) (hm : m ≤ n) : HeapOrder le h m :=
  fun i hi hle => ho i hi (by omega)

theorem HoleOrder.up (o : HoleOrder le h n hole) (htrans : ∀ a b c, le a b → le b c → le a c) (hhole : 2 ≤ hole)
    (hn : hole ≤ n) : HoleOrder le (Function.update h hole (h (hole / 2))) n (hole / 2) where
  except i hi hin hne hpar := by
    have hih : i ≠ hole := by rintro rfl; exact hpar rfl
    rw [update_of_ne hih]
    by_cases hp : i / 2 = hole
    · rw [hp, update_self]; exact o.grand hhole i hin hp
    · rw [update_of_ne hp]; exact o.except i hi hin hih hp
  grand hq c hc hch := by
    have hpar := o.except (hole / 2) hq (by omega) (by omega) (by omega)
    rw [update_of_ne (by omega : hole / 2 / 2 ≠ hole)]
    by_cases hcc : c = hole
    · rw [hcc, update_self]; exact hpar
    · rw [update_of_ne hcc]
      have hup := o.except c (by omega) hc hcc (by omega)
      rw [hch] at hup
      exact htrans _ _ _ hpar hup

theorem Below.up (o : HoleOrder le h n hole) (htrans : ∀ a b c, le a b → le b c → le a c) (hhole : 2 ≤ hole)
    (hx : le x (h (hole / 2))) : Below le (Function.update h hole (h (hole / 2))) n (hole / 2) x := by
  intro c hc hch
  by_cases hcc : c = hole
  · rw [hcc, update_self]; exact hx
  · rw [update_of_ne hcc]
    have hup := o.except c (by omega) hc hcc (by omega)
    rw [hch] at hup
    exact htrans _ _ _ hx hup

/-- The least child moves up into the hole. -/
theorem HoleOrder.down (o : HoleOrder le h n hole) (hpos : 1 ≤ hole) {c : Nat} (hc : c ≤ n) (hch : c / 2 = hole)
    (hmin : ∀ d, d ≤ n → d / 2 = hole → le (h c) (h d)) : HoleOrder le (Function.update h hole (h c)) n c where
  except i hi hin hne hpar := by
    by_cases hih : i = hole
    · rw [hih, update_self, update_of_ne (by omega)]
      exact o.grand (by omega) c hc hch
    · rw [update_of_ne hih]
      by_cases hp : i / 2 = hole
      · rw [hp, update_self]; exact hmin i hin hp
      · rw [update_of_ne hp]; exact o.except i hi hin hih hp
  grand hcpos d hd hdc := by
    have hup := o.except d (by omega) hd (by omega) (by omega)
    rw [hdc] at hup
    rw [hch, update_self, update_of_ne (by omega : d ≠ hole)]
    exact hup

theorem Above.down {c : Nat} (hch : c / 2 = hole) (hx : le (h c) x) : Above le (Function.update h hole (h c)) c x := by
  intro _
  rw [hch, update_self]
  exact hx

theorem HoleOrder.place (o : HoleOrder le h n hole) (hpos : 1 ≤ hole) (ha : Above le h hole x)
    (hb : Below le h n hole x) : HeapOrder le (Function.update h hole x) n := by
  intro i hi hin
  by_cases hih : i = hole
  · subst hih
    rw [update_self, update_of_ne (by omega)]
    exact ha hi
  · rw [update_of_ne hih]
    by_cases hp : i / 2 = hole
    · rw [hp, update_self]; exact hb i hin hp
    · rw [update_of_ne hp]; exact o.except i hi hin hih hp

end Order

/-! ## Contents -/

/-- The entries of a heap. -/
def bag (h : Nat → α) (n : Nat) : Multiset α := slotSum (fun a => {a}) h n

theorem mem_bag {h : Nat → α} {n : Nat} {x : α} : x ∈ bag h n ↔ ∃ i, 1 ≤ i ∧ i ≤ n ∧ h i = x := by
  unfold bag slotSum
  rw [mem_sum]
  simp only [Finset.mem_Icc, mem_singleton]
  constructor
  · rintro ⟨i, ⟨h1, h2⟩, rfl⟩; exact ⟨i, h1, h2, rfl⟩
  · rintro ⟨i, h1, h2, rfl⟩; exact ⟨i, ⟨h1, h2⟩, rfl⟩

theorem bag_succ (h : Nat → α) (n : Nat) : bag h (n + 1) = bag h n + {h (n + 1)} := slotSum_succ _ h n

theorem bag_update_succ (h : Nat → α) (n : Nat) (x : α) : bag (Function.update h (n + 1) x) (n + 1) = bag h n + {x} :=
  slotSum_update_succ _ h n x

theorem bag_move {h : Nat → α} {n hole j : Nat} {x : α} (hhole : 1 ≤ hole ∧ hole ≤ n) (hj : 1 ≤ j ∧ j ≤ n) :
    bag (Function.update (Function.update h hole (h j)) j x) n = bag (Function.update h hole x) n :=
  slotSum_move hhole hj

theorem exists_bag_eq (h : Nat → α) {n hole : Nat} (hhole : 1 ≤ hole ∧ hole ≤ n) :
    ∃ s, bag h n = s + {h hole} ∧ ∀ x, bag (Function.update h hole x) n = s + {x} :=
  exists_slotSum_eq _ h hhole

theorem bag_key_ne {κ : Type*} {key : α → κ} {h : Nat → α} {n i j : Nat} (hnodup : ((bag h n).map key).Nodup)
    (hi : 1 ≤ i ∧ i ≤ n) (hj : 1 ≤ j ∧ j ≤ n) (hij : i ≠ j) : key (h i) ≠ key (h j) := by
  have hbag : bag h n = (Finset.Icc 1 n).val.map h := sum_map_singleton ((Finset.Icc 1 n).val.map h) ▸ by
    rw [map_map]; rfl
  rw [hbag, map_map] at hnodup
  intro heq
  exact hij (inj_on_of_nodup_map hnodup i (by simpa using hi) j (by simpa using hj) heq)

end Lib
