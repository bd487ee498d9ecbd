/-
The end of a line in the HTTP driver (xio/src/builtins/http/globus_xio_http.c). Behind a carriage return that ends no line
the search goes on, but it skips the position of that byte in the block once more, and the test for the last byte of the
block is off by as much. So whether the end of a line is found depends on where the lone carriage returns are in front of it.
-/
import Mathlib.Tactic

namespace Globus.Xio.Http

open List

/-- `memchr`: the first carriage return of the block from `skip` on. -/
def findCr (blob : List Char) (skip : Nat) : Option Nat :=
  (range' skip (blob.length - skip)).find? fun i => blob[i]? = some '\r'

/-- The loop of `globus_i_xio_http_find_eol`: the position of the pair, if there is one, or nothing if the byte behind the
block is inspected. -/
def findEolLoop (blob : List Char) : Nat → Nat → Option (Option Nat)
  | 0, _ => some none
  | fuel + 1, skip =>
    if skip + 1 < blob.length then
      match findCr blob skip with
      | none => some none
      | some result =>
        if result + 1 = skip + blob.length then some none
        else
          match blob[result + 1]? with
          | none => none
          | some c => if c = '\n' then some (some result) else findEolLoop blob fuel (skip + (result + 1))
    else some none

/-- `globus_i_xio_http_find_eol`. -/
def findEol (blob : List Char) : Option (Option Nat) := findEolLoop blob blob.length 0

/-- A line ends at `i`. -/
def EolAt (blob : List Char) (i : Nat) : Prop := blob[i]? = some '\r' ∧ blob[i + 1]? = some '\n'

instance (blob : List Char) (i : Nat) : Decidable (EolAt blob i) := inferInstanceAs (Decidable (_ ∧ _))

/-- The leftmost end of a line. -/
def FirstEol (blob : List Char) : Option Nat → Prop
  | none => ∀ i, ¬ EolAt blob i
  | some i => EolAt blob i ∧ ∀ j < i, ¬ EolAt blob j

/-- The carriage returns in front of `e` that end no line. -/
def loneCrs (blob : List Char) (e : Nat) : List Nat :=
  (range e).filter fun i => blob[i]? = some '\r' && blob[i + 1]? ≠ some '\n'

/-- Where a search that begins at `skip` is behind these lone carriage returns: each one puts it off by its position, counted
from one, unless the search is past it already. -/
def putOff (skip : Nat) : List Nat → Nat
  | [] => skip
  | v :: vs => putOff (if skip ≤ v then skip + (v + 1) else skip) vs

/-- The lone carriage returns do not put the search off beyond the end of the line; without one, and with a carriage return
as the last byte, they put it off either not at all or to that byte. -/
def Reachable (blob : List Char) : Option Nat → Prop
  | some p => putOff 0 (loneCrs blob p) ≤ p
  | none => blob.getLast? = some '\r' →
    putOff 0 (loneCrs blob (blob.length - 1)) = 0 ∨ blob.length ≤ putOff 0 (loneCrs blob (blob.length - 1)) + 1

/-! ## Lone carriage returns -/

section PutOff

variable {skip v : Nat}

theorem le_putOff : ∀ {vs : List Nat} {skip : Nat}, skip ≤ putOff skip vs
  | [], _ => Nat.le_refl _
  | v :: vs, skip => by
    rw [putOff]
    exact Nat.le_trans (by split <;> omega) le_putOff

theorem putOff_past : ∀ {vs : List Nat}, (∀ v ∈ vs, v < skip) → putOff skip vs = skip
  | [], _ => rfl
  | v :: vs, h => by
    rw [putOff, if_neg (by have := h v (by simp); omega), putOff_past fun w hw => h w (by simp [hw])]

/-- The next one that the search meets. -/
theorem putOff_next : ∀ {vs : List Nat}, vs.Pairwise (· < ·) → v ∈ vs → skip ≤ v → (∀ w ∈ vs, w < v → w < skip) →
    putOff skip vs = putOff (skip + (v + 1)) vs
  | w :: vs, hsorted, hmem, hle, hnext => by
    obtain ⟨hfirst, hsorted⟩ := pairwise_cons.1 hsorted
    rw [putOff, putOff]
    rcases mem_cons.1 hmem with rfl | hmem
    · rw [if_pos hle, if_neg (by omega)]
    · have hlt := hnext w (by simp) (hfirst v hmem)
      rw [if_neg (by omega), if_neg (by omega)]
      exact putOff_next hsorted hmem hle fun w hw => hnext w (by simp [hw])

end PutOff

variable {blob : List Char} {skip v w : Nat}

/-! ## The search -/

theorem findCr_some (h : findCr blob skip = some v) : skip ≤ v ∧ blob[v]? = some '\r' ∧
    ∀ w < v, blob[w]? = some '\r' → w < skip := by
  obtain ⟨hcr, hmem, hfirst⟩ := find?_range'_eq_some.1 h
  refine ⟨left_le_of_mem_range' hmem, by simpa using hcr, fun w hw hcr' => ?_⟩
  by_contra hge
  simpa [hcr'] using hfirst w (by omega) hw

theorem findCr_of_cr (h : blob[w]? = some '\r') (hw : skip ≤ w) : ∃ v ≤ w, findCr blob skip = some v := by
  have hlt := (List.getElem?_eq_some_iff.1 h).1
  cases hfind : findCr blob skip with
  | none => simpa [h] using find?_range'_eq_none.1 hfind w hw (by omega)
  | some v =>
    refine ⟨v, Nat.le_of_not_lt fun hvw => ?_, rfl⟩
    have := (findCr_some hfind).2.2 w hvw h
    omega

theorem mem_loneCrs {e : Nat} : v ∈ loneCrs blob e ↔ v < e ∧ blob[v]? = some '\r' ∧ blob[v + 1]? ≠ some '\n' := by
  simp [loneCrs]

/-- A lone carriage return that the search meets puts it off. -/
theorem putOff_findCr {e : Nat} (h : findCr blob skip = some v) (hve : v < e) (hne : blob[v + 1]? ≠ some '\n') :
    putOff skip (loneCrs blob e) = putOff (skip + (v + 1)) (loneCrs blob e) := by
  obtain ⟨hle, hcr, hnext⟩ := findCr_some h
  exact putOff_next (pairwise_lt_range.filter _) (mem_loneCrs.2 ⟨hve, hcr, hne⟩) hle
    fun w hw hlt => hnext w hlt (mem_loneCrs.1 hw).2.1

/-- Without one, it stays where it is. -/
theorem putOff_findCr_self (h : findCr blob skip = some v) : putOff skip (loneCrs blob v) = skip :=
  putOff_past fun w hw => (findCr_some h).2.2 w (mem_loneCrs.1 hw).1 (mem_loneCrs.1 hw).2.1

/-- The loop goes on behind a carriage return that ends no line and is not the last byte. -/
theorem findEolLoop_lone {fuel : Nat} (hskip : skip + 1 < blob.length) (h : findCr blob skip = some v)
    (hlt : v + 1 < blob.length) (hne : blob[v + 1]? ≠ some '\n') :
    findEolLoop blob (fuel + 1) skip = findEolLoop blob fuel (skip + (v + 1)) := by
  rw [findEolLoop, if_pos hskip, h]
  dsimp only
  rw [if_neg (by omega), List.getElem?_eq_getElem hlt]
  dsimp only
  rw [if_neg fun heq => hne (by rw [List.getElem?_eq_getElem hlt, heq])]

theorem le_of_findEolLoop : ∀ {fuel skip : Nat}, findEolLoop blob fuel skip = some (some v) → skip ≤ v
  | fuel + 1, skip, h => by
    rw [findEolLoop] at h
    split at h
    case isFalse => cases h
    case isTrue =>
      cases hfirst : findCr blob skip with
      | none => rw [hfirst] at h; cases h
      | some w =>
        have hle := (findCr_some hfirst).1
        rw [hfirst] at h
        dsimp only at h
        split at h
        · cases h
        · split at h
          · cases h
          · split at h
            · cases h; exact hle
            · have := le_of_findEolLoop h; omega

theorem findEolLoop_some (hfirst : FirstEol blob (some v)) : ∀ {fuel skip : Nat}, blob.length ≤ fuel + skip →
    (findEolLoop blob fuel skip = some (some v) ↔ putOff skip (loneCrs blob v) ≤ v)
  | fuel, skip, hfuel => by
    obtain ⟨⟨hcr, hlf⟩, hbefore⟩ := hfirst
    have hlt : v + 1 < blob.length := (List.getElem?_eq_some_iff.1 hlf).1
    by_cases hskip : skip ≤ v
    case neg =>
      exact iff_of_false (fun h => hskip (le_of_findEolLoop h)) fun h => hskip (Nat.le_trans le_putOff h)
    obtain ⟨w, hwv, hw⟩ := findCr_of_cr hcr hskip
    obtain ⟨fuel, rfl⟩ : ∃ n, fuel = n + 1 := ⟨fuel - 1, by omega⟩
    rcases Nat.lt_or_eq_of_le hwv with hwv | rfl
    · have hne : blob[w + 1]? ≠ some '\n' := fun heq => hbefore w hwv ⟨(findCr_some hw).2.1, heq⟩
      rw [findEolLoop_lone (by omega) hw (by omega) hne, putOff_findCr hw hwv hne]
      exact findEolLoop_some ⟨⟨hcr, hlf⟩, hbefore⟩ (by omega)
    · refine iff_of_true ?_ (by rwa [putOff_findCr_self hw])
      rw [findEolLoop, if_pos (by omega), hw]
      dsimp only
      rw [if_neg (by omega), hlf]
      rfl

theorem findEolLoop_none (hfirst : FirstEol blob none) : ∀ {fuel skip : Nat}, blob.length ≤ fuel + skip →
    (findEolLoop blob fuel skip = some none ↔ (blob.getLast? = some '\r' →
      putOff skip (loneCrs blob (blob.length - 1)) = 0 ∨
        blob.length ≤ putOff skip (loneCrs blob (blob.length - 1)) + 1))
  | fuel, skip, hfuel => by
    have hput : skip ≤ putOff skip (loneCrs blob (blob.length - 1)) := le_putOff
    by_cases hskip : skip + 1 < blob.length
    case neg =>
      refine iff_of_true ?_ fun _ => Or.inr (by omega)
      cases fuel with
      | zero => rfl
      | succ fuel => rw [findEolLoop, if_neg hskip]
    obtain ⟨fuel, rfl⟩ : ∃ n, fuel = n + 1 := ⟨fuel - 1, by omega⟩
    cases hw : findCr blob skip with
    | none =>
      refine iff_of_true (by rw [findEolLoop, if_pos hskip, hw]) fun hlast => ?_
      rw [getLast?_eq_getElem?] at hlast
      obtain ⟨w, -, hw'⟩ := findCr_of_cr hlast (show skip ≤ blob.length - 1 by omega)
      cases hw.symm.trans hw'
    | some w =>
      obtain ⟨hle, hcr, -⟩ := findCr_some hw
      have hlt := (List.getElem?_eq_some_iff.1 hcr).1
      by_cases hend : w + 1 < blob.length
      · have hne : blob[w + 1]? ≠ some '\n' := fun heq => hfirst w ⟨hcr, heq⟩
        rw [findEolLoop_lone hskip hw hend hne, putOff_findCr hw (by omega) hne]
        exact findEolLoop_none hfirst (by omega)
      · -- the last byte is a carriage return, and the test for it is right only at the beginning of the block
        obtain rfl : w = blob.length - 1 := by omega
        rw [putOff_findCr_self hw, getLast?_eq_getElem?, findEolLoop, if_pos hskip, hw]
        dsimp only
        rw [List.getElem?_eq_none (by omega)]
        split
        · exact iff_of_true rfl fun _ => Or.inl (by omega)
        · exact iff_of_false (by simp) fun h => by have := h hcr; omega

/-- The search finds the leftmost end of a line, or that there is none, and looks at no byte behind the block, exactly if the
lone carriage returns let it. -/
theorem findEol_exact_iff (blob : List Char) (r : Option Nat) (hfirst : FirstEol blob r) :
    findEol blob = some r ↔ Reachable blob r := by
  cases r with
  | none => exact findEolLoop_none hfirst le_rfl
  | some v => exact findEolLoop_some hfirst le_rfl

theorem findEol_exact_lone : findEol ['a', '\r', 'b', '\r', '\n'] = some (some 3) :=
  (findEol_exact_iff ['a', '\r', 'b', '\r', '\n'] (some 3) ⟨by decide, by decide⟩).2 (by unfold Reachable; decide)

/-- With two carriage returns in front of it, the end of a line is passed over; with one in front of the last byte of the
block, the byte behind the block is inspected. -/
theorem findEol_inexact : findEol ['\r', '\r', '\r', '\n'] = some none ∧ findEol ['\r', 'a', '\r'] = none := by
  decide

end Globus.Xio.Http
