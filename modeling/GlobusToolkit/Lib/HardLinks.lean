/-
A directory of hard links: names for files, with the number of links of each file, of which some may be elsewhere. `link` adds
a name for the file of another name and fails if the new name exists.
-/
import Mathlib.Data.List.AList
import Mathlib.Tactic

namespace Lib

structure LinkDir (ν κ : Type*) where
  names : AList fun _ : ν => κ
  /-- The links of a file outside of the directory. -/
  outside : κ → Nat

namespace LinkDir

variable {ν κ : Type*} [DecidableEq ν]

/-- The file of a name. -/
def file (d : LinkDir ν κ) (name : ν) : Option κ := d.names.lookup name

/-- `st_nlink`. -/
def nlink [DecidableEq κ] (d : LinkDir ν κ) (f : κ) : Nat := (d.names.entries.filter fun e => e.2 = f).length + d.outside f

/-- `stat`: the file and its number of links. -/
def stat [DecidableEq κ] (d : LinkDir ν κ) (name : ν) : Option (κ × Nat) := (d.file name).map fun f => (f, d.nlink f)

/-- `link`. -/
def link (d : LinkDir ν κ) (old new : ν) : Option (LinkDir ν κ) :=
  match d.file old, d.file new with
  | some f, none => some { d with names := d.names.insert new f }
  | _, _ => none

/-- `unlink`. -/
def unlink (d : LinkDir ν κ) (name : ν) : LinkDir ν κ := { d with names := d.names.erase name }

variable {d d' : LinkDir ν κ} {old new name : ν} {f : κ}

theorem length_le_nlink [DecidableEq κ] {names : List ν} (hnodup : names.Nodup) (h : ∀ n ∈ names, d.file n = some f) :
    names.length ≤ d.nlink f := by
  have hsub : names.map (fun n => (⟨n, f⟩ : Sigma fun _ : ν => κ)) ⊆ d.names.entries.filter fun e => e.2 = f := by
    intro e he
    obtain ⟨n, hn, rfl⟩ := List.mem_map.1 he
    exact List.mem_filter.2 ⟨AList.mem_lookup_iff.1 (h n hn), by simp⟩
  have hinj : (names.map (fun n => (⟨n, f⟩ : Sigma fun _ : ν => κ))).Nodup :=
    hnodup.map fun a b hab => congrArg Sigma.fst hab
  have hle := (List.subperm_of_subset hinj hsub).length_le
  rw [List.length_map] at hle
  exact hle.trans (Nat.le_add_right _ _)

theorem link_eq_some (h : d.link old new = some d') :
    ∃ f, d.file old = some f ∧ d.file new = none ∧ d' = { d with names := d.names.insert new f } := by
  unfold link at h
  split at h
  · next f hold hnew => exact ⟨f, hold, hnew, (Option.some.inj h).symm⟩
  · cases h

@[simp] theorem file_insert : ({ d with names := d.names.insert new f } : LinkDir ν κ).file name =
    if name = new then some f else d.file name := by
  unfold file
  split
  · next h => rw [h, AList.lookup_insert]
  · next h => exact AList.lookup_insert_ne h

@[simp] theorem file_unlink : (d.unlink new).file name = if name = new then none else d.file name := by
  unfold file unlink
  split
  · next h => rw [h, AList.lookup_erase]
  · next h => exact AList.lookup_erase_ne h

end LinkDir

end Lib
