/-
Comparison without case in the C locale, where only the ASCII letters have one.
-/
import GlobusToolkit.Lib.CString

namespace Lib

theorem toNat_toLower (c : Char) : c.toLower.toNat = if 65 ≤ c.toNat ∧ c.toNat ≤ 90 then c.toNat + 32 else c.toNat := by
  have hupper : (c.val ≥ 'A'.val ∧ c.val ≤ 'Z'.val) ↔ (65 ≤ c.toNat ∧ c.toNat ≤ 90) := by
    rfl
  unfold Char.toLower
  split
  · next h =>
    have h' := hupper.1 h
    rw [if_pos h']
    show (c.val + 32).toNat = _
    show (c.toNat + 32) % 2 ^ 32 = _
    omega
  · next h => rw [if_neg (mt hupper.2 h)]

theorem toLower_eq_iff {c d : Char} (hd : d.toNat < 65) : c.toLower = d ↔ c = d := by
  rw [← Char.toNat_inj, ← Char.toNat_inj, toNat_toLower]
  split <;> omega

/-- A string in lower case. -/
def lower (s : List Char) : List Char := s.map Char.toLower

@[simp] theorem lower_cons (c : Char) (s : List Char) : lower (c :: s) = c.toLower :: lower s := rfl

@[simp] theorem lower_append (s t : List Char) : lower (s ++ t) = lower s ++ lower t := List.map_append

theorem lower_take (n : Nat) (s : List Char) : lower (s.take n) = (lower s).take n := List.map_take

theorem count_lower {d : Char} (hd : d.toNat < 65) (s : List Char) : (lower s).count d = s.count d := by
  induction s with
  | nil => rfl
  | cons c s ih =>
    rw [lower_cons, List.count_cons, List.count_cons, ih]
    simp only [beq_iff_eq, toLower_eq_iff hd]

/-- `strcasecmp`. -/
def strcasecmp (s t : List Char) : Ordering := strcmp (lower s) (lower t)

theorem strcasecmp_eq_iff {s t : List Char} : strcasecmp s t = .eq ↔ lower s = lower t :=
  ⟨eq_of_strcmp, fun h => by rw [strcasecmp, h]; exact Std.ReflCmp.compare_self⟩

/-- `strncasecmp(s, key, strlen(key)) == 0`. -/
def startsWithKey (s key : List Char) : Bool := lower (s.take key.length) == lower key

theorem startsWithKey_iff {s key : List Char} : startsWithKey s key ↔ lower key <+: lower s := by
  have hlen : (lower key).length = key.length := List.length_map _
  rw [startsWithKey, beq_iff_eq, List.prefix_iff_eq_take, hlen, lower_take, eq_comm]

end Lib
