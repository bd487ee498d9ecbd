/-
`globus_i_gsc_reverse_restart` (gridftp/server-lib/src/globus_gridftp_server_control_events.c): the
ranges still to be sent are `[0, ∞)` less the ranges already received, taken out one by one from the
front. The list they are taken from always ends in an entry without end, and all its other entries
end before the next range begins, so none of the faults of remove can occur.
-/
import GlobusToolkit.RangeList.Remove
import Mathlib

namespace Globus

open Lib List

/-! ## The function -/

theorem rangeListRemoveAt_zero (n : Int) (e : RangeEnt) (l : List RangeEnt) :
    rangeListRemoveAt ⟨n, e :: l⟩ 0 = .ok (e, ⟨n - 1, l⟩) := rfl

theorem rangeListRemoveAt_zero_lt {rl rl' : RangeList} {ent : RangeEnt}
    (h : rangeListRemoveAt rl 0 = .ok (ent, rl')) : rl'.head.length < rl.head.length := by
  obtain ⟨size, head⟩ := rl
  cases head with
  | nil => cases h
  | cons e rest => rw [rangeListRemoveAt_zero] at h; cases h; simp

/-- The loop of `globus_i_gsc_reverse_restart`. With a counter that is not zero and no entry left the
source goes round for ever on the offsets it read last: `none`. -/
def reverseLoop (inRange outRange : RangeList) : Option (RangeList × RangeList) :=
  if rangeListSize (some inRange) = 0 then some (inRange, outRange)
  else
    match _h : rangeListRemoveAt inRange 0 with
    | .error _ => none
    | .ok (ent, inRange') => reverseLoop inRange' (rangeListRemove outRange ent.offset ent.length).2
termination_by inRange.head.length
decreasing_by exact rangeListRemoveAt_zero_lt _h

/-- `globus_i_gsc_reverse_restart`: both lists afterwards. -/
def gscReverseRestart (inRange : Option RangeList) (outRange : RangeList) :
    Option (Option RangeList × RangeList) :=
  let outRange := (rangeListInsert outRange 0 rangeListMax).2
  match inRange with
  | none => some (none, outRange)
  | some inRange => (reverseLoop inRange outRange).map fun r => (some r.1, r.2)

theorem reverseLoop_nil (outRange : RangeList) : reverseLoop ⟨0, []⟩ outRange = some (⟨0, []⟩, outRange) := by
  rw [reverseLoop]; simp [rangeListSize]

theorem reverseLoop_cons (e : RangeEnt) (l : List RangeEnt) (outRange : RangeList) :
    reverseLoop ⟨(e :: l).length, e :: l⟩ outRange =
      reverseLoop ⟨l.length, l⟩ (rangeListRemove outRange e.offset e.length).2 := by
  have hsize : ¬ rangeListSize (some ⟨((e :: l).length : Nat), e :: l⟩) = 0 := by
    simp only [rangeListSize, length_cons]; omega
  have hcount : (((e :: l).length : Nat) : Int) - 1 = l.length := by
    simp only [length_cons]; omega
  rw [reverseLoop, if_neg hsize]
  split
  · next h => rw [rangeListRemoveAt_zero] at h; cases h
  · next h => rw [rangeListRemoveAt_zero, hcount] at h; cases h; rfl

/-! ## Taking a range out of an open-ended list -/

/-- A list whose last entry begins at `k` and has no end. -/
structure OpenEnded (out : RangeList) (k : Int) : Prop where
  wf : out.WellFormed
  ends : ∃ pre, out.head = pre ++ [⟨k, rangeListMax⟩]

theorem removeLoop_append {offset length : Int} (ho : 0 ≤ offset) (hn : 0 < length) (l : List RangeEnt) :
    ∀ pre : List RangeEnt, (∀ e ∈ pre, 0 ≤ e.offset ∧ ValidLength e.length ∧ e.EndsBefore offset) →
      removeLoop offset (rangeEnd offset length) (pre ++ l) =
        (pre ++ (removeLoop offset (rangeEnd offset length) l).1, (removeLoop offset (rangeEnd offset length) l).2)
  | [], _ => rfl
  | e :: pre, h => by
    obtain ⟨heo, hen, hend⟩ := h e (by simp)
    have hstep := removeLoop_step ho (.inr hn) heo hen (pre ++ l)
    rw [removeLoop_append ho hn l pre fun b hb => h b (by simp [hb])] at hstep
    rw [cons_append]
    generalize removeLoop offset (rangeEnd offset length) (e :: (pre ++ l)) = r at *
    simp only [RangeEnt.EndsBefore, ValidLength, rangeListMax_eq] at hend hen
    cases hstep with
    | kept => rfl
    | gone | cut | moved | split | behind => omega

theorem removeLoop_openEnd {k offset length : Int} (hk : 0 ≤ k) (ho : k ≤ offset) (hn : 0 < length) :
    removeLoop offset (rangeEnd offset length) [⟨k, rangeListMax⟩] =
      if k < offset then ([⟨k, offset - k⟩, ⟨offset + length, rangeListMax⟩], 1)
      else ([⟨offset + length, rangeListMax⟩], 0) := by
  have hstep : RemoveStep offset length ⟨k, rangeListMax⟩ [] _ _ :=
    removeLoop_step (by omega) (.inr hn) hk (.inl rfl) []
  generalize removeLoop offset (rangeEnd offset length) [⟨k, rangeListMax⟩] = r at *
  simp only [rangeListMax_eq] at hstep ⊢
  cases hstep with
  | moved h1 h2 => simp only at h2; rw [if_neg (by omega)]
  | split h1 h2 => simp only at h2; rw [if_pos h2]; simp
  | gone | cut | behind | kept => simp only at *; omega

section OpenEnd

variable {pre : List RangeEnt} {k offset length : Int}

/-- The entries in front of the open end stay, and the open end moves to the end of the range. -/
theorem removeLoop_open (hsep : Separated (pre ++ [⟨k, rangeListMax⟩])) (ho : k ≤ offset) (hn : 0 < length) :
    ∃ pre', (removeLoop offset (rangeEnd offset length) (pre ++ [⟨k, rangeListMax⟩])).1 =
        pre' ++ [⟨offset + length, rangeListMax⟩] ∧ Separated (pre' ++ [⟨offset + length, rangeListMax⟩]) := by
  obtain ⟨hsepPre, hsepK, hap⟩ := separated_append.1 hsep
  have hk : 0 ≤ k := hsepK.offset_nonneg ⟨k, rangeListMax⟩ (by simp)
  have hbefore : ∀ e ∈ pre, e.EndsBefore k := fun e he => hap e he ⟨k, rangeListMax⟩ (by simp)
  rw [removeLoop_append (by omega) hn _ _ fun e he => ⟨hsepPre.offset_nonneg e he, hsepPre.length_valid e he,
    (hbefore e he).1, (hbefore e he).2.trans_le ho⟩, removeLoop_openEnd hk ho hn]
  split_ifs with hlt
  · refine ⟨pre ++ [⟨k, offset - k⟩], by simp, ?_⟩
    simp only [append_assoc, cons_append, nil_append, separated_append, separated_cons,
      Separated.nil, hsepPre, RangeEnt.Apart, rangeListMax_eq, mem_cons, not_mem_nil,
      or_false, forall_eq_or_imp, forall_eq]
    refine ⟨trivial, ⟨hk, by omega, by omega, by omega, .inl trivial, by simp⟩, fun a ha => ?_⟩
    have := hbefore a ha
    omega
  · refine ⟨pre, rfl, separated_append.2 ⟨hsepPre, ?_, fun a ha b hb => ?_⟩⟩
    · simp [separated_cons, Separated.nil]; omega
    · have := hbefore a ha
      rw [mem_singleton] at hb
      subst hb
      exact ⟨this.1, by simp only; omega⟩

/-- None of the positions at fault: the entries in front end too early, the last has no end. -/
theorem removeExact_open (hsep : Separated (pre ++ [⟨k, rangeListMax⟩])) (ho : k ≤ offset) (hn : 0 < length) :
    RemoveExact (pre ++ [⟨k, rangeListMax⟩]) offset length := by
  refine .inr fun e post he hf => ?_
  rcases mem_append.1 (he.subset (mem_cons_self)) with hmem | hmem
  · have := (separated_append.1 hsep).2.2 e hmem ⟨k, rangeListMax⟩ (by simp)
    simp only [RemoveFault, RangeEnt.Apart, rangeListMax_eq] at this hf; omega
  · rw [mem_singleton] at hmem; subst hmem; exact hf.1 rfl

end OpenEnd

theorem OpenEnded.remove {out : RangeList} {k offset length : Int} (h : OpenEnded out k) (ho : k ≤ offset)
    (hn : 0 < length) :
    OpenEnded (rangeListRemove out offset length).2 (offset + length) ∧
      (rangeListRemove out offset length).2.covered = out.covered \ byteRange offset length := by
  obtain ⟨hwf, pre, hpre⟩ := h
  have hsep := hwf.separated
  have hsize := hwf.size_eq
  rw [hpre] at hsep hsize
  have ho' : 0 ≤ offset := (hsep.offset_nonneg ⟨k, rangeListMax⟩ (by simp)).trans ho
  obtain ⟨hcov, hlen⟩ := removeLoop_exact ho' (.inr hn) _ hsep (removeExact_open hsep ho hn)
  obtain ⟨pre', hpre', hsep'⟩ := removeLoop_open hsep ho hn
  have hres : (rangeListRemove out offset length).2 =
      ⟨out.size + (removeLoop offset (rangeEnd offset length) (pre ++ [⟨k, rangeListMax⟩])).2,
        pre' ++ [⟨offset + length, rangeListMax⟩]⟩ := by
    simp only [rangeListRemove, if_neg (not_lt.2 ho'), if_neg hn.ne', hpre, hpre']
  rw [hpre'] at hcov hlen
  rw [hres]
  refine ⟨⟨⟨hsep', ?_⟩, pre', rfl⟩, Set.ext fun x => ?_⟩
  · simp only [hsize, hlen]
  · simp only [RangeList.covered, hpre]; exact hcov x

/-! ## The whole loop -/

/-- Each round takes the next received range out of the ranges to send. -/
theorem reverseLoop_complement :
    ∀ (l : List RangeEnt) (k : Int) (out : RangeList), Separated l → Bounded l →
      (∀ e ∈ l, k ≤ e.offset) → OpenEnded out k →
      ∃ out', reverseLoop ⟨l.length, l⟩ out = some (⟨0, []⟩, out') ∧ out'.WellFormed ∧
        out'.covered = out.covered \ cover RangeEnt.bytes l
  | [], k, out, _, _, _, hopen => ⟨out, by simp [reverseLoop_nil], hopen.wf, by simp⟩
  | e :: l, k, out, hsep, hbd, hle, hopen => by
    obtain ⟨-, hen, hap, hsepl⟩ := separated_cons.1 hsep
    have hn : 0 < e.length := hen.resolve_left (hbd e (by simp))
    obtain ⟨hopen', hcov⟩ := hopen.remove (hle e (by simp)) hn
    obtain ⟨out', hrun, hwf, hcov'⟩ := reverseLoop_complement l (e.offset + e.length) _ hsepl
      (fun b hb => hbd b (by simp [hb])) (fun b hb => (hap b hb).2.le) hopen'
    refine ⟨out', by rw [reverseLoop_cons, hrun], hwf, ?_⟩
    rw [hcov', hcov, Set.sdiff_sdiff]
    congr 1
    ext x
    rw [mem_cover_cons]; rfl

/-- The ranges received and the ranges to send partition the file. -/
theorem gscReverseRestart_complement (inRange outRange : RangeList) (hin : inRange.WellFormed)
    (hbd : Bounded inRange.head) (hout : outRange.head = []) :
    ∃ out', gscReverseRestart (some inRange) outRange = some (some ⟨0, []⟩, out') ∧
      out'.covered = Set.Ici 0 \ inRange.covered ∧
      out'.covered ∪ inRange.covered = Set.Ici 0 ∧ Disjoint out'.covered inRange.covered ∧ out'.WellFormed := by
  obtain ⟨n, l⟩ := inRange
  obtain ⟨hsep, rfl : n = l.length⟩ := hin
  have hfull : (rangeListInsert outRange 0 rangeListMax).2 = ⟨1, [⟨0, rangeListMax⟩]⟩ := by
    simp [rangeListInsert, hout]
  have hopen : OpenEnded ⟨1, [⟨0, rangeListMax⟩]⟩ 0 :=
    ⟨⟨by simp [separated_cons, Separated.nil], rfl⟩, [], rfl⟩
  have hIci : (⟨1, [⟨0, rangeListMax⟩]⟩ : RangeList).covered = Set.Ici 0 := by
    ext x; simp [RangeList.covered, RangeEnt.mem_bytes]
  have hsub : cover RangeEnt.bytes l ⊆ Set.Ici 0 := by
    rintro x ⟨e, he, hx⟩
    exact (hsep.offset_nonneg e he).trans hx.1
  obtain ⟨out', hrun, hwf, hcov⟩ := reverseLoop_complement l 0 _ hsep hbd hsep.offset_nonneg hopen
  rw [hIci] at hcov
  refine ⟨out', ?_, hcov, ?_, ?_, hwf⟩
  · simp only [gscReverseRestart, hfull, hrun, Option.map_some]
  · rw [hcov]; exact Set.sdiff_union_of_subset hsub
  · rw [hcov]; exact Set.disjoint_sdiff_left

/-- A file with a hole in the middle. -/
theorem gscReverseRestart_complement_hole :
    ∃ out', gscReverseRestart (some ⟨2, [⟨0, 5⟩, ⟨10, 5⟩]⟩) ⟨0, []⟩ = some (some ⟨0, []⟩, out') ∧
      out'.covered = Set.Ici 0 \ (⟨2, [⟨0, 5⟩, ⟨10, 5⟩]⟩ : RangeList).covered := by
  obtain ⟨out', h1, h2, -⟩ := gscReverseRestart_complement ⟨2, [⟨0, 5⟩, ⟨10, 5⟩]⟩ ⟨0, []⟩
    ⟨by simp [separated_cons, Separated.nil], rfl⟩ (by simp [Bounded]) rfl
  exact ⟨out', h1, h2⟩

end Globus
