/-
`globus_l_gsc_send_restart` (gridftp/server-lib/src/globus_gridftp_server_control_events.c): the server
merges the ranges into those it has reported so far (`op->perf_range_list`) and prints them as
`111 Range Marker o1-e1,o2-e2,..`. What it prints is a REST argument for the same list.
-/
import GlobusToolkit.RangeList.Merge
import GlobusToolkit.Restart.Rest

namespace Globus

open Lib List

/-! ## The function -/

/-- A range as it stands in the marker: its offset and its end. -/
def RangeEnt.text (ent : RangeEnt) : List Char := printInt ent.offset ++ '-' :: printInt (ent.offset + ent.length)

/-- The loop over the positions of the list, `n` of them from `ctr` on. Where the list has no entry the
source reads through a null pointer or prints offsets it has not read: `none`. -/
def markerLoop (rangeList : RangeList) : Nat → Nat → List Char → Option (List Char)
  | 0, _, msg => some msg
  | n + 1, ctr, msg =>
    match rangeListAt rangeList ctr with
    | some (.ok ent) => markerLoop rangeList n (ctr + 1) (msg ++ (if ctr = 0 then ' ' else ',') :: ent.text)
    | _ => none

/-- `globus_l_gsc_send_restart`: the reply, if one is sent, and `op->perf_range_list` afterwards.
`none` is a null dereference. -/
def gscSendRestart (perfRangeList rangeList : RangeList) : Option (Option (List Char) × RangeList) :=
  match rangeListMerge (some perfRangeList) (some rangeList) with
  | some ⟨_, some newRangeList, _, _⟩ =>
    let size := rangeListSize (some rangeList)
    -- sending 0-0 is useless
    if size < 1 then some (none, newRangeList)
    else
      (markerLoop rangeList size.toNat 0 "111 Range Marker".toList).map fun msg =>
        (some (msg ++ "\r\n".toList), newRangeList)
  | _ => none

/-- `op->perf_range_list` after reporting the lists `rls` one after the other. -/
def gscSendRestarts (rls : List RangeList) : Option RangeList :=
  rls.foldlM (fun perf rl => (gscSendRestart perf rl).map Prod.snd) rangeListInit

/-! ## The text -/

theorem rangeListAt_append (size : Int) (pre : List RangeEnt) (e : RangeEnt) (post : List RangeEnt) :
    rangeListAt ⟨size, pre ++ e :: post⟩ pre.length = some (.ok e) := by
  rw [rangeListAt, if_pos (by simp), drop_left]

theorem markerLoop_append (size : Int) : ∀ (post pre : List RangeEnt) (msg : List Char), pre ≠ [] →
    markerLoop ⟨size, pre ++ post⟩ post.length pre.length msg = some (msg ++ post.flatMap (',' :: ·.text))
  | [], pre, msg, _ => by simp [markerLoop]
  | e :: post, pre, msg, hpre => by
    have ih := markerLoop_append size post (pre ++ [e]) (msg ++ ',' :: e.text) (by simp)
    rw [append_assoc, singleton_append, length_append, length_singleton] at ih
    have hctr : pre.length ≠ 0 := by simpa using hpre
    simp only [length_cons, markerLoop, rangeListAt_append, if_neg hctr, ih]
    simp

theorem markerLoop_text (size : Int) (e : RangeEnt) (l : List RangeEnt) (msg : List Char) :
    markerLoop ⟨size, e :: l⟩ (e :: l).length 0 msg =
      some (msg ++ ' ' :: [','].intercalate ((e :: l).map RangeEnt.text)) := by
  have h := markerLoop_append size l [e] (msg ++ ' ' :: e.text) (by simp)
  have h0 : rangeListAt ⟨size, e :: l⟩ 0 = some (.ok e) := rangeListAt_append size [] e l
  simp only [singleton_append, length_singleton] at h
  simp only [length_cons, markerLoop, h0, if_true, zero_add, h, map_cons, intercalate_cons]
  simp [flatMap_map]

/-- A list that a transfer reports: well-formed, every range with an end that fits in an offset. -/
structure RangeList.Reportable (rl : RangeList) : Prop where
  wf : rl.WellFormed
  bounded : Bounded rl.head
  end_le : ∀ e ∈ rl.head, e.offset + e.length ≤ offMax

theorem RangeEnt.exists_pair {e : RangeEnt} (ho : 0 ≤ e.offset) (hn : 0 < e.length)
    (hle : e.offset + e.length ≤ offMax) : ∃ p : RestPair, p.range = e ∧ p.text = e.text := by
  obtain ⟨o, n⟩ := e
  obtain ⟨o, rfl⟩ := Int.eq_ofNat_of_zero_le ho
  obtain ⟨n, rfl⟩ := Int.eq_ofNat_of_zero_le hn.le
  simp only at hn hle
  refine ⟨⟨.ofNat o, .ofNat (o + n), by rw [Numeral.value_ofNat]; omega, by rw [Numeral.value_ofNat]; omega⟩, ?_, rfl⟩
  simp [RestPair.range]

theorem exists_pairs : ∀ l : List RangeEnt,
    (∀ e ∈ l, 0 ≤ e.offset ∧ 0 < e.length ∧ e.offset + e.length ≤ offMax) →
      ∃ ps : List RestPair, ps.map RestPair.range = l ∧ ps.map RestPair.text = l.map RangeEnt.text
  | [], _ => ⟨[], rfl, rfl⟩
  | e :: l, h => by
    obtain ⟨ho, hn, hle⟩ := h e (by simp)
    obtain ⟨p, hp1, hp2⟩ := e.exists_pair ho hn hle
    obtain ⟨ps, hps1, hps2⟩ := exists_pairs l fun a ha => h a (by simp [ha])
    exact ⟨p :: ps, by simp [hp1, hps1], by simp [hp2, hps2]⟩

/-! ## Reading it back -/

theorem insertRange_last {rl : RangeList} {r : RangeEnt} (hwf : rl.WellFormed) (hr : ValidRange r)
    (hlast : ∀ e ∈ rl.head, e.Apart r) : insertRange rl r = ⟨rl.size + 1, rl.head ++ [r]⟩ := by
  obtain ⟨d, hi, -, hsize⟩ := rangeListInsert_inserted hwf.separated.ordered hwf.size_eq hr
  generalize insertRange rl r = rl' at *
  obtain ⟨size, head⟩ := rl
  obtain ⟨size', head'⟩ := rl'
  subst hsize
  have hno : ∀ e ∈ head, ¬ Touches r.offset r.length e := fun e he ht => by
    grind
  cases hi with
  | fresh pre post hpre hpost =>
    have hnil : post = [] := by
      by_contra hne
      obtain ⟨e, he⟩ := exists_mem_of_ne_nil _ hne
      have h1 := hlast e (by simp [he])
      have h2 := hpost e he
      have h3 := hwf.separated.length_valid e (by simp [he])
      have h4 := hr.2
      grind
    subst hnil
    simp
  | grown pre ent post hpre ht hpost => exact absurd ht (hno ent (by simp))
  | absorbed pre ent next post hpre ht hn hnext => exact absurd ht (hno ent (by simp))

theorem insertRanges_separated (l : List RangeEnt) (h : Separated l) : insertRanges l = ⟨l.length, l⟩ := by
  induction l using List.reverseRecOn with
  | nil => rfl
  | append_singleton l r ih =>
    obtain ⟨hl, hr, hap⟩ := separated_append.1 h
    rw [insertRanges_concat, ih hl, insertRange_last ⟨hl, rfl⟩
      ⟨hr.offset_nonneg r (by simp), hr.length_valid r (by simp)⟩ fun e he => hap e he r (by simp)]
    simp

theorem gscCmdRest_entries (server : ServerHandle) {l : List RangeEnt} (hsep : Separated l) (hb : Bounded l)
    (hle : ∀ e ∈ l, e.offset + e.length ≤ offMax) (hne : l ≠ []) :
    gscCmdRest server ([','].intercalate (l.map RangeEnt.text)) = (restOk, ⟨some ⟨l.length, l⟩⟩) := by
  obtain ⟨ps, hrange, htext⟩ := exists_pairs l fun e he => ⟨hsep.offset_nonneg e he,
    (hsep.length_valid e he).resolve_left (hb e he), hle e he⟩
  have hps : ps ≠ [] := by rintro rfl; exact hne hrange.symm
  rw [← htext]
  refine (gscCmdRest_text server hps).trans ?_
  rw [hrange, insertRanges_separated _ hsep]

/-- Reporting a list prints its marker, if it has an entry, and leaves a list to merge the next into. -/
theorem gscSendRestart_prints {perf rl : RangeList} (hperf : perf.WellFormed) (hbp : Bounded perf.head)
    (h : rl.Reportable) :
    ∃ perf', gscSendRestart perf rl =
        some (if rl.head = [] then none
          else some ("111 Range Marker ".toList ++ [','].intercalate (rl.head.map RangeEnt.text) ++ "\r\n".toList),
          perf') ∧
      perf'.WellFormed ∧ Bounded perf'.head := by
  obtain ⟨perf', hmerge, hwf', hb'⟩ := rangeListMerge_bounded hperf h.wf hbp h.bounded
  refine ⟨perf', ?_, hwf', hb'⟩
  obtain ⟨size, head⟩ := rl
  have hsize : size = head.length := h.wf.size_eq
  subst hsize
  simp only [gscSendRestart, hmerge]
  cases head with
  | nil => simp [rangeListSize]
  | cons e l =>
    have hpos : ¬ rangeListSize (some ⟨((e :: l).length : Nat), e :: l⟩) < 1 := by simp [rangeListSize]
    have hctr : (rangeListSize (some ⟨((e :: l).length : Nat), e :: l⟩)).toNat = (e :: l).length := by
      simp [rangeListSize]
    rw [if_neg hpos, hctr, markerLoop_text, if_neg (cons_ne_nil e l), Option.map_some]
    rfl

theorem gscSendRestarts_reportable (rls : List RangeList) (h : ∀ rl ∈ rls, rl.Reportable) :
    ∃ perf, gscSendRestarts rls = some perf ∧ perf.WellFormed ∧ Bounded perf.head := by
  induction rls using List.reverseRecOn with
  | nil => exact ⟨rangeListInit, rfl, ⟨Separated.nil, rfl⟩, by simp [rangeListInit, Bounded]⟩
  | append_singleton rls rl ih =>
    obtain ⟨perf, hrun, hwf, hb⟩ := ih fun a ha => h a (by simp [ha])
    obtain ⟨perf', hsend, hwf', hb'⟩ := gscSendRestart_prints hwf hb (h rl (by simp))
    refine ⟨perf', ?_, hwf', hb'⟩
    have hsnd : (gscSendRestart perf rl).map Prod.snd = some perf' := by rw [hsend]; rfl
    rw [gscSendRestarts] at hrun ⊢
    rw [foldlM_append, hrun, Option.bind_eq_bind, Option.bind_some, foldlM_cons, hsnd]
    rfl

/-- Whatever has been reported before, the marker printed for a list that is not empty is a REST
argument, and the command stores the same list for it. -/
theorem gscSendRestart_rest (rls : List RangeList) (hrls : ∀ rl ∈ rls, rl.Reportable) (rl : RangeList)
    (h : rl.Reportable) (hne : rl.head ≠ []) (server : ServerHandle) :
    ∃ perf perf' text, gscSendRestarts rls = some perf ∧
      gscSendRestart perf rl = some (some ("111 Range Marker ".toList ++ text ++ "\r\n".toList), perf') ∧
      gscCmdRest server text = (restOk, ⟨some rl⟩) := by
  obtain ⟨perf, hrun, hwf, hb⟩ := gscSendRestarts_reportable rls hrls
  obtain ⟨perf', hsend, -, -⟩ := gscSendRestart_prints hwf hb h
  rw [if_neg hne] at hsend
  refine ⟨perf, perf', _, hrun, hsend, ?_⟩
  rw [gscCmdRest_entries server h.wf.separated h.bounded h.end_le hne, ← h.wf.size_eq]

/-- Two ranges, after one has been reported. -/
theorem gscSendRestart_rest_two :
    ∃ perf perf' text, gscSendRestarts [⟨1, [⟨0, 5⟩]⟩] = some perf ∧
      gscSendRestart perf ⟨2, [⟨0, 5⟩, ⟨10, 5⟩]⟩ =
        some (some ("111 Range Marker ".toList ++ text ++ "\r\n".toList), perf') ∧
      gscCmdRest ⟨none⟩ text = (restOk, ⟨some ⟨2, [⟨0, 5⟩, ⟨10, 5⟩]⟩⟩) := by
  refine gscSendRestart_rest [⟨1, [⟨0, 5⟩]⟩] ?_ ⟨2, [⟨0, 5⟩, ⟨10, 5⟩]⟩ ⟨⟨?_, rfl⟩, ?_, ?_⟩ (by simp) ⟨none⟩
  · intro rl hrl
    obtain rfl := mem_singleton.1 hrl
    exact ⟨⟨by simp [separated_cons, Separated.nil], rfl⟩, by simp [Bounded], by simp [offMax]⟩
  · simp [separated_cons, Separated.nil]
  · simp [Bounded]
  · simp [offMax]

end Globus
