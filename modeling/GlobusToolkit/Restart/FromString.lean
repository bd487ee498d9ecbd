/-
Restart markers of the FTP client as they stand in memory (gridftp/client/source/globus_ftp_client_restart_marker.c,
common/source/library/globus_fifo.c). A queue is a pointer that is null until `globus_fifo_init`. The markers that insert makes
are canonical: their queue is fixed by the bytes that were inserted. The text of such a marker is not read back: the reader sets
the type of an extended block marker without making its queue, and every range it reads is lost.
-/
import GlobusToolkit.Restart.Client

namespace Globus

open Lib List ClientRange

/-! ## The canonical queue of a set -/

theorem Spread.eq_of_cover_eq {hi : Int} : ∀ {l l' : List ClientRange} {lo lo' : Int}, Spread 0 lo hi l → Spread 0 lo' hi l' →
    (∀ x, x ∈ cover closed l ↔ x ∈ cover closed l') → l = l'
  | [], [], _, _, _, _, _ => rfl
  | [], s :: l', _, _, _, h', heq => by
    have hs := (h'.within s (by simp)).2.1
    have := (heq s.offset).2 ⟨s, by simp, by rw [mem_closed]; omega⟩
    simp at this
  | r :: l, [], _, _, h, _, heq => by
    have hr := (h.within r (by simp)).2.1
    have := (heq r.offset).1 ⟨r, by simp, by rw [mem_closed]; omega⟩
    simp at this
  | r :: l, s :: l', lo, lo', h, h', heq => by
    obtain ⟨⟨-, hr, -⟩, hl⟩ := (spread_cons le_rfl).1 h
    obtain ⟨⟨-, hs, -⟩, hl'⟩ := (spread_cons le_rfl).1 h'
    simp only [mem_cover_cons, mem_closed] at heq
    -- the first ranges begin with the least byte and end in front of the first gap
    have hsr : s.offset ≤ r.offset := by
      rcases (heq r.offset).1 (.inl (by omega)) with h1 | h1
      · exact h1.1
      · have := hl'.le_of_mem_cover h1; omega
    have hrs : r.offset ≤ s.offset := by
      rcases (heq s.offset).2 (.inl (by omega)) with h1 | h1
      · exact h1.1
      · have := hl.le_of_mem_cover h1; omega
    have hend : r.endOffset = s.endOffset := by
      by_contra hne
      rcases lt_or_gt_of_ne hne with hlt | hlt
      · rcases (heq (r.endOffset + 1)).2 (.inl (by omega)) with h1 | h1
        · omega
        · have := hl.le_of_mem_cover h1; omega
      · rcases (heq (s.endOffset + 1)).1 (.inl (by omega)) with h1 | h1
        · omega
        · have := hl'.le_of_mem_cover h1; omega
    have htail : ∀ x, x ∈ cover closed l ↔ x ∈ cover closed l' := by
      intro x
      constructor
      · intro hx
        have hlt := hl.le_of_mem_cover hx
        exact ((heq x).1 (.inr hx)).resolve_left (by omega)
      · intro hx
        have hlt := hl'.le_of_mem_cover hx
        exact ((heq x).2 (.inr hx)).resolve_left (by omega)
    have hfirst : r = s := by
      cases r; cases s
      exact congrArg₂ _ (le_antisymm hrs hsr) hend
    rw [hfirst, Spread.eq_of_cover_eq hl hl' htail]

/-- A range that may be inserted: the offset behind its end is still an offset. -/
structure ClientRange.Insertable (r : ClientRange) : Prop where
  nonneg : 0 ≤ r.offset
  offset_le : r.offset ≤ r.endOffset
  end_lt : r.endOffset < offMax

/-! ## The marker in memory -/

/-- A `globus_fifo_t`: null before `globus_fifo_init`. -/
abbrev Fifo (α : Type) := Option (List α)

/-- The union `globus_ftp_client_restart_marker_t`, with the queue as a pointer. -/
inductive MarkerMemory
  | none
  | stream (offset asciiOffset : Int)
  | extendedBlock (ranges : Fifo ClientRange)
deriving DecidableEq

namespace MarkerMemory

/-- The queue that insert finds: it is made only when the type of the marker is another one. -/
def fifo : MarkerMemory → Fifo ClientRange
  | extendedBlock ranges => ranges
  | _ => some []

/-- `globus_ftp_client_restart_marker_insert_range`. A null queue is moved as an empty one, and nothing can be enqueued on it: the
range is lost, and the call succeeds. -/
def insertRange (marker : MarkerMemory) (offset endOffset : Int) : MarkerMemory :=
  .extendedBlock (marker.fifo.map (clientInsertLoop offset endOffset))

/-- The stored ranges. -/
def ranges : MarkerMemory → List ClientRange
  | extendedBlock ranges => ranges.getD []
  | _ => []

/-- The marker as a value; there is none when the queue of an extended block marker was not made. -/
def value : MarkerMemory → Option RestartMarker
  | none => some .none
  | stream offset asciiOffset => some (.stream offset asciiOffset)
  | extendedBlock ranges => ranges.map .extendedBlock

/-- `globus_ftp_client_restart_marker_to_string`: a null queue is dereferenced (`none`). -/
def toText (marker : MarkerMemory) : Option (Option (List Char)) := marker.value.map clientRestartMarkerToString

/-- The errors of `globus_ftp_client_restart_marker_from_string`, with the parameter they name. -/
inductive FromStringError
  | nullParameter (name : String)
  | invalidParameter (name : String)
deriving DecidableEq

/-- The loop over the ranges of the text. -/
def fromStringLoop (p : List Char) (marker : MarkerMemory) : MarkerMemory :=
  match _h : scanRange p with
  | .none => marker
  | some (offset, endOffset, rest) =>
    let marker := marker.insertRange offset endOffset
    match rest with
    | ',' :: p' => fromStringLoop p' marker
    | _ => marker
termination_by p.length
decreasing_by have := scanRange_length_lt _h; simp only [length_cons] at this; omega

/-- `globus_ftp_client_restart_marker_from_string`. -/
def fromString : Option (List Char) → Except FromStringError MarkerMemory
  | .none => .error (.nullParameter "marker_string")
  | some markerString =>
    -- the marker is cleared first, and its queue is a null pointer then
    if (strchr '-' markerString).isSome then .ok (fromStringLoop markerString (.extendedBlock .none))
    else
      match scanOff markerString with
      | .none => .error (.invalidParameter "marker_string")
      | some (offset, _) => .ok (.stream offset offset)

/-! ## Inserting into a marker -/

theorem value_insertRange {marker : MarkerMemory} {m : RestartMarker} (h : marker.value = some m) (offset endOffset : Int) :
    (marker.insertRange offset endOffset).value = some (clientRestartMarkerInsertRange m offset endOffset) := by
  cases marker with
  | none => cases h; rfl
  | stream => cases h; rfl
  | extendedBlock q =>
    cases q with
    | none => cases h
    | some l => cases h; rfl

theorem ranges_of_value {marker : MarkerMemory} {m : RestartMarker} (h : marker.value = some m) : marker.ranges = m.ranges := by
  cases marker with
  | none => cases h; rfl
  | stream => cases h; rfl
  | extendedBlock q =>
    cases q with
    | none => cases h
    | some l => cases h; rfl

/-- A marker after ranges were inserted into an empty one. -/
def ofRanges (rs : List ClientRange) : MarkerMemory := rs.foldl (fun marker r => marker.insertRange r.offset r.endOffset) .none

/-- Its value. -/
def valueOf (rs : List ClientRange) : RestartMarker :=
  rs.foldl (fun marker r => clientRestartMarkerInsertRange marker r.offset r.endOffset) .none

theorem value_ofRanges (rs : List ClientRange) : (ofRanges rs).value = some (valueOf rs) := by
  induction rs using List.reverseRecOn with
  | nil => rfl
  | append_singleton rs r ih =>
    rw [ofRanges, valueOf, foldl_append, foldl_append]
    exact value_insertRange ih r.offset r.endOffset

theorem ranges_ofRanges_concat (rs : List ClientRange) (r : ClientRange) :
    (ofRanges (rs ++ [r])).ranges = clientInsertLoop r.offset r.endOffset (ofRanges rs).ranges := by
  rw [ranges_of_value (value_ofRanges _), ranges_of_value (value_ofRanges _), valueOf, foldl_append]
  rfl

theorem ofRanges_spread (rs : List ClientRange) (h : ∀ r ∈ rs, r.Insertable) :
    Spread 0 0 offMax (ofRanges rs).ranges ∧
      ∀ x, x ∈ cover closed (ofRanges rs).ranges ↔ x ∈ cover closed rs := by
  induction rs using List.reverseRecOn with
  | nil => exact ⟨.nil, fun x => Iff.rfl⟩
  | append_singleton rs r ih =>
    obtain ⟨hs, hc⟩ := ih fun a ha => h a (by simp [ha])
    obtain ⟨h0, hle, hlt⟩ := h r (by simp)
    obtain ⟨h1, h2⟩ := clientInsertLoop_spread le_rfl _ 0 r.offset r.endOffset hs h0 (by omega) hlt.le
    rw [ranges_ofRanges_concat]
    refine ⟨h1, fun x => ?_⟩
    rw [h2, hc]
    simp [mem_cover, or_and_right, exists_or, mem_closed]

theorem ranges_ofRanges_ne_nil {rs : List ClientRange} (h : ∀ r ∈ rs, r.Insertable) (hne : rs ≠ []) :
    (ofRanges rs).ranges ≠ [] := by
  obtain ⟨r, rs, rfl⟩ := exists_cons_of_ne_nil hne
  have hr := (h r (by simp)).offset_le
  have hmem : r.offset ∈ cover closed (r :: rs) := ⟨r, by simp, by rw [mem_closed]; omega⟩
  rw [← (ofRanges_spread _ h).2] at hmem
  intro hnil
  simp [hnil] at hmem

/-! ## The text of a marker -/

/-- With ranges, the marker has a text, and it holds a hyphen. -/
theorem toText_ofRanges {rs : List ClientRange} (h : ∀ r ∈ rs, r.Insertable) (hne : rs ≠ []) :
    ∃ text, (ofRanges rs).toText = some (some text) ∧ '-' ∈ text := by
  have hranges := ranges_ofRanges_ne_nil h hne
  have hvalue : valueOf rs = .extendedBlock (valueOf rs).ranges := by
    rcases eq_nil_or_concat rs with rfl | ⟨rs, r, rfl⟩
    · exact absurd rfl hne
    · rw [concat_eq_append, valueOf, foldl_append]; rfl
  rw [ranges_of_value (value_ofRanges rs)] at hranges
  obtain ⟨r, l, hl⟩ := exists_cons_of_ne_nil hranges
  refine ⟨_, by rw [toText, value_ofRanges, hvalue, hl, Option.map_some, clientRestartMarkerToString]; simp, ?_⟩
  rw [flatMap_cons, append_assoc, dropLast_append_of_ne_nil (by simp)]
  simp [ClientRange.text]

theorem fromStringLoop_null (p : List Char) : fromStringLoop p (.extendedBlock .none) = .extendedBlock .none := by
  induction hn : p.length using Nat.strong_induction_on generalizing p with
  | _ n ih =>
    rw [fromStringLoop]
    split
    · rfl
    · next h =>
      have hlt := scanRange_length_lt h
      split
      · exact ih _ (by simp only [length_cons] at hlt; omega) _ rfl
      · rfl

/-- Whatever ranges a text has, the reader succeeds and keeps none of them. -/
theorem fromString_ranges {markerString : List Char} (h : '-' ∈ markerString) :
    fromString (some markerString) = .ok (.extendedBlock .none) := by
  have hsome : (strchr '-' markerString).isSome = true := by
    obtain ⟨pre, post, rfl, hpre⟩ := eq_append_cons_of_mem h
    rw [strchr_append hpre]
    rfl
  rw [fromString, if_pos hsome, fromStringLoop_null]

/-- The text of the marker, if it has one, is read back into the same list. -/
def ReadBack (marker : MarkerMemory) : Prop :=
  ∀ text, marker.toText = some (some text) → ∃ marker', fromString (some text) = .ok marker' ∧ marker'.ranges = marker.ranges

/-- The queue of every marker that insert makes is in order, apart, holds exactly the closed ranges that were inserted and does not
depend on their order or number; its text is read back only when it has none. -/
theorem ofRanges_canonical_iff (rs : List ClientRange) (h : ∀ r ∈ rs, r.Insertable) :
    (ofRanges rs).ranges.Pairwise (fun r s => r.offset < s.offset ∧ r.endOffset + 1 < s.offset) ∧
      cover closed (ofRanges rs).ranges = cover closed rs ∧
      (∀ rs', (∀ r, r ∈ rs' ↔ r ∈ rs) → (ofRanges rs').ranges = (ofRanges rs).ranges) ∧
      (ReadBack (ofRanges rs) ↔ rs = []) := by
  obtain ⟨hspread, hcover⟩ := ofRanges_spread rs h
  refine ⟨hspread.spaced.imp_of_mem fun {a b} ha _ hab => ⟨?_, hab⟩, Set.ext hcover, fun rs' hsame => ?_, ?_, ?_⟩
  · have := (hspread.within a ha).2.1; omega
  · obtain ⟨hspread', hcover'⟩ := ofRanges_spread rs' fun r hr => h r ((hsame r).1 hr)
    refine hspread'.eq_of_cover_eq hspread fun x => ?_
    rw [hcover, hcover']
    simp only [mem_cover, hsame]
  · intro hback
    by_contra hne
    obtain ⟨text, htext, hmem⟩ := toText_ofRanges h hne
    obtain ⟨marker', hread, hranges⟩ := hback text htext
    rw [fromString_ranges hmem] at hread
    cases hread
    exact ranges_ofRanges_ne_nil h hne hranges.symm
  · rintro rfl text htext
    cases htext

/-- Two ranges that touch and one in front of them, in any order. -/
theorem ofRanges_canonical_three :
    (ofRanges [⟨6, 9⟩, ⟨0, 3⟩, ⟨5, 5⟩]).ranges = (ofRanges [⟨0, 3⟩, ⟨5, 5⟩, ⟨6, 9⟩, ⟨5, 5⟩]).ranges :=
  (ofRanges_canonical_iff [⟨0, 3⟩, ⟨5, 5⟩, ⟨6, 9⟩, ⟨5, 5⟩] (by
    simp only [mem_cons, not_mem_nil, or_false]
    rintro r (rfl | rfl | rfl | rfl) <;> exact ⟨by decide, by decide, by decide⟩)).2.2.1 _ (by simp; tauto)

/-- The text of the marker with the range 0-5 is read into a marker without any. -/
theorem ofRanges_text_lost :
    (⟨0, 5⟩ : ClientRange).Insertable ∧ (ofRanges [⟨0, 5⟩]).ranges = [⟨0, 5⟩] ∧
      (ofRanges [⟨0, 5⟩]).toText = some (some "0-5".toList) ∧
      fromString (some "0-5".toList) = .ok (.extendedBlock .none) ∧ ¬ ReadBack (ofRanges [⟨0, 5⟩]) := by
  have htext : (ofRanges [⟨0, 5⟩]).toText = some (some "0-5".toList) := by decide
  have hread : fromString (some "0-5".toList) = .ok (.extendedBlock .none) := fromString_ranges (by decide)
  refine ⟨⟨by decide, by decide, by decide⟩, by decide, htext, hread, fun hback => ?_⟩
  obtain ⟨marker', hread', hranges⟩ := hback _ htext
  rw [hread] at hread'
  cases hread'
  exact absurd hranges (by decide)

end MarkerMemory

end Globus
