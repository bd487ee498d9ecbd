/-
Restart markers of the FTP client (gridftp/client/source/globus_ftp_client_restart_marker.c,
globus_ftp_client_state.c). The client reads `111 Range Marker o1-e1,..` replies into a sorted queue of
ranges and prints the queue as a REST argument. Insert treats a range as if it held its end offset too:
ranges that are one byte apart are combined. The queue is therefore the canonical list of the closed
ranges `[o, e]`, and the byte between two such ranges counts as received.
-/
import GlobusToolkit.Restart.Marker

namespace Globus

open Lib List

/-! ## The marker -/

/-- `globus_i_ftp_client_range_t`. -/
structure ClientRange where
  offset : Int
  endOffset : Int
deriving DecidableEq

/-- `globus_ftp_client_restart_marker_t`. -/
inductive RestartMarker
  | none
  | stream (offset asciiOffset : Int)
  | extendedBlock (ranges : List ClientRange)
deriving DecidableEq

/-- The queue of an extended block marker; any other marker is made one with an empty queue. -/
def RestartMarker.ranges : RestartMarker → List ClientRange
  | extendedBlock ranges => ranges
  | _ => []

/-- The loop of `globus_ftp_client_restart_marker_insert_range` over the old queue: the new queue. -/
def clientInsertLoop (offset endOffset : Int) : List ClientRange → List ClientRange
  | [] => [⟨offset, endOffset⟩]
  | range :: tmp =>
    if offset ≤ range.offset then
      if endOffset + 1 < range.offset then ⟨offset, endOffset⟩ :: range :: tmp
      else if endOffset + 1 = range.offset then clientInsertLoop offset range.endOffset tmp
      -- weird.... overlapping data
      else clientInsertLoop offset (if endOffset < range.endOffset then range.endOffset else endOffset) tmp
    else
      if range.endOffset < offset - 1 then range :: clientInsertLoop offset endOffset tmp
      else if range.endOffset ≥ offset - 1 then
        clientInsertLoop range.offset (if endOffset < range.endOffset then range.endOffset else endOffset) tmp
      else range :: clientInsertLoop offset endOffset tmp

/-- `globus_ftp_client_restart_marker_insert_range`. -/
def clientRestartMarkerInsertRange (marker : RestartMarker) (offset endOffset : Int) : RestartMarker :=
  .extendedBlock (clientInsertLoop offset endOffset marker.ranges)

/-- A range of the queue as it is printed. -/
def ClientRange.text (range : ClientRange) : List Char := printInt range.offset ++ '-' :: printInt range.endOffset

/-- `globus_ftp_client_restart_marker_to_string`; `none` is a null string. -/
def clientRestartMarkerToString : RestartMarker → Option (List Char)
  | .none => none
  | .stream offset asciiOffset =>
    -- printed as an `unsigned long`
    some (printInt ((if asciiOffset > offset then asciiOffset else offset) % 2 ^ 64))
  | .extendedBlock [] => none
  -- every range is followed by a comma, and the last comma is taken off
  | .extendedBlock ranges => some (ranges.flatMap fun range => range.text ++ [',']).dropLast

/-- `globus_ftp_client_restart_marker_get_total`. -/
def clientRestartMarkerGetTotal : RestartMarker → Int
  | .none => 0
  | .stream offset _ => offset
  | .extendedBlock ranges => (ranges.map fun range => range.endOffset - range.offset).sum

open ClientRange

theorem scanRange_length_lt {s rest : List Char} {o e : Int} (h : scanRange s = some (o, e, rest)) :
    rest.length < s.length := by
  simp only [scanRange] at h
  split at h
  · next start s' h1 =>
    obtain ⟨⟨v, rest'⟩, h2, h3⟩ := Option.map_eq_some_iff.1 h
    simp only [Prod.mk.injEq] at h3
    have hlt1 := scanInt_length_lt h1
    have hlt2 := scanInt_length_lt h2
    rw [length_cons] at hlt1
    rw [← h3.2.2]; omega
  · cases h

/-- The loop of `globus_l_ftp_client_parse_restart_marker` over the ranges. -/
def parseMarkerLoop (p : List Char) (marker : RestartMarker) : RestartMarker :=
  match _h : scanRange p with
  | none => marker
  | some (offset, endOffset, rest) =>
    let marker := clientRestartMarkerInsertRange marker offset endOffset
    match rest with
    | ',' :: p' => parseMarkerLoop p' marker
    | _ => marker
termination_by p.length
decreasing_by have := scanRange_length_lt _h; simp only [length_cons] at this; omega

/-- `globus_l_ftp_client_parse_restart_marker`: the marker of the handle afterwards. Without a digit
behind the code the source reads past the end of the response: `none`. -/
def clientParseRestartMarker (marker : RestartMarker) (code : Int) (response : List Char) : Option RestartMarker :=
  if code ≠ 111 then some marker
  else
    match (response.drop 4).dropWhile fun c => !c.isDigit with
    | [] => none
    | p => some (parseMarkerLoop p marker)

/-! ## The queue is canonical -/

/-- The bytes of a range as the markers mean it: without its end offset. -/
def ClientRange.bytes (r : ClientRange) : Set Int := {x | r.offset ≤ x ∧ x < r.endOffset}

/-- The bytes of a range as insert takes it: with its end offset. -/
def ClientRange.closed (r : ClientRange) : Set Int := {x | r.offset ≤ x ∧ x ≤ r.endOffset}

variable {r : ClientRange}

theorem ClientRange.mem_bytes {x : Int} : x ∈ r.bytes ↔ r.offset ≤ x ∧ x < r.endOffset := Iff.rfl

theorem ClientRange.mem_closed {x : Int} : x ∈ r.closed ↔ r.offset ≤ x ∧ x ≤ r.endOffset := Iff.rfl

/-- A queue of ranges of a length of at least `d` between two bounds, in order and more than one byte apart. -/
structure Spread (d lo hi : Int) (l : List ClientRange) : Prop where
  within : ∀ r ∈ l, lo ≤ r.offset ∧ r.offset + d ≤ r.endOffset ∧ r.endOffset ≤ hi
  spaced : l.Pairwise fun a b => a.endOffset + 1 < b.offset

variable {d lo hi : Int} {l : List ClientRange}

theorem Spread.nil : Spread d lo hi [] := ⟨by simp, .nil⟩

theorem spread_cons (hd : 0 ≤ d) :
    Spread d lo hi (r :: l) ↔
      (lo ≤ r.offset ∧ r.offset + d ≤ r.endOffset ∧ r.endOffset ≤ hi) ∧ Spread d (r.endOffset + 2) hi l := by
  constructor
  · rintro ⟨h1, h2⟩
    rw [pairwise_cons] at h2
    refine ⟨h1 r (by simp), fun b hb => ⟨?_, (h1 b (by simp [hb])).2⟩, h2.2⟩
    have := h2.1 b hb; omega
  · rintro ⟨h1, h2⟩
    refine ⟨fun b hb => ?_, pairwise_cons.2 ⟨fun b hb => ?_, h2.spaced⟩⟩
    · rcases mem_cons.1 hb with rfl | hb
      · exact h1
      · have hb' := h2.within b hb
        exact ⟨by omega, hb'.2⟩
    · have := (h2.within b hb).1; omega

theorem Spread.mono {lo' : Int} (h : Spread d lo hi l) (hle : lo' ≤ lo) : Spread d lo' hi l :=
  ⟨fun r hr => ⟨hle.trans (h.within r hr).1, (h.within r hr).2⟩, h.spaced⟩

theorem Spread.le_of_mem_cover {x : Int} (h : Spread d lo hi l) (hx : x ∈ cover closed l) : lo ≤ x := by
  obtain ⟨r, hr, hrx⟩ := hx
  exact (h.within r hr).1.trans hrx.1

theorem clientInsertLoop_spread (hd : 0 ≤ d) : ∀ (l : List ClientRange) (lo o e : Int), Spread d lo hi l →
    lo ≤ o → o + d ≤ e → e ≤ hi →
    Spread d lo hi (clientInsertLoop o e l) ∧
      ∀ x, x ∈ cover closed (clientInsertLoop o e l) ↔
        x ∈ cover closed l ∨ (o ≤ x ∧ x ≤ e)
  | [], lo, o, e, _, ho, hoe, he => by
    refine ⟨(spread_cons hd).2 ⟨⟨ho, hoe, he⟩, .nil⟩, fun x => ?_⟩
    simp [clientInsertLoop, mem_closed]
  | r :: tmp, lo, o, e, hl, ho, hoe, he => by
    obtain ⟨⟨hrlo, hrlt, hrhi⟩, htmp⟩ := (spread_cons hd).1 hl
    have htmp' : Spread d lo hi tmp := htmp.mono (by omega)
    -- taking `r` in: the range then begins at `o'` and ends at `e'`
    have htake : ∀ o' e', o' = min o r.offset → e' = max e r.endOffset → r.offset ≤ e + 1 → o ≤ r.endOffset + 1 →
        Spread d lo hi (clientInsertLoop o' e' tmp) ∧
          ∀ x, x ∈ cover closed (clientInsertLoop o' e' tmp) ↔
            x ∈ cover closed (r :: tmp) ∨ (o ≤ x ∧ x ≤ e) := by
      rintro o' e' rfl rfl h1 h2
      obtain ⟨ih1, ih2⟩ := clientInsertLoop_spread hd tmp lo (min o r.offset) (max e r.endOffset) htmp'
        (by omega) (by omega) (by omega)
      refine ⟨ih1, fun x => ?_⟩
      rw [ih2, mem_cover_cons, mem_closed, or_right_comm, or_comm]
      refine or_congr_left ?_
      omega
    have hpass : r.endOffset < o - 1 → Spread d lo hi (r :: clientInsertLoop o e tmp) ∧
        ∀ x, x ∈ cover closed (r :: clientInsertLoop o e tmp) ↔
          x ∈ cover closed (r :: tmp) ∨ (o ≤ x ∧ x ≤ e) := by
      intro hlt
      obtain ⟨ih1, ih2⟩ := clientInsertLoop_spread hd tmp (r.endOffset + 2) o e htmp (by omega) hoe he
      refine ⟨(spread_cons hd).2 ⟨⟨hrlo, hrlt, hrhi⟩, ih1⟩, fun x => ?_⟩
      rw [mem_cover_cons, ih2, mem_cover_cons, or_assoc]
    simp only [clientInsertLoop]
    split_ifs with h1 h2 h3 h4 h5 h6 h7
    · refine ⟨(spread_cons hd).2 ⟨⟨ho, hoe, he⟩, (spread_cons hd).2 ⟨⟨by simp only; omega, hrlt, hrhi⟩, htmp⟩⟩, fun x => ?_⟩
      rw [mem_cover_cons, or_comm]; rfl
    · exact htake _ _ (by omega) (by omega) (by omega) (by omega)
    · exact htake _ _ (by omega) (by omega) (by omega) (by omega)
    · exact htake _ _ (by omega) (by omega) (by omega) (by omega)
    · exact hpass h5
    · exact htake _ _ (by omega) (by omega) (by omega) (by omega)
    · exact htake _ _ (by omega) (by omega) (by omega) (by omega)
    · omega

theorem Spread.mem_bytes_iff (h : Spread 1 lo hi l) (x : Int) :
    x ∈ cover ClientRange.bytes l ↔ x ∈ cover closed l ∧ x + 1 ∈ cover closed l := by
  induction l generalizing lo with
  | nil => simp
  | cons r l ih =>
    obtain ⟨-, hl⟩ := (spread_cons (by omega)).1 h
    -- the bytes of the ranges behind `r` begin two bytes behind its end
    have hfar : ∀ y, y ∈ cover closed l → r.endOffset + 2 ≤ y := fun _ => hl.le_of_mem_cover
    rw [mem_cover_cons, ih hl, mem_cover_cons, mem_cover_cons, ClientRange.mem_bytes, mem_closed,
      mem_closed]
    have h0 := hfar x
    have h1 := hfar (x + 1)
    constructor
    · rintro (hx | hx)
      · exact ⟨.inl (by omega), .inl (by omega)⟩
      · exact ⟨.inr hx.1, .inr hx.2⟩
    · rintro ⟨hx | hx, hy | hy⟩
      · left; omega
      · have := h1 hy; omega
      · have := h0 hx; omega
      · exact .inr ⟨hx, hy⟩

theorem Spread.total_eq (h : Spread 1 lo hi l) :
    (cover ClientRange.bytes l).Finite ∧
      clientRestartMarkerGetTotal (.extendedBlock l) = (cover ClientRange.bytes l).ncard := by
  induction l generalizing lo with
  | nil => simp [clientRestartMarkerGetTotal]
  | cons r l ih =>
    obtain ⟨⟨-, hlt, -⟩, hl⟩ := (spread_cons (by omega)).1 h
    obtain ⟨hfin, hsum⟩ := ih hl
    have hr : r.bytes = Finset.Ico r.offset r.endOffset := by ext x; simp [ClientRange.mem_bytes]
    have hcons : cover ClientRange.bytes (r :: l) = r.bytes ∪ cover ClientRange.bytes l := by ext; exact mem_cover_cons _
    have hdisj : Disjoint r.bytes (cover ClientRange.bytes l) := by
      refine Set.disjoint_left.2 fun x hx ⟨b, hb, hxb⟩ => ?_
      have h1 := (hl.within b hb).1
      rw [ClientRange.mem_bytes] at hx hxb
      omega
    have hrfin : r.bytes.Finite := hr ▸ Finset.finite_toSet _
    refine ⟨hcons ▸ hrfin.union hfin, ?_⟩
    rw [hcons, Set.ncard_union_eq hdisj hrfin hfin, hr, Set.ncard_coe_finset, Int.card_Ico]
    simp only [clientRestartMarkerGetTotal, map_cons, sum_cons] at hsum ⊢
    rw [hsum]; push_cast; omega

/-! ## Reading replies -/

/-- A range in a reply: not empty, and the offset behind its end is still an offset. -/
structure Report extends RestPair where
  start_lt : start.value < stop.value
  stop_lt : stop.value < offMax

/-- A `111 Range Marker` reply: at least one range, and what follows the last one neither continues
its end offset nor begins another range. -/
structure RangeReply where
  ranges : List Report
  ranges_ne_nil : ranges ≠ []
  rest : List Char
  rest_ok : ∀ c ∈ rest.head?, c.isDigit = false ∧ c ≠ ','

def RangeReply.text (reply : RangeReply) : List Char :=
  "111 Range Marker ".toList ++ (restText (reply.ranges.map Report.toRestPair) ++ reply.rest)

/-- The marker of the handle after the replies, from an empty one. -/
def clientReadReplies (replies : List RangeReply) : Option RestartMarker :=
  replies.foldlM (fun marker reply => clientParseRestartMarker marker 111 reply.text) .none

/-- The marker after inserting a reported range. -/
def insertReport (marker : RestartMarker) (p : Report) : RestartMarker :=
  clientRestartMarkerInsertRange marker p.start.value p.stop.value

theorem parseMarkerLoop_text {rest : List Char} (hrest : ∀ c ∈ rest.head?, c.isDigit = false ∧ c ≠ ',') :
    ∀ (p : Report) (ps : List Report) (marker : RestartMarker),
      parseMarkerLoop (restText ((p :: ps).map Report.toRestPair) ++ rest) marker = (p :: ps).foldl insertReport marker
  | p, [], marker => by
    have hscan := scanRange_text p.toRestPair rest fun c hc => (hrest c hc).1
    rw [map_singleton, restText_singleton, parseMarkerLoop]
    split
    · next h => rw [hscan] at h; cases h
    · next h =>
      rw [hscan] at h; cases h
      split
      · next p' => exact absurd rfl (hrest ',' (by simp)).2
      · rfl
  | p, q :: ps, marker => by
    have ih := parseMarkerLoop_text hrest q ps (insertReport marker p)
    have hscan := scanRange_text p.toRestPair (',' :: (restText ((q :: ps).map Report.toRestPair) ++ rest)) (by simp)
    rw [map_cons, map_cons, restText_cons, append_assoc, cons_append, ← map_cons,
      parseMarkerLoop]
    split
    · next h => rw [hscan] at h; cases h
    · next h =>
      rw [hscan] at h; cases h
      exact ih

theorem dropWhile_not_isDigit {pre : List Char} (hlen : 4 ≤ pre.length) (hpre : ∀ c ∈ pre.drop 4, (!c.isDigit) = true)
    {c : Char} (hc : c.isDigit = true) (t : List Char) :
    ((pre ++ c :: t).drop 4).dropWhile (fun c => !c.isDigit) = c :: t := by
  rw [drop_append_of_le_length hlen, dropWhile_append_of_pos hpre, dropWhile_cons_of_neg (by simp [hc])]

theorem clientParseRestartMarker_text (marker : RestartMarker) (reply : RangeReply) :
    clientParseRestartMarker marker 111 reply.text = some (reply.ranges.foldl insertReport marker) := by
  obtain ⟨p, ps, hps⟩ := exists_cons_of_ne_nil reply.ranges_ne_nil
  obtain ⟨r, hr⟩ := restText_start p.toRestPair (ps.map Report.toRestPair)
  obtain ⟨c, ds, hds⟩ := exists_cons_of_ne_nil p.start.digits_ne_nil
  have hc : c.isDigit = true := p.start.isDigit c (by simp [hds])
  have htext : restText (reply.ranges.map Report.toRestPair) ++ reply.rest = c :: (ds ++ '-' :: r ++ reply.rest) := by
    rw [hps, map_cons, hr, hds]; rfl
  have hdrop : (reply.text.drop 4).dropWhile (fun c => !c.isDigit) = c :: (ds ++ '-' :: r ++ reply.rest) := by
    unfold RangeReply.text; rw [htext]
    exact dropWhile_not_isDigit (by decide) (by simp) hc _
  have hloop := parseMarkerLoop_text reply.rest_ok p ps marker
  rw [← hps, htext] at hloop
  simp only [clientParseRestartMarker, hdrop, hloop, ne_eq, not_true_eq_false, if_false]

/-! ## Whole runs -/

/-- All ranges of the replies, in the order in which they are read. -/
def reports (replies : List RangeReply) : List Report := replies.flatMap RangeReply.ranges

/-- The bytes that a report says were received. -/
def Report.bytes (p : Report) : Set Int := p.toRestPair.bytes

theorem Report.mem_bytes {p : Report} {x : Int} : x ∈ p.bytes ↔ p.start.value ≤ x ∧ x < p.stop.value := Iff.rfl

theorem clientReadReplies_eq (replies : List RangeReply) :
    clientReadReplies replies = some ((reports replies).foldl insertReport .none) := by
  induction replies using List.reverseRecOn with
  | nil => rfl
  | append_singleton replies reply ih =>
    rw [clientReadReplies] at ih ⊢
    rw [foldlM_append, ih, Option.bind_eq_bind, Option.bind_some, foldlM_cons,
      clientParseRestartMarker_text]
    simp [reports]

theorem insertReports_spread (ps : List Report) :
    Spread 1 0 offMax (ps.foldl insertReport .none).ranges ∧
      ∀ x, x ∈ cover closed (ps.foldl insertReport .none).ranges ↔
        ∃ p ∈ ps, p.start.value ≤ x ∧ x ≤ p.stop.value := by
  induction ps using List.reverseRecOn with
  | nil => exact ⟨⟨by simp [RestartMarker.ranges], .nil⟩, by simp [RestartMarker.ranges]⟩
  | append_singleton ps p ih =>
    obtain ⟨ih1, ih2⟩ := ih
    rw [foldl_append, foldl_cons, foldl_nil]
    have hlt := p.start_lt
    have hlt' := p.stop_lt
    obtain ⟨h1, h2⟩ := clientInsertLoop_spread (by omega) _ 0 p.start.value p.stop.value ih1 (by omega) (by omega)
      (by omega)
    refine ⟨h1, fun x => (h2 x).trans ?_⟩
    simp [ih2, or_and_right, exists_or]

/-- What a marker says was received. -/
def RestartMarker.bytes (marker : RestartMarker) : Set Int := cover ClientRange.bytes marker.ranges

/-- The one byte between two reports that no report has. -/
def Swallowed (ps : List Report) (x : Int) : Prop :=
  (∃ p ∈ ps, x = p.stop.value) ∧ (∃ q ∈ ps, x + 1 = q.start.value) ∧ x ∉ cover Report.bytes ps

theorem insertReports_bytes (ps : List Report) (x : Int) :
    x ∈ (ps.foldl insertReport .none).bytes ↔ x ∈ cover Report.bytes ps ∨ Swallowed ps x := by
  obtain ⟨hcan, hclosed⟩ := insertReports_spread ps
  rw [RestartMarker.bytes, hcan.mem_bytes_iff, hclosed, hclosed]
  constructor
  · rintro ⟨⟨p, hp, hp1, hp2⟩, q, hq, hq1, hq2⟩
    by_cases hx : x ∈ cover Report.bytes ps
    · exact .inl hx
    · have hpx : ¬ (p.start.value ≤ x ∧ x < p.stop.value) := fun h => hx ⟨p, hp, h⟩
      have hqx : ¬ (q.start.value ≤ x ∧ x < q.stop.value) := fun h => hx ⟨q, hq, h⟩
      exact .inr ⟨⟨p, hp, by omega⟩, ⟨q, hq, by omega⟩, hx⟩
  · rintro (⟨p, hp, h1, h2⟩ | ⟨⟨p, hp, rfl⟩, ⟨q, hq, hq1⟩, -⟩)
    · exact ⟨⟨p, hp, h1, h2.le⟩, p, hp, by omega, by omega⟩
    · have := p.start_lt; have := q.start_lt
      exact ⟨⟨p, hp, by omega, le_refl _⟩, q, hq, by omega, by omega⟩

/-! ## The REST text -/

/-- The entry a server stores for a range of the queue. -/
def ClientRange.entry (r : ClientRange) : RangeEnt := ⟨r.offset, r.endOffset - r.offset⟩

theorem ClientRange.entry_text (r : ClientRange) : r.entry.text = r.text := by
  simp [RangeEnt.text, entry, ClientRange.text]

theorem Spread.separated (h : Spread 1 0 hi l) :
    Separated (l.map entry) := by
  refine ⟨?_, ?_, pairwise_map.2 (h.spaced.imp_of_mem fun {a b} ha _ hab => ?_)⟩
  · simp only [mem_map, forall_exists_index, and_imp, forall_apply_eq_imp_iff₂]
    exact fun r hr => (h.within r hr).1
  · simp only [mem_map, forall_exists_index, and_imp, forall_apply_eq_imp_iff₂]
    intro r hr
    have := (h.within r hr).2.1
    exact .inr (by simp only [entry]; omega)
  · have := (h.within a ha).2.1
    simp only [RangeEnt.Apart, entry, rangeListMax_eq]; omega

theorem cover_entry (h : ∀ r ∈ l, r.offset < r.endOffset) :
    cover RangeEnt.bytes (l.map entry) = cover ClientRange.bytes l := by
  have hbytes : ∀ r ∈ l, ∀ x, x ∈ r.entry.bytes ↔ x ∈ r.bytes := fun r hr x => by
    have := h r hr
    simp only [RangeEnt.mem_bytes, entry, ClientRange.mem_bytes]; omega
  ext x
  simp only [mem_cover, mem_map, exists_exists_and_eq_and]
  exact exists_congr fun r => and_congr_right fun hr => hbytes r hr x

/-- What a REST text says was received: the bytes that the server stores for it; nothing without one. -/
def RestDenotes (server : ServerHandle) : Option (List Char) → Set Int → Prop
  | none, C => C = ∅
  | some text, C => ∃ rl, gscCmdRest server text = (restOk, ⟨some rl⟩) ∧ rl.covered = C

theorem Spread.denotes (h : Spread 1 0 offMax l) (server : ServerHandle) (C : Set Int) :
    RestDenotes server (clientRestartMarkerToString (.extendedBlock l)) C ↔ cover ClientRange.bytes l = C := by
  cases l with
  | nil => simp [clientRestartMarkerToString, RestDenotes, eq_comm]
  | cons r l =>
    have hlt : ∀ q ∈ r :: l, q.offset < q.endOffset := fun q hq => (h.within q hq).2.1
    have htext : ((r :: l).map entry).map RangeEnt.text = (r :: l).map ClientRange.text := by
      rw [map_map]
      exact map_congr_left fun q _ => entry_text q
    have hread : gscCmdRest server ([','].intercalate ((r :: l).map ClientRange.text)) =
        (restOk, ⟨some ⟨((r :: l).map entry).length, (r :: l).map entry⟩⟩) := by
      rw [← htext]
      refine gscCmdRest_entries server h.separated ?_ ?_ (by simp)
      · rintro e he
        obtain ⟨q, hq, rfl⟩ := mem_map.1 he
        have := hlt q hq
        simp only [entry, rangeListMax_eq]; omega
      · rintro e he
        obtain ⟨q, hq, rfl⟩ := mem_map.1 he
        have := (h.within q hq).2.2
        simp only [entry]; omega
    have htexts : (r :: l).flatMap (fun range => range.text ++ [',']) =
        ((r :: l).map ClientRange.text).flatMap (· ++ [',']) := by rw [flatMap_map]
    rw [clientRestartMarkerToString, htexts, dropLast_flatMap_append]
    · simp only [RestDenotes, hread, Prod.mk.injEq, true_and, ServerHandle.mk.injEq, Option.some.injEq,
        exists_eq_left', RangeList.covered]
      rw [cover_entry hlt]
    · simp

theorem insertReports_ne_stream (ps : List Report) :
    ps.foldl insertReport .none = .none ∨
      ps.foldl insertReport .none = .extendedBlock (ps.foldl insertReport .none).ranges := by
  rcases eq_nil_or_concat ps with rfl | ⟨ps, p, rfl⟩
  · exact .inl rfl
  · right; rw [concat_eq_append, foldl_append]; rfl

theorem insertReports_denotes (ps : List Report) (server : ServerHandle) (C : Set Int) :
    RestDenotes server (clientRestartMarkerToString (ps.foldl insertReport .none)) C ↔
      (ps.foldl insertReport .none).bytes = C := by
  have hcan := (insertReports_spread ps).1
  rcases insertReports_ne_stream ps with h | h
  · rw [h]; simp [clientRestartMarkerToString, RestDenotes, RestartMarker.bytes, RestartMarker.ranges, eq_comm]
  · rw [h]; exact hcan.denotes server C

/-- After all replies the client counts each byte that its marker says was received once. -/
theorem clientReadReplies_total (replies : List RangeReply) :
    ∃ marker, clientReadReplies replies = some marker ∧ marker.bytes.Finite ∧
      clientRestartMarkerGetTotal marker = marker.bytes.ncard ∧
      ∀ x, x ∈ marker.bytes ↔ x ∈ cover Report.bytes (reports replies) ∨ Swallowed (reports replies) x := by
  obtain ⟨hfinite, htotal⟩ := (insertReports_spread (reports replies)).1.total_eq
  refine ⟨_, clientReadReplies_eq replies, hfinite, ?_, insertReports_bytes _⟩
  rcases insertReports_ne_stream (reports replies) with h | h
  · rw [h]
    simp [clientRestartMarkerGetTotal, RestartMarker.bytes, RestartMarker.ranges]
  · rwa [← h] at htotal

/-- The marker and its REST text mean exactly the bytes that were reported. -/
def MarkerExact (server : ServerHandle) (replies : List RangeReply) : Prop :=
  ∃ marker, clientReadReplies replies = some marker ∧
    marker.bytes = cover Report.bytes (reports replies) ∧
    RestDenotes server (clientRestartMarkerToString marker) (cover Report.bytes (reports replies))

/-- After any replies, the marker and its REST text mean exactly the bytes that were reported if and
only if no byte that was not reported stands alone between the end of one report and the beginning
of another. -/
theorem clientRestartMarker_exact_iff (server : ServerHandle) (replies : List RangeReply) :
    MarkerExact server replies ↔ ∀ x, ¬ Swallowed (reports replies) x := by
  have hbytes := insertReports_bytes (reports replies)
  simp only [MarkerExact, clientReadReplies_eq, Option.some.injEq, exists_eq_left', insertReports_denotes, and_self]
  constructor
  · rintro heq x hsw
    exact hsw.2.2 (heq ▸ (hbytes x).2 (.inr hsw))
  · intro hno
    ext x
    rw [hbytes, or_iff_left (hno x)]

/-- A reply with the single range `start-stop`. -/
def singleReply (start stop : Nat) (hlt : start < stop) (hle : (stop : Int) < offMax) : RangeReply where
  ranges := [⟨⟨.ofNat start, .ofNat stop, by simp; omega, by simp; omega⟩, by simpa using hlt, by simpa using hle⟩]
  ranges_ne_nil := by simp
  rest := "\r\n".toList
  rest_ok := by simp

/-- After `0-5` and `6-10` the marker is `0-10`: byte 5 counts as received. -/
theorem clientRestartMarker_swallows :
    ¬ MarkerExact ⟨none⟩ [singleReply 0 5 (by decide) (by decide), singleReply 6 10 (by decide) (by decide)] := by
  rintro ⟨marker, hread, hbytes, -⟩
  have hres : clientReadReplies [singleReply 0 5 (by decide) (by decide), singleReply 6 10 (by decide) (by decide)] =
      some (.extendedBlock [⟨0, 10⟩]) := by
    rw [clientReadReplies_eq]
    simp [reports, singleReply, insertReport, clientRestartMarkerInsertRange, clientInsertLoop, RestartMarker.ranges]
  rw [hres, Option.some.injEq] at hread
  subst hread
  have h5 : (5 : Int) ∈ (RestartMarker.extendedBlock [⟨0, 10⟩]).bytes := by
    simp [RestartMarker.bytes, RestartMarker.ranges, ClientRange.mem_bytes]
  rw [hbytes] at h5
  simp [reports, singleReply, Report.mem_bytes] at h5

end Globus
