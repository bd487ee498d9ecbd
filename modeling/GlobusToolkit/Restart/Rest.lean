/-
`globus_l_gsc_cmd_rest` (gridftp/server-lib/src/globus_gridftp_server_control_commands.c): the REST
command reads `s1-e1,s2-e2,..` (extended mode) or one offset (stream mode) and inserts the ranges
`(s, e - s)` one after the other into a new range list. The difference is passed on unchecked: `e - s = -1`
is `GLOBUS_RANGE_LIST_MAX`. A range that runs over the ends of two recorded runs is cut at the second
(`Lost`), as in insert.
-/
import GlobusToolkit.Lib.CString
import GlobusToolkit.RangeList.Insert

namespace Globus

open Lib List RangeEnt

/-! ## The command -/

/-- The largest `globus_off_t`. -/
def offMax : Int := 2 ^ 63 - 1

/-- The input conversion of `GLOBUS_OFF_T_FORMAT`. -/
def scanOff (s : List Char) : Option (Int × List Char) := scanInt (-2 ^ 63) offMax s

/-- The two offsets of a range read as `%lld-%lld`, and the rest of the input. -/
def scanRange (s : List Char) : Option (Int × Int × List Char) :=
  match scanOff s with
  | some (start, '-' :: s') => (scanOff s').map fun r => (start, r.1, r.2)
  | _ => none

/-- What the REST command keeps in the server handle. -/
structure ServerHandle where
  rangeList : Option RangeList
deriving DecidableEq

def restBadOffset : String := "501 bad parameter.\r\n"

def restBadRange : String := "501 bad paremeter.\r\n"

def restOk : String := "350 Restart Marker OK. Send STORE or RETR to initiate transfer.\r\n"

/-- The loop over the ranges: `none` is a range that cannot be read. -/
def restLoop (tmpPtr : List Char) (rangeList : RangeList) : Option RangeList :=
  match scanRange tmpPtr with
  | none => none
  | some (startOffset, endOffset, _) =>
    let rangeList := (rangeListInsert rangeList startOffset (endOffset - startOffset)).2
    match _h : strchr ',' tmpPtr with
    | none => some rangeList
    | some p => restLoop p.tail rangeList
termination_by tmpPtr.length
decreasing_by exact strchr_tail_lt _h

/-- `globus_l_gsc_cmd_rest`: the reply and the handle afterwards. -/
def gscCmdRest (server : ServerHandle) (arg : List Char) : String × ServerHandle :=
  match strchr '-' arg with
  | none =>
    match scanOff arg with
    | none => (restBadOffset, server)
    | some (endOffset, _) => (restOk, ⟨some (rangeListInsert rangeListInit 0 endOffset).2⟩)
  | some _ =>
    match restLoop arg rangeListInit with
    | none => (restBadRange, server)
    | some rangeList => (restOk, ⟨some rangeList⟩)

/-! ## Reading a list of ranges -/

/-- A pair `start-stop` of decimal numbers that fit in an offset. -/
structure RestPair where
  start : Numeral
  stop : Numeral
  start_le : start.value ≤ offMax
  stop_le : stop.value ≤ offMax

def RestPair.text (p : RestPair) : List Char := p.start.digits ++ '-' :: p.stop.digits

/-- The argument `s1-e1,s2-e2,..`. -/
def restText (ps : List RestPair) : List Char := [','].intercalate (ps.map RestPair.text)

/-- The range that is inserted for a pair. -/
def RestPair.range (p : RestPair) : RangeEnt := ⟨p.start.value, p.stop.value - p.start.value⟩

theorem scanOff_numeral (n : Numeral) {rest : List Char} (hrest : ∀ c ∈ rest.head?, c.isDigit = false)
    (h : n.value ≤ offMax) : scanOff (n.digits ++ rest) = some ((n.value : Int), rest) :=
  scanInt_numeral n hrest (by omega) h

theorem scanRange_text (p : RestPair) (rest : List Char) (hrest : ∀ c ∈ rest.head?, c.isDigit = false) :
    scanRange (p.text ++ rest) = some ((p.start.value : Int), (p.stop.value : Int), rest) := by
  have h1 : scanOff (p.text ++ rest) = some ((p.start.value : Int), '-' :: (p.stop.digits ++ rest)) := by
    rw [RestPair.text, append_assoc, cons_append, scanOff_numeral _ (by simp) p.start_le]
  simp only [scanRange, h1, scanOff_numeral p.stop hrest p.stop_le, Option.map_some]

theorem RestPair.comma_not_mem (p : RestPair) : ',' ∉ p.text := by
  simp only [RestPair.text, mem_append, mem_cons, not_or]
  exact ⟨p.start.not_mem (by decide), by decide, p.stop.not_mem (by decide)⟩

theorem restText_cons (p q : RestPair) (ps : List RestPair) :
    restText (p :: q :: ps) = p.text ++ ',' :: restText (q :: ps) := by
  simp [restText, intercalate_cons_cons]

theorem restText_singleton (p : RestPair) : restText [p] = p.text := by
  simp [restText]

theorem restText_start (p : RestPair) (ps : List RestPair) :
    ∃ r, restText (p :: ps) = p.start.digits ++ '-' :: r := by
  cases ps with
  | nil => exact ⟨_, restText_singleton p⟩
  | cons q ps => exact ⟨_, by rw [restText_cons, RestPair.text, append_assoc, cons_append]⟩

theorem restLoop_text : ∀ (p : RestPair) (ps : List RestPair) (rl : RangeList),
    restLoop (restText (p :: ps)) rl = some (((p :: ps).map RestPair.range).foldl insertRange rl)
  | p, [], rl => by
    have hscan := scanRange_text p [] (by simp)
    rw [append_nil] at hscan
    rw [restText_singleton, restLoop, hscan]
    simp only
    split
    · rfl
    · next h => rw [strchr_eq_none p.comma_not_mem] at h; cases h
  | p, q :: ps, rl => by
    have hscan := scanRange_text p (',' :: restText (q :: ps)) (by simp)
    rw [restText_cons, restLoop, hscan]
    simp only
    split
    · next h => rw [strchr_append p.comma_not_mem] at h; cases h
    · next h =>
      rw [strchr_append p.comma_not_mem] at h; cases h
      rw [tail_cons, restLoop_text q ps]
      rfl

variable {ps : List RestPair}

/-- The command accepts every list of pairs and stores the list of their ranges. -/
theorem gscCmdRest_text (server : ServerHandle) (hps : ps ≠ []) :
    gscCmdRest server (restText ps) = (restOk, ⟨some (insertRanges (ps.map RestPair.range))⟩) := by
  obtain ⟨p, ps, rfl⟩ := exists_cons_of_ne_nil hps
  obtain ⟨r, hr⟩ := restText_start p ps
  have ht : strchr '-' (restText (p :: ps)) = some ('-' :: r) := by
    rw [hr, strchr_append (p.start.not_mem (by decide))]
  simp only [gscCmdRest, ht, restLoop_text]
  rfl

/-! ## What a list of pairs records -/

/-- The bytes of a pair; none when it is reversed. -/
def RestPair.bytes (p : RestPair) : Set Int := {x | p.start.value ≤ x ∧ x < p.stop.value}

/-- A run of `C` ends at `x`. -/
def Stop (C : Set Int) (x : Int) : Prop := x ∉ C ∧ x - 1 ∈ C

/-- A byte that a range beginning at `s` does not add to `C`: two runs of `C` end between `s` and it. -/
def Lost (C : Set Int) (s x : Int) : Prop :=
  x ∉ C ∧ ∃ a b, s ≤ a ∧ a < b ∧ b ≤ x ∧ Stop C a ∧ Stop C b

/-- The recorded bytes after one more pair. -/
def record (C : Set Int) (p : RestPair) : Set Int := {x | x ∈ C ∨ (x ∈ p.bytes ∧ ¬ Lost C p.start.value x)}

/-- The bytes recorded for a list of pairs. -/
def recorded (ps : List RestPair) : Set Int := ps.foldl record ∅

/-- Every byte that a pair does not add is in a later pair. -/
def Recovered (ps : List RestPair) : Prop :=
  ∀ qs p rs, ps = qs ++ p :: rs → ∀ x ∈ p.bytes, Lost (recorded qs) p.start.value x → x ∈ cover RestPair.bytes rs

theorem recorded_concat (ps : List RestPair) (p : RestPair) : recorded (ps ++ [p]) = record (recorded ps) p := by
  simp [recorded]

theorem recorded_subset (ps : List RestPair) : recorded ps ⊆ cover RestPair.bytes ps := by
  induction ps using List.reverseRecOn with
  | nil => simp [recorded]
  | append_singleton ps p ih =>
    rw [recorded_concat]
    rintro x (hx | ⟨hx, -⟩)
    · exact (mem_cover_append _).2 (.inl (ih hx))
    · exact (mem_cover_append _).2 (.inr ⟨p, by simp, hx⟩)

/-- A byte of the pairs is missing exactly when the last pair that has it does not add it. -/
theorem not_mem_recorded_iff (ps : List RestPair) (x : Int) :
    x ∈ cover RestPair.bytes ps ∧ x ∉ recorded ps ↔
      ∃ qs p rs, ps = qs ++ p :: rs ∧ x ∈ p.bytes ∧ Lost (recorded qs) p.start.value x ∧
        x ∉ cover RestPair.bytes rs := by
  induction ps using List.reverseRecOn with
  | nil => simp
  | append_singleton ps p ih =>
    rw [recorded_concat]
    constructor
    · rintro ⟨hx, hrec⟩
      simp only [record, Set.mem_ofPred_eq, not_or, not_and, not_not] at hrec
      by_cases hp : x ∈ p.bytes
      · exact ⟨ps, p, [], rfl, hp, hrec.2 hp, by simp⟩
      · rw [mem_cover_append] at hx
        have hps : x ∈ cover RestPair.bytes ps := hx.resolve_right (by simpa using hp)
        obtain ⟨qs, q, rs, rfl, hq, hlost, hrs⟩ := ih.1 ⟨hps, hrec.1⟩
        refine ⟨qs, q, rs ++ [p], by simp, hq, hlost, ?_⟩
        rw [mem_cover_append]; simpa [hp] using hrs
    · rintro ⟨qs, q, rs, heq, hq, hlost, hrs⟩
      refine ⟨by rw [heq]; exact ⟨q, by simp, hq⟩, ?_⟩
      rcases eq_nil_or_concat rs with rfl | ⟨rs', r, rfl⟩
      · obtain ⟨rfl, hpq⟩ := append_inj' heq rfl
        cases hpq
        rintro (hx | ⟨-, hx⟩); exacts [hlost.1 hx, hx hlost]
      · rw [concat_eq_append, ← cons_append, ← append_assoc] at heq
        obtain ⟨rfl, hpr⟩ := append_inj' heq rfl
        cases hpr
        rw [concat_eq_append, mem_cover_append, not_or] at hrs
        have hx := (ih.2 ⟨qs, q, rs', rfl, hq, hlost, hrs.1⟩).2
        rintro (hx' | ⟨hx', -⟩); exacts [hx hx', hrs.2 (by simpa using hx')]

theorem recorded_eq_iff (ps : List RestPair) : recorded ps = cover RestPair.bytes ps ↔ Recovered ps := by
  constructor
  · intro heq qs p rs hps x hx hlost
    by_contra hrs
    have := (not_mem_recorded_iff ps x).2 ⟨qs, p, rs, hps, hx, hlost, hrs⟩
    exact this.2 (heq ▸ this.1)
  · intro hrec
    refine (recorded_subset ps).antisymm fun x hx => ?_
    by_contra hne
    obtain ⟨qs, p, rs, hps, hxp, hlost, hrs⟩ := (not_mem_recorded_iff ps x).1 ⟨hx, hne⟩
    exact hrs (hrec qs p rs hps x hxp hlost)

/-! ## One insert -/

/-- The runs of a list of ranges with ends stop at the ends of its entries. -/
theorem Separated.stop_iff {l : List RangeEnt} (h : Separated l) (hb : Bounded l) {x : Int} :
    Stop (cover bytes l) x ↔ ∃ e ∈ l, x = e.offset + e.length := by
  have hmax := rangeListMax_eq
  constructor
  · rintro ⟨hx, e, he, hxe⟩
    rw [mem_bytes] at hxe
    refine ⟨e, he, ?_⟩
    have hx' : x ∉ e.bytes := fun h => hx ⟨e, he, h⟩
    rw [mem_bytes] at hx'
    grind
  · rintro ⟨e, he, rfl⟩
    have hne := hb e he
    have hv := h.length_valid e he
    refine ⟨?_, e, he, by rw [mem_bytes]; omega⟩
    rintro ⟨b, hbl, hx⟩
    have hne' := hb b hbl
    rw [mem_bytes] at hx
    rcases h.apart_or he hbl with rfl | hap | hap
    · omega
    · obtain ⟨-, hap⟩ := hap; omega
    · obtain ⟨-, hap⟩ := hap; omega

section Step

variable {offset length d : Int} {l l' : List RangeEnt}

/-- Nothing in front of `t` is lost when the second run to end behind `offset` does not end before `t`. -/
theorem not_lost (hsep : Separated l) (hb : Bounded l) {t x : Int} (hx : x < t)
    (hone : ∀ a ∈ l, ∀ b ∈ l, offset ≤ a.offset + a.length → a.offset + a.length < b.offset + b.length →
      t ≤ b.offset + b.length) :
    ¬ Lost (cover bytes l) offset x := by
  rintro ⟨-, a, b, hoa, hab, hbx, hsa, hsb⟩
  obtain ⟨e, he, rfl⟩ := (hsep.stop_iff hb).1 hsa
  obtain ⟨f, hf, rfl⟩ := (hsep.stop_iff hb).1 hsb
  have := hone e he f hf hoa hab
  omega

/-- The second run to end behind `offset` is behind the first entry that does not end before it. -/
theorem mem_of_second_end {pre rest : List RangeEnt} {ent : RangeEnt} (hsep : Separated (pre ++ ent :: rest))
    (hb : Bounded (pre ++ ent :: rest)) (hpre : ∀ e ∈ pre, e.EndsBefore offset) {a b : RangeEnt}
    (ha : a ∈ pre ++ ent :: rest) (hb' : b ∈ pre ++ ent :: rest) (hoa : offset ≤ a.offset + a.length)
    (hab : a.offset + a.length < b.offset + b.length) : b ∈ rest := by
  rcases mem_append.1 hb' with hm | hm
  · have := (hpre b hm).2; omega
  rcases mem_cons.1 hm with rfl | hm
  · rcases mem_append.1 ha with hm | hm
    · have := (hpre a hm).2; omega
    rcases mem_cons.1 hm with rfl | hm
    · omega
    · obtain ⟨-, -, hap, -⟩ := separated_cons.1 (separated_append.1 hsep).2.1
      have h1 := (hap a hm).2
      have h2 := (hsep.length_valid a ha).resolve_left (hb a ha)
      omega
  · exact hm

/-- An exact insert, in front of whose end no two runs end, adds all its bytes. -/
theorem Inserted.records_of_exact (h : Inserted offset length l l' d) (ho : 0 ≤ offset) (hn : 0 < length)
    (hsep : Separated l) (hb : Bounded l) (hx : InsertExact l offset length)
    (hone : ∀ a ∈ l, ∀ b ∈ l, offset ≤ a.offset + a.length → a.offset + a.length < b.offset + b.length →
      offset + length ≤ b.offset + b.length) (x : Int) :
    x ∈ cover bytes l' ↔ x ∈ cover bytes l ∨
      (x ∈ byteRange offset length ∧ ¬ Lost (cover bytes l) offset x) := by
  rw [h.covers ho (.inr hn) hsep.ordered hx]
  refine or_congr_right ⟨fun hxr => ⟨hxr, ?_⟩, And.left⟩
  rw [mem_byteRange] at hxr
  exact not_lost hsep hb (by omega : x < offset + length) hone

/-- Taking in the next entry: nothing behind its end is added. -/
theorem records_absorbed {pre post : List RangeEnt} {ent next : RangeEnt}
    (hsep : Separated (pre ++ ent :: next :: post)) (hb : Bounded (pre ++ ent :: next :: post))
    (hpre : ∀ e ∈ pre, e.EndsBefore offset) (ht : Touches offset length ent) (hnext : next.offset ≤ offset + length)
    (hn : 0 < length) (x : Int) :
    x ∈ cover bytes (pre ++ absorbNext (insertGrow offset (rangeEnd offset length) ent) next :: post) ↔
      x ∈ cover bytes (pre ++ ent :: next :: post) ∨
        (x ∈ byteRange offset length ∧ ¬ Lost (cover bytes (pre ++ ent :: next :: post)) offset x) := by
  obtain ⟨-, hsep₁, -⟩ := separated_append.1 hsep
  obtain ⟨-, hve, hap, hsep₂⟩ := separated_cons.1 hsep₁
  obtain ⟨-, hvn, hapn, -⟩ := separated_cons.1 hsep₂
  have hpe : 0 < ent.length := hve.resolve_left (hb ent (by simp))
  have hpn : 0 < next.length := hvn.resolve_left (hb next (by simp))
  have hentn : ent.offset + ent.length < next.offset := (hap next (by simp)).2
  have hmerged : x ∈ (absorbNext (insertGrow offset (rangeEnd offset length) ent) next).bytes ↔
      min offset ent.offset ≤ x ∧ x < next.offset + next.length := by
    simp only [mem_bytes, absorbNext, insertGrow_offset, rangeListMax_eq]
    rw [if_neg (by omega)]; omega
  have hsecond : ∀ a ∈ pre ++ ent :: next :: post, ∀ b ∈ pre ++ ent :: next :: post,
      offset ≤ a.offset + a.length → a.offset + a.length < b.offset + b.length →
      next.offset + next.length ≤ b.offset + b.length := by
    intro a ha b hb' hoa hab
    rcases mem_cons.1 (mem_of_second_end hsep hb hpre ha hb' hoa hab) with rfl | hm
    · exact le_refl _
    · have h1 := (hapn b hm).2
      have h2 := (hsep.length_valid b hb').resolve_left (hb b hb')
      omega
  unfold Touches at ht
  by_cases hx : x < next.offset + next.length
  · have hmid : (min offset ent.offset ≤ x ∧ x < next.offset + next.length) ↔
        x ∈ ent.bytes ∨ x ∈ next.bytes ∨ x ∈ byteRange offset length := by
      simp only [mem_bytes, mem_byteRange]; omega
    simp only [not_lost hsep hb hx hsecond, not_false_eq_true, and_true, mem_cover_append, mem_cover_cons, hmerged,
      hmid]
    constructor
    · rintro (h | (h | h | h) | h)
      exacts [.inl (.inl h), .inl (.inr (.inl h)), .inl (.inr (.inr (.inl h))), .inr h, .inl (.inr (.inr (.inr h)))]
    · rintro ((h | h | h | h) | h)
      exacts [.inl h, .inr (.inl (.inl h)), .inr (.inl (.inr (.inl h))), .inr (.inr h), .inr (.inl (.inr (.inr h)))]
  · -- behind the end of `next` the two entries have ended, and the range adds nothing
    have hlost : x ∉ cover bytes (pre ++ ent :: next :: post) →
        Lost (cover bytes (pre ++ ent :: next :: post)) offset x := fun hxC =>
      ⟨hxC, ent.offset + ent.length, next.offset + next.length, by omega, by omega, by omega,
        (hsep.stop_iff hb).2 ⟨ent, by simp, rfl⟩, (hsep.stop_iff hb).2 ⟨next, by simp, rfl⟩⟩
    have hent : x ∉ ent.bytes := by rw [mem_bytes]; omega
    have hnxt : x ∉ next.bytes := by rw [mem_bytes]; omega
    have hold : x ∈ cover bytes (pre ++ ent :: next :: post) ↔
        x ∈ cover bytes pre ∨ x ∈ cover bytes post := by
      simp only [mem_cover_append, mem_cover_cons, hent, hnxt, false_or]
    have hadd : (x ∈ cover bytes (pre ++ ent :: next :: post) ∨ (x ∈ byteRange offset length ∧
        ¬ Lost (cover bytes (pre ++ ent :: next :: post)) offset x)) ↔
        x ∈ cover bytes (pre ++ ent :: next :: post) :=
      or_iff_left_of_imp fun h => by_contra fun hxC => h.2 (hlost hxC)
    rw [hadd, hold, mem_cover_append, mem_cover_cons, hmerged]
    simp only [hx, and_false, false_or]

/-- Inserting a range adds its bytes up to the end of the second run it meets. -/
theorem Inserted.records (h : Inserted offset length l l' d) (ho : 0 ≤ offset) (hn : 0 < length)
    (hsep : Separated l) (hb : Bounded l) (x : Int) :
    x ∈ cover bytes l' ↔ x ∈ cover bytes l ∨
      (x ∈ byteRange offset length ∧ ¬ Lost (cover bytes l) offset x) := by
  have hn1 : length ≠ -1 := by omega
  have hpos : ∀ e ∈ l, 0 < e.length := fun e he => (hsep.length_valid e he).resolve_left (hb e he)
  cases h with
  | fresh pre post hpre hpost =>
    refine Inserted.records_of_exact (.fresh pre post hpre hpost) ho hn hsep hb
      (.inr (overreaches_eq_false (fun b hb => (hpost b (mem_of_mem_tail hb)).2) pre hpre)) ?_ x
    intro a ha b hb' hoa hab
    rcases mem_append.1 hb' with hm | hm
    · have := (hpre b hm).2; omega
    · have := (hpost b hm).2; have := hpos b hb'; omega
  | grown pre ent post hpre ht hpost =>
    have hpost' : ∀ e ∈ (ent :: post).tail, offset + length < e.offset := fun e he => (hpost e he).resolve_left hn1
    refine Inserted.records_of_exact (.grown pre ent post hpre ht hpost) ho hn hsep hb
      (.inr (overreaches_eq_false hpost' pre hpre)) ?_ x
    intro a ha b hb' hoa hab
    have := hpost' b (mem_of_second_end hsep hb hpre ha hb' hoa hab)
    have := hpos b hb'
    omega
  | absorbed pre ent next post hpre ht _ hnext => exact records_absorbed hsep hb hpre ht hnext hn x

end Step

/-! ## The stored list -/

theorem insertRange_records {rl : RangeList} (hwf : rl.WellFormed) (hb : Bounded rl.head) (p : RestPair)
    (hp : p.start.value ≤ p.stop.value) :
    (insertRange rl p.range).WellFormed ∧ Bounded (insertRange rl p.range).head ∧
      (insertRange rl p.range).covered = record rl.covered p := by
  rcases hp.eq_or_lt with heq | hlt
  · -- an empty pair changes nothing
    have hsame : insertRange rl p.range = rl := by
      simp only [insertRange, RestPair.range, heq, sub_self, rangeListInsert, if_true]
      split_ifs <;> rfl
    rw [hsame]
    refine ⟨hwf, hb, ?_⟩
    ext x
    refine ⟨.inl, fun hx => hx.resolve_right fun h => ?_⟩
    obtain ⟨⟨h1, h2⟩, -⟩ := h
    omega
  · have hn : 0 < p.range.length := by simp only [RestPair.range]; omega
    have ho : 0 ≤ p.range.offset := by simp [RestPair.range]
    obtain ⟨d, hi, -, hsize⟩ := rangeListInsert_inserted hwf.separated.ordered hwf.size_eq ⟨ho, .inr hn⟩
    have hb' := hi.bounded ho hn hwf.separated.ordered hb
    have hord' := hi.ordered ho (.inr hn) hwf.separated.ordered
    refine ⟨⟨hord'.separated hb', by rw [hsize, hwf.size_eq, hi.length_eq]⟩, hb', ?_⟩
    ext x
    refine (hi.records ho hn hwf.separated hb x).trans (or_congr_right (and_congr_left' ?_))
    simp only [mem_byteRange, RestPair.range, RestPair.bytes, Set.mem_ofPred_eq]
    omega

theorem insertRanges_records (ps : List RestPair) (h : ∀ p ∈ ps, p.start.value ≤ p.stop.value) :
    (insertRanges (ps.map RestPair.range)).WellFormed ∧ Bounded (insertRanges (ps.map RestPair.range)).head ∧
      (insertRanges (ps.map RestPair.range)).covered = recorded ps := by
  induction ps using List.reverseRecOn with
  | nil => exact ⟨⟨Separated.nil, rfl⟩, by simp [insertRanges, rangeListInit, Bounded],
      by simp [recorded, insertRanges, rangeListInit, RangeList.covered]⟩
  | append_singleton ps p ih =>
    obtain ⟨hwf, hb, hcov⟩ := ih fun q hq => h q (by simp [hq])
    rw [map_append, map_singleton, insertRanges_concat, recorded_concat, ← hcov]
    exact insertRange_records hwf hb p (h p (by simp))

theorem insertLoop_reversed {offset length : Int} (hlo : 0 ≤ offset + length) (hn : length < -1) :
    ∀ l : List RangeEnt, Separated l → Bounded l →
      cover bytes (insertLoop offset length (offset + length) l).1 = cover bytes l := by
  have hmax := rangeListMax_eq
  -- the new entry has no bytes
  have hempty : ∀ l : List RangeEnt, cover bytes (⟨offset, length⟩ :: l) = cover bytes l := by
    intro l; ext x
    rw [mem_cover_cons, mem_bytes]
    exact or_iff_right fun h => by simp only at h; omega
  intro l hsep hb
  induction l with
  | nil => exact hempty []
  | cons ent rest ih =>
    obtain ⟨heo, hen, hap, hrest⟩ := separated_cons.1 hsep
    have hne := hb ent (by simp)
    simp only [insertLoop, rangeEnd_of_ne hne, rangeListMax_eq]
    split_ifs with h1 h2
    · exact hempty _
    · -- inside `ent`, which stays as it is and reaches no other entry
      have hgrow : insertGrow offset (offset + length) ent = ent := by
        simp only [insertGrow, rangeEnd_of_ne hne, rangeListMax_eq]
        rw [if_neg (by omega), if_neg (by omega), if_neg (by omega)]
      rw [hgrow]
      cases rest with
      | nil => rfl
      | cons next post =>
        have := (hap next (by simp)).2
        rw [absorbReached, if_neg (by omega)]
    · have hih := ih hrest fun e he => hb e (by simp [he])
      ext x
      rw [mem_cover_cons, mem_cover_cons, hih]

/-- A reversed pair behind pairs that are not reversed. -/
theorem insertRange_reversed {rl : RangeList} (hwf : rl.WellFormed) (hb : Bounded rl.head) (p : RestPair)
    (hp : p.stop.value < p.start.value) :
    (insertRange rl p.range).covered =
      if p.start.value = p.stop.value + 1 then rl.covered ∪ Set.Ici (p.start.value : Int) else rl.covered := by
  split_ifs with heq
  · have hrange : p.range = ⟨p.start.value, rangeListMax⟩ := by
      simp only [RestPair.range, heq, rangeListMax_eq, mk.injEq, true_and]; omega
    rw [hrange]
    refine ((insertRange_covered_iff hwf.separated.ordered hwf.size_eq ⟨by simp, .inl rfl⟩).2 (.inl rfl)).trans ?_
    congr 1
    ext x
    simp [mem_bytes]
  · have hlen : p.range.length < -1 := by simp only [RestPair.range]; omega
    have hend : 0 ≤ p.range.offset + p.range.length := by simp only [RestPair.range]; omega
    have ho : ¬ p.range.offset < 0 := by simp [RestPair.range]
    obtain ⟨size, head⟩ := rl
    simp only [insertRange, rangeListInsert, if_neg ho, if_neg (by omega : ¬ p.range.length = 0),
      rangeEnd_of_ne (by omega : p.range.length ≠ -1)]
    cases head with
    | nil => exact insertLoop_reversed hend hlen [] hwf.separated hb
    | cons ent rest => exact insertLoop_reversed hend hlen (ent :: rest) hwf.separated hb

/-- The command refuses the argument and leaves the handle alone, or stores exactly the bytes of the
pairs. -/
def RestMeans (server : ServerHandle) (ps : List RestPair) : Prop :=
  ((gscCmdRest server (restText ps)).1 ∈ [restBadOffset, restBadRange] ∧
      (gscCmdRest server (restText ps)).2 = server) ∨
    ∃ rl, (gscCmdRest server (restText ps)).2.rangeList = some rl ∧ rl.covered = cover RestPair.bytes ps

theorem restMeans_nil (server : ServerHandle) : RestMeans server [] := by
  have h : gscCmdRest server (restText []) = (restBadOffset, server) := rfl
  exact .inl ⟨by rw [h]; simp, by rw [h]⟩

theorem restMeans_iff (server : ServerHandle) (hps : ps ≠ []) :
    RestMeans server ps ↔ (insertRanges (ps.map RestPair.range)).covered = cover RestPair.bytes ps := by
  simp only [RestMeans, gscCmdRest_text server hps, Option.some.injEq, exists_eq_left']
  refine or_iff_right fun h => ?_
  exact absurd h.1 (by decide)

theorem RestPair.lt_of_mem_cover {x : Int} (hx : x ∈ cover RestPair.bytes ps) : x < offMax := by
  obtain ⟨p, -, -, hlt⟩ := hx
  exact hlt.trans_le p.stop_le

/-- For pairs that are not reversed, the command records exactly their bytes if and only if every byte
that a pair does not add is in a later pair; and behind such pairs, one reversed pair adds no byte
if and only if it does not end one byte before it begins. -/
theorem gscCmdRest_means_iff (server : ServerHandle) (ps : List RestPair)
    (h : ∀ p ∈ ps, p.start.value ≤ p.stop.value) :
    (RestMeans server ps ↔ Recovered ps) ∧
      (RestMeans server ps → ∀ p : RestPair, p.stop.value < p.start.value →
        (RestMeans server (ps ++ [p]) ↔ p.start.value ≠ p.stop.value + 1)) := by
  obtain ⟨hwf, hb, hcov⟩ := insertRanges_records ps h
  have hmeans : RestMeans server ps ↔ recorded ps = cover RestPair.bytes ps := by
    rcases eq_or_ne ps [] with rfl | hps
    · exact iff_of_true (restMeans_nil server) (by simp [recorded])
    · rw [restMeans_iff server hps, hcov]
  refine ⟨hmeans.trans (recorded_eq_iff ps), fun hm p hp => ?_⟩
  have hbytes : cover RestPair.bytes (ps ++ [p]) = cover RestPair.bytes ps := by
    ext x
    rw [mem_cover_append]
    refine or_iff_left ?_
    rintro ⟨q, hq, h1, h2⟩
    rw [mem_singleton] at hq; subst hq
    omega
  rw [restMeans_iff server (by simp), map_append, map_singleton, insertRanges_concat,
    insertRange_reversed hwf hb p hp, hbytes, hcov, hmeans.1 hm]
  refine ⟨fun heq hone => ?_, fun hone => if_neg hone⟩
  -- the range without end holds a byte that no pair can reach
  rw [if_pos hone] at heq
  have hmem : offMax ∈ cover RestPair.bytes ps := by rw [← heq]; exact .inr p.start_le
  exact (RestPair.lt_of_mem_cover hmem).false

/-- `3-8`, and `3-8,12-2`. -/
theorem gscCmdRest_means_single :
    RestMeans ⟨none⟩ [⟨.ofNat 3, .ofNat 8, by simp [offMax], by simp [offMax]⟩] ∧
      RestMeans ⟨none⟩ ([⟨.ofNat 3, .ofNat 8, by simp [offMax], by simp [offMax]⟩] ++
        [⟨.ofNat 12, .ofNat 2, by simp [offMax], by simp [offMax]⟩]) := by
  have hmain := gscCmdRest_means_iff ⟨none⟩ [⟨.ofNat 3, .ofNat 8, by simp [offMax], by simp [offMax]⟩] (by simp)
  have hone : Recovered [⟨.ofNat 3, .ofNat 8, by simp [offMax], by simp [offMax]⟩] := by
    rintro qs p rs heq x - ⟨-, a, b, -, -, -, ⟨-, hstop⟩, -⟩
    obtain rfl : qs = [] := by
      cases qs with
      | nil => rfl
      | cons q qs => simp at heq
    exact absurd hstop (by simp [recorded])
  exact ⟨hmain.1.2 hone, (hmain.2 (hmain.1.2 hone) _ (by simp)).2 (by simp)⟩

/-- `10-9` is stored as a range without end: byte 100 counts as received. -/
theorem gscCmdRest_reversed_unbounded :
    ¬ RestMeans ⟨none⟩ [⟨.ofNat 10, .ofNat 9, by simp [offMax], by simp [offMax]⟩] := by
  rw [restMeans_iff _ (by simp)]
  intro heq
  have hres : insertRanges ([⟨.ofNat 10, .ofNat 9, by simp [offMax], by simp [offMax]⟩].map RestPair.range) =
      ⟨1, [⟨10, -1⟩]⟩ := by simp [insertRanges, insertRange, RestPair.range, rangeListInsert, rangeListInit]
  rw [hres] at heq
  have h100 : (100 : Int) ∈ (⟨1, [⟨10, -1⟩]⟩ : RangeList).covered := by simp [RangeList.covered, mem_bytes]
  rw [heq] at h100
  simp [RestPair.bytes] at h100

end Globus
