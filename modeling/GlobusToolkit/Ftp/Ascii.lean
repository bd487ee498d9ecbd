/-
The ASCII type of the data channel (gridftp/control/source/globus_ftp_control_data.c): every line feed of a buffer that
is written gets a carriage return in front of it, and every carriage return in front of a line feed is taken out of a
buffer that was read. Both work buffer by buffer and carry nothing over to the next one.

Allocation succeeds. Lengths are passed to both functions as `int`.
-/
import GlobusToolkit.Ftp.Radix

namespace Globus.Ftp

open List

/-! ## The functions -/

/-- `globus_ftp_control_type_t`. -/
inductive ControlType where
  | none
  | ascii
  | ebcdic
  | image
  | locl
  deriving DecidableEq, Repr

def cr : Byte := 13

def lf : Byte := 10

/-- A length that is passed as an `int`. -/
def intLength (n : Nat) : Int := Int.bmod n (2 ^ 32)

/-- `memmove(&buf[dst], &buf[src], n)`. -/
def memmove (buf : List Byte) (dst src n : Nat) : List Byte :=
  buf.take dst ++ (buf.drop src).take n ++ buf.drop (dst + n)

/-- One time around the loop of `globus_l_ftp_control_strip_ascii`: the buffer and the count. -/
def stripStep (length : Nat) (s : List Byte × Nat) (ctr : Nat) : List Byte × Nat :=
  if s.1[ctr]? = some cr ∧ s.1[ctr + 1]? = some lf then (memmove s.1 ctr (ctr + 1) (length - (ctr + 1)), s.2 + 1)
  else s

/-- `globus_l_ftp_control_strip_ascii`: the buffer afterwards, and the new length. -/
def stripAscii (buf : List Byte) (length : Int) : List Byte × Int :=
  if length < 1 then (buf, length)
  else
    let r := (range' 0 (length.toNat - 1)).foldl (stripStep length.toNat) (buf, 0)
    (r.1, length - r.2)

/-- What the loop of `globus_l_ftp_control_add_ascii` writes for a byte. -/
def addStep (b : Byte) : List Byte := if b = lf then [cr, b] else [b]

/-- `globus_l_ftp_control_add_ascii`: the new buffer, if there is one, and `ascii_len`. -/
def addAscii (inBuf : List Byte) (length : Int) : Option (List Byte) × Nat :=
  if length < 1 then (none, 0)
  else
    let outBuf := (inBuf.take length.toNat).flatMap addStep
    (some outBuf, outBuf.length)

/-- What `globus_l_ftp_data_stream_stripe_poll` writes to the connection for the buffer of an entry. -/
def streamWrite (type : ControlType) (buffer : List Byte) : List Byte :=
  if type = .ascii then
    let added := addAscii buffer (intLength buffer.length)
    (added.1.getD buffer).take added.2
  else buffer

/-- What `globus_l_ftp_stream_read_callback` hands to the callback of an entry for the bytes that were read. -/
def streamRead (type : ControlType) (buf : List Byte) : List Byte :=
  if type = .ascii then
    let stripped := stripAscii buf (intLength buf.length)
    stripped.1.take stripped.2.toNat
  else buf

/-! ## Line ends -/

/-- Line feeds for the pairs of a carriage return and a line feed. -/
def collapse : List Byte → List Byte
  | [] => []
  | [b] => [b]
  | a :: b :: w => if a = cr ∧ b = lf then lf :: collapse w else a :: collapse (b :: w)

@[simp] theorem collapse_nil : collapse [] = [] := rfl

@[simp] theorem collapse_singleton (b : Byte) : collapse [b] = [b] := rfl

theorem collapse_pair (w : List Byte) : collapse (cr :: lf :: w) = lf :: collapse w := by
  rw [collapse, if_pos ⟨rfl, rfl⟩]

theorem collapse_cons {a : Byte} {w : List Byte} (h : a = cr → w.head? ≠ some lf) : collapse (a :: w) = a :: collapse w := by
  cases w with
  | nil => rfl
  | cons b w =>
    rw [collapse, if_neg]
    rintro ⟨ha, rfl⟩
    exact h ha rfl

/-! ## Writing -/

theorem intLength_eq {n : Nat} (h : n < 2 ^ 31) : intLength n = n :=
  Int.bmod_eq_of_le (by omega) (by omega)

/-- A line feed that is written has a carriage return in front of it, so that the pairs of the text are read back. -/
theorem collapse_addStep (b : Byte) (w : List Byte) (hw : w.head? ≠ some lf) :
    collapse (addStep b ++ w) = b :: collapse w := by
  unfold addStep
  split
  case isTrue hb =>
    subst hb
    exact collapse_pair w
  case isFalse hb => exact collapse_cons fun _ => hw

theorem head?_flatMap_addStep (t : List Byte) : (t.flatMap addStep).head? ≠ some lf := by
  cases t with
  | nil => simp
  | cons b t =>
    rw [flatMap_cons, addStep]
    split
    case isTrue => simp [cr, lf]
    case isFalse hb => simpa using hb

theorem collapse_flatMap_addStep : ∀ t : List Byte, collapse (t.flatMap addStep) = t
  | [] => rfl
  | b :: t => by
    rw [flatMap_cons, collapse_addStep b _ (head?_flatMap_addStep t), collapse_flatMap_addStep t]

theorem streamWrite_ascii {w : List Byte} (hne : w ≠ []) (hlen : w.length < 2 ^ 31) :
    streamWrite .ascii w = w.flatMap addStep := by
  have hpos : 0 < w.length := length_pos_of_ne_nil hne
  rw [streamWrite, if_pos rfl, intLength_eq hlen, addAscii, if_neg (by omega)]
  simp

/-- The connection carries the text with a carriage return in front of every line feed, wherever the writes end. -/
theorem flatMap_streamWrite : ∀ {writes : List (List Byte)}, (∀ w ∈ writes, w ≠ [] ∧ w.length < 2 ^ 31) →
    writes.flatMap (streamWrite .ascii) = writes.flatten.flatMap addStep
  | [], _ => rfl
  | w :: writes, h => by
    obtain ⟨hne, hlen⟩ := h w (by simp)
    rw [flatMap_cons, flatten_cons, flatMap_append, streamWrite_ascii hne hlen,
      flatMap_streamWrite fun v hv => h v (by simp [hv])]

/-! ## Reading -/

theorem getElem?_append_length (pre suf : List Byte) : (pre ++ suf)[pre.length]? = suf[0]? := by
  rw [getElem?_append_right le_rfl, Nat.sub_self]

theorem getElem?_append_length_succ (pre suf : List Byte) : (pre ++ suf)[pre.length + 1]? = suf[1]? := by
  rw [getElem?_append_right (by omega)]
  congr 1
  omega

/-- Moving the rest of the buffer one place forward leaves its last byte twice. -/
theorem memmove_pair {pre w : List Byte} {a b z : Byte} (hz : (b :: w).getLast? = some z) :
    memmove (pre ++ a :: b :: w) pre.length (pre.length + 1) ((pre ++ a :: b :: w).length - (pre.length + 1)) =
      pre ++ b :: w ++ [z] := by
  have hrest : (pre ++ a :: b :: w).drop (pre.length + 1) = b :: w := by
    rw [drop_append]; simp
  have hlen : pre.length + ((pre ++ a :: b :: w).length - (pre.length + 1)) = (pre ++ a :: b :: w).length - 1 := by
    simp; omega
  have hlast : (pre ++ a :: b :: w).drop ((pre ++ a :: b :: w).length - 1) = [z] := by
    rw [drop_length_sub_one (by simp)]
    rw [getLast?_eq_some_getLast (by simp)] at hz
    simpa using hz
  rw [memmove, hrest, hlen, hlast, take_left, take_of_length_le (by simp; omega)]

theorem stripStep_replicate (n m : Nat) (pre : List Byte) (z : Byte) (count ctr : Nat) (h : pre.length ≤ ctr) :
    stripStep n (pre ++ replicate m z, count) ctr = (pre ++ replicate m z, count) := by
  rw [stripStep, if_neg]
  rintro ⟨hcr, hlf⟩
  rw [getElem?_append_right h] at hcr
  rw [getElem?_append_right (by omega)] at hlf
  have hz : z = cr := (mem_replicate.1 (mem_of_getElem? hcr)).2.symm
  have hz' : z = lf := (mem_replicate.1 (mem_of_getElem? hlf)).2.symm
  rw [hz] at hz'
  exact absurd hz' (by decide)

theorem foldl_stripStep_replicate (n m : Nat) (pre : List Byte) (z : Byte) (count : Nat) :
    ∀ {ctrs : List Nat}, (∀ ctr ∈ ctrs, pre.length ≤ ctr) →
      ctrs.foldl (stripStep n) (pre ++ replicate m z, count) = (pre ++ replicate m z, count)
  | [], _ => rfl
  | ctr :: ctrs, h => by
    rw [foldl_cons, stripStep_replicate n m pre z count ctr (h ctr (by simp))]
    exact foldl_stripStep_replicate n m pre z count fun c hc => h c (by simp [hc])

/-- A buffer of `n` bytes with a count of bytes taken out, and the text that is left. -/
def Stripped (n : Nat) (text : List Byte) (s : List Byte × Nat) : Prop := s.2 ≤ n ∧ s.1.take (n - s.2) = text

/-- The loop from `ctr` on: in front of it are the bytes that stay, from it on the bytes that are not looked at yet, and
behind these as many more copies of the last one as pairs were found. -/
theorem foldl_stripStep : ∀ (k : Nat) (pre suf : List Byte) (z : Byte) (count n : Nat),
    n = (pre ++ suf ++ replicate count z).length → (∀ b ∈ suf.getLast?, b = z) → n ≤ pre.length + k + 1 →
    Stripped n (pre ++ collapse suf)
      ((range' pre.length k).foldl (stripStep n) (pre ++ suf ++ replicate count z, count))
  | k, pre, [], z, count, n, hn, _, _ => by
    rw [append_nil] at hn ⊢
    rw [foldl_stripStep_replicate n count pre z count fun ctr hctr => (mem_range'_1.1 hctr).1]
    simp only [length_append, length_replicate] at hn
    exact ⟨by omega, by simp [hn]⟩
  | k, pre, [a], z, count, n, hn, hz, _ => by
    obtain rfl : a = z := hz a rfl
    have hbuf : pre ++ [a] ++ replicate count a = pre ++ replicate (count + 1) a := by
      rw [append_assoc, replicate_succ]; rfl
    rw [hbuf, foldl_stripStep_replicate n (count + 1) pre a count fun ctr hctr => (mem_range'_1.1 hctr).1]
    simp only [length_append, length_replicate] at hn
    refine ⟨by simp; omega, ?_⟩
    have hlen : n - count = (pre ++ [a]).length := by simp only [length_append]; omega
    rw [← hbuf, hlen, take_left, collapse_singleton]
  | 0, pre, a :: b :: w, z, count, n, hn, _, hk => by
    simp at hn
    omega
  | k + 1, pre, a :: b :: w, z, count, n, hn, hz, hk => by
    have hlast : ∀ c ∈ (b :: w).getLast?, c = z := fun c hc => hz c (by rwa [getLast?_cons_cons])
    rw [range'_succ, foldl_cons]
    by_cases hpair : a = cr ∧ b = lf
    · obtain ⟨rfl, rfl⟩ := hpair
      -- the rest is moved over the carriage return, and its last byte stays behind once more
      have hstep : stripStep n (pre ++ cr :: lf :: w ++ replicate count z, count) pre.length =
          ((pre ++ [lf]) ++ w ++ replicate (count + 1) z, count + 1) := by
        have hz' : (lf :: (w ++ replicate count z)).getLast? = some z := by
          have hne : (lf :: w).getLast? = some z := by
            exact congrArg some (hlast _ rfl)
          rw [← cons_append, getLast?_append, hne]
          cases count <;> simp [getLast?_replicate]
        have hbuf : pre ++ cr :: lf :: w ++ replicate count z = pre ++ cr :: lf :: (w ++ replicate count z) := by
          simp
        rw [stripStep, if_pos]
        · rw [hn, hbuf, memmove_pair hz', replicate_succ']
          simp
        · rw [hbuf, getElem?_append_length, getElem?_append_length_succ]
          exact ⟨rfl, rfl⟩
      have ih := foldl_stripStep k (pre ++ [lf]) w z (count + 1) n
        (by simp only [hn, length_append, length_cons, length_replicate, length_nil]; omega)
        (by cases w with
          | nil => simp
          | cons c w => rwa [getLast?_cons_cons] at hlast)
        (by rw [length_append, length_singleton]; omega)
      rw [hstep, collapse_pair]
      simpa using ih
    · have hstep : stripStep n (pre ++ a :: b :: w ++ replicate count z, count) pre.length =
          ((pre ++ [a]) ++ (b :: w) ++ replicate count z, count) := by
        rw [stripStep, if_neg]
        · simp
        · simpa using hpair
      have ih := foldl_stripStep k (pre ++ [a]) (b :: w) z count n (by rw [hn]; simp) hlast
        (by rw [length_append, length_singleton]; omega)
      rw [hstep, collapse_cons fun ha hb => hpair ⟨ha, by simpa using hb⟩]
      simpa using ih

theorem stripStep_append {w extra : List Byte} {count ctr : Nat} (hctr : ctr + 1 < w.length) :
    stripStep w.length (w ++ extra, count) ctr =
      ((stripStep w.length (w, count) ctr).1 ++ extra, (stripStep w.length (w, count) ctr).2) ∧
      (stripStep w.length (w, count) ctr).1.length = w.length := by
  unfold stripStep
  rw [getElem?_append_left (by omega), getElem?_append_left hctr]
  split
  · refine ⟨?_, by simp [memmove]; omega⟩
    rw [memmove, memmove, take_append_of_le_length (by omega), drop_append_of_le_length (by omega),
      take_append_of_le_length (by simp), drop_append_of_le_length (by omega), append_assoc _ _ extra]
  · exact ⟨rfl, rfl⟩

theorem foldl_stripStep_append {n : Nat} (extra : List Byte) : ∀ {ctrs : List Nat} {w : List Byte} {count : Nat},
    w.length = n → (∀ ctr ∈ ctrs, ctr + 1 < n) → ctrs.foldl (stripStep n) (w ++ extra, count) =
      ((ctrs.foldl (stripStep n) (w, count)).1 ++ extra, (ctrs.foldl (stripStep n) (w, count)).2) ∧
      (ctrs.foldl (stripStep n) (w, count)).1.length = n
  | [], _, _, hlen, _ => ⟨rfl, hlen⟩
  | ctr :: ctrs, w, count, rfl, hctrs => by
    obtain ⟨hctr, hctrs⟩ := forall_mem_cons.1 hctrs
    obtain ⟨hstep, hlen⟩ := @stripStep_append w extra count ctr hctr
    rw [foldl_cons, foldl_cons, hstep]
    exact foldl_stripStep_append extra hlen hctrs

theorem stripAscii_spec (w extra : List Byte) :
    (stripAscii (w ++ extra) w.length).1.take (stripAscii (w ++ extra) w.length).2.toNat = collapse w := by
  by_cases hne : w = []
  · subst hne
    rfl
  · have hpos : 0 < w.length := length_pos_of_ne_nil hne
    have h := foldl_stripStep (w.length - 1) [] w (w.getLast hne) 0 w.length (by simp)
      (by rw [getLast?_eq_some_getLast hne]; simp) (by simp; omega)
    simp only [length_nil, nil_append, replicate_zero, append_nil] at h
    obtain ⟨hle, htake⟩ := h
    have hctrs : ∀ ctr ∈ range' 0 (w.length - 1), ctr + 1 < w.length := fun ctr hctr => by
      have := mem_range'_1.1 hctr
      omega
    obtain ⟨hfold, hlen⟩ := @foldl_stripStep_append _ extra _ w 0 rfl hctrs
    rw [stripAscii, if_neg (by omega), Int.toNat_natCast, hfold, ← htake]
    rw [Int.toNat_sub, take_append_of_le_length (by omega)]

theorem streamRead_ascii {w : List Byte} (hlen : w.length < 2 ^ 31) : streamRead .ascii w = collapse w := by
  have hspec := stripAscii_spec w []
  rw [append_nil] at hspec
  rw [streamRead, if_pos rfl, intLength_eq hlen]
  exact hspec

/-- The bytes without the carriage returns in front of line feeds. -/
def withoutCrs : List Byte → List Byte
  | [] => []
  | b :: w => if b = cr ∧ w.head? = some lf then withoutCrs w else b :: withoutCrs w

theorem collapse_eq_withoutCrs : ∀ w : List Byte, collapse w = withoutCrs w
  | [] => rfl
  | [b] => by simp [withoutCrs]
  | a :: b :: w => by
    have ih := collapse_eq_withoutCrs (b :: w)
    rw [withoutCrs, ← ih]
    split
    case isTrue hpair =>
      obtain ⟨rfl, hb⟩ := hpair
      obtain rfl : b = lf := Option.some.inj hb
      rw [collapse_pair, collapse_cons (absurd · (by decide))]
    case isFalse hpair => exact collapse_cons fun ha hb => hpair ⟨ha, hb⟩

/-- Stripping removes the carriage returns in front of line feeds and nothing else, and gives back every text to which they
were added. -/
theorem stripAscii_exact (buf text : List Byte) (length : Int) (hlen : length ≤ buf.length) :
    (stripAscii buf length).1.take (stripAscii buf length).2.toNat = withoutCrs (buf.take length.toNat) ∧
    (stripAscii ((addAscii text text.length).1.getD []) (addAscii text text.length).2).1.take
      (stripAscii ((addAscii text text.length).1.getD []) (addAscii text text.length).2).2.toNat = text := by
  constructor
  · by_cases hpos : length < 1
    · rw [stripAscii, if_pos hpos, Int.toNat_of_nonpos (by omega)]
      rfl
    · have hspec := stripAscii_spec (buf.take length.toNat) (buf.drop length.toNat)
      rwa [take_append_drop, length_take_of_le (by omega), Int.toNat_of_nonneg (by omega), collapse_eq_withoutCrs] at hspec
  · by_cases hne : text = []
    · subst hne
      rfl
    · have hpos := length_pos_of_ne_nil hne
      have hspec := stripAscii_spec (text.flatMap addStep) []
      rw [append_nil, collapse_flatMap_addStep] at hspec
      rw [addAscii, if_neg (by omega), Int.toNat_natCast, take_length]
      exact hspec

theorem stripAscii_exact_pair : ([cr, cr, lf, 65] : List Byte).length = 4 ∧
    (stripAscii [cr, cr, lf, 65] 3).1.take (stripAscii [cr, cr, lf, 65] 3).2.toNat = [cr, lf] :=
  ⟨rfl, (stripAscii_exact [cr, cr, lf, 65] [] 3 (by decide)).1⟩

/-! ## Cuts -/

/-- No cut between the reads is between a carriage return and a line feed. -/
def KeepsLineEnds (reads : List (List Byte)) : Prop :=
  ∀ before after, reads = before ++ after →
    ¬(before.flatten.getLast? = some cr ∧ after.flatten.head? = some lf)

/-- A cut that is not inside a pair does not change what is read. -/
theorem collapse_append : ∀ {u v : List Byte}, ¬(u.getLast? = some cr ∧ v.head? = some lf) →
    collapse (u ++ v) = collapse u ++ collapse v
  | [], _, _ => rfl
  | [a], v, h => by
    refine (collapse_cons ?_).trans rfl
    rintro rfl hv
    exact h ⟨rfl, hv⟩
  | a :: b :: u, v, h => by
    rw [getLast?_cons_cons] at h
    by_cases hpair : a = cr ∧ b = lf
    · obtain ⟨rfl, rfl⟩ := hpair
      have hu : ¬(u.getLast? = some cr ∧ v.head? = some lf) := by
        cases u with
        | nil => simp
        | cons c u => rwa [getLast?_cons_cons] at h
      rw [cons_append, cons_append, collapse_pair, collapse_pair, collapse_append hu, cons_append]
    · have hcons : ∀ x : List Byte, collapse (a :: b :: x) = a :: collapse (b :: x) := fun x =>
        collapse_cons fun ha hb => hpair ⟨ha, by simpa using hb⟩
      rw [cons_append, cons_append, hcons, hcons, ← cons_append, collapse_append h, cons_append]

/-- A cut inside a pair leaves its carriage return in the text. -/
theorem length_collapse_append {u v : List Byte} (hu : u.getLast? = some cr) (hv : v.head? = some lf) :
    (collapse u ++ collapse v).length = (collapse (u ++ v)).length + 1 := by
  obtain ⟨u, rfl⟩ : ∃ u', u = u' ++ [cr] := by
    rw [getLast?_eq_some_iff] at hu
    exact hu
  obtain ⟨v, rfl⟩ : ∃ v', v = lf :: v' := by
    rw [head?_eq_some_iff] at hv
    exact hv
  have h1 : collapse (u ++ [cr]) = collapse u ++ [cr] := collapse_append (by simp [cr, lf])
  have h2 : collapse (lf :: v) = lf :: collapse v := collapse_cons (by simp [cr, lf])
  have h3 : collapse (u ++ [cr] ++ lf :: v) = collapse u ++ lf :: collapse v := by
    rw [append_assoc, singleton_append, collapse_append (by simp [cr, lf]), collapse_pair]
  rw [h1, h2, h3]
  simp only [length_append, length_cons, length_nil]
  omega

/-- Every cut inside a pair makes the text that is read longer. -/
theorem length_flatMap_collapse : ∀ reads : List (List Byte),
    (collapse reads.flatten).length ≤ (reads.flatMap collapse).length
  | [] => le_rfl
  | r :: reads => by
    have ih := length_flatMap_collapse reads
    rw [flatten_cons, flatMap_cons]
    by_cases h : r.getLast? = some cr ∧ reads.flatten.head? = some lf
    · have := length_collapse_append h.1 h.2
      simp only [length_append] at this ⊢
      omega
    · rw [collapse_append h]
      simp only [length_append]
      omega

theorem keepsLineEnds_cons {r : List Byte} {reads : List (List Byte)} :
    KeepsLineEnds (r :: reads) ↔ ¬(r.getLast? = some cr ∧ reads.flatten.head? = some lf) ∧ KeepsLineEnds reads := by
  constructor
  · intro h
    refine ⟨by simpa using h [r] reads rfl, ?_⟩
    rintro before after rfl ⟨hlast, hhead⟩
    refine h (r :: before) after rfl ⟨?_, hhead⟩
    rw [flatten_cons, getLast?_append, hlast]
    rfl
  · rintro ⟨hcut, hkeeps⟩ before after heq ⟨hlast, hhead⟩
    cases before with
    | nil => simp at hlast
    | cons b before =>
      obtain ⟨rfl, rfl⟩ := cons_eq_cons.1 heq
      by_cases hempty : before.flatten = []
      · rw [flatten_cons, hempty, append_nil] at hlast
        refine hcut ⟨hlast, ?_⟩
        rwa [append_eq, flatten_append, hempty]
      · refine hkeeps before after rfl ⟨?_, hhead⟩
        rw [flatten_cons, getLast?_append, getLast?_eq_some_getLast hempty] at hlast
        rw [getLast?_eq_some_getLast hempty]
        exact hlast

theorem flatMap_collapse_iff : ∀ reads : List (List Byte),
    reads.flatMap collapse = collapse reads.flatten ↔ KeepsLineEnds reads
  | [] => by simp [KeepsLineEnds]
  | r :: reads => by
    rw [keepsLineEnds_cons, ← flatMap_collapse_iff reads, flatMap_cons, flatten_cons]
    by_cases h : r.getLast? = some cr ∧ reads.flatten.head? = some lf
    · have hlong := length_collapse_append h.1 h.2
      have hle := length_flatMap_collapse reads
      refine iff_of_false (fun heq => ?_) fun hcut => hcut.1 h
      have := congrArg List.length heq
      simp only [length_append] at this hlong
      omega
    · rw [collapse_append h, append_cancel_left_eq]
      exact (and_iff_right h).symm

/-- A text that is written in pieces, and read in pieces, over a stream of ASCII type arrives as it was sent exactly if no
cut between two reads is between a carriage return and a line feed. -/
theorem ascii_stream_iff (writes reads : List (List Byte)) (hwrites : ∀ w ∈ writes, w ≠ [] ∧ w.length < 2 ^ 30)
    (hwire : reads.flatten = writes.flatMap (streamWrite .ascii)) (hreads : ∀ r ∈ reads, r.length < 2 ^ 31) :
    reads.flatMap (streamRead .ascii) = writes.flatten ↔ KeepsLineEnds reads := by
  have hread : reads.flatMap (streamRead .ascii) = reads.flatMap collapse :=
    flatMap_congr fun r hr => streamRead_ascii (hreads r hr)
  rw [hread, ← flatMap_collapse_iff, hwire, flatMap_streamWrite fun w hw => ⟨(hwrites w hw).1, by
    have := (hwrites w hw).2
    omega⟩, collapse_flatMap_addStep]

/-- Two writes arrive in three reads that keep the line ends. -/
theorem ascii_stream_pieces :
    [[65], [cr, lf, 66], [cr, lf, 67]].flatMap (streamRead .ascii) = [[65, lf], [66, lf, 67]].flatten := by
  refine (ascii_stream_iff [[65, lf], [66, lf, 67]] _ (by decide) (by decide) (by decide)).2 ?_
  simp only [keepsLineEnds_cons]
  exact ⟨by decide, by decide, by decide, by simp [KeepsLineEnds]⟩

/-- A line end that is read byte by byte keeps its carriage return. -/
theorem ascii_stream_cut :
    [[cr], [lf]].flatten = [[lf]].flatMap (streamWrite .ascii) ∧
    [[cr], [lf]].flatMap (streamRead .ascii) ≠ [[lf]].flatten := by
  decide

end Globus.Ftp
