/-
The event log of the job manager (gram/jobmanager/source/seg/seg_job_manager_module.c). The log is a file of lines
that grows while it is read. A poll reads records as long as there are any and then sets the file position back
behind the last one.
-/
import GlobusToolkit.Lib.Scanf
import GlobusToolkit.JobManager.SegEvent

namespace Globus

open Lib List

/-! ## Reading the log -/

/-- The fields of `struct tm` that are compared. -/
structure Tm where
  year : Int
  mon : Int
  mday : Int
  hour : Int
  min : Int
  sec : Int
  deriving DecidableEq, Repr

/-- `globus_l_time_is_newer`. -/
def timeIsNewer (value benchmark : Tm) : Bool :=
  if value.year < benchmark.year then false
  else if value.year > benchmark.year then true
  else if value.mon < benchmark.mon then false
  else if value.mon > benchmark.mon then true
  else if value.mday < benchmark.mday then false
  else if value.mday > benchmark.mday then true
  else if value.hour < benchmark.hour then false
  else if value.hour > benchmark.hour then true
  else if value.min < benchmark.min then false
  else if value.min > benchmark.min then true
  else if value.sec < benchmark.sec then false
  else if value.sec > benchmark.sec then true
  else false

/-- `globus_l_job_manager_logfile_state_t`: the start timestamp, and the log from the file position on. -/
structure LogfileState where
  startTimestamp : Tm
  unread : List Char
  deriving DecidableEq, Repr

/-- The format `"%d;%ld;%128[^;];%d;%d%1[\n]"` of a record. -/
def recordFormat : List Directive :=
  [.int none 32, .char ';', .int none 64, .char ';', .set (some 128) true (· ≠ ';'), .char ';', .int none 32, .char ';',
    .int none 32, .set (some 1) true (· = '\n')]

/-- The event that is emitted for a job state, if it is a known one (`GLOBUS_GRAM_PROTOCOL_JOB_STATE_*`). -/
def schedulerEvent (jobState stamp : Int) (jobId : List Char) (exitCode : Int) : Option SchedulerEvent :=
  if jobState = 1 then some ⟨.pending, jobId, stamp, 0, 0⟩
  else if jobState = 2 then some ⟨.active, jobId, stamp, 0, 0⟩
  else if jobState = 8 then some ⟨.done, jobId, stamp, exitCode, 0⟩
  else if jobState = 4 then some ⟨.failed, jobId, stamp, 0, exitCode⟩
  else none

section Poll

variable (gmtime : Int → Option Tm)

/-- The event of the values that were read for a record. The job id ends at a NUL. -/
def readEvent (start : Tm) : List ScanValue → Option SchedulerEvent
  | .int msgType :: .int stamp :: .str jobId :: .int jobState :: .int exitCode :: _ =>
    if msgType ≠ 1 then none
    else
      match gmtime stamp with
      | none => none
      | some gmstamp =>
        if timeIsNewer start gmstamp then none else schedulerEvent jobState stamp (cstr jobId) exitCode
  | _ => none

/-- One time around the loop of `globus_l_job_manager_parse_events`: the unread log and the events so far. -/
def readRecord (start : Tm) (s : List Char × List SchedulerEvent) :
    (List Char × List SchedulerEvent) ⊕ (List Char × List SchedulerEvent) :=
  let r := scanf recordFormat s.1
  if r.1.length > 4 then .inl (r.2, s.2 ++ (readEvent gmtime start r.1).toList) else .inr s

/-- `globus_l_job_manager_parse_events`. -/
def parseEvents (fuel : Nat) (state : LogfileState) : Option (List SchedulerEvent × LogfileState) := do
  let (unread, events) ← loop (fun s => some (readRecord gmtime state.startTimestamp s)) fuel (state.unread, [])
  return (events, { state with unread })

/-- The log grows by each of the pieces in turn, and is polled after each. -/
def pollAll (fuel : Nat) : LogfileState → List (List Char) → Option (List SchedulerEvent × LogfileState)
  | state, [] => some ([], state)
  | state, piece :: pieces => do
    let (events, state) ← parseEvents gmtime fuel { state with unread := state.unread ++ piece }
    let (more, state) ← pollAll fuel state pieces
    return (events ++ more, state)

end Poll

/-! ## The lines of a log -/

/-- The fields in the order of their weight. -/
def Tm.key (t : Tm) : List Int := [t.year, t.mon, t.mday, t.hour, t.min, t.sec]

theorem newer_step_iff {a b : Int} {r : Bool} :
    (if a < b then false else if a > b then true else r) = true ↔ b < a ∨ b = a ∧ r = true := by
  split
  · simp; omega
  · split
    · simp; omega
    · next hlt hgt =>
      obtain rfl : a = b := by omega
      simp

theorem timeIsNewer_iff (value benchmark : Tm) : timeIsNewer value benchmark = true ↔ benchmark.key < value.key := by
  simp only [timeIsNewer, newer_step_iff, Tm.key, cons_lt_cons_iff, lt_irrefl, Bool.false_eq_true]

/-- The number fits into a signed type of so many bits. -/
def Fits (bits : Nat) (v : Int) : Prop := -2 ^ (bits - 1) ≤ v ∧ v < 2 ^ (bits - 1)

instance (bits : Nat) (v : Int) : Decidable (Fits bits v) := inferInstanceAs (Decidable (_ ∧ _))

/-- A line with five fields, of the kind `type;time;jobid;state;code`. -/
structure LogRecord where
  msgType : Signed
  stamp : Signed
  jobId : List Char
  state : Signed
  code : Signed
  msgType_fits : Fits 32 msgType.value
  stamp_fits : Fits 64 stamp.value
  state_fits : Fits 32 state.value
  code_fits : Fits 32 code.value
  jobId_ne_nil : jobId ≠ []
  jobId_length : jobId.length ≤ 128
  jobId_chars : ∀ c ∈ jobId, c ≠ ';' ∧ isspace c = false

namespace LogRecord

/-- The text in front of the last field. -/
def front (r : LogRecord) : List Char :=
  r.msgType.text ++ ';' :: (r.stamp.text ++ ';' :: (r.jobId ++ ';' :: (r.state.text ++ [';'])))

def text (r : LogRecord) : List Char := r.front ++ r.code.text

/-- The record begins with `001`. -/
def WellFormed (r : LogRecord) : Prop := r.msgType.text = "001".toList

instance (r : LogRecord) : Decidable r.WellFormed := inferInstanceAs (Decidable (_ = _))

/-- The event that a record stands for: it is well-formed, not older than `start`, and has a known state. -/
def event (gmtime : Int → Option Tm) (start : Tm) (r : LogRecord) : Option SchedulerEvent :=
  if r.WellFormed ∧ ∃ tm ∈ gmtime r.stamp.value, start.key ≤ tm.key then
    schedulerEvent r.state.value r.stamp.value r.jobId r.code.value
  else none

end LogRecord

/-- A line of the log: a record, or something else. -/
inductive LogLine where
  | record (r : LogRecord)
  | other (text : List Char) (malformed : ∀ r : LogRecord, text ≠ r.text) (newline : '\n' ∉ text)

namespace LogLine

def text : LogLine → List Char
  | record r => r.text
  | other text _ _ => text

/-- The event of a line, if it has one. -/
def event (gmtime : Int → Option Tm) (start : Tm) : LogLine → Option SchedulerEvent
  | record r => r.event gmtime start
  | other _ _ _ => none

/-- The length of the digits at the end of a record. -/
def codeLength : LogLine → Nat
  | record r => r.code.numeral.digits.length
  | other _ _ _ => 0

/-- The line is a well-formed record, or a record of another type, or it is blank. The job id of a record has no NUL. -/
def Readable : LogLine → Prop
  | record r => (r.msgType.value = 1 → r.WellFormed) ∧ '\x00' ∉ r.jobId
  | other text _ _ => ∀ c ∈ text, isspace c

end LogLine

/-- The log with these lines. -/
def logText : List LogLine → List Char
  | [] => []
  | l :: ls => l.text ++ '\n' :: logText ls

/-- The log ends between two digits of the code of a record when `missing` bytes at its end are not there yet. -/
def cutsCode : List LogLine → Nat → Bool
  | [], _ => false
  | l :: ls, missing =>
    ((logText ls).length + 1 < missing && missing < (logText ls).length + 1 + l.codeLength) || cutsCode ls missing

/-- One of the polls comes between two digits of a code. -/
def pollsAtCut (lines : List LogLine) : List (List Char) → Bool
  | [] => false
  | _ :: pieces => cutsCode lines pieces.flatten.length || pollsAtCut lines pieces

theorem cutsCode_of_suffix {ls : List LogLine} {missing : Nat} : ∀ {ls' : List LogLine}, ls <:+ ls' →
    cutsCode ls' missing = false → cutsCode ls missing = false
  | [], hsuffix, h => by
    obtain rfl := suffix_nil.1 hsuffix
    exact h
  | l :: ls', hsuffix, h => by
    rcases suffix_cons_iff.1 hsuffix with rfl | hsuffix
    · exact h
    · exact cutsCode_of_suffix hsuffix (Bool.or_eq_false_iff.1 h).2

/-! ## Reading a record -/

theorem Fits.long {bits : Nat} {v : Int} (hbits : bits ≤ 64) (h : Fits bits v) : -2 ^ 63 ≤ v ∧ v < 2 ^ 63 := by
  obtain ⟨hlo, hhi⟩ := h
  have hle : (2 : Int) ^ (bits - 1) ≤ 2 ^ 63 := pow_le_pow_right₀ (by norm_num) (by omega)
  omega

theorem Fits.bmod {bits : Nat} {v : Int} (hbits : 0 < bits) (h : Fits bits v) : Int.bmod v (2 ^ bits) = v := by
  obtain ⟨n, rfl⟩ := Nat.exists_eq_add_of_lt hbits
  obtain ⟨hlo, hhi⟩ := h
  rw [show 0 + n + 1 - 1 = n by omega] at hlo hhi
  rw [show 0 + n + 1 = n + 1 by omega]
  refine Int.bmod_eq_of_le ?_ ?_ <;> push_cast [pow_succ] <;> omega

theorem scanf_fits {n : Signed} {bits : Nat} {ds : List Directive} {rest : List Char} (h : Fits bits n.value)
    (hpos : 0 < bits) (hbits : bits ≤ 64) (hrest : ∀ c ∈ rest.head?, c.isDigit = false) :
    scanf (.int none bits :: ds) (n.text ++ rest) = (.int n.value :: (scanf ds rest).1, (scanf ds rest).2) :=
  scanf_signed n hrest (h.long hbits).1 (h.long hbits).2 (h.bmod hpos)

namespace LogRecord

variable (r : LogRecord)

/-- The values of the fields. -/
def values : List ScanValue :=
  [.int r.msgType.value, .int r.stamp.value, .str r.jobId, .int r.state.value, .int r.code.value]

/-- A record is read in front of its newline, or at the end of the log. -/
theorem scanf_text {rest : List Char} (hrest : ∀ c ∈ rest.head?, c.isDigit = false) :
    scanf recordFormat (r.text ++ rest) =
      (r.values ++ (scanf [.set (some 1) true (· = '\n')] rest).1, (scanf [.set (some 1) true (· = '\n')] rest).2) := by
  have hsemi : ∀ t : List Char, ∀ c ∈ (';' :: t).head?, c.isDigit = false := by simp
  have hjob : ∀ c ∈ r.jobId, (decide (c ≠ ';')) = true := fun c hc => decide_eq_true (r.jobId_chars c hc).1
  simp only [text, front, append_assoc, cons_append, nil_append, recordFormat]
  rw [scanf_fits r.msgType_fits (by norm_num) (by norm_num) (hsemi _), scanf_char,
    scanf_fits r.stamp_fits (by norm_num) (by norm_num) (hsemi _), scanf_char,
    scanf_set r.jobId_ne_nil (by simpa using r.jobId_length) hjob (by simp), scanf_char,
    scanf_fits r.state_fits (by norm_num) (by norm_num) (hsemi _), scanf_char,
    scanf_fits r.code_fits (by norm_num) (by norm_num) hrest]
  rfl

theorem front_count : r.front.count ';' = 4 := by
  have hsigned : ∀ n : Signed, n.text.count ';' = 0 := fun n =>
    count_eq_zero.2 (n.not_mem (by decide) (by decide))
  have hjob : r.jobId.count ';' = 0 := count_eq_zero.2 fun h => (r.jobId_chars _ h).1 rfl
  simp [front, hsigned, hjob]

theorem scanf_short {ws s : List Char} (hws : ∀ c ∈ ws, isspace c) (h : s <+: ws ++ (r.front ++ r.code.sign)) :
    (scanf recordFormat s).1.length ≤ 4 := by
  have hsign : r.code.sign.count ';' = 0 := count_eq_zero.2 fun hmem =>
    r.code.not_mem (c := ';') (by decide) (by decide) (mem_append_left _ hmem)
  have hspace : ws.count ';' = 0 := count_eq_zero.2 fun hmem => absurd (hws _ hmem) (by decide)
  rcases scanf_append_cases ';' [.int none 32, .set (some 1) true (· = '\n')]
    [.int none 32, .char ';', .int none 64, .char ';', .set (some 128) true (· ≠ ';'), .char ';', .int none 32,
      .char ';'] s with hle | ⟨rest, hsuffix, hcount, hne⟩
  · exact hle
  · exfalso
    obtain ⟨x, hx⟩ := h
    have htotal : s.count ';' + x.count ';' = 4 := by
      rw [← count_append, hx, count_append, count_append, front_count, hsign, hspace]
    have htaken : 4 + rest.count ';' ≤ s.count ';' := hcount
    -- behind the fourth semicolon there is only the sign
    have hclean : ';' ∉ rest ++ x := count_eq_zero.1 (by rw [count_append]; omega)
    have hend : ';' :: r.code.sign <:+ s ++ x := by
      rw [hx]
      refine ⟨ws ++ (r.msgType.text ++ ';' :: (r.stamp.text ++ ';' :: (r.jobId ++ ';' :: r.state.text))), ?_⟩
      simp [front]
    obtain ⟨u, rfl⟩ := hsuffix
    have hrest : rest ++ x <:+ u ++ rest ++ x := by rw [append_assoc]; exact suffix_append _ _
    have hin : rest ++ x <:+ r.code.sign := by
      rcases suffix_or_suffix_of_suffix hrest hend with hle | hle
      · rcases suffix_cons_iff.1 hle with heq | hle
        · exact absurd (heq ▸ mem_cons_self) hclean
        · exact hle
      · exact absurd (hle.mem mem_cons_self) hclean
    obtain ⟨c, hc, hdigit⟩ := exists_isDigit_of_scanf hne
    have hmem : c ∈ r.code.sign := hin.mem (mem_append_left _ hc)
    unfold Signed.sign at hmem
    split at hmem
    · rw [mem_singleton.1 hmem] at hdigit
      exact absurd hdigit (by decide)
    · cases hmem

theorem WellFormed.value {r : LogRecord} (h : r.WellFormed) : r.msgType.value = 1 := by
  unfold WellFormed Signed.text Signed.sign at h
  unfold Signed.value Numeral.value
  split at h
  · cases h
  · next hpos =>
    rw [if_neg hpos, show r.msgType.numeral.digits = "001".toList from h]
    decide

end LogRecord

theorem scanf_recordFormat_append {ws s : List Char} (hws : ∀ c ∈ ws, isspace c)
    (h : 0 < (scanf recordFormat s).1.length) : scanf recordFormat (ws ++ s) = scanf recordFormat s := by
  unfold recordFormat at *
  cases hscan : (Directive.int none 32).scan s with
  | none =>
    rw [scanf_cons_none hscan] at h
    cases h
  | some p =>
    obtain ⟨v, rest⟩ := p
    rw [scanf_cons hscan, scanf_cons ((Directive.scan_int_append hws).trans hscan)]

theorem readEvent_values {gmtime : Int → Option Tm} (start : Tm) {r : LogRecord} (more : List ScanValue)
    (h : (LogLine.record r).Readable) : readEvent gmtime start (r.values ++ more) = r.event gmtime start := by
  obtain ⟨htype, hnul⟩ := h
  have hwf : r.WellFormed ↔ r.msgType.value = 1 := ⟨LogRecord.WellFormed.value, htype⟩
  by_cases hone : r.msgType.value = 1
  · cases htm : gmtime r.stamp.value with
    | none => simp [readEvent, LogRecord.values, LogRecord.event, htm, hone]
    | some tm =>
      have hnewer : timeIsNewer start tm = true ↔ ¬ start.key ≤ tm.key := by rw [timeIsNewer_iff, not_le]
      by_cases hstart : start.key ≤ tm.key
      · simp [readEvent, LogRecord.values, LogRecord.event, hwf, htm, hone, hstart, cstr_eq_self hnul,
          Bool.eq_false_of_not_eq_true (hnewer.not.2 (not_not_intro hstart))]
      · simp [readEvent, LogRecord.values, LogRecord.event, htm, hone, hstart, hnewer.2 hstart]
  · simp [readEvent, LogRecord.values, LogRecord.event, hwf, hone]

/-! ## A poll -/

section Poll

variable {gmtime : Int → Option Tm} {start : Tm}

/-- The events of the lines. -/
def eventsOf (gmtime : Int → Option Tm) (start : Tm) (ls : List LogLine) : List SchedulerEvent :=
  ls.filterMap (LogLine.event gmtime start)

/-- The lines `ls` at the end of `lines` are still to be read, perhaps behind white space, and `future` is what the log
lacks of them. The lines in front of them have had their events. -/
structure LogInv (gmtime : Int → Option Tm) (start : Tm) (lines : List LogLine) (future : List Char)
    (unread : List Char) (events : List SchedulerEvent) (ls : List LogLine) : Prop where
  suffix : ls <:+ lines
  events_eq : events ++ eventsOf gmtime start ls = eventsOf gmtime start lines
  length_le : (unread ++ future).length ≤ (logText lines).length
  unread_eq : ∃ ws : List Char, (∀ c ∈ ws, isspace c) ∧ unread ++ future = ws ++ logText ls

variable {future unread : List Char} {events : List SchedulerEvent}

theorem LogInv.skip {lines : List LogLine}
    (hlines : ∀ l ∈ lines, l.Readable) : ∀ {ls : List LogLine},
    LogInv gmtime start lines future unread events ls →
    LogInv gmtime start lines future unread events [] ∨
    ∃ r ls', LogInv gmtime start lines future unread events (.record r :: ls')
  | [], h => .inl h
  | .record r :: ls, h => .inr ⟨r, ls, h⟩
  | .other text hmal hnl :: ls, ⟨hsuffix, hevents, hle, ws, hws, heq⟩ => by
    have hblank : ∀ c ∈ text, isspace c := hlines _ (hsuffix.mem mem_cons_self)
    refine LogInv.skip hlines ⟨(suffix_cons _ _).trans hsuffix, hevents, hle, ws ++ (text ++ ['\n']), ?_, ?_⟩
    · intro c hc
      simp only [mem_append, mem_singleton] at hc
      rcases hc with hc | hc | rfl
      · exact hws c hc
      · exact hblank c hc
      · decide
    · rw [heq]
      simp [logText, LogLine.text]

theorem readRecord_record {r : LogRecord} {ws rest : List Char}
    (hr : (LogLine.record r).Readable) (hws : ∀ c ∈ ws, isspace c) (hrest : ∀ c ∈ rest.head?, c = '\n') :
    readRecord gmtime start (ws ++ (r.text ++ rest), events) =
      .inl (rest.tail, events ++ (r.event gmtime start).toList) := by
  have hscan : ∃ more, scanf recordFormat (r.text ++ rest) = (r.values ++ more, rest.tail) := by
    rw [r.scanf_text fun c hc => by rw [hrest c hc]; decide]
    cases rest with
    | nil => exact ⟨[], rfl⟩
    | cons c rest =>
      obtain rfl := hrest c (by simp)
      exact ⟨[.str ['\n']], rfl⟩
  obtain ⟨more, hmore⟩ := hscan
  have hlength : (scanf recordFormat (r.text ++ rest)).1.length > 4 := by
    rw [hmore, length_append]
    exact Nat.lt_add_right _ (by decide : 4 < 5)
  unfold readRecord
  rw [scanf_recordFormat_append hws (by omega)]
  rw [if_pos hlength, hmore, readEvent_values start more hr]

/-- Where the log ends among the lines that are still to be read. -/
theorem append_logText_cases {unread future ws : List Char} {r : LogRecord} {ls : List LogLine}
    (h : unread ++ future = ws ++ logText (.record r :: ls)) :
    (∃ rest, unread = ws ++ (r.text ++ rest) ∧ (∀ c ∈ rest.head?, c = '\n') ∧
      ((rest = [] ∧ future = '\n' :: logText ls) ∨ rest.tail ++ future = logText ls)) ∨
    cutsCode (.record r :: ls) future.length ∨
    (unread <+: ws ++ (r.front ++ r.code.sign) ∧ future ≠ []) := by
  have htext : unread ++ future = ws ++ (r.front ++ r.code.sign) ++ (r.code.numeral.digits ++ '\n' :: logText ls) := by
    rw [h]
    simp [logText, LogLine.text, LogRecord.text, Signed.text]
  have hline : unread ++ future = (ws ++ r.text) ++ '\n' :: logText ls := by
    rw [h]
    simp [logText, LogLine.text]
  have hlength := congrArg List.length htext
  simp only [length_append, length_cons] at hlength
  rcases Nat.lt_trichotomy future.length ((logText ls).length + 1) with hlt | heq | hgt
  · have hfuture : future <:+ logText ls :=
      suffix_of_suffix_length_le (suffix_append _ _)
        (hline ▸ (suffix_cons _ _).trans (suffix_append _ _)) (by omega)
    obtain ⟨v, hv⟩ := hfuture
    refine .inl ⟨'\n' :: v, ?_, by simp, .inr hv⟩
    rw [← hv, ← cons_append, ← append_assoc] at hline
    rw [append_cancel_right hline, append_assoc]
  · obtain ⟨hunread, hfuture⟩ := append_inj' hline (by simpa using heq)
    exact .inl ⟨[], by rw [hunread, append_nil], by simp, .inl ⟨rfl, hfuture⟩⟩
  · by_cases hcut : future.length < (logText ls).length + 1 + r.code.numeral.digits.length
    · exact .inr (.inl (by simp [cutsCode, LogLine.codeLength, hgt, hcut]))
    · refine .inr (.inr ⟨?_, fun hnil => by simp [hnil] at hgt⟩)
      refine prefix_of_prefix_length_le (prefix_append unread future) (htext ▸ prefix_append _ _) ?_
      simp only [length_append]
      omega

variable {lines ls : List LogLine}

theorem readRecord_inv {earlier events : List SchedulerEvent}
    (hlines : ∀ l ∈ lines, l.Readable) (hcut : cutsCode lines future.length = false)
    (h : LogInv gmtime start lines future unread (earlier ++ events) ls) :
    (∃ unread' events' ls', readRecord gmtime start (unread, events) = .inl (unread', events') ∧
      LogInv gmtime start lines future unread' (earlier ++ events') ls' ∧ unread'.length < unread.length) ∨
    readRecord gmtime start (unread, events) = .inr (unread, events) ∧
      ∃ ls', LogInv gmtime start lines future unread (earlier ++ events) ls' ∧ (future = [] → ls' = []) := by
  rcases h.skip hlines with h | ⟨r, ls, h⟩
  · -- nothing but white space is left
    obtain ⟨ws, hws, heq⟩ := h.unread_eq
    refine .inr ⟨?_, [], h, fun _ => rfl⟩
    have hnil : (scanf recordFormat unread).1 = [] := by
      by_contra hne
      obtain ⟨c, hc, hdigit⟩ := exists_isDigit_of_scanf hne
      have hspace := hws c (by rw [← ws.append_nil, ← logText, ← heq]; exact mem_append_left _ hc)
      rw [isspace_of_isDigit hdigit] at hspace
      cases hspace
    unfold readRecord
    dsimp only
    rw [if_neg (by rw [hnil]; decide)]
  · obtain ⟨hsuffix, hevents, hle, ws, hws, heq⟩ := h
    rcases append_logText_cases heq with ⟨rest, rfl, hrest, hfuture⟩ | hcuts | ⟨hshort, hne⟩
    · have hr := hlines _ (hsuffix.mem mem_cons_self)
      have hlt : rest.tail.length < (ws ++ (r.text ++ rest)).length := by
        have hpos := length_pos_of_ne_nil r.code.text_ne_nil
        simp only [length_append, length_tail, LogRecord.text]
        omega
      refine .inl ⟨_, _, ls, readRecord_record hr hws hrest, ⟨(suffix_cons _ _).trans hsuffix, ?_, ?_, ?_⟩, hlt⟩
      · rw [← hevents, ← append_assoc, append_assoc _ _ (eventsOf gmtime start ls)]
        congr 1
        simp only [eventsOf, LogLine.event, filterMap_cons]
        cases r.event gmtime start <;> rfl
      · rw [length_append] at hle ⊢
        omega
      · rcases hfuture with ⟨rfl, rfl⟩ | hfuture
        · exact ⟨['\n'], by decide, rfl⟩
        · exact ⟨[], by simp, hfuture⟩
    · rw [cutsCode_of_suffix hsuffix hcut] at hcuts
      cases hcuts
    · refine .inr ⟨?_, .record r :: ls, ⟨hsuffix, hevents, hle, ws, hws, heq⟩, fun hnil => absurd hnil hne⟩
      unfold readRecord
      dsimp only
      rw [if_neg (by have := r.scanf_short hws hshort; omega)]

/-- A poll reads on in the lines. When the log is complete it reads all of them. -/
theorem parseEvents_inv {fuel : Nat}
    (hlines : ∀ l ∈ lines, l.Readable) (hcut : cutsCode lines future.length = false)
    (h : LogInv gmtime start lines future unread events ls) (hfuel : unread.length < fuel) :
    ∃ more unread' ls', parseEvents gmtime fuel ⟨start, unread⟩ = some (more, ⟨start, unread'⟩) ∧
      LogInv gmtime start lines future unread' (events ++ more) ls' ∧ (future = [] → ls' = []) := by
  have hloop : ∃ b, loop (fun s => some (readRecord gmtime start s)) fuel (unread, []) = some b ∧
      ∃ ls, LogInv gmtime start lines future b.1 (events ++ b.2) ls ∧ (future = [] → ls = []) := by
    refine exists_loop_eq (I := fun s => ∃ ls, LogInv gmtime start lines future s.1 (events ++ s.2) ls)
      (fun s => s.1.length) ?_ ⟨ls, by rwa [append_nil]⟩ hfuel
    rintro ⟨unread, more⟩ ⟨ls, hinv⟩
    rcases readRecord_inv hlines hcut hinv with ⟨unread', more', ls', heq, hinv', hlt⟩ | ⟨heq, hinv'⟩
    · exact ⟨_, congrArg some heq, ⟨ls', hinv'⟩, hlt⟩
    · exact ⟨_, congrArg some heq, hinv'⟩
  obtain ⟨⟨unread', more⟩, heq, ls', hinv, hnil⟩ := hloop
  exact ⟨more, unread', ls', by simp [parseEvents, heq], hinv, hnil⟩

theorem LogInv.grow {piece future unread : List Char}
    (h : LogInv gmtime start lines (piece ++ future) unread events ls) :
    LogInv gmtime start lines future (unread ++ piece) events ls := by
  obtain ⟨hsuffix, hevents, hle, ws, hws, heq⟩ := h
  exact ⟨hsuffix, hevents, by rwa [append_assoc], ws, hws, by rw [append_assoc, heq]⟩

theorem pollAll_inv {lines : List LogLine} {fuel : Nat} (hlines : ∀ l ∈ lines, l.Readable)
    (hfuel : (logText lines).length < fuel) : ∀ {pieces : List (List Char)} {unread : List Char}
    {events : List SchedulerEvent} {ls : List LogLine}, pollsAtCut lines pieces = false → (pieces = [] → ls = []) →
    LogInv gmtime start lines pieces.flatten unread events ls →
    ∃ more state, pollAll gmtime fuel ⟨start, unread⟩ pieces = some (more, state) ∧
      events ++ more = eventsOf gmtime start lines
  | [], unread, events, ls, _, hnil, hinv => by
    refine ⟨[], ⟨start, unread⟩, rfl, ?_⟩
    rw [← hinv.events_eq, hnil rfl]
    rfl
  | piece :: pieces, unread, events, ls, hcuts, _, hinv => by
    obtain ⟨hcut, hcuts⟩ := Bool.or_eq_false_iff.1 hcuts
    have hgrown : LogInv gmtime start lines pieces.flatten (unread ++ piece) events ls := LogInv.grow hinv
    have hlength := hgrown.length_le
    rw [length_append] at hlength
    have hlt : (unread ++ piece).length < fuel := by omega
    obtain ⟨first, unread', ls', hparse, hinv', hnil⟩ := parseEvents_inv hlines hcut hgrown hlt
    obtain ⟨more, state, hpoll, hevents⟩ :=
      pollAll_inv hlines hfuel hcuts (fun h => hnil (by rw [h]; rfl)) hinv'
    refine ⟨first ++ more, state, ?_, by rw [← append_assoc, hevents]⟩
    simp [pollAll, hparse, hpoll]

end Poll

/-- A log whose lines are all readable gives the events of its lines, each once, in their order, whatever the pieces are
it grows by, if no poll comes between two digits of a code. -/
theorem pollAll_events (gmtime : Int → Option Tm) (start : Tm) {lines : List LogLine} {pieces : List (List Char)}
    {fuel : Nat} (hpieces : pieces.flatten = logText lines) (hlines : ∀ l ∈ lines, l.Readable)
    (hcuts : pollsAtCut lines pieces = false) (hfuel : (logText lines).length < fuel) :
    ∃ state, pollAll gmtime fuel ⟨start, []⟩ pieces = some (eventsOf gmtime start lines, state) := by
  have hinv : LogInv gmtime start lines pieces.flatten [] [] lines :=
    ⟨suffix_rfl, rfl, by rw [hpieces]; rfl, [], by simp, hpieces⟩
  have hnil : pieces = [] → lines = [] := by
    rintro rfl
    cases lines with
    | nil => rfl
    | cons l ls => simp [logText] at hpieces
  obtain ⟨events, state, hpoll, hevents⟩ := pollAll_inv hlines hfuel hcuts hnil hinv
  exact ⟨state, by rw [hpoll, ← hevents]; rfl⟩

/-- The record `001;0;7;8;12`. -/
def doneRecord : LogRecord where
  msgType := ⟨false, ⟨['0', '0', '1'], by decide, by decide⟩⟩
  stamp := ⟨false, ⟨['0'], by decide, by decide⟩⟩
  jobId := ['7']
  state := ⟨false, ⟨['8'], by decide, by decide⟩⟩
  code := ⟨false, ⟨['1', '2'], by decide, by decide⟩⟩
  msgType_fits := by decide
  stamp_fits := by decide
  state_fits := by decide
  code_fits := by decide
  jobId_ne_nil := by decide
  jobId_length := by decide
  jobId_chars := by decide

/-- A line that is no record. -/
def garbageLine : LogLine :=
  .other ['x'] (fun r h => by
    have hmem : ';' ∈ r.text := by simp [LogRecord.text, LogRecord.front]
    rw [← h] at hmem
    exact absurd hmem (by decide)) (by decide)

/-- The record is polled once before its code is there, and once when it is complete. -/
theorem pollAll_events_two_polls : ∃ state, pollAll (fun _ => some ⟨70, 0, 1, 0, 0, 0⟩) 20 ⟨⟨70, 0, 1, 0, 0, 0⟩, []⟩
    ["001;0;7;8;".toList, "12\n".toList] = some ([⟨.done, ['7'], 0, 12, 0⟩], state) :=
  pollAll_events (fun _ => some ⟨70, 0, 1, 0, 0, 0⟩) ⟨70, 0, 1, 0, 0, 0⟩
    (show ["001;0;7;8;".toList, "12\n".toList].flatten = logText [.record doneRecord] by decide)
    (by simp [LogLine.Readable, LogRecord.WellFormed]; decide) (by decide) (by decide)

/-- A line that is no record stops the reading of the log for good. A poll between the digits of a code gives an event
with the first of them. -/
theorem pollAll_loses_events :
    logText [garbageLine, .record doneRecord] = "x\n001;0;7;8;12\n".toList ∧
    pollAll (fun _ => some ⟨70, 0, 1, 0, 0, 0⟩) 20 ⟨⟨70, 0, 1, 0, 0, 0⟩, []⟩ ["x\n001;0;7;8;12\n".toList] =
      some ([], ⟨⟨70, 0, 1, 0, 0, 0⟩, "x\n001;0;7;8;12\n".toList⟩) ∧
    logText [.record doneRecord] = ["001;0;7;8;1".toList, "2\n".toList].flatten ∧
    pollAll (fun _ => some ⟨70, 0, 1, 0, 0, 0⟩) 20 ⟨⟨70, 0, 1, 0, 0, 0⟩, []⟩ ["001;0;7;8;1".toList, "2\n".toList] =
      some ([⟨.done, ['7'], 0, 1, 0⟩], ⟨⟨70, 0, 1, 0, 0, 0⟩, "2\n".toList⟩) ∧
    eventsOf (fun _ => some ⟨70, 0, 1, 0, 0, 0⟩) ⟨70, 0, 1, 0, 0, 0⟩ [.record doneRecord] =
      [⟨.done, ['7'], 0, 12, 0⟩] := by
  decide

end Globus
