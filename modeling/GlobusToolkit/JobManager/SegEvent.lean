/-
Scheduler events of a GRAM job (gram/jobmanager/source/globus_gram_job_manager_seg.c). A job may consist of several
sub-jobs; their ids stand in one string, separated by commas, and an event that ends a sub-job takes its id out of
the string. The job ends with the last id.
-/
import GlobusToolkit.Lib.Loop
import GlobusToolkit.Rsl.Syntax

namespace Globus

open Lib List

/-! ## Handling an event -/

/-- `globus_gram_protocol_job_state_t`. -/
inductive JobState where
  | pending
  | active
  | failed
  | done
  | suspended
  | unsubmitted
  | stageIn
  | stageOut
  deriving DecidableEq, Repr

/-- `globus_scheduler_event_type_t`. -/
inductive EventType where
  | pending
  | active
  | failed
  | done
  | raw
  deriving DecidableEq, Repr

/-- `globus_scheduler_event_t`. -/
structure SchedulerEvent where
  eventType : EventType
  jobId : List Char
  timestamp : Int
  exitCode : Int
  failureCode : Int
  deriving DecidableEq, Repr

/-- The fields of a request that an event may change, and its specification. -/
structure SegRequest where
  jobIdString : List Char
  segLastTimestamp : Int
  expectedTerminalState : JobState
  exitCode : Int
  status : JobState
  unsentStatusChange : Bool
  rsl : Rsl

/-- The event is one that ends a sub-job. -/
def SchedulerEvent.terminal (event : SchedulerEvent) : Bool :=
  event.eventType = .done || event.eventType = .failed

/-- `globus_i_gram_job_manager_script_valid_state_change`. -/
def validStateChange (status newState : JobState) : Bool :=
  match status with
  | .pending => newState ≠ .pending
  | .active => newState ≠ .pending && newState ≠ .active
  | .failed => false
  | .done => false
  | .suspended => newState ≠ .pending && newState ≠ .suspended
  | .unsubmitted => newState ≠ .unsubmitted
  | .stageIn => newState ≠ .stageIn
  | .stageOut => newState = .done || newState = .failed

/-- `globus_l_gram_job_manager_rsl_match`: unlike elsewhere, the case of the attribute matters. -/
def rslMatch (attr : List Char) : Rsl → Bool
  | .relation _ test _ => test = attr
  | _ => false

/-- `globus_gram_job_manager_rsl_need_stage_out`. -/
def rslNeedStageOut (rsl : Rsl) : Bool :=
  let attributes := rsl.booleanGetOperandList
  attributes.any (rslMatch "filestageout".toList) || attributes.any (rslMatch "filestreamout".toList)

/-- One time around the loop that looks for the sub-job. The search begins at the front of the string each time. -/
def findSubjob (event : SchedulerEvent) (jobIdString : List Char) : List Char ⊕ List Char :=
  match strstr event.jobId jobIdString with
  | none => .inr jobIdString
  | some (before, behind) =>
    if before = [] ∨ before.getLast? = some ',' then
      match behind with
      | [] => .inr (if event.terminal then before.dropLast else jobIdString)
      | c :: rest =>
        if c = ',' then .inr (if event.terminal then before ++ rest else jobIdString) else .inl jobIdString
    else .inl jobIdString

/-- The expected terminal state and the exit code after an event. Only terminal events change them. -/
def SegRequest.noteTerminal (request : SegRequest) (event : SchedulerEvent) : SegRequest :=
  if event.terminal then
    { request with
      expectedTerminalState :=
        if request.expectedTerminalState = .done ∧ event.eventType = .failed then .failed
        else request.expectedTerminalState
      exitCode :=
        if event.eventType = .done ∧ request.exitCode = 0 ∧ event.exitCode ≠ 0 then event.exitCode
        else request.exitCode }
  else request

/-- `globus_gram_job_manager_request_set_status`, with the note that the change has to be sent. -/
def SegRequest.setStatus (request : SegRequest) (status : JobState) : SegRequest :=
  { request with status, unsentStatusChange := true }

/-- The status after an event that ends no sub-job. -/
def SegRequest.noteProgress (request : SegRequest) (event : SchedulerEvent) : SegRequest :=
  match event.eventType with
  | .pending => if validStateChange request.status .pending then request.setStatus .pending else request
  | .active => if validStateChange request.status .active then request.setStatus .active else request
  | _ => request

/-- The status after the last sub-job has ended. -/
def SegRequest.finish (request : SegRequest) : SegRequest :=
  if validStateChange request.status request.expectedTerminalState then
    request.setStatus
      (if request.expectedTerminalState = .done ∧ rslNeedStageOut request.rsl then .stageOut
      else request.expectedTerminalState)
  else request

/-- The handling of an event behind the loop, which leaves `jobIdString`. -/
def SegRequest.noteEvent (request : SegRequest) (event : SchedulerEvent) (jobIdString : List Char) : SegRequest :=
  let request := ({ request with
    segLastTimestamp := max request.segLastTimestamp event.timestamp
    jobIdString }).noteTerminal event
  if event.terminal then if jobIdString = [] then request.finish else request
  else request.noteProgress event

/-- `globus_gram_job_manager_seg_handle_event`, for the event at the front of the queue. -/
def segHandleEvent (fuel : Nat) (request : SegRequest) (event : SchedulerEvent) : Option SegRequest := do
  let jobIdString ← loop (fun ids => some (findSubjob event ids)) fuel request.jobIdString
  return request.noteEvent event jobIdString

open SchedulerEvent

section Fields

variable (request : SegRequest) (event : SchedulerEvent) (jobIdString : List Char)

namespace SegRequest

theorem noteProgress_eq : ∃ status unsent,
    request.noteProgress event = { request with status, unsentStatusChange := unsent } := by
  unfold noteProgress setStatus
  repeat' split
  all_goals exact ⟨_, _, rfl⟩

theorem finish_eq : ∃ status unsent,
    request.finish = { request with status, unsentStatusChange := unsent } := by
  unfold finish setStatus
  split
  · exact ⟨_, _, rfl⟩
  · exact ⟨_, _, rfl⟩

theorem noteEvent_eq : ∃ status unsent, request.noteEvent event jobIdString =
    { ({ request with segLastTimestamp := max request.segLastTimestamp event.timestamp, jobIdString }).noteTerminal event
      with status, unsentStatusChange := unsent } := by
  unfold noteEvent
  split
  · split
    · exact finish_eq _
    · exact ⟨_, _, rfl⟩
  · exact noteProgress_eq _ _

@[simp] theorem noteEvent_jobIdString :
    (request.noteEvent event jobIdString).jobIdString = jobIdString := by
  obtain ⟨status, unsent, h⟩ := request.noteEvent_eq event jobIdString
  rw [h, noteTerminal]
  split <;> rfl

@[simp] theorem noteEvent_rsl : (request.noteEvent event jobIdString).rsl = request.rsl := by
  obtain ⟨status, unsent, h⟩ := request.noteEvent_eq event jobIdString
  rw [h, noteTerminal]
  split <;> rfl

theorem noteEvent_expectedTerminalState :
    (request.noteEvent event jobIdString).expectedTerminalState =
      if request.expectedTerminalState = .done ∧ event.eventType = .failed then .failed
      else request.expectedTerminalState := by
  obtain ⟨status, unsent, h⟩ := request.noteEvent_eq event jobIdString
  rw [h, noteTerminal]
  split
  · rfl
  · next hterminal =>
    have hfailed : event.eventType ≠ .failed := fun h => hterminal (by simp [terminal, h])
    rw [if_neg fun h => hfailed h.2]

theorem noteEvent_exitCode :
    (request.noteEvent event jobIdString).exitCode =
      if event.eventType = .done ∧ request.exitCode = 0 ∧ event.exitCode ≠ 0 then event.exitCode
      else request.exitCode := by
  obtain ⟨status, unsent, h⟩ := request.noteEvent_eq event jobIdString
  rw [h, noteTerminal]
  split
  · rfl
  · next hterminal =>
    have hdone : event.eventType ≠ .done := fun h => hterminal (by simp [terminal, h])
    rw [if_neg fun h => hdone h.1]

theorem noteEvent_status_progress (hprogress : event.terminal = false) :
    (request.noteEvent event jobIdString).status = request.status ∨
      ∃ status, (status = .pending ∨ status = .active) ∧ validStateChange request.status status ∧
        (request.noteEvent event jobIdString).status = status := by
  unfold noteEvent noteTerminal
  rw [if_neg (by simp [hprogress]), if_neg (by simp [hprogress]), noteProgress]
  split
  · split
    · next hvalid => exact .inr ⟨.pending, .inl rfl, hvalid, rfl⟩
    · exact .inl rfl
  · split
    · next hvalid => exact .inr ⟨.active, .inr rfl, hvalid, rfl⟩
    · exact .inl rfl
  · exact .inl rfl

theorem noteEvent_status_more (hterminal : event.terminal) (hmore : jobIdString ≠ []) :
    (request.noteEvent event jobIdString).status = request.status := by
  unfold noteEvent noteTerminal
  rw [if_pos hterminal, if_pos hterminal, if_neg hmore]

theorem noteEvent_status_last (hterminal : event.terminal) {state : JobState}
    (hstate : (request.noteEvent event []).expectedTerminalState = state)
    (hvalid : validStateChange request.status state) :
    (request.noteEvent event []).status = if state = .done ∧ rslNeedStageOut request.rsl then .stageOut else state := by
  unfold noteEvent noteTerminal at hstate ⊢
  rw [if_pos hterminal, if_pos hterminal, if_pos rfl] at hstate ⊢
  obtain ⟨status, unsent, h⟩ := finish_eq _
  rw [h] at hstate
  dsimp only at hstate
  unfold finish
  rw [hstate, if_pos hvalid]
  rfl

end SegRequest

end Fields

/-! ## Finding a sub-job in the list -/

/-- The sub-job ids as they stand in the string. -/
def subjobList (ids : List (List Char)) : List Char := [','].intercalate ids

theorem subjobList_append (e : List Char) (l₂ : List (List Char)) : ∀ l₁ : List (List Char),
    subjobList (l₁ ++ e :: l₂) = l₁.flatMap (· ++ [',']) ++ (e ++ l₂.flatMap (',' :: ·))
  | [] => intercalate_cons ',' e l₂
  | f :: l₁ => by
    have ih := subjobList_append e l₂ l₁
    unfold subjobList at ih ⊢
    have hne : l₁ ++ e :: l₂ ≠ [] := by simp
    obtain ⟨g, l, hl⟩ := exists_cons_of_ne_nil hne
    rw [cons_append, hl, intercalate_cons_cons, ← hl, ih]
    simp

theorem strstr_subjobList {pat e x y : List Char} (hpat : ',' ∉ pat) (he : strstr pat e = some (x, y))
    (l₂ : List (List Char)) : ∀ l₁ : List (List Char), (∀ f ∈ l₁, ¬ pat <:+: f) →
    strstr pat (subjobList (l₁ ++ e :: l₂)) = some (l₁.flatMap (· ++ [',']) ++ x, y ++ l₂.flatMap (',' :: ·))
  | [], _ => by
    rw [subjobList_append]
    refine strstr_append_of_some hpat (fun d hd => ?_) he
    cases l₂ with
    | nil => cases hd
    | cons g l₂ => simpa using hd.symm
  | f :: l₁, hl₁ => by
    have hlist : subjobList (f :: l₁ ++ e :: l₂) = f ++ ',' :: subjobList (l₁ ++ e :: l₂) := by
      rw [subjobList_append, subjobList_append]
      simp
    rw [hlist, strstr_append_of_none hpat _ (strstr_eq_none_iff.2 (hl₁ f (by simp))),
      strstr_subjobList hpat he l₂ l₁ fun g hg => hl₁ g (by simp [hg])]
    simp

theorem strstr_subjobList_none {pat : List Char} (hpat : ',' ∉ pat) : ∀ (f : List Char) (ids : List (List Char)),
    (∀ g ∈ f :: ids, ¬ pat <:+: g) → strstr pat (subjobList (f :: ids)) = none
  | f, [], h => by
    rw [subjobList, intercalate_singleton]
    exact strstr_eq_none_iff.2 (h f (by simp))
  | f, g :: ids, h => by
    have hrest : strstr pat (subjobList (g :: ids)) = none :=
      strstr_subjobList_none hpat g ids fun k hk => h k (by simp [hk])
    unfold subjobList at hrest ⊢
    rw [intercalate_cons_cons, append_assoc, singleton_append,
      strstr_append_of_none hpat _ (strstr_eq_none_iff.2 (h f (by simp))), hrest]
    rfl

section Find

variable {event : SchedulerEvent} {l₁ l₂ : List (List Char)}

theorem findSubjob_absent {ids : List (List Char)} (hcomma : ',' ∉ event.jobId)
    (habsent : ∀ f ∈ ids, ¬ event.jobId <:+: f) : findSubjob event (subjobList ids) = .inr (subjobList ids) := by
  unfold findSubjob
  cases ids with
  | nil =>
    cases hid : event.jobId with
    | nil => simp [subjobList, strstr]
    | cons c id => simp [subjobList, strstr]
  | cons f ids => rw [strstr_subjobList_none hcomma f ids habsent]

theorem findSubjob_whole (hcomma : ',' ∉ event.jobId) (hl₁ : ∀ f ∈ l₁, ¬ event.jobId <:+: f) :
    findSubjob event (subjobList (l₁ ++ event.jobId :: l₂)) =
      .inr (subjobList (if event.terminal then l₁ ++ l₂ else l₁ ++ event.jobId :: l₂)) := by
  have hbefore : l₁.flatMap (· ++ [',']) = [] ∨ (l₁.flatMap (· ++ [','])).getLast? = some ',' := by
    rcases eq_nil_or_concat l₁ with rfl | ⟨l, e, rfl⟩
    · exact .inl rfl
    · right
      simp
  unfold findSubjob
  rw [strstr_subjobList hcomma (strstr_self event.jobId) l₂ l₁ hl₁, append_nil, nil_append]
  dsimp only
  rw [if_pos hbefore]
  cases l₂ with
  | nil =>
    show Sum.inr (if event.terminal then (l₁.flatMap (· ++ [','])).dropLast else _) = _
    rw [dropLast_flatMap_append, append_nil]
    split <;> rfl
  | cons f l₂ =>
    show (if ',' = ',' then Sum.inr (if event.terminal then
      l₁.flatMap (· ++ [',']) ++ (f ++ l₂.flatMap (',' :: ·)) else _) else _) = _
    rw [if_pos rfl, ← subjobList_append]
    split <;> rfl

theorem findSubjob_part {e : List Char} (hcomma : ',' ∉ event.jobId) (hl₁ : ∀ f ∈ l₁, ¬ event.jobId <:+: f)
    (he : event.jobId <:+: e) (hne : e ≠ event.jobId) (hcommas : ',' ∉ e) :
    findSubjob event (subjobList (l₁ ++ e :: l₂)) = .inl (subjobList (l₁ ++ e :: l₂)) := by
  obtain ⟨⟨x, y⟩, hxy⟩ := Option.ne_none_iff_exists'.1 (mt strstr_eq_none_iff.1 (not_not.2 he))
  have heq := eq_of_strstr hxy
  unfold findSubjob
  rw [strstr_subjobList hcomma hxy l₂ l₁ hl₁]
  dsimp only
  split
  · next hbefore =>
    -- nothing stands in front of the id in the entry, so that something stands behind it
    have hx : x = [] := by
      rcases eq_nil_or_concat x with rfl | ⟨x', c, rfl⟩
      · rfl
      · rw [concat_eq_append] at hbefore heq
        rcases hbefore with h | h
        · simp at h
        · rw [← append_assoc, getLast?_concat] at h
          exact absurd (by rw [heq, ← Option.some.inj h]; simp) hcommas
    cases y with
    | nil => exact absurd (by rw [heq, hx]; simp) hne
    | cons c y =>
      have hc : c ≠ ',' := fun h => hcommas (by rw [heq, h]; simp)
      dsimp only [cons_append]
      rw [if_neg hc]
  · rfl

end Find

/-- The first id of the list that contains the id of an event, if there is one, is that id. -/
def FoundWhole (id : List Char) (ids : List (List Char)) : Prop :=
  ∀ e, ids.find? (fun e => decide (id <:+: e)) = some e → e = id

/-- The ids left after an event. -/
def SchedulerEvent.leaves (event : SchedulerEvent) (ids : List (List Char)) : List (List Char) :=
  if event.terminal then ids.erase event.jobId else ids

variable {ids : List (List Char)}

theorem find?_infix_eq_some {id e : List Char}
    (h : ids.find? (fun e => decide (id <:+: e)) = some e) :
    id <:+: e ∧ ∃ l₁ l₂, ids = l₁ ++ e :: l₂ ∧ ∀ f ∈ l₁, ¬ id <:+: f := by
  obtain ⟨he, l₁, l₂, rfl, hl₁⟩ := find?_eq_some_iff_append.1 h
  exact ⟨of_decide_eq_true he, l₁, l₂, rfl, fun f hf => by simpa using hl₁ f hf⟩

variable {event : SchedulerEvent}

theorem findSubjob_of_foundWhole (hcomma : ',' ∉ event.jobId)
    (hwhole : FoundWhole event.jobId ids) :
    findSubjob event (subjobList ids) = .inr (subjobList (event.leaves ids)) := by
  unfold leaves
  cases hfind : ids.find? (fun e => decide (event.jobId <:+: e)) with
  | none =>
    have habsent : ∀ f ∈ ids, ¬ event.jobId <:+: f := fun f hf => by
      simpa using find?_eq_none.1 hfind f hf
    have hnotMem : event.jobId ∉ ids := fun hmem => habsent _ hmem infix_rfl
    rw [findSubjob_absent hcomma habsent, erase_of_not_mem hnotMem, ite_self]
  | some e =>
    obtain ⟨-, l₁, l₂, rfl, hl₁⟩ := find?_infix_eq_some hfind
    obtain rfl := hwhole e hfind
    have hnotMem : event.jobId ∉ l₁ := fun hmem => hl₁ _ hmem infix_rfl
    rw [findSubjob_whole hcomma hl₁, erase_append_right _ hnotMem, erase_cons_head]

theorem segHandleEvent_of_foundWhole {request : SegRequest}
    (hlist : request.jobIdString = subjobList ids) (hcomma : ',' ∉ event.jobId)
    (hwhole : FoundWhole event.jobId ids) {fuel : Nat} (hfuel : 0 < fuel) :
    segHandleEvent fuel request event = some (request.noteEvent event (subjobList (event.leaves ids))) := by
  obtain ⟨fuel, rfl⟩ := Nat.exists_eq_succ_of_ne_zero hfuel.ne'
  unfold segHandleEvent
  rw [hlist, loop_done (congrArg some (findSubjob_of_foundWhole hcomma hwhole))]
  rfl

/-- An event comes to an end, and takes out of the list what it should, exactly if the first entry that contains its
id as text is its own. -/
theorem segHandleEvent_terminates_iff {request : SegRequest} {event : SchedulerEvent} {ids : List (List Char)}
    (hlist : request.jobIdString = subjobList ids) (hids : ∀ e ∈ ids, ',' ∉ e) (hcomma : ',' ∉ event.jobId) :
    (∃ fuel request', segHandleEvent fuel request event = some request' ∧
      request'.jobIdString = subjobList (event.leaves ids)) ↔ FoundWhole event.jobId ids := by
  constructor
  · rintro ⟨fuel, request', hreturns, -⟩ e hfind
    by_contra hne
    obtain ⟨he, l₁, l₂, rfl, hl₁⟩ := find?_infix_eq_some hfind
    -- the search finds the same place again and again
    have hloop : loop (fun ids => some (findSubjob event ids)) fuel request.jobIdString = none := by
      refine loop_eq_none (I := fun s => s = subjobList (l₁ ++ e :: l₂)) ?_ hlist
      rintro s rfl
      exact ⟨_, congrArg some (findSubjob_part hcomma hl₁ he hne (hids e (by simp))), rfl⟩
    rw [segHandleEvent, hloop] at hreturns
    cases hreturns
  · intro hwhole
    exact ⟨1, _, segHandleEvent_of_foundWhole hlist hcomma hwhole one_pos, SegRequest.noteEvent_jobIdString _ _ _⟩

/-- A submitted job with the given sub-jobs. -/
def submitted (jobIdString : String) : SegRequest where
  jobIdString := jobIdString.toList
  segLastTimestamp := 0
  expectedTerminalState := .done
  exitCode := 0
  status := .pending
  unsentStatusChange := false
  rsl := .boolean .and []

/-- `12,3` and the end of `3`. -/
theorem segHandleEvent_terminates_second :
    (∃ fuel request', segHandleEvent fuel (submitted "12,3") ⟨.done, ['3'], 1, 0, 0⟩ = some request' ∧
      request'.jobIdString = subjobList [['1', '2']]) ↔ FoundWhole ['3'] [['1', '2'], ['3']] :=
  segHandleEvent_terminates_iff
    (show (submitted "12,3").jobIdString = subjobList [['1', '2'], ['3']] from rfl) (by decide) (by decide)

/-- `12,2` and the end of `2`: the search stops at the `2` of `12` each time. -/
theorem segHandleEvent_diverges :
    [['1', '2'], ['2']].Nodup ∧ (submitted "12,2").jobIdString = subjobList [['1', '2'], ['2']] ∧
      ¬ ∃ fuel request', segHandleEvent fuel (submitted "12,2") ⟨.done, ['2'], 1, 0, 0⟩ = some request' := by
  refine ⟨by decide, rfl, ?_⟩
  rintro ⟨fuel, request', h⟩
  have hloop : loop (fun ids => some (findSubjob ⟨.done, ['2'], 1, 0, 0⟩ ids)) fuel ['1', '2', ',', '2'] = none := by
    refine loop_eq_none (I := fun s => s = ['1', '2', ',', '2']) ?_ rfl
    rintro s rfl
    exact ⟨_, rfl, rfl⟩
  have hlist : (submitted "12,2").jobIdString = ['1', '2', ',', '2'] := rfl
  rw [segHandleEvent, hlist, hloop] at h
  cases h

/-! ## All events of a job -/

/-- The events of a job, in the order in which they are handled. -/
def segRun (fuel : Nat) (request : SegRequest) (events : List SchedulerEvent) : Option SegRequest :=
  events.foldlM (segHandleEvent fuel) request

/-- The sub-jobs that no event has ended. -/
def remaining (ids : List (List Char)) (events : List SchedulerEvent) : List (List Char) :=
  ids.filter fun id => events.all fun event => !(event.terminal && event.jobId = id)

/-- Events of the sub-jobs `ids`, one terminal event for each. -/
structure EventsOf (ids : List (List Char)) (events : List SchedulerEvent) : Prop where
  mem : ∀ event ∈ events, event.jobId ∈ ids
  kind : ∀ event ∈ events, event.eventType ≠ .raw
  once : ∀ id ∈ ids, events.countP (fun event => event.terminal && event.jobId = id) = 1

/-- The exit code of the first sub-job that is done and returned something else than 0. -/
def firstExitCode (events : List SchedulerEvent) : Int :=
  ((events.filter (·.eventType = .done)).map (·.exitCode) |>.find? (· ≠ 0)).getD 0

/-- The state of the job when all sub-jobs have ended. -/
def endState (events : List SchedulerEvent) (rsl : Rsl) : JobState :=
  if events.any (·.eventType = .failed) then .failed else if rslNeedStageOut rsl then .stageOut else .done

/-- The states of a job with a sub-job that has not ended. -/
def JobState.waiting (status : JobState) : Prop := status = .pending ∨ status = .active ∨ status = .unsubmitted

instance (status : JobState) : Decidable status.waiting := inferInstanceAs (Decidable (_ ∨ _ ∨ _))

theorem remaining_nil (ids : List (List Char)) : remaining ids [] = ids := by
  simp [remaining]

theorem remaining_concat (hnodup : ids.Nodup) (events : List SchedulerEvent)
    (event : SchedulerEvent) : remaining ids (events ++ [event]) = event.leaves (remaining ids events) := by
  unfold remaining leaves
  split
  · next hterminal =>
    rw [(hnodup.filter _).erase_eq_filter, filter_filter]
    refine filter_congr fun id _ => ?_
    rw [all_append, Bool.and_comm]
    simp [hterminal, Bool.beq_eq_decide_eq, eq_comm, bne]
  · next hterminal => simp [hterminal]

theorem firstExitCode_concat (events : List SchedulerEvent) (event : SchedulerEvent) :
    firstExitCode (events ++ [event]) =
      if event.eventType = .done ∧ firstExitCode events = 0 ∧ event.exitCode ≠ 0 then event.exitCode
      else firstExitCode events := by
  unfold firstExitCode
  rw [filter_append, map_append, find?_append]
  cases hfind : ((events.filter (·.eventType = .done)).map (·.exitCode)).find? (· ≠ 0) with
  | none =>
    by_cases hdone : event.eventType = .done
    · by_cases hcode : event.exitCode = 0 <;> simp [hdone, hcode]
    · simp [hdone]
  | some code =>
    have hcode : code ≠ 0 := by simpa using find?_some hfind
    simp [hcode]

/-- The request after some of the events. -/
structure SegInv (ids : List (List Char)) (rsl : Rsl) (events : List SchedulerEvent) (request : SegRequest) : Prop where
  list : request.jobIdString = subjobList (remaining ids events)
  rsl_eq : request.rsl = rsl
  expected : request.expectedTerminalState = if events.any (·.eventType = .failed) then .failed else .done
  exitCode : request.exitCode = firstExitCode events
  waiting : remaining ids events ≠ [] → request.status.waiting
  ended : ids ≠ [] → remaining ids events = [] → request.status = endState events rsl

theorem foundWhole_of_length_eq {id : List Char} (hlen : ∀ e ∈ ids, e.length = id.length) :
    FoundWhole id ids := by
  intro e hfind
  have hpart : id <:+: e := (find?_infix_eq_some hfind).1
  exact (hpart.eq_of_length (hlen e (mem_of_find?_eq_some hfind)).symm).symm

/-- The text is empty only without ids, except for a list of one empty id. -/
theorem subjobList_eq_nil (h : subjobList ids = []) : ids = [] ∨ ids = [[]] := by
  match ids with
  | [] => exact .inl rfl
  | [e] =>
    rw [subjobList, intercalate_singleton] at h
    exact .inr (by rw [h])
  | e :: f :: ids =>
    rw [subjobList, intercalate_cons_cons] at h
    simp at h

theorem validStateChange_of_waiting {status state : JobState} (hwaiting : status.waiting)
    (hstate : state = .done ∨ state = .failed) : validStateChange status state := by
  rcases hwaiting with rfl | rfl | rfl <;> rcases hstate with rfl | rfl <;> rfl

theorem endState_cases (events : List SchedulerEvent) (rsl : Rsl) :
    endState events rsl = .failed ∨ endState events rsl = .stageOut ∨ endState events rsl = .done := by
  unfold endState
  split
  · exact .inl rfl
  · split
    · exact .inr (.inl rfl)
    · exact .inr (.inr rfl)

section Step

variable {ids : List (List Char)} {rsl : Rsl} {events : List SchedulerEvent} {request : SegRequest}
  {event : SchedulerEvent}

/-- Nothing leads from an end state to the status of an event that ends no sub-job. -/
theorem SegRequest.noteEvent_status_ended (hprogress : event.terminal = false) (jobIdString : List Char)
    (hend : request.status = endState events rsl) : (request.noteEvent event jobIdString).status = request.status := by
  rcases request.noteEvent_status_progress event jobIdString hprogress with h | ⟨status, hstatus, hvalid, -⟩
  · exact h
  · rw [hend] at hvalid
    rcases endState_cases events rsl with h | h | h <;> rcases hstatus with rfl | rfl <;>
      simp [h, validStateChange] at hvalid

theorem SegRequest.noteEvent_status_waiting (hprogress : event.terminal = false) (jobIdString : List Char)
    (hwaiting : request.status.waiting) : (request.noteEvent event jobIdString).status.waiting := by
  rcases request.noteEvent_status_progress event jobIdString hprogress with h | ⟨status, hstatus, -, h⟩
  · rwa [h]
  · rw [h]
    exact hstatus.imp_right .inl

variable (hnodup : ids.Nodup) (hlen : ∀ e ∈ ids, e.length = event.jobId.length)

include hnodup hlen in
theorem leaves_eq_nil (hterminal : event.terminal) (h : subjobList (event.leaves ids) = []) : event.leaves ids = [] := by
  rcases subjobList_eq_nil h with h | h
  · exact h
  · rw [leaves, if_pos hterminal] at h
    have hmem : [] ∈ ids.erase event.jobId := by rw [h]; simp
    have hid : event.jobId = [] := length_eq_zero_iff.1 (hlen [] (mem_of_mem_erase hmem)).symm
    rw [hid] at hmem
    exact absurd hmem (hnodup.not_mem_erase)

variable (hinv : SegInv ids rsl events request)
include hinv

theorem SegInv.expected_step (jobIdString : List Char) :
    (request.noteEvent event jobIdString).expectedTerminalState =
      if (events ++ [event]).any (·.eventType = .failed) then .failed else .done := by
  rw [SegRequest.noteEvent_expectedTerminalState, hinv.expected, any_append]
  cases events.any (·.eventType = .failed) <;> simp

include hnodup hlen

/-- A terminal event changes the status if it is the last one. -/
theorem SegInv.status_terminal (hterminal : event.terminal) (hmem : event.jobId ∈ remaining ids events) :
    (request.noteEvent event (subjobList (event.leaves (remaining ids events)))).status =
      if event.leaves (remaining ids events) = [] then endState (events ++ [event]) rsl else request.status := by
  split
  · next hlast =>
    have hwaiting := hinv.waiting (ne_nil_of_mem hmem)
    have hempty : subjobList [] = [] := rfl
    rw [hlast, hempty, SegRequest.noteEvent_status_last request event hterminal (hinv.expected_step [])
      (validStateChange_of_waiting hwaiting (by split <;> simp)), hinv.rsl_eq, endState]
    split <;> simp
  · next hmore =>
    refine SegRequest.noteEvent_status_more request event _ hterminal fun h => hmore ?_
    exact leaves_eq_nil (hnodup.filter _) (fun e he => hlen e (mem_of_mem_filter he)) hterminal h

theorem SegInv.step (hterminal : event.terminal → event.jobId ∈ remaining ids events) :
    SegInv ids rsl (events ++ [event])
      (request.noteEvent event (subjobList (event.leaves (remaining ids events)))) := by
  constructor
  case list => rw [SegRequest.noteEvent_jobIdString, remaining_concat hnodup]
  case rsl_eq => rw [SegRequest.noteEvent_rsl, hinv.rsl_eq]
  case expected => exact hinv.expected_step _
  case exitCode => rw [SegRequest.noteEvent_exitCode, hinv.exitCode, firstExitCode_concat]
  case waiting =>
    rw [remaining_concat hnodup]
    intro hmore
    by_cases hkind : event.terminal
    · rw [hinv.status_terminal hnodup hlen hkind (hterminal hkind), if_neg hmore]
      exact hinv.waiting (ne_nil_of_mem (hterminal hkind))
    · rw [leaves, if_neg hkind] at hmore ⊢
      exact SegRequest.noteEvent_status_waiting (by simpa using hkind) _ (hinv.waiting hmore)
  case ended =>
    rw [remaining_concat hnodup]
    intro hids hlast
    by_cases hkind : event.terminal
    · rw [hinv.status_terminal hnodup hlen hkind (hterminal hkind), if_pos hlast]
    · rw [leaves, if_neg hkind] at hlast ⊢
      have hend := hinv.ended hids hlast
      have hfailed : event.eventType ≠ .failed := fun h => hkind (by simp [terminal, h])
      rw [SegRequest.noteEvent_status_ended (by simpa using hkind) _ hend, hend]
      simp [endState, hfailed]

theorem SegInv.not_back (hterminal : event.terminal → event.jobId ∈ remaining ids events)
    (hactive : request.status = .active) :
    (request.noteEvent event (subjobList (event.leaves (remaining ids events)))).status ≠ .pending := by
  by_cases hkind : event.terminal
  · rw [hinv.status_terminal hnodup hlen hkind (hterminal hkind)]
    split
    · rcases endState_cases (events ++ [event]) rsl with h | h | h <;> rw [h] <;> decide
    · rw [hactive]
      decide
  · rcases request.noteEvent_status_progress event (subjobList (event.leaves (remaining ids events)))
      (by simpa using hkind) with h | ⟨status, -, hvalid, h⟩
    · rw [h, hactive]
      decide
    · rw [h]
      rintro rfl
      rw [hactive] at hvalid
      cases hvalid

end Step

theorem segRun_concat (fuel : Nat) (request : SegRequest) (events : List SchedulerEvent) (event : SchedulerEvent) :
    segRun fuel request (events ++ [event]) = (segRun fuel request events).bind (segHandleEvent fuel · event) := by
  unfold segRun
  rw [foldlM_append]
  refine congrArg _ (funext fun r => ?_)
  rw [foldlM_cons]
  exact bind_pure _

/-- A sub-job without a terminal event so far: only its first one is still to come. -/
theorem EventsOf.mem_remaining {events rest : List SchedulerEvent}
    (hes : EventsOf ids (events ++ event :: rest)) (hterminal : event.terminal) :
    event.jobId ∈ remaining ids events := by
  have hid := hes.mem event (by simp)
  have honce := hes.once _ hid
  rw [countP_append, countP_cons_of_pos (by simp [hterminal])] at honce
  have hzero : events.countP (fun e => e.terminal && e.jobId = event.jobId) = 0 := by omega
  rw [countP_eq_zero] at hzero
  refine mem_filter.2 ⟨hid, all_eq_true.2 fun e he => ?_⟩
  simpa [imp_iff_not_or] using hzero e he

/-- When all sub-jobs have ended, every failure has been seen. -/
theorem EventsOf.any_failed {events rest : List SchedulerEvent}
    (hes : EventsOf ids (events ++ rest)) (hended : remaining ids events = []) :
    events.any (·.eventType = .failed) = (events ++ rest).any (·.eventType = .failed) := by
  have hrest : rest.any (·.eventType = .failed) = false := by
    refine any_eq_false.2 fun event hevent hfailed => ?_
    have hterminal : event.terminal := by simp [terminal, of_decide_eq_true hfailed]
    obtain ⟨rest₁, rest₂, rfl⟩ := append_of_mem hevent
    rw [← append_assoc] at hes
    obtain ⟨hid, hall⟩ := mem_filter.1 (hes.mem_remaining hterminal)
    rw [all_append, Bool.and_eq_true] at hall
    have hmem : event.jobId ∈ remaining ids events := mem_filter.2 ⟨hid, hall.1⟩
    rw [hended] at hmem
    cases hmem
  rw [any_append, hrest, Bool.or_false]

section Run

variable {ids : List (List Char)} {request : SegRequest} {all : List SchedulerEvent} {fuel : Nat}

theorem SegInv.handle {events rest : List SchedulerEvent} {event : SchedulerEvent} {r : SegRequest} {rsl : Rsl}
    (hinv : SegInv ids rsl events r) (hnodup : ids.Nodup) (hlen : ∀ e ∈ ids, ∀ f ∈ ids, e.length = f.length)
    (hcomma : ∀ e ∈ ids, ',' ∉ e) (hes : EventsOf ids (events ++ event :: rest)) (hfuel : 0 < fuel) :
    ∃ r', segHandleEvent fuel r event = some r' ∧ SegInv ids rsl (events ++ [event]) r' ∧
      (r.status = .active → r'.status ≠ .pending) := by
  have hid := hes.mem event (by simp)
  have hlen' : ∀ e ∈ ids, e.length = event.jobId.length := fun e he => hlen e he _ hid
  have hwhole : FoundWhole event.jobId (remaining ids events) :=
    foundWhole_of_length_eq fun e he => hlen' e (mem_of_mem_filter he)
  exact ⟨_, segHandleEvent_of_foundWhole hinv.list (hcomma _ hid) hwhole hfuel,
    hinv.step hnodup hlen' hes.mem_remaining, hinv.not_back hnodup hlen' hes.mem_remaining⟩

theorem segRun_inv (hnodup : ids.Nodup) (hlen : ∀ e ∈ ids, ∀ f ∈ ids, e.length = f.length)
    (hcomma : ∀ e ∈ ids, ',' ∉ e) (hlist : request.jobIdString = subjobList ids)
    (hexpected : request.expectedTerminalState = .done) (hexitCode : request.exitCode = 0)
    (hstatus : request.status.waiting) (hfuel : 0 < fuel) (events : List SchedulerEvent) :
    ∀ rest, EventsOf ids (events ++ rest) →
      ∃ r, segRun fuel request events = some r ∧ SegInv ids request.rsl events r := by
  -- the last event is the one to look at
  induction events using List.reverseRecOn with
  | nil =>
    refine fun rest _ => ⟨request, rfl, ?_⟩
    exact ⟨by rw [hlist, remaining_nil], rfl, hexpected, hexitCode, fun _ => hstatus,
      fun hids hempty => absurd (remaining_nil ids ▸ hempty) hids⟩
  | append_singleton events event ih =>
    intro rest hes
    rw [append_assoc, singleton_append] at hes
    obtain ⟨r, hrun, hinv⟩ := ih _ hes
    obtain ⟨r', hr', hinv', -⟩ := hinv.handle hnodup hlen hcomma hes hfuel
    refine ⟨r', ?_, hinv'⟩
    rw [segRun_concat, hrun]
    exact hr'

/-- A job of several sub-jobs ends with the last of them, whatever the order of the events. -/
theorem segRun_ends_once (hnodup : ids.Nodup) (hlen : ∀ e ∈ ids, ∀ f ∈ ids, e.length = f.length)
    (hcomma : ∀ e ∈ ids, ',' ∉ e) (hlist : request.jobIdString = subjobList ids)
    (hexpected : request.expectedTerminalState = .done) (hexitCode : request.exitCode = 0)
    (hstatus : request.status.waiting) (hes : EventsOf ids all) (hfuel : 0 < fuel)
    {events rest : List SchedulerEvent} (hall : events ++ rest = all) :
    ∃ r, segRun fuel request events = some r ∧
      (remaining ids events ≠ [] → r.status.waiting) ∧
      (ids ≠ [] → remaining ids events = [] → r.status = endState all request.rsl) ∧
      r.exitCode = firstExitCode events ∧
      ∀ event ∈ rest.head?, ∃ r', segHandleEvent fuel r event = some r' ∧
        (r.status = .active → r'.status ≠ .pending) := by
  subst hall
  obtain ⟨r, hrun, hinv⟩ := segRun_inv hnodup hlen hcomma hlist hexpected hexitCode hstatus hfuel events rest hes
  refine ⟨r, hrun, hinv.waiting, fun hids hended => ?_, hinv.exitCode, fun event hevent => ?_⟩
  · rw [hinv.ended hids hended, endState, endState, hes.any_failed hended]
  · cases rest with
    | nil => cases hevent
    | cons e rest =>
      cases hevent
      obtain ⟨r', hr', -, hback⟩ := hinv.handle hnodup hlen hcomma hes hfuel
      exact ⟨r', hr', hback⟩

end Run

/-- Two sub-jobs; the second one is done first, with an exit code. -/
theorem segRun_ends_once_two : ∃ r,
    segRun 1 (submitted "12,34") [⟨.active, ['1', '2'], 1, 0, 0⟩, ⟨.done, ['3', '4'], 2, 7, 0⟩, ⟨.done, ['1', '2'], 3, 0, 0⟩] =
      some r ∧ r.status = .done ∧ r.exitCode = 7 := by
  have hes : EventsOf [['1', '2'], ['3', '4']]
      [⟨.active, ['1', '2'], 1, 0, 0⟩, ⟨.done, ['3', '4'], 2, 7, 0⟩, ⟨.done, ['1', '2'], 3, 0, 0⟩] :=
    ⟨by decide, by decide, by decide⟩
  have hlist : (submitted "12,34").jobIdString = subjobList [['1', '2'], ['3', '4']] := rfl
  obtain ⟨r, hrun, -, hended, hcode, -⟩ := segRun_ends_once (by decide) (by decide) (by decide) hlist rfl rfl
    (by decide) hes one_pos (append_nil _)
  exact ⟨r, hrun, hended (by decide) (by decide), hcode⟩

end Globus
