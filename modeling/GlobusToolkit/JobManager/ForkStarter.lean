/-
The fork starter (gram/jobmanager/lrms/fork/source/starter/fork_starter.c). It reads lines that describe tasks from
its standard input and starts the tasks. A read puts its bytes behind those that the buffer of the current task
holds already; a newline ends the task, and what follows it goes into the buffer of a new one.

The values of a task point into its buffer, which the parser edits in place, so that the bytes it leaves there are
part of its result.
-/
import GlobusToolkit.Lib.CString
import GlobusToolkit.Lib.Loop

namespace Globus.Fork

open Lib List Option

/-! ## Tasks -/

/-- `GLOBUS_FORK_TASK_BUF_SIZE`. -/
def taskBufSize : Nat := 512

/-- A pointer that may be left over after its block was freed. -/
inductive Ptr (α : Type) where
  | null
  | freed
  | block (value : α)
  deriving DecidableEq, Repr

/-- What a line says about a task. The counts include the null pointer at the end of the array. -/
structure TaskAttrs where
  tag : Option (List Char)
  count : Int
  directory : Option (List Char)
  environment : Ptr (List (List Char))
  environmentCount : Nat
  executable : Option (List Char)
  arguments : Ptr (List (List Char))
  argumentCount : Nat
  stdinPath : Option (List Char)
  stdoutPath : Option (List (List Char))
  stdoutCount : Nat
  stderrPath : Option (List (List Char))
  stderrCount : Nat
  deriving DecidableEq, Repr

/-- The fields of a new task. -/
def TaskAttrs.empty : TaskAttrs where
  tag := none
  count := 0
  directory := none
  environment := .null
  environmentCount := 0
  executable := none
  arguments := .null
  argumentCount := 0
  stdinPath := none
  stdoutPath := none
  stdoutCount := 0
  stderrPath := none
  stderrCount := 0

/-- `globus_l_fork_task_t`. The first `tasklen` bytes of `task` were read; the ones behind are left over. -/
structure ForkTask where
  task : List Char
  tasklen : Nat
  taskbuflen : Nat
  attrs : TaskAttrs
  deriving DecidableEq, Repr

/-- `globus_l_fork_task_init`, with the bytes that are copied into the buffer. -/
def taskInit (residual : List Char) : ForkTask where
  task := residual
  tasklen := residual.length
  taskbuflen := taskBufSize
  attrs := .empty

/-- `globus_l_fork_task_increase_buffer`. -/
def ForkTask.increaseBuffer (task : ForkTask) : ForkTask :=
  { task with taskbuflen := task.taskbuflen + taskBufSize }

/-! ## Parsing a line -/

/-- The parts of a text between the `sep` that no backslash precedes. A backslash at the end leads the scan past the
terminator. -/
def splitEscaped (sep : Char) : List Char → Option (List (List Char))
  | [] => some [[]]
  | ['\\'] => none
  | '\\' :: c :: s => (splitEscaped sep s).map fun parts => ('\\' :: c :: parts.headD []) :: parts.tail
  | c :: s =>
    if c = sep then (splitEscaped sep s).map ([] :: ·)
    else (splitEscaped sep s).map fun parts => (c :: parts.headD []) :: parts.tail

/-- The text in front of the first `sep` that no backslash precedes, and the text behind it. -/
def cutEscaped (sep : Char) : List Char → Option (List Char × List Char)
  | [] => none
  | '\\' :: c :: s => (cutEscaped sep s).map fun r => ('\\' :: c :: r.1, r.2)
  | c :: s => if c = sep then some ([], s) else (cutEscaped sep s).map fun r => (c :: r.1, r.2)

/-- The characters that may follow a backslash. -/
def escapable (c : Char) : Bool := c = '\\' || c = ';' || c = ',' || c = 'n' || c = '='

/-- The loop of `globus_l_fork_unescape`: `n` is the number of characters still to look at. It counts a backslash in
front of another character too, but moves nothing. -/
def unescapeLoop : Nat → List Char → List Char
  | 0, rest => rest
  | n + 1, '\\' :: c :: rest =>
    if escapable c then
      -- the characters up to the terminator move down by one
      (if c = 'n' then '\n' else c) :: unescapeLoop (n - 1) (rest.take n ++ ('\\' :: c :: rest).drop (n + 1))
    else '\\' :: unescapeLoop (n - 1) (c :: rest)
  | n + 1, c :: rest => c :: unescapeLoop n rest
  | _ + 1, [] => []

/-- `globus_l_fork_unescape`: the bytes of the string and its terminator afterwards. -/
def unescape (value : List Char) : List Char := unescapeLoop value.length (value ++ ['\x00'])

/-- The bytes of a value, without its terminator. -/
def unescapeBytes (value : List Char) : List Char := (unescape value).dropLast

/-- `globus_l_fork_split_string` and the unescaping of the parts: the strings and the bytes. -/
def splitString (unescaped : Bool) (value : List Char) : List (List Char) × List Char :=
  let parts := (splitEscaped ',' value).getD []
  let bytes := if unescaped then parts.map unescapeBytes else parts
  (bytes.map cstr, ['\x00'].intercalate bytes)

/-- `globus_l_fork_set_attribute`: the fields, and the bytes of the value afterwards. -/
def setAttribute (attrs : TaskAttrs) (attr value : List Char) : Option (TaskAttrs × List Char) :=
  if attr = "directory".toList then some ({ attrs with directory := some value }, value)
  else if attr = "environment".toList then
    let (parts, bytes) := splitString false value
    some ({ attrs with environment := .block parts, environmentCount := parts.length + 1 }, bytes)
  else if attr = "count".toList then
    some ({ attrs with count := atoi (cstr (unescapeBytes value)) }, unescapeBytes value)
  else if attr = "executable".toList then
    some ({ attrs with executable := some (cstr (unescapeBytes value)) }, unescapeBytes value)
  else if attr = "arguments".toList then
    let (parts, bytes) := splitString true value
    some ({ attrs with arguments := .block parts, argumentCount := parts.length + 1 }, bytes)
  else if attr = "stdin".toList then
    some ({ attrs with stdinPath := some (cstr (unescapeBytes value)) }, unescapeBytes value)
  else if attr = "stdout".toList then
    let (parts, bytes) := splitString true value
    some ({ attrs with stdoutPath := some parts, stdoutCount := parts.length + 1 }, bytes)
  else if attr = "stderr".toList then
    let (parts, bytes) := splitString true value
    some ({ attrs with stderrPath := some parts, stderrCount := parts.length + 1 }, bytes)
  else none

/-- The fields of a task, the bytes of the part of the line that was parsed, and whether it was accepted. -/
structure Parsed where
  attrs : TaskAttrs
  bytes : List Char
  ok : Bool
  deriving DecidableEq, Repr

/-- A field `attr=value`. -/
def parseAttribute (attrs : TaskAttrs) (field : List Char) : Parsed :=
  match cutEscaped '=' field with
  | none => ⟨attrs, field, field = []⟩
  | some (attr, value) =>
    if attr = [] then ⟨attrs, '\x00' :: value, true⟩
    else
      match setAttribute attrs attr value with
      | some (attrs, bytes) => ⟨attrs, attr ++ '\x00' :: bytes, true⟩
      | none => ⟨attrs, attr ++ '\x00' :: value, false⟩

/-- A field that a semicolon ends. -/
def parseField (fieldno : Nat) (attrs : TaskAttrs) (field : List Char) : Parsed :=
  match fieldno with
  | 0 => ⟨attrs, field, field = "100".toList⟩
  | 1 => ⟨{ attrs with tag := some field }, field, true⟩
  | _ => parseAttribute attrs field

/-- The fields of a line from left to right. The last one is an attribute, whatever its number. -/
def parseFields : Nat → TaskAttrs → List (List Char) → Parsed
  | _, attrs, [] => ⟨attrs, [], true⟩
  | _, attrs, [field] => parseAttribute attrs field
  | fieldno, attrs, field :: fields =>
    let p := parseField fieldno attrs field
    if p.ok then
      let q := parseFields (fieldno + 1) p.attrs fields
      ⟨q.attrs, p.bytes ++ '\x00' :: q.bytes, q.ok⟩
    else ⟨p.attrs, p.bytes ++ '\x00' :: [';'].intercalate fields, false⟩

/-- The fields that are set back when a line is not accepted. -/
def TaskAttrs.clear (attrs : TaskAttrs) : TaskAttrs :=
  { attrs with
    tag := none
    directory := none
    environment := if attrs.environment = .null then .null else .freed
    environmentCount := 0
    executable := none
    arguments := if attrs.arguments = .null then .null else .freed
    stdinPath := none
    stdoutPath := none
    stderrPath := none }

/-! ## Starting a task -/

/-- The `GLOBUS_GRAM_PROTOCOL_ERROR_` codes of a start. -/
inductive StartError where
  | mallocFailed
  | badDirectory
  | stdinNotFound
  | openingStdout
  | openingStderr
  | jobExecutionFailed
  deriving DecidableEq, Repr

/-- What the system grants the processes of a task; `execve` stands for the process group and the program. -/
structure Kernel where
  fork : TaskAttrs → Nat → Bool
  chdir : List Char → Bool
  openRead : List Char → Bool
  openAppend : List Char → Bool
  execve : TaskAttrs → Nat → Bool

/-- What the child writes to the pipe. A null path is refused; a null array of paths ends the child without a word. -/
def childError (kernel : Kernel) (attrs : TaskAttrs) (i : Nat) : Option StartError := do
  if !attrs.directory.any kernel.chdir then return .badDirectory
  if !attrs.stdinPath.any kernel.openRead then return .stdinNotFound
  let outs ← attrs.stdoutPath
  if !outs[i]?.any kernel.openAppend then return .openingStdout
  let errs ← attrs.stderrPath
  if !errs[i]?.any kernel.openAppend then return .openingStderr
  if !kernel.execve attrs i then return .jobExecutionFailed
  none

/-- The loop over the processes from `i` on, with `pidcount`. If one fails, those that run are to be killed, but that loop
counts upwards and leaves the array of their ids. -/
def startLoop (kernel : Kernel) (attrs : TaskAttrs) : Nat → Nat → Nat → Option (Option StartError)
  | 0, _, _ => some none
  | left + 1, i, pidcount =>
    if kernel.fork attrs i then
      match childError kernel attrs i with
      | none => startLoop kernel attrs left (i + 1) (pidcount + 1)
      | some rc => if pidcount = 0 then some (some rc) else none
    else startLoop kernel attrs left (i + 1) pidcount

/-- `globus_l_fork_start_task`: its error, if there is one. -/
def startTask (kernel : Kernel) (attrs : TaskAttrs) : Option (Option StartError) :=
  -- `calloc` takes a negative count for one that is too large
  if attrs.count < 0 then some (some .mallocFailed)
  else if attrs.stdoutCount ≠ attrs.count + 1 then some (some .openingStdout)
  else if attrs.stderrCount ≠ attrs.count + 1 ∨ attrs.executable = none then some (some .openingStderr)
  else startLoop kernel attrs attrs.count.toNat 0 0

/-! ## Reading -/

/-- Where `buffer` points to. -/
inductive Place where
  /-- into the buffer of the current task -/
  | own (offset : Nat)
  /-- to these bytes, in the buffer of a task that was started -/
  | started (bytes : List Char)
  /-- into the buffer of a task that could not be started -/
  | freed
  deriving DecidableEq, Repr

/-- The variables of `globus_l_fork_task_read`, and the tasks that were started. -/
structure ReadState where
  task : ForkTask
  buffer : Place
  nbytes : Nat
  started : List TaskAttrs
  deriving DecidableEq, Repr

/-- The result of `memchr(buffer, '\n', nbytes)`. -/
def ReadState.findNewline (s : ReadState) : Option (Option Nat) :=
  match s.buffer with
  | .own offset => some (memchr '\n' ((s.task.task.drop offset).take s.nbytes))
  | .started bytes => some (memchr '\n' (bytes.take s.nbytes))
  | .freed => if s.nbytes = 0 then some none else none

/-- The newline at `p` is replaced by a terminator. -/
def ReadState.terminate (s : ReadState) (p : Nat) : ReadState :=
  match s.buffer with
  | .own offset => { s with task := { s.task with task := s.task.task.set (offset + p) '\x00' } }
  | .started bytes => { s with buffer := .started (bytes.set p '\x00') }
  | .freed => s

/-- `buffer` after the current task was started, or not. -/
def Place.leave (buffer : Place) (mem : List Char) (ok : Bool) : Place :=
  match buffer with
  | .own offset => if ok then .started (mem.drop offset) else .freed
  | other => other

/-- `globus_l_fork_parse_task` and the start of the task, for the line in front of the terminator. -/
def ReadState.finishLine (kernel : Kernel) (s : ReadState) : Option ReadState := do
  let text := s.task.task.take s.task.tasklen
  -- `strlen` has to find a terminator in the bytes that were read
  let len ← memchr '\x00' text
  let fields ← splitEscaped ';' (text.take len)
  let parsed := parseFields 0 s.task.attrs fields
  let mem := parsed.bytes ++ s.task.task.drop len
  let residual := text.drop (len + 1)
  if parsed.ok then
    -- the residual has to fit into the new buffer
    if taskBufSize < residual.length then none
    let error ← startTask kernel parsed.attrs
    return {
      task := taskInit residual
      buffer := s.buffer.leave mem error.isNone
      nbytes := residual.length
      started := if error.isNone then s.started ++ [parsed.attrs] else s.started }
  else
    return { s with
      task := { s.task with
        task := residual ++ mem.drop residual.length
        tasklen := residual.length
        attrs := parsed.attrs.clear } }

/-- One time around the loop of `globus_l_fork_task_read`. -/
def readBody (kernel : Kernel) (s : ReadState) : Option (ReadState ⊕ ReadState) := do
  match ← s.findNewline with
  | none => return .inr s
  | some p =>
    let s ← (s.terminate p).finishLine kernel
    return .inl s

/-- A read: its bytes, and whether the end of the input was met. -/
structure Read where
  bytes : List Char
  eof : Bool
  deriving DecidableEq, Repr

/-- The task that waits for more bytes, whether another read was registered for it, and the tasks that were started. -/
structure ReadResult where
  task : ForkTask
  registered : Bool
  started : List TaskAttrs
  deriving DecidableEq, Repr

/-- The bytes of a read behind the ones of the task. -/
def ForkTask.receive (task : ForkTask) (bytes : List Char) : ForkTask :=
  { task with
    task := task.task.take task.tasklen ++ bytes ++ task.task.drop (task.tasklen + bytes.length)
    tasklen := task.tasklen + bytes.length }

/-- `globus_l_fork_task_read`. -/
def taskRead (kernel : Kernel) (fuel : Nat) (task : ForkTask) (read : Read) : Option ReadResult := do
  let s ← loop (readBody kernel) fuel
    ⟨task.receive read.bytes, .own task.tasklen, read.bytes.length, []⟩
  if read.eof then return ⟨s.task, false, s.started⟩
  let task := if s.task.tasklen = s.task.taskbuflen then s.task.increaseBuffer else s.task
  return ⟨task, task.tasklen ≠ task.taskbuflen, s.started⟩

/-- The reads of the starter, one after the other. -/
def readAll (kernel : Kernel) (fuel : Nat) (task : ForkTask) : List Read → Option ReadResult
  | [] => some ⟨task, true, []⟩
  | read :: reads => do
    let r ← taskRead kernel fuel task read
    if r.registered then
      let r' ← readAll kernel fuel r.task reads
      return { r' with started := r.started ++ r'.started }
    else return r

/-! ## What the parser leaves in the buffer -/

/-- Some backslash and `n` stand for a newline; `escaped` says whether a backslash comes just before the text. -/
def newlineEscape (escaped : Bool) : List Char → Bool
  | [] => false
  | c :: s => if escaped then c = 'n' || newlineEscape false s else newlineEscape (c = '\\') s

open ReadState

theorem newlineEscape_of_append {t : List Char} : ∀ {s : List Char} {escaped : Bool},
    newlineEscape escaped (s ++ t) = false → newlineEscape escaped s = false
  | [], _, _ => rfl
  | c :: s, true, h => by
    simp only [cons_append, newlineEscape, if_true, Bool.or_eq_false_iff] at h ⊢
    exact ⟨h.1, newlineEscape_of_append h.2⟩
  | c :: s, false, h => by
    simp only [cons_append, newlineEscape, Bool.false_eq_true, if_false] at h ⊢
    exact newlineEscape_of_append h

variable {s : List Char}

theorem newlineEscape_take {escaped : Bool} (h : newlineEscape escaped s = false) (n : Nat) :
    newlineEscape escaped (s.take n) = false :=
  newlineEscape_of_append (t := s.drop n) (by rwa [take_append_drop])

/-- The scan of the unescaping sees no more than the first `n` characters and the one behind them. -/
theorem not_mem_unescapeLoop (n : Nat) (s : List Char) (hs : '\n' ∉ s)
    (hesc : newlineEscape false (s.take (n + 1)) = false) : '\n' ∉ unescapeLoop n s := by
  fun_induction unescapeLoop n s with
  | case1 s => exact hs
  | case2 n c rest hc ih =>
    have hn : c ≠ 'n' ∧ newlineEscape false (rest.take n) = false := by
      simpa [newlineEscape] using hesc
    simp only [mem_cons, not_or] at hs
    rw [if_neg hn.1, mem_cons, not_or]
    refine ⟨hs.2.1, ih ?_ ?_⟩
    · rw [mem_append, not_or]
      exact ⟨fun h => hs.2.2 (mem_of_mem_take h), fun h => absurd (mem_of_mem_drop h) (by simp [hs])⟩
    · cases n with
      | zero => simp [newlineEscape]
      | succ n =>
        -- what is moved down ends where the scan ends
        have htake : (rest.take (n + 1) ++ ('\\' :: c :: rest).drop (n + 1 + 1)).take (n + 1) = rest.take (n + 1) := by
          rw [drop_succ_cons, drop_succ_cons, take_append, take_take, min_self,
            length_take, append_right_eq_self]
          rcases Nat.lt_or_ge rest.length (n + 1) with hlt | hge
          · rw [drop_eq_nil_of_le (by omega), take_nil]
          · rw [min_eq_left hge, Nat.sub_self, take_zero]
        rw [Nat.add_sub_cancel, htake]
        exact hn.2
  | case3 n c rest hc ih =>
    have hn : c ≠ 'n' ∧ newlineEscape false (rest.take n) = false := by
      simpa [newlineEscape] using hesc
    have hback : c ≠ '\\' := fun h => hc (by simp [escapable, h])
    rw [mem_cons, not_or] at hs ⊢
    refine ⟨hs.1, ih hs.2 ?_⟩
    have hrest := newlineEscape_take hn.2 (n - 1)
    rw [take_take, min_eq_left (Nat.sub_le n 1)] at hrest
    rw [take_succ_cons, newlineEscape]
    simpa [hback] using hrest
  | case4 n c rest hne ih =>
    rw [mem_cons, not_or] at hs ⊢
    refine ⟨hs.1, ih hs.2 ?_⟩
    by_cases hback : c = '\\'
    · cases rest with
      | nil => simp [newlineEscape]
      | cons d rest => exact (hne d rest hback rfl).elim
    · simpa [newlineEscape, hback] using hesc
  | case5 n => simp

/-- Text that holds no newline, and does not after unescaping. -/
structure Quiet (s : List Char) : Prop where
  newline : '\n' ∉ s
  escape : newlineEscape false s = false

theorem Quiet.nil : Quiet [] := ⟨by simp, rfl⟩

theorem quiet_cons {c : Char} (hc : c ≠ '\\') : Quiet (c :: s) ↔ c ≠ '\n' ∧ Quiet s := by
  constructor
  · rintro ⟨h1, h2⟩
    rw [mem_cons, not_or] at h1
    exact ⟨Ne.symm h1.1, h1.2, by simpa [newlineEscape, hc] using h2⟩
  · rintro ⟨h, h1, h2⟩
    exact ⟨by simp [h.symm, h1], by simpa [newlineEscape, hc] using h2⟩

theorem Quiet.tail {c : Char} (hne : ∀ d s', c = '\\' → s = d :: s' → False) (h : Quiet (c :: s)) :
    Quiet s := by
  by_cases hc : c = '\\'
  · cases s with
    | nil => exact .nil
    | cons d s => exact (hne d s hc rfl).elim
  · exact ((quiet_cons hc).1 h).2

theorem quiet_escape {c : Char} :
    Quiet ('\\' :: c :: s) ↔ (c ≠ '\n' ∧ c ≠ 'n') ∧ Quiet s := by
  constructor
  · rintro ⟨h1, h2⟩
    simp only [mem_cons, not_or] at h1
    have hesc : c ≠ 'n' ∧ newlineEscape false s = false := by simpa [newlineEscape] using h2
    exact ⟨⟨Ne.symm h1.2.1, hesc.1⟩, h1.2.2, hesc.2⟩
  · rintro ⟨⟨h, hn⟩, h1, h2⟩
    exact ⟨by simp [h.symm, h1], by simpa [newlineEscape, hn] using h2⟩

variable {parts : List (List Char)}

theorem quiet_parts {front : List Char → List Char} (hparts : ∀ part ∈ parts, Quiet part)
    (hfront : ∀ part, Quiet part → Quiet (front part)) : ∀ part ∈ front (parts.headD []) :: parts.tail, Quiet part := by
  intro part hpart
  cases parts with
  | nil =>
    obtain rfl : part = front [] := by simpa using hpart
    exact hfront _ .nil
  | cons first parts =>
    rcases mem_cons.1 hpart with rfl | hpart
    · exact hfront _ (hparts _ (by simp))
    · exact hparts _ (by simp_all)

theorem Quiet.splitEscaped {sep : Char}
    (h : Fork.splitEscaped sep s = some parts) (hs : Quiet s) : ∀ part ∈ parts, Quiet part := by
  fun_induction Fork.splitEscaped sep s generalizing parts with
  | case1 =>
    cases h
    simpa using Quiet.nil
  | case2 => cases h
  | case3 c s ih =>
    obtain ⟨parts, hparts, rfl⟩ := map_eq_some_iff.1 h
    obtain ⟨hc, hs⟩ := quiet_escape.1 hs
    exact quiet_parts (ih hparts hs) fun part hpart => quiet_escape.2 ⟨hc, hpart⟩
  | case4 s hne hne' ih =>
    obtain ⟨parts, hparts, rfl⟩ := map_eq_some_iff.1 h
    intro part hpart
    rcases mem_cons.1 hpart with rfl | hpart
    · exact .nil
    · exact ih hparts (hs.tail hne') part hpart
  | case5 c s hne hne' hsep ih =>
    obtain ⟨parts, hparts, rfl⟩ := map_eq_some_iff.1 h
    have hback : c ≠ '\\' := fun hc => by cases s with
      | nil => exact hne hc rfl
      | cons d s => exact hne' d s hc rfl
    obtain ⟨hc, hs⟩ := (quiet_cons hback).1 hs
    exact quiet_parts (ih hparts hs) fun part hpart => (quiet_cons hback).2 ⟨hc, hpart⟩

theorem Quiet.cutEscaped {sep : Char} {r : List Char × List Char}
    (h : Fork.cutEscaped sep s = some r) (hs : Quiet s) : Quiet r.1 ∧ Quiet r.2 := by
  fun_induction Fork.cutEscaped sep s generalizing r with
  | case1 => cases h
  | case2 c s ih =>
    obtain ⟨r, hr, rfl⟩ := map_eq_some_iff.1 h
    obtain ⟨hc, hs⟩ := quiet_escape.1 hs
    exact ⟨quiet_escape.2 ⟨hc, (ih hr hs).1⟩, (ih hr hs).2⟩
  | case3 s hne =>
    cases h
    exact ⟨.nil, hs.tail hne⟩
  | case4 c s hne hsep ih =>
    obtain ⟨r, hr, rfl⟩ := map_eq_some_iff.1 h
    have hback : c ≠ '\\' := fun hc => by cases s with
      | nil => cases hr
      | cons d s => exact hne d s hc rfl
    obtain ⟨hc, hs⟩ := (quiet_cons hback).1 hs
    exact ⟨(quiet_cons hback).2 ⟨hc, (ih hr hs).1⟩, (ih hr hs).2⟩

theorem newlineEscape_terminated : ∀ (s : List Char) (escaped : Bool),
    newlineEscape escaped (s ++ ['\x00']) = newlineEscape escaped s
  | [], escaped => by cases escaped <;> rfl
  | c :: s, escaped => by
    rw [cons_append, newlineEscape, newlineEscape, newlineEscape_terminated s, newlineEscape_terminated s]

theorem Quiet.unescapeBytes {value : List Char} (h : Quiet value) : '\n' ∉ Fork.unescapeBytes value := by
  have hloop := not_mem_unescapeLoop value.length (value ++ ['\x00']) (by simp [h.newline])
    (by rw [take_of_length_le (by simp), newlineEscape_terminated, h.escape])
  exact fun hmem => hloop (mem_of_mem_dropLast hmem)

theorem not_mem_intercalate {sep c : Char} (hsep : c ≠ sep)
    (h : ∀ part ∈ parts, c ∉ part) : c ∉ [sep].intercalate parts := by
  cases parts with
  | nil => simp
  | cons part parts =>
    rw [intercalate_cons]
    simp_all

theorem Quiet.splitString {value : List Char} (h : Quiet value) (unescaped : Bool) :
    '\n' ∉ (Fork.splitString unescaped value).2 := by
  refine not_mem_intercalate (by decide) ?_
  have hparts : ∀ part ∈ (Fork.splitEscaped ',' value).getD [], Quiet part := by
    cases hsplit : Fork.splitEscaped ',' value with
    | none => simp
    | some parts => exact Quiet.splitEscaped hsplit h
  cases unescaped with
  | false => exact fun part hpart => (hparts part hpart).newline
  | true =>
    intro part hpart
    obtain ⟨part, hmem, rfl⟩ := mem_map.1 hpart
    exact (hparts part hmem).unescapeBytes

variable {attrs : TaskAttrs}

theorem Quiet.setAttribute {attr value : List Char} {r : TaskAttrs × List Char}
    (h : Fork.setAttribute attrs attr value = some r) (hvalue : Quiet value) : '\n' ∉ r.2 := by
  unfold Fork.setAttribute at h
  split_ifs at h <;> cases h
  all_goals first
    | exact hvalue.newline
    | exact hvalue.splitString _
    | exact hvalue.unescapeBytes

theorem Quiet.parseAttribute {field : List Char} (h : Quiet field) :
    '\n' ∉ (Fork.parseAttribute attrs field).bytes := by
  unfold Fork.parseAttribute
  split
  · exact h.newline
  · next attr value hcut =>
    obtain ⟨hattr, hvalue⟩ := Quiet.cutEscaped hcut h
    split
    · simpa using hvalue.newline
    · split
      · next hset => simpa [hattr.newline] using Quiet.setAttribute hset hvalue
      · simpa [hattr.newline] using hvalue.newline

theorem Quiet.parseField {fieldno : Nat} {field : List Char} (h : Quiet field) :
    '\n' ∉ (Fork.parseField fieldno attrs field).bytes := by
  unfold Fork.parseField
  split
  · exact h.newline
  · exact h.newline
  · exact h.parseAttribute

/-- The bytes of a line that was accepted hold a newline only if an escape stands for it. -/
theorem Quiet.parseFields {fieldno : Nat} {fields : List (List Char)} (h : ∀ field ∈ fields, Quiet field)
    (hok : (Fork.parseFields fieldno attrs fields).ok) : '\n' ∉ (Fork.parseFields fieldno attrs fields).bytes := by
  fun_induction Fork.parseFields fieldno attrs fields with
  | case1 => simp
  | case2 _ _ field => exact (h field (by simp)).parseAttribute
  | case3 fieldno attrs field fields _ p _ q ih =>
    have hfield : '\n' ∉ p.bytes := (h field (by simp)).parseField
    have hrest := ih (forall_mem_cons.1 h).2 hok
    simpa [hfield] using hrest
  | case4 => cases hok

/-! ## All reads -/

/-- `globus_l_fork_parse_task` on the text of a line. -/
def parseLine (line : List Char) : Option Parsed := (splitEscaped ';' line).map (parseFields 0 .empty)

/-- A line that the parser accepts. -/
structure WellFormed (line : List Char) : Prop where
  newline : '\n' ∉ line
  terminator : '\x00' ∉ line
  accepted : (parseLine line).any (·.ok)

/-- The task that a line describes. -/
def taskOf (line : List Char) : TaskAttrs := ((parseLine line).map (·.attrs)).getD .empty

/-- The places where the reads end: no read brings a newline behind another one, and where a read goes on behind a
newline, the line does not have an escape for one. `pending` was read before. -/
def CutsOk (pending : List Char) : List (List Char) → Prop
  | [] => True
  | bytes :: reads =>
    if '\n' ∈ bytes then
      '\n' ∉ (bytes.dropWhile (· ≠ '\n')).tail ∧
      ((bytes.dropWhile (· ≠ '\n')).tail = [] ∨ newlineEscape false (pending ++ bytes.takeWhile (· ≠ '\n')) = false) ∧
      CutsOk (bytes.dropWhile (· ≠ '\n')).tail reads
    else CutsOk (pending ++ bytes) reads

section Run

variable {kernel : Kernel} {fuel : Nat} {pending : List Char} {task : ForkTask}

/-- Every read fits into the room that was registered for it. -/
def offered (kernel : Kernel) (fuel : Nat) (task : ForkTask) : List Read → Bool
  | [] => true
  | read :: reads =>
    read.bytes.length ≤ task.taskbuflen - task.tasklen &&
    (taskRead kernel fuel task read).all fun r => offered kernel fuel r.task reads

/-- A task that has read `pending` and waits for more. -/
structure Holding (pending : List Char) (task : ForkTask) : Prop where
  task_eq : task.task = pending
  tasklen : task.tasklen = pending.length
  attrs : task.attrs = .empty
  room : task.tasklen < task.taskbuflen
  bound : task.taskbuflen ≤ task.tasklen + taskBufSize

theorem holding_taskInit {residual : List Char} (h : residual.length < taskBufSize) : Holding residual (taskInit residual) :=
  ⟨rfl, rfl, rfl, h, by simp [taskInit]⟩

/-- The tasks of `lines` were started by a read, and `text` waits for more. -/
structure After (lines : List (List Char)) (text : List Char) (eof : Bool) (r : ReadResult) : Prop where
  started : r.started = lines.map taskOf
  text_eq : r.task.task.take r.task.tasklen = text
  more : eof = false → r.registered ∧ Holding text r.task

variable {text : List Char} {lines : List (List Char)}

theorem taskRead_of_loop {read : Read} {s : ReadState}
    (hloop : loop (readBody kernel) fuel ⟨task.receive read.bytes, .own task.tasklen, read.bytes.length, []⟩ = some s)
    (hstarted : s.started = lines.map taskOf) (htask : s.task.task = text) (hlen : s.task.tasklen = text.length)
    (hattrs : s.task.attrs = .empty) (hfit : s.task.tasklen ≤ s.task.taskbuflen)
    (hbound : s.task.taskbuflen ≤ s.task.tasklen + taskBufSize) :
    ∃ r, taskRead kernel fuel task read = some r ∧ After lines text read.eof r := by
  have htext : s.task.task.take s.task.tasklen = text := by rw [htask, hlen, take_length]
  unfold taskRead
  rw [hloop]
  dsimp only [Option.bind_eq_bind, Option.bind_some, Option.pure_def]
  split
  · next heof => exact ⟨_, rfl, hstarted, htext, fun h => by rw [heof] at h; cases h⟩
  · split
    · next hfull =>
      have hroom : s.task.increaseBuffer.tasklen < s.task.increaseBuffer.taskbuflen := by
        simp only [ForkTask.increaseBuffer, taskBufSize]
        omega
      refine ⟨_, rfl, hstarted, htext, fun _ => ⟨decide_eq_true hroom.ne, htask, hlen, hattrs, hroom, ?_⟩⟩
      simp only [ForkTask.increaseBuffer]
      omega
    · next hroom =>
      exact ⟨_, rfl, hstarted, htext, fun _ =>
        ⟨decide_eq_true hroom, htask, hlen, hattrs, lt_of_le_of_ne hfit hroom, hbound⟩⟩

theorem Holding.receive (h : Holding pending task) (bytes : List Char) :
    task.receive bytes =
      { task with task := pending ++ bytes, tasklen := pending.length + bytes.length } := by
  unfold ForkTask.receive
  rw [h.task_eq, h.tasklen, take_length, drop_eq_nil_of_le (by omega), append_nil]

theorem taskRead_more (h : Holding pending task) {read : Read} (hbytes : '\n' ∉ read.bytes)
    (hfit : read.bytes.length ≤ task.taskbuflen - task.tasklen) (hfuel : 0 < fuel) :
    ∃ r, taskRead kernel fuel task read = some r ∧ After [] (pending ++ read.bytes) read.eof r := by
  obtain ⟨fuel, rfl⟩ := Nat.exists_eq_succ_of_ne_zero hfuel.ne'
  have hroom := h.room
  have hbound := h.bound
  have hlen := h.tasklen
  have hbody : readBody kernel ⟨task.receive read.bytes, .own task.tasklen, read.bytes.length, []⟩ =
      some (.inr ⟨task.receive read.bytes, .own task.tasklen, read.bytes.length, []⟩) := by
    unfold readBody findNewline
    rw [h.receive, h.tasklen]
    dsimp only
    rw [drop_left, take_length, memchr_eq_none hbytes]
    rfl
  refine taskRead_of_loop (loop_done hbody) rfl ?_ ?_ ?_ ?_ ?_
  · rw [h.receive]
  · rw [h.receive, length_append]
  · exact h.attrs
  · rw [h.receive]
    dsimp only
    omega
  · rw [h.receive]
    dsimp only
    omega

theorem finishLine_line {s : ReadState} {line behind : List Char} {offset : Nat}
    (htask : s.task.task = line ++ '\x00' :: behind) (hlen : s.task.tasklen = (line ++ '\x00' :: behind).length)
    (hattrs : s.task.attrs = .empty) (hbuffer : s.buffer = .own offset) (hline : WellFormed line)
    (hstart : startTask kernel (taskOf line) = some none) (hsmall : behind.length ≤ taskBufSize) :
    ∃ bytes, (Quiet line → '\n' ∉ bytes) ∧ s.finishLine kernel =
      some ⟨taskInit behind, .started ((bytes ++ '\x00' :: behind).drop offset), behind.length,
        s.started ++ [taskOf line]⟩ := by
  obtain ⟨p, hp, hok⟩ := (any_eq_true _ _).1 hline.accepted
  have htaskOf : taskOf line = p.attrs := by
    rw [taskOf, hp]
    rfl
  obtain ⟨fields, hfields, rfl⟩ := map_eq_some_iff.1 hp
  refine ⟨(parseFields 0 .empty fields).bytes,
    fun hquiet => Quiet.parseFields (Quiet.splitEscaped hfields hquiet) hok, ?_⟩
  have hdrop : (line ++ '\x00' :: behind).drop (line.length + 1) = behind := by simp
  rw [htaskOf] at hstart ⊢
  simp only [finishLine, htask, hlen, take_length, memchr_append hline.terminator, take_left,
    hfields, hattrs, hbuffer, bind_eq_bind, bind_some, hok, if_true, hdrop, Place.leave, hstart,
    drop_left, if_neg (Nat.not_lt.2 hsmall)]
  rfl

theorem taskRead_line {before behind : List Char} {eof : Bool} (h : Holding pending task)
    (hline : WellFormed (pending ++ before)) (hstart : startTask kernel (taskOf (pending ++ before)) = some none)
    (hbehind : '\n' ∉ behind) (hquiet : behind = [] ∨ newlineEscape false (pending ++ before) = false)
    (hfit : (before ++ '\n' :: behind).length ≤ task.taskbuflen - task.tasklen) (hfuel : 1 < fuel) :
    ∃ r, taskRead kernel fuel task ⟨before ++ '\n' :: behind, eof⟩ = some r ∧
      After [pending ++ before] behind eof r := by
  obtain ⟨fuel, rfl⟩ := Nat.exists_eq_add_of_le' hfuel
  have hbefore : '\n' ∉ before := fun hmem => hline.newline (by simp [hmem])
  have hsmall : behind.length < taskBufSize := by
    have hbound := h.bound
    rw [length_append, length_cons] at hfit
    omega
  let s₀ : ReadState :=
    ⟨task.receive (before ++ '\n' :: behind), .own task.tasklen, (before ++ '\n' :: behind).length, []⟩
  obtain ⟨bytes, hbytes, hfinish⟩ : ∃ bytes, (Quiet (pending ++ before) → '\n' ∉ bytes) ∧
      (s₀.terminate before.length).finishLine kernel = some ⟨taskInit behind,
        .started ((bytes ++ '\x00' :: behind).drop task.tasklen), behind.length, [taskOf (pending ++ before)]⟩ :=
    finishLine_line (by simp [s₀, terminate, h.receive, h.tasklen])
      (by simp [s₀, terminate, h.receive]) (by simp [s₀, terminate, h.receive, h.attrs]) rfl
      hline hstart hsmall.le
  let s₁ : ReadState := ⟨taskInit behind, .started ((bytes ++ '\x00' :: behind).drop task.tasklen), behind.length,
    [taskOf (pending ++ before)]⟩
  -- the newline is found
  have hfirst : readBody kernel s₀ = some (.inl s₁) := by
    have hfind : s₀.findNewline = some (some before.length) := by
      simp only [s₀, findNewline, h.receive, h.tasklen, drop_left, take_length,
        memchr_append hbefore]
    rw [readBody, hfind]
    simp only [bind_eq_bind, bind_some, hfinish]
    rfl
  -- no other one is, where the search goes on
  have hsecond : readBody kernel s₁ = some (.inr s₁) := by
    have hrest : '\n' ∉ ((bytes ++ '\x00' :: behind).drop task.tasklen).take behind.length := by
      rcases hquiet with rfl | hescape
      · simp
      · intro hmem
        have hmem := mem_of_mem_drop (mem_of_mem_take hmem)
        have hbytes := hbytes ⟨hline.newline, hescape⟩
        simp [hbytes, hbehind] at hmem
    rw [readBody, findNewline]
    dsimp only [s₁]
    rw [memchr_eq_none hrest]
    rfl
  have hloop : loop (readBody kernel) (fuel + 2) s₀ = some s₁ := (loop_next hfirst).trans (loop_done hsecond)
  exact taskRead_of_loop (s := s₁) hloop rfl rfl rfl rfl hsmall.le (Nat.le_add_left taskBufSize behind.length)

theorem eq_cons_of_flatMap {line rest : List Char} (hlines : ∀ l ∈ lines, '\n' ∉ l)
    (hline : '\n' ∉ line) (h : line ++ '\n' :: rest = lines.flatMap (· ++ ['\n'])) :
    ∃ lines', lines = line :: lines' ∧ rest = lines'.flatMap (· ++ ['\n']) := by
  cases lines with
  | nil => simp at h
  | cons l lines =>
    rw [flatMap_cons, append_assoc, singleton_append] at h
    obtain rfl : line = l := by
      rw [← takeWhile_ne_append hline rest, h, takeWhile_ne_append (hlines l (by simp))]
    exact ⟨lines, rfl, (List.cons.inj (append_cancel_left h)).2⟩

theorem eq_nil_of_flatMap (htext : '\n' ∉ text)
    (h : text = lines.flatMap (· ++ ['\n'])) : lines = [] := by
  cases lines with
  | nil => rfl
  | cons l lines => exact absurd (by simp [h]) htext

/-- After the first read, the others: only the last one may meet the end of the input. -/
theorem readAll_cons {read : Read} {reads : List Read} {r : ReadResult} {lines' : List (List Char)}
    (hread : taskRead kernel fuel task read = some r) (hr : After lines text read.eof r) (hnewline : '\n' ∉ text)
    (heof : ∀ read' ∈ (read :: reads).dropLast, read'.eof = false)
    (hstream : text ++ reads.flatMap (·.bytes) = lines'.flatMap (· ++ ['\n']))
    (hrest : Holding text r.task → ∃ r', readAll kernel fuel r.task reads = some r' ∧
      r'.started = lines'.map taskOf ∧ '\n' ∉ r'.task.task.take r'.task.tasklen) :
    ∃ r', readAll kernel fuel task (read :: reads) = some r' ∧ r'.started = (lines ++ lines').map taskOf ∧
      '\n' ∉ r'.task.task.take r'.task.tasklen := by
  rw [readAll, hread]
  simp only [bind_eq_bind, bind_some]
  by_cases hend : read.eof
  · -- this is the last read
    cases reads with
    | cons read' reads => rw [heof read (by simp)] at hend; cases hend
    | nil =>
      rw [flatMap_nil, append_nil] at hstream
      rw [eq_nil_of_flatMap hnewline hstream, append_nil, ← hr.started]
      split
      · exact ⟨_, rfl, append_nil _, hr.text_eq ▸ hnewline⟩
      · exact ⟨_, rfl, rfl, hr.text_eq ▸ hnewline⟩
  · obtain ⟨hregistered, hholding⟩ := hr.more (by simpa using hend)
    obtain ⟨r', hr', hstarted', hnewline'⟩ := hrest hholding
    rw [if_pos hregistered, hr']
    refine ⟨_, rfl, ?_, hnewline'⟩
    rw [map_append, ← hr.started, ← hstarted']

theorem readAll_lines (hfuel : 1 < fuel) {reads : List Read} {pending : List Char} {task : ForkTask}
    (hholding : Holding pending task) (hpending : '\n' ∉ pending)
    (hlines : ∀ l ∈ lines, WellFormed l) (hstart : ∀ l ∈ lines, startTask kernel (taskOf l) = some none)
    (hstream : pending ++ reads.flatMap (·.bytes) = lines.flatMap (· ++ ['\n']))
    (heof : ∀ read ∈ reads.dropLast, read.eof = false) (hoffered : offered kernel fuel task reads)
    (hcuts : CutsOk pending (reads.map (·.bytes))) :
    ∃ r, readAll kernel fuel task reads = some r ∧ r.started = lines.map taskOf ∧
      '\n' ∉ r.task.task.take r.task.tasklen := by
  induction reads generalizing pending task lines with
  | nil =>
    rw [flatMap_nil, append_nil] at hstream
    rw [eq_nil_of_flatMap hpending hstream]
    exact ⟨_, rfl, rfl, fun hmem => hpending (hholding.task_eq ▸ mem_of_mem_take hmem)⟩
  | cons read reads ih =>
    rw [offered, Bool.and_eq_true, decide_eq_true_eq] at hoffered
    obtain ⟨hfit, hnext⟩ := hoffered
    have hnext : ∀ r, taskRead kernel fuel task read = some r → offered kernel fuel r.task reads := fun r hr => by
      rwa [hr] at hnext
    rw [flatMap_cons] at hstream
    rw [map_cons, CutsOk] at hcuts
    have heof' : ∀ read' ∈ reads.dropLast, read'.eof = false := fun read' h =>
      heof read' (by cases reads with
        | nil => cases h
        | cons _ _ => exact mem_cons_of_mem _ h)
    by_cases hnewline : '\n' ∈ read.bytes
    · rw [if_pos hnewline] at hcuts
      obtain ⟨before, behind, hbytes, hbefore⟩ := eq_append_cons_of_mem hnewline
      obtain ⟨bytes, eof⟩ := read
      dsimp only at hbytes hcuts hstream hfit
      subst hbytes
      rw [dropWhile_ne_append hbefore, takeWhile_ne_append hbefore, tail_cons] at hcuts
      obtain ⟨hbehind, hquiet, hcuts⟩ := hcuts
      have hline : '\n' ∉ pending ++ before := by simp [hpending, hbefore]
      rw [← append_assoc, ← append_assoc, append_assoc (pending ++ before), cons_append] at hstream
      obtain ⟨lines, rfl, hrest⟩ := eq_cons_of_flatMap (fun l hl => (hlines l hl).newline) hline hstream
      obtain ⟨r, hread, hr⟩ := taskRead_line hholding (hlines _ (by simp)) (hstart _ (by simp)) hbehind hquiet hfit hfuel
      exact readAll_cons hread hr hbehind heof hrest fun hholding' =>
        ih hholding' hbehind (fun l hl => hlines l (by simp [hl])) (fun l hl => hstart l (by simp [hl])) hrest heof'
          (hnext r hread) hcuts
    · rw [if_neg hnewline] at hcuts
      obtain ⟨r, hread, hr⟩ := taskRead_more hholding hnewline hfit (Nat.zero_lt_of_lt hfuel)
      rw [← append_assoc] at hstream
      have hpending' : '\n' ∉ pending ++ read.bytes := by simp [hpending, hnewline]
      exact readAll_cons hread hr hpending' heof hstream fun hholding' =>
        ih hholding' hpending' hlines hstart hstream heof' (hnext r hread) hcuts

/-- Every line starts one task, in order, if no read brings more than one newline. -/
theorem readAll_starts_every_line {lines : List (List Char)} (hlines : ∀ l ∈ lines, WellFormed l)
    (hstart : ∀ l ∈ lines, startTask kernel (taskOf l) = some none) {reads : List Read}
    (hstream : reads.flatMap (·.bytes) = lines.flatMap (· ++ ['\n']))
    (heof : ∀ read ∈ reads.dropLast, read.eof = false) (hfuel : 1 < fuel)
    (hoffered : offered kernel fuel (taskInit []) reads) (hcuts : CutsOk [] (reads.map (·.bytes))) :
    ∃ r, readAll kernel fuel (taskInit []) reads = some r ∧ r.started = lines.map taskOf ∧
      '\n' ∉ r.task.task.take r.task.tasklen :=
  readAll_lines hfuel (holding_taskInit (by decide)) (by simp) hlines hstart hstream heof hoffered hcuts

end Run

instance (line : List Char) : Decidable (WellFormed line) :=
  decidable_of_iff ('\n' ∉ line ∧ '\x00' ∉ line ∧ (parseLine line).any (·.ok))
    ⟨fun h => ⟨h.1, h.2.1, h.2.2⟩, fun h => ⟨h.newline, h.terminator, h.accepted⟩⟩

/-- A system that grants everything. -/
def Kernel.granting : Kernel := ⟨fun _ _ => true, fun _ => true, fun _ => true, fun _ => true, fun _ _ => true⟩

/-- The line of a task with one process. -/
def oneProcess (tag : String) : List Char :=
  ("100;" ++ tag ++ ";count=1;directory=/;executable=x;stdin=i;stdout=o;stderr=e").toList

/-- Two lines in three reads, the second of which ends the first line and begins the other. -/
theorem readAll_starts_lines_in_pieces :
    ∃ r, readAll .granting 2 (taskInit []) [⟨(oneProcess "1").take 8, false⟩,
        ⟨(oneProcess "1").drop 8 ++ '\n' :: (oneProcess "2").take 8, false⟩, ⟨(oneProcess "2").drop 8 ++ ['\n'], true⟩] =
        some r ∧ r.started = [oneProcess "1", oneProcess "2"].map taskOf ∧ '\n' ∉ r.task.task.take r.task.tasklen :=
  readAll_starts_every_line (by decide) (by decide +kernel) rfl (by decide) (by decide) (by decide +kernel)
    ⟨by decide, .inr (by decide), by decide, .inl rfl, trivial⟩

/-- Two lines in one read: the second one stays in the buffer. -/
theorem readAll_two_lines : WellFormed (oneProcess "1") ∧ WellFormed (oneProcess "2") ∧
    startTask .granting (taskOf (oneProcess "2")) = some none ∧
    (readAll .granting 2 (taskInit []) [⟨oneProcess "1" ++ '\n' :: oneProcess "2" ++ ['\n'], false⟩]).map
      (fun r => (r.started, r.task.task)) = some ([taskOf (oneProcess "1")], oneProcess "2" ++ ['\n']) := by
  decide +kernel

end Globus.Fork
