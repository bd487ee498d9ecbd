/-
`globus_i_gfs_get_full_path` (gridftp/server/src/globus_i_gfs_data.c): the path of a request, as it is or
behind the home or working directory, is written to a buffer of `MAXPATHLEN` characters, normalised and
checked. Neither `strncpy` nor `snprintf` is asked whether the path fitted, so a longer one is cut off,
and what the server works on is the normal form of its beginning.
-/
import GlobusToolkit.Path.CheckPath

namespace Globus

open Lib List

/-! ## The function -/

/-- A home directory without its trailing slash. -/
def trimHome (dir : List Char) : List Char :=
  if dir.length > 1 ∧ dir.getLast? = some '/' then dir.dropLast else dir

/-- A working directory without its trailing slash. -/
def trimCwd (dir : List Char) : List Char := if dir.getLast? = some '/' then dir.dropLast else dir

/-- What is printed to the buffer. -/
def fullPathText (host : Host) (homeDir serverCwd : Option (List Char)) :
    Option (List Char) → Except GfsError (List Char)
  | none => .error (.generic "invalid pathname")
  | some ('/' :: rest) => .ok ('/' :: rest)
  | some ('~' :: rest) =>
    match homeDir with
    | none => .error (.generic "No home directory, cannot expand ~")
    | some home =>
      match rest with
      | '/' :: inPath => .ok (trimHome home ++ '/' :: inPath)
      | [] => .ok (trimHome home)
      | _ =>
        match host.getpwnam (rest.takeWhile (· ≠ '/')) with
        | none => .error (.generic "Cannot expand ~")
        | some dir => .ok (trimHome dir ++ '/' :: (strchr '/' rest).getD [])
  | some inPath =>
    match serverCwd with
    | none => .error (.generic "invalid cwd")
    | some cwd => .ok (trimCwd cwd ++ '/' :: inPath)

/-- `globus_i_gfs_get_full_path`. -/
def gfsGetFullPath (host : Host) (session : GfsSession) (homeDir serverCwd inPath : Option (List Char))
    (access : Access) : Except GfsError (List Char) := do
  let text ← fullPathText host homeDir serverCwd inPath
  let normPath ← gfsNormalizePath (text.take (maxPathLen - 1))
  let retPath ← gfsCheckPath host session normPath access true
  return retPath.getD normPath

/-! ## The path that is asked for -/

/-- The path of a request. -/
def completePath (home cwd inPath : List Char) : List Char :=
  match inPath with
  | '/' :: _ => inPath
  | '~' :: rest => home ++ rest
  | _ => cwd ++ '/' :: inPath

/-- The path of a request as it is printed, with the directories trimmed. -/
def printedPath (home cwd inPath : List Char) : List Char :=
  match inPath with
  | '/' :: _ => inPath
  | '~' :: rest => trimHome home ++ rest
  | _ => trimCwd cwd ++ '/' :: inPath

/-- The request names the home directory of a user. -/
def NamesUser (inPath : List Char) : Prop := ∃ c rest, c ≠ '/' ∧ inPath = '~' :: c :: rest

/-- The function fails or returns the normal form of the complete path. -/
def Complete (host : Host) (session : GfsSession) (home cwd inPath : List Char) (access : Access) : Prop :=
  (∃ e, gfsGetFullPath host session (some home) (some cwd) (some inPath) access = .error e) ∨
    gfsGetFullPath host session (some home) (some cwd) (some inPath) access =
      .ok (normalPath (completePath home cwd inPath))

theorem components_dropLast {dir : List Char} (h : dir.getLast? = some '/') :
    components '/' dir.dropLast = components '/' dir := by
  obtain ⟨u, rfl⟩ := getLast?_eq_some_iff.1 h
  rw [dropLast_concat, components_append_sep]
  simp [components]

theorem components_trimHome_append (home rest : List Char) (hrest : rest.head? ∈ [none, some '/']) :
    components '/' (trimHome home ++ rest) = components '/' (home ++ rest) := by
  have htrim : components '/' (trimHome home) = components '/' home := by
    unfold trimHome
    split_ifs with h
    · exact components_dropLast h.2
    · rfl
  cases rest with
  | nil => simpa using htrim
  | cons c rest =>
    obtain rfl : c = '/' := by simpa using hrest
    rw [components_append_sep, components_append_sep, htrim]

theorem components_trimCwd (cwd : List Char) : components '/' (trimCwd cwd) = components '/' cwd := by
  unfold trimCwd
  split_ifs with h
  · exact components_dropLast h
  · rfl

section Request

variable {home cwd inPath : List Char}

theorem head?_rest {rest : List Char} (huser : ¬ NamesUser ('~' :: rest)) : rest.head? ∈ [none, some '/'] := by
  cases rest with
  | nil => simp
  | cons c rest =>
    by_cases hc : c = '/'
    · simp [hc]
    · exact absurd ⟨c, rest, hc, rfl⟩ huser

theorem names_printedPath (huser : ¬ NamesUser inPath) :
    names (printedPath home cwd inPath) = names (completePath home cwd inPath) := by
  unfold names printedPath completePath
  split
  · rfl
  · rw [components_trimHome_append home _ (head?_rest huser)]
  · rw [components_append_sep, components_append_sep, components_trimCwd]

theorem fullPathText_eq (host : Host) (huser : ¬ NamesUser inPath) :
    fullPathText host (some home) (some cwd) (some inPath) = .ok (printedPath home cwd inPath) := by
  unfold printedPath
  split
  · rfl
  · next rest =>
    have hrest := head?_rest huser
    cases rest with
    | nil => simp [fullPathText]
    | cons c rest =>
      obtain rfl : c = '/' := by simpa using hrest
      rfl
  · next hslash htilde =>
    unfold fullPathText
    split
    · next h => cases h
    · next h => cases h; exact absurd rfl (hslash _)
    · next h => cases h; exact absurd rfl (htilde _)
    · next h => cases h; rfl

theorem head?_trimHome (hhome : home.head? = some '/') : (trimHome home).head? = some '/' := by
  unfold trimHome
  split_ifs with h
  · obtain ⟨c, d, rest, rfl⟩ : ∃ c d rest, home = c :: d :: rest := by
      match home, h.1 with
      | c :: d :: rest, _ => exact ⟨c, d, rest, rfl⟩
    simpa using hhome
  · exact hhome

theorem printedPath_eq_cons (inPath : List Char) (hhome : home.head? = some '/') (hcwd : cwd.head? = some '/') :
    ∃ r, printedPath home cwd inPath = '/' :: r := by
  unfold printedPath
  split
  · exact ⟨_, rfl⟩
  · next rest =>
    obtain ⟨r, hr⟩ : ∃ r, trimHome home = '/' :: r := ⟨_, eq_cons_of_mem_head? (head?_trimHome hhome)⟩
    exact ⟨r ++ rest, by rw [hr]; rfl⟩
  · cases cwd with
    | nil => cases hcwd
    | cons c r =>
      obtain rfl : c = '/' := by simpa using hcwd
      unfold trimCwd
      split_ifs with h
      · cases r with
        | nil => exact ⟨_, rfl⟩
        | cons d r => exact ⟨_, rfl⟩
      · exact ⟨_, rfl⟩

/-- The function on a session that restricts nothing: it normalises what fits into the buffer. -/
theorem gfsGetFullPath_eq (host : Host) (session : GfsSession) (home cwd inPath : List Char) (access : Access)
    (hhome : home.head? = some '/') (hcwd : cwd.head? = some '/') (huser : ¬ NamesUser inPath)
    (hactive : session.activeRpList = []) (hrp : session.rpList = []) (hchroot : session.chrootPath = none) :
    gfsGetFullPath host session (some home) (some cwd) (some inPath) access =
      .ok (normalPath ((printedPath home cwd inPath).take (maxPathLen - 1))) := by
  obtain ⟨r, hr⟩ := printedPath_eq_cons inPath hhome hcwd
  have hnorm : gfsNormalizePath (('/' :: r).take (maxPathLen - 1)) =
      .ok (normalPath (('/' :: r).take (maxPathLen - 1))) := gfsNormalizePath_eq _
  have hcheck := fun path => gfsCheckPath_unrestricted host session path access true hactive hrp
  unfold gfsGetFullPath
  rw [fullPathText_eq host huser, hr]
  simp only [bind, Except.bind, hnorm, hcheck, hchroot]
  rfl

end Request

/-! ## Truncation -/

/-- The component in which the buffer ends, as far as it is in the buffer. -/
def cutName (path : List Char) : List Char := afterLast '/' (path.take (maxPathLen - 1))

/-- The directory which that component is in. -/
def cutDir (path : List Char) : List (List Char) := names (beforeLast '/' (path.take (maxPathLen - 1)))

/-- The characters behind the buffer. -/
def cutOff (path : List Char) : List Char := path.drop (maxPathLen - 1)

/-- With the characters behind the buffer the path leads where it does without them. -/
def CutHarmless (path : List Char) : Prop :=
  descend (cutDir path) (cutName path ++ cutOff path) = descend (cutDir path) (cutName path)

theorem cutHarmless_iff (r : List Char) :
    CutHarmless ('/' :: r) ↔ names (('/' :: r).take (maxPathLen - 1)) = names ('/' :: r) := by
  have hkept := beforeLast_append_afterLast (s := ('/' :: r).take (maxPathLen - 1)) mem_cons_self
  have hwhole := take_append_drop (maxPathLen - 1) ('/' :: r)
  unfold CutHarmless cutDir cutName cutOff
  rw [← names_append, ← names_append, ← cons_append, ← append_assoc, hkept, hwhole]
  exact eq_comm

/-- A request without a user name gets the normal form of its complete path exactly if the path fits into
the buffer, or what is cut off leads nowhere else. -/
theorem gfsGetFullPath_complete_iff (host : Host) (session : GfsSession) (home cwd inPath : List Char)
    (access : Access) (hhome : home.head? = some '/') (hcwd : cwd.head? = some '/') (huser : ¬ NamesUser inPath)
    (hactive : session.activeRpList = []) (hrp : session.rpList = []) (hchroot : session.chrootPath = none) :
    Complete host session home cwd inPath access ↔
      (printedPath home cwd inPath).length < maxPathLen ∨ CutHarmless (printedPath home cwd inPath) := by
  obtain ⟨r, hr⟩ := printedPath_eq_cons inPath hhome hcwd
  have hcomplete : Complete host session home cwd inPath access ↔
      names ((printedPath home cwd inPath).take (maxPathLen - 1)) = names (printedPath home cwd inPath) := by
    rw [Complete, gfsGetFullPath_eq host session home cwd inPath access hhome hcwd huser hactive hrp hchroot,
      names_printedPath huser, ← normalPath_eq_iff]
    simp
  rw [hcomplete, hr, cutHarmless_iff]
  constructor
  · exact .inr
  · rintro (hfits | h)
    · rw [take_of_length_le (by omega)]
    · exact h

/-- `~/a/../b` with the home directory `/h/`. -/
theorem gfsGetFullPath_complete_home :
    Complete ⟨fun _ _ => false, fun _ => none⟩ ⟨[], [], none, none, false⟩ "/h/".toList "/".toList
      "~/a/../b".toList ⟨true, false, false, false, false⟩ := by
  have huser : ¬ NamesUser "~/a/../b".toList := by
    rintro ⟨c, rest, hc, h⟩
    simp only [String.reduceToList, List.cons.injEq] at h
    exact hc h.2.1.symm
  exact (gfsGetFullPath_complete_iff _ _ _ _ _ _ (by decide) (by decide) huser rfl rfl rfl).2 (.inl (by decide))

theorem isNormal_replicate {n : Nat} (hn : 0 < n) : IsNormal ('/' :: replicate n 'a') := by
  have ha : 'a' ∈ replicate n 'a' := mem_replicate.2 ⟨by omega, rfl⟩
  refine ⟨[replicate n 'a'], fun c hc => ?_, by simp [pathOf]⟩
  rw [mem_singleton.1 hc]
  refine ⟨⟨ne_nil_of_mem ha, by simp⟩, fun h => ?_, fun h => ?_⟩ <;> simp [h] at ha

theorem gfsGetFullPath_replicate (host : Host) (access : Access) {n : Nat} (hn : maxPathLen - 2 ≤ n) :
    gfsGetFullPath host ⟨[], [], none, none, false⟩ (some ['/']) (some ['/'])
        (some ('/' :: replicate n 'a')) access =
      .ok ('/' :: replicate (maxPathLen - 2) 'a') := by
  have huser : ¬ NamesUser ('/' :: replicate n 'a') := by
    rintro ⟨c, rest, -, h⟩
    cases h
  have hcut : (printedPath ['/'] ['/'] ('/' :: replicate n 'a')).take (maxPathLen - 1) =
      '/' :: replicate (maxPathLen - 2) 'a' := by
    show '/' :: (replicate n 'a').take (maxPathLen - 2) = _
    rw [take_replicate, min_eq_left hn]
  rw [gfsGetFullPath_eq _ _ _ _ _ _ rfl rfl huser rfl rfl rfl, hcut, (isNormal_replicate (by decide)).normalPath_eq]

/-- The server works on a name of 4094 letters when it is asked for one of 5000. -/
theorem gfsGetFullPath_truncates :
    gfsGetFullPath ⟨fun _ _ => false, fun _ => none⟩ ⟨[], [], none, none, false⟩ (some ['/']) (some ['/'])
        (some ('/' :: replicate 5000 'a')) ⟨false, true, false, false, false⟩ =
      .ok ('/' :: replicate 4094 'a') ∧
    ¬ Complete ⟨fun _ _ => false, fun _ => none⟩ ⟨[], [], none, none, false⟩ ['/'] ['/']
        ('/' :: replicate 5000 'a') ⟨false, true, false, false, false⟩ := by
  have hret := gfsGetFullPath_replicate ⟨fun _ _ => false, fun _ => none⟩ ⟨false, true, false, false, false⟩
    (n := 5000) (by decide)
  have hcomplete : normalPath (completePath ['/'] ['/'] ('/' :: replicate 5000 'a')) =
      '/' :: replicate 5000 'a' := (isNormal_replicate (by decide)).normalPath_eq
  refine ⟨hret, ?_⟩
  rw [Complete, hret, hcomplete]
  rintro (⟨e, he⟩ | hok)
  · cases he
  · have hlen := congrArg length (Except.ok.inj hok)
    rw [length_cons, length_cons, length_replicate, length_replicate] at hlen
    exact absurd hlen (by decide)

end Globus
