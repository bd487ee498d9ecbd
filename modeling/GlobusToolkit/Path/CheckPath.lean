/-
`globus_i_gfs_data_check_path` (gridftp/server/src/globus_i_gfs_data.c): whether a session may use a path.
A restriction list is searched for the first entry that decides: the entries that deny something below a
listed directory, then the entry that covers the path, then (for a listing) an entry below the path.
The path is looked up as the file system resolves it and, if that is another path, as it was given; a
session can have two lists, and both must allow it.
-/
import GlobusToolkit.Path.Normalize

namespace Globus

open Lib List

/-! ## Entries -/

/-- The `GFS_L_` bits of an access type. -/
structure Access where
  read : Bool
  write : Bool
  list : Bool
  dir : Bool
  none : Bool
  deriving DecidableEq, Repr

/-- The two have a bit in common. -/
def Access.meets (a b : Access) : Bool :=
  a.read && b.read || a.write && b.write || a.list && b.list || a.dir && b.dir || a.none && b.none

/-- `globus_l_gfs_alias_ent_t`; the lengths of the two strings are those of the lists. -/
structure AliasEnt where
  aliasPath : List Char
  access : Access
  realpath : Option (List Char)
  deriving DecidableEq, Repr

/-- What the server asks of its host: `fnmatch` without flags, for a pattern and a string, and the home
directory of a user. -/
structure Host where
  fnmatch : List Char → List Char → Bool
  getpwnam : List Char → Option (List Char)

/-- What the session handle holds about paths. `realpath` is the function of the storage interface, if it
has one. -/
structure GfsSession where
  activeRpList : List AliasEnt
  rpList : List AliasEnt
  chrootPath : Option (List Char)
  realpath : Option (List Char → Option (List Char))
  rpFollowSymlinks : Bool

def maxPathLen : Nat := 4096

/-! ## The search -/

/-- Whether an entry decides about a path. -/
inductive Verdict where
  | undecided
  | allowed
  | disallowed
  deriving DecidableEq, Repr

/-- `a` is the beginning of `b` and ends there with a component. -/
def leads (a b : List Char) : Bool :=
  a.isPrefixOf b && (a.getLast? == some '/' || b[a.length]? == none || b[a.length]? == some '/')

/-- The string has a character of `[*?`. -/
def hasWildcard (path : List Char) : Bool := path.any fun c => c == '[' || c == '*' || c == '?'

section Search

variable (host : Host) (access : Access)

/-- The body of the loop over the entries. -/
def checkEnt (checkPath : List Char) (ent : AliasEnt) : Verdict :=
  if access.dir && ent.access.none && (leads checkPath ent.aliasPath || host.fnmatch ent.aliasPath checkPath) then
    .disallowed
  else if if hasWildcard ent.aliasPath then host.fnmatch ent.aliasPath checkPath else leads ent.aliasPath checkPath then
    if ent.access.meets access then .allowed else .disallowed
  else if access.list && leads checkPath ent.aliasPath && ent.access.meets access then .allowed
  else .undecided

/-- The loop over the entries, with `alias_ent` where it stops. -/
def checkList (checkPath : List Char) : List AliasEnt → Option AliasEnt → Verdict × Option AliasEnt
  | [], last => (.undecided, last)
  | ent :: rest, _ =>
    match checkEnt host access checkPath ent with
    | .undecided => checkList checkPath rest (some ent)
    | verdict => (verdict, some ent)

/-- One list: the true path must be allowed, and the path as given must not be disallowed. -/
def checkBoth (startPath truePath : List Char) (rpList : List AliasEnt) : Bool × Option AliasEnt :=
  match checkList host access truePath rpList none with
  | (.allowed, ent) =>
    if startPath = truePath then (true, ent)
    else
      let again := checkList host access startPath rpList ent
      (again.1 ≠ .disallowed, again.2)
  | (_, ent) => (false, ent)

/-- The loop over the lists. -/
def checkLists (startPath truePath : List Char) :
    List (List AliasEnt) → Option AliasEnt → Except GfsError (Option AliasEnt)
  | [], ent => .ok ent
  | rpList :: rest, _ =>
    match checkBoth host access startPath truePath rpList with
    | (true, ent) => checkLists startPath truePath rest ent
    | (false, _) => .error (.generic "Path not allowed.")

end Search

/-! ## The function -/

/-- The path below the root of the session. -/
def GfsSession.startPath (session : GfsSession) (inPath : List Char) (isVirtual : Bool) : List Char :=
  match isVirtual, session.chrootPath with
  | true, some chroot => if inPath = ['/'] then chroot else chroot ++ inPath
  | _, _ => inPath

/-- The true path of what stands in front of the last slash, with the rest as given, for a path that has
no true path itself. -/
def trueBase (realpath : List Char → Option (List Char)) (startPath : List Char) : List Char :=
  let cut := startPath.take (maxPathLen - 1)
  let path := if cut.getLast? = some '/' then cut.dropLast else cut
  let endSlash := if cut.getLast? = some '/' then ['/'] else []
  if beforeLast '/' path = [] then startPath
  else
    match realpath (beforeLast '/' path) with
    | none => startPath
    | some base => base ++ '/' :: afterLast '/' path ++ endSlash

/-- The path that is searched for. -/
def GfsSession.truePath (session : GfsSession) (startPath : List Char) : List Char :=
  match session.realpath with
  | none => startPath
  | some realpath =>
    if session.rpFollowSymlinks ∨ startPath = ['/'] then startPath
    else (realpath startPath).getD (trueBase realpath startPath)

/-- `globus_i_gfs_data_check_path`: what it stores at `ret_path`, or its error. -/
def gfsCheckPath (host : Host) (session : GfsSession) (inPath : List Char) (access : Access) (isVirtual : Bool) :
    Except GfsError (Option (List Char)) :=
  let startPath := session.startPath inPath isVirtual
  if session.activeRpList = [] ∧ session.rpList = [] then .ok (session.chrootPath.map fun _ => startPath)
  else
    let truePath := session.truePath startPath
    let lists := [session.activeRpList, session.rpList].filter (· ≠ [])
    match checkLists host access startPath truePath lists none with
    | .error e => .error e
    | .ok (some ⟨aliasPath, _, some realpath⟩) => .ok (some (realpath ++ truePath.drop aliasPath.length))
    | .ok _ => .ok (session.chrootPath.map fun _ => startPath)

/-! ## What is allowed -/

section Lists

variable {host : Host} {access : Access} {startPath truePath : List Char}

theorem checkLists_ok_iff : ∀ (lists : List (List AliasEnt)) (ent : Option AliasEnt),
    (∃ ent', checkLists host access startPath truePath lists ent = .ok ent') ↔
      ∀ rpList ∈ lists, (checkBoth host access startPath truePath rpList).1 = true
  | [], ent => by simp [checkLists]
  | rpList :: rest, ent => by
    rw [forall_mem_cons, checkLists]
    rcases checkBoth host access startPath truePath rpList with ⟨_ | _, ent'⟩
    · simp
    · simpa using checkLists_ok_iff rest ent'

end Lists

section Session

variable (host : Host) (session : GfsSession) (inPath : List Char) (access : Access) (isVirtual : Bool)

theorem gfsCheckPath_unrestricted (hactive : session.activeRpList = []) (hrp : session.rpList = []) :
    gfsCheckPath host session inPath access isVirtual =
      .ok (session.chrootPath.map fun _ => session.startPath inPath isVirtual) := by
  exact if_pos ⟨hactive, hrp⟩

/-- A path is allowed if every list the session has allows it. -/
theorem gfsCheckPath_ok_iff :
    (∃ ret, gfsCheckPath host session inPath access isVirtual = .ok ret) ↔
      ∀ rpList ∈ [session.activeRpList, session.rpList], rpList ≠ [] →
        (checkBoth host access (session.startPath inPath isVirtual)
          (session.truePath (session.startPath inPath isVirtual)) rpList).1 = true := by
  unfold gfsCheckPath
  dsimp only
  split
  · next hopen =>
    refine iff_of_true ⟨_, rfl⟩ fun rpList hmem hne => absurd ?_ hne
    simp only [mem_cons, not_mem_nil, or_false] at hmem
    rcases hmem with rfl | rfl
    exacts [hopen.1, hopen.2]
  · have hfilter : ∀ P : List AliasEnt → Prop,
        (∀ rpList ∈ [session.activeRpList, session.rpList], rpList ≠ [] → P rpList) ↔
          ∀ rpList ∈ [session.activeRpList, session.rpList].filter (· ≠ []), P rpList := by
      simp [mem_filter]
    rw [hfilter, ← checkLists_ok_iff _ none]
    split
    · next he => rw [he]; simp
    · next he => exact iff_of_true ⟨_, rfl⟩ ⟨_, he⟩
    · next he => exact iff_of_true ⟨_, rfl⟩ ⟨_, he⟩

/-- In a session with one list, and without a root of its own and true paths, the path is looked up as it
is given. -/
theorem gfsCheckPath_ok_iff_checkList (hchroot : session.chrootPath = none) (hrealpath : session.realpath = none)
    (hactive : session.activeRpList = []) (hrp : session.rpList ≠ []) :
    (∃ ret, gfsCheckPath host session inPath access isVirtual = .ok ret) ↔
      (checkList host access inPath session.rpList none).1 = .allowed := by
  have hstart : session.startPath inPath isVirtual = inPath := by
    unfold GfsSession.startPath
    rw [hchroot]
    cases isVirtual <;> rfl
  have htrue : session.truePath inPath = inPath := by unfold GfsSession.truePath; rw [hrealpath]
  rw [gfsCheckPath_ok_iff, hstart, htrue]
  simp only [mem_cons, not_mem_nil, or_false, forall_eq_or_imp, forall_eq, hactive, ne_eq, not_true_eq_false,
    false_implies, true_and, hrp, not_false_eq_true, true_implies]
  unfold checkBoth
  rcases checkList host access inPath session.rpList none with ⟨_ | _ | _, ent⟩ <;> simp

end Session

end Globus
