/-
Directory listings under path restrictions: `globus_gridftp_server_finished_stat_partial`
(gridftp/server/src/globus_i_gfs_data.c) returns the entries of a directory as they are if the session may
read or write the directory and nothing in it is denied, and otherwise only those it may list.

The check of the directory takes notice of a denying entry that begins with the path of the directory or
matches it. A denying pattern can match a path in the directory without either, and a granting pattern can
match the directory and nothing in it; then names are listed that the check of the name itself refuses.
Entries without wildcards are always noticed.
-/
import GlobusToolkit.Lib.Glob
import GlobusToolkit.Path.Restrict

namespace Globus

open Lib List

/-! ## The listing -/

/-- The access of the check of a directory. -/
def dirAccess : Access := ⟨true, true, false, true, false⟩

/-- The access of the check of a name in a directory. -/
def listAccess : Access := ⟨false, false, true, false, false⟩

/-- The path of a name in a directory. -/
def childPath (basePath nam : List Char) : List Char :=
  basePath ++ (if basePath.getLast? ≠ some '/' then ['/'] else []) ++ nam

/-- The fields of `globus_gfs_stat_t` that the function looks at; a name may be null. -/
structure StatEntry where
  name : Option (List Char)
  nlink : Int
  deriving DecidableEq, Repr

/-- Whether an entry is left in a listing that is pruned. -/
def listable (host : Host) (session : GfsSession) (basePath : List Char) (stat : StatEntry) : Bool :=
  stat.name.any fun nam =>
    nam = dot || nam = dotDot || (gfsCheckPath host session (childPath basePath nam) listAccess false).isOk

/-- The entries that `globus_gridftp_server_finished_stat_partial` returns for a directory. Behind the pruning the name of
the first entry is looked at, also if nothing was copied there. -/
def statPartial (host : Host) (session : GfsSession) (basePath : List Char) (fileOnly : Bool) (statArray : List StatEntry) :
    Option (List StatEntry) :=
  if fileOnly || (gfsCheckPath host session basePath dirAccess false).isOk then
    some (statArray.map fun stat => { stat with name := some (stat.name.getD "(null)".toList) })
  else
    match statArray.filter (listable host session basePath) with
    | [] => none
    | first :: rest =>
      some ({ first with nlink := if first.name = some dot then rest.length + 1 else first.nlink } :: rest)

theorem childPath_pathOf {cs : List (List Char)} (hcs : ∀ c ∈ cs, IsName c) (n : List Char) :
    childPath (pathOf '/' cs) n = pathOf '/' (cs ++ [n]) := by
  unfold childPath
  rcases eq_nil_or_concat cs with rfl | ⟨cs, c, rfl⟩
  · simp [pathOf_of_ne_nil]
  · have hne : cs.concat c ≠ [] := by simp
    have hlast : (pathOf '/' (cs.concat c)).getLast? ≠ some '/' := by
      rw [pathOf_of_ne_nil hne, ne_eq, getLast?_joinPath hne fun c hc => (hcs c hc).sep_not_mem]
      intro h
      exact (hcs [] (mem_of_getLast? h)).ne_nil rfl
    rw [if_pos hlast, pathOf_of_ne_nil hne, pathOf_of_ne_nil (by simp), joinPath_append]
    simp

variable {p n : List Char}

theorem isNormal_childPath (hp : IsNormal p) (hn : IsName n) : IsNormal (childPath p n) := by
  obtain ⟨cs, hcs, rfl⟩ := hp
  exact ⟨cs ++ [n], forall_mem_append.2 ⟨hcs, forall_mem_singleton.2 hn⟩, childPath_pathOf hcs n⟩

theorem components_childPath (hp : IsNormal p) (hn : IsName n) :
    components '/' (childPath p n) = components '/' p ++ [n] := by
  obtain ⟨cs, hcs, rfl⟩ := hp
  have hcs' : ∀ c ∈ cs, IsComponent '/' c := fun c hc => (hcs c hc).toIsComponent
  rw [childPath_pathOf hcs, components_pathOf hcs', components_pathOf]
  exact forall_mem_append.2 ⟨hcs', forall_mem_singleton.2 hn.toIsComponent⟩

theorem leads_childPath {a p n : List Char} (ha : IsNormal a) (hp : IsNormal p) (hn : IsName n)
    (h : leads a p = true) : leads a (childPath p n) = true := by
  rw [leads_iff ha hp] at h
  rw [leads_iff ha (isNormal_childPath hp hn), components_childPath hp hn]
  exact h.trans (prefix_append _ _)

theorem childPath_eq (p n : List Char) : childPath p n = childPath p [] ++ n := by simp [childPath]

/-! ## What the checks look at -/

section Entries

variable (host : Host) (p : List Char)

/-- The entry matches the path, or leads to it if it has no wildcard. -/
def covers (path : List Char) (ent : AliasEnt) : Bool :=
  if hasWildcard ent.aliasPath then host.fnmatch ent.aliasPath path else leads ent.aliasPath path

/-- The entry does not deny, and covers the path or lies below it. -/
def grants (path : List Char) (ent : AliasEnt) : Bool :=
  !ent.access.none && (covers host path ent || leads path ent.aliasPath)

/-- The entry denies, and the check of the directory takes notice of it. -/
def noticed (path : List Char) (ent : AliasEnt) : Bool :=
  ent.access.none && (leads path ent.aliasPath || host.fnmatch ent.aliasPath path || covers host path ent)

/-- The directory is opened: of the entries that cover it or are noticed, the first one grants. -/
def opened (rpList : List AliasEnt) : Bool :=
  (rpList.find? fun ent => covers host p ent || noticed host p ent).any fun ent => !ent.access.none

/-- The entry takes in a name of the directory: the pattern leaves one behind the path of the directory, or the entry is an
ancestor of the directory, the directory, or a name in it. -/
def takesSome (ent : AliasEnt) : Bool :=
  if hasWildcard ent.aliasPath then (globRests ent.aliasPath (childPath p [])).any (IsName <| globSample ·)
  else leads ent.aliasPath p || (components '/' ent.aliasPath).dropLast == components '/' p

/-- The entry takes in the whole directory: the pattern leaves a star, or the entry leads to the directory. -/
def takesAll (ent : AliasEnt) : Bool :=
  if hasWildcard ent.aliasPath then (globRests ent.aliasPath (childPath p [])).any (· == ['*']) else leads ent.aliasPath p

/-- An entry grants the whole directory, and no denying one in front of it takes in a name. -/
def grantsAll : List AliasEnt → Bool
  | [] => false
  | ent :: rest =>
    if ent.access.none then !takesSome p ent && grantsAll rest else takesAll p ent || grantsAll rest

end Entries

/-- The access that an entry of a session has: it denies everything, or it grants reading or writing, and
listing. -/
def AliasEnt.Plain (ent : AliasEnt) : Prop :=
  ent.access = ⟨false, false, false, false, true⟩ ∨
    ent.access.none = false ∧ ent.access.list = true ∧ (ent.access.read = true ∨ ent.access.write = true)

theorem PathEntry.plain_ent (e : PathEntry) : e.ent.Plain := by
  unfold AliasEnt.Plain
  cases hg : e.grant <;> simp [PathEntry.ent, hg, Grant.access]

section Checks

variable {host : Host} {path : List Char} {ent : AliasEnt}

theorem AliasEnt.Plain.meets_dirAccess (h : ent.Plain) : ent.access.meets dirAccess = !ent.access.none := by
  rcases h with h | ⟨hnone, -, hrw | hrw⟩
  · rw [h]; rfl
  · simp [Access.meets, dirAccess, hnone, hrw]
  · simp [Access.meets, dirAccess, hnone, hrw]

theorem AliasEnt.Plain.meets_listAccess (h : ent.Plain) : ent.access.meets listAccess = !ent.access.none := by
  rcases h with h | ⟨hnone, hlist, -⟩
  · rw [h]; rfl
  · simp [Access.meets, listAccess, hnone, hlist]

theorem checkEnt_dirAccess (h : ent.Plain) : checkEnt host dirAccess path ent =
    if noticed host path ent then .disallowed else if covers host path ent then .allowed else .undecided := by
  have hdir : dirAccess.dir = true ∧ dirAccess.list = false := ⟨rfl, rfl⟩
  unfold checkEnt noticed
  rw [← covers, h.meets_dirAccess, hdir.1, hdir.2]
  cases ent.access.none <;> cases covers host path ent <;> simp

theorem checkEnt_listAccess (h : ent.Plain) : checkEnt host listAccess path ent =
    if grants host path ent then .allowed
    else if ent.access.none && covers host path ent then .disallowed else .undecided := by
  have hlist : listAccess.dir = false ∧ listAccess.list = true := ⟨rfl, rfl⟩
  unfold checkEnt grants
  rw [← covers, h.meets_listAccess, hlist.1, hlist.2]
  cases ent.access.none <;> cases covers host path ent <;> simp

end Checks

section Names

variable {host : Host} (hglob : host.fnmatch = globMatch) (hp : IsNormal p) (e : PathEntry)

include hglob hp

/-- The names that an entry takes in are those whose paths it covers. -/
theorem takesSome_iff : takesSome p e.ent = true ↔ ∃ n, IsName n ∧ covers host (childPath p n) e.ent = true := by
  unfold takesSome covers
  split
  · simp only [hglob, any_eq_true, decide_eq_true_eq, ← exists_isName_globMatch]
    constructor
    · rintro ⟨r, hr, n, hn, h⟩
      exact ⟨n, hn, by rw [childPath_eq, globMatch_append]; exact ⟨r, hr, h⟩⟩
    · rintro ⟨n, hn, h⟩
      rw [childPath_eq, globMatch_append] at h
      obtain ⟨r, hr, h⟩ := h
      exact ⟨r, hr, n, hn, h⟩
  · rw [PathEntry.ent_aliasPath, Bool.or_eq_true, beq_iff_eq, leads_iff e.normal hp]
    have hlead : ∀ n, IsName n → (leads e.path (childPath p n) = true ↔
        components '/' e.path = components '/' p ++ [n] ∨ components '/' e.path <+: components '/' p) := fun n hn => by
      rw [leads_iff e.normal (isNormal_childPath hp hn), components_childPath hp hn, prefix_concat_iff]
    constructor
    · rintro (h | h)
      · exact ⟨['x'], by decide, (hlead _ (by decide)).2 (.inr h)⟩
      · obtain ⟨cs, hcs, hpath⟩ := e.normal
        rw [show components '/' e.path = cs by rw [hpath, components_pathOf fun c hc => (hcs c hc).toIsComponent]] at h hlead
        rcases eq_nil_or_concat cs with rfl | ⟨cs, c, rfl⟩
        · exact ⟨['x'], by decide, (hlead _ (by decide)).2 (.inr nil_prefix)⟩
        · rw [concat_eq_append, dropLast_concat] at h
          exact ⟨c, hcs c (by simp), (hlead c (hcs c (by simp))).2 (.inl (by rw [concat_eq_append, h]))⟩
    · rintro ⟨n, hn, h⟩
      rcases (hlead n hn).1 h with h | h
      · exact .inr (by rw [h, dropLast_concat])
      · exact .inl h

theorem covers_of_not_takesSome (h : takesSome p e.ent = false) (hn : IsName n) :
    covers host (childPath p n) e.ent = false := by
  rw [Bool.eq_false_iff] at h ⊢
  exact fun hcov => h ((takesSome_iff hglob hp e).2 ⟨n, hn, hcov⟩)

theorem covers_of_takesAll (h : takesAll p e.ent = true) (hn : IsName n) : covers host (childPath p n) e.ent = true := by
  unfold takesAll at h
  unfold covers
  split at h
  · next hwild =>
    rw [if_pos hwild, hglob, childPath_eq, globMatch_append]
    obtain ⟨r, hr, hstar⟩ := any_eq_true.1 h
    exact ⟨r, hr, by simp [globMatch, eq_of_beq hstar]⟩
  · next hwild =>
    rw [if_neg hwild]
    exact leads_childPath e.normal hp hn h

end Names

/-! ## The lists -/

section Lists

variable {host : Host} {path : List Char}

theorem checkList_dirAccess_iff : ∀ {rpList : List AliasEnt} {last : Option AliasEnt}, (∀ e ∈ rpList, e.Plain) →
    ((checkList host dirAccess path rpList last).1 = .allowed ↔ opened host path rpList = true)
  | [], last, _ => by simp [checkList, opened]
  | ent :: rest, last, hplain => by
    obtain ⟨hent, hrest⟩ := forall_mem_cons.1 hplain
    rw [checkList, checkEnt_dirAccess hent, opened, find?_cons]
    cases hnot : noticed host path ent with
    | true => simp_all [noticed]
    | false =>
      cases hcov : covers host path ent with
      | true => simp_all [noticed]
      | false => simpa [opened] using checkList_dirAccess_iff hrest

variable (hglob : host.fnmatch = globMatch) (hp : IsNormal p)

include hglob hp

/-- Where an entry grants the whole directory in front of the denying ones, every name may be listed. -/
theorem checkList_listAccess_of_grantsAll (hn : IsName n) : ∀ {rpList : List AliasEnt} {last : Option AliasEnt},
    (∀ x ∈ rpList, ∃ e : PathEntry, e.ent = x) → grantsAll p rpList = true →
      (checkList host listAccess (childPath p n) rpList last).1 = .allowed
  | [], last, _, h => by cases h
  | x :: rest, last, hents, h => by
    obtain ⟨⟨e, rfl⟩, hrest⟩ := forall_mem_cons.1 hents
    rw [checkList, checkEnt_listAccess e.plain_ent]
    rw [grantsAll] at h
    cases hnone : e.ent.access.none with
    | true =>
      rw [if_pos hnone, Bool.and_eq_true, Bool.not_eq_true'] at h
      simpa [grants, hnone, covers_of_not_takesSome hglob hp e h.1 hn] using checkList_listAccess_of_grantsAll hn hrest h.2
    | false =>
      rw [if_neg (by simp [hnone]), Bool.or_eq_true] at h
      cases hgrants : grants host (childPath p n) e.ent with
      | true => rfl
      | false =>
        rcases h with h | h
        · simp [grants, hnone, covers_of_takesAll hglob hp e h hn] at hgrants
        · simpa [hnone] using checkList_listAccess_of_grantsAll hn hrest h

end Lists

/-- Without wildcards, what opens the directory grants the whole of it. -/
theorem grantsAll_of_literal {host : Host} (hp : IsNormal p) : ∀ {rpList : List AliasEnt},
    (∀ x ∈ rpList, (∃ e : PathEntry, e.ent = x) ∧ hasWildcard x.aliasPath = false) →
    opened host p rpList = true → grantsAll p rpList = true
  | [], _, h => by cases h
  | x :: rest, hlit, h => by
    obtain ⟨⟨⟨e, rfl⟩, hwild⟩, hrest⟩ := forall_mem_cons.1 hlit
    have hlead : covers host p e.ent = leads e.path p := if_neg (by rw [hwild]; simp)
    have hall : takesAll p e.ent = leads e.path p := if_neg (by rw [hwild]; simp)
    have hsome : takesSome p e.ent = _ := if_neg (by rw [hwild]; simp)
    rw [opened, find?_cons] at h
    rw [grantsAll, hall, hsome, PathEntry.ent_aliasPath, ← hlead]
    split at h
    · next hfirst =>
      have hnone : e.ent.access.none = false := by simpa using h
      simp_all [noticed]
    · next hfirst =>
      obtain ⟨hcov, hnot⟩ := Bool.or_eq_false_iff.1 hfirst
      have h : opened host p rest = true := h
      rw [grantsAll_of_literal hp hrest h, hcov]
      cases hnone : e.ent.access.none with
      | false => simp
      | true =>
        have hbelow : (components '/' e.path).dropLast ≠ components '/' p := fun heq => by
          have hlead : leads p e.path = true := (leads_iff hp e.normal).2 (heq ▸ dropLast_prefix _)
          simp [noticed, hnone, hlead] at hnot
        simpa using hbelow

/-- A listing of the directory that is not pruned holds only names that may be listed. -/
def Unpruned (host : Host) (session : GfsSession) (p : List Char) : Prop :=
  (∃ ret, gfsCheckPath host session p dirAccess false = .ok ret) →
    ∀ n, IsName n → ∃ ret, gfsCheckPath host session (childPath p n) listAccess false = .ok ret

section Session

variable (host : Host) (session : GfsSession) (homeDir : List Char) (entries : List PathEntry)
  (hglob : host.fnmatch = globMatch) (hchroot : session.chrootPath = none) (hrealpath : session.realpath = none)
  (hactive : session.activeRpList = [])
  (hparse : gfsParseRestrictedPaths session.chrootPath homeDir (restrictText entries) false = .ok session.rpList)

include hchroot hrealpath hactive hparse

theorem gfsCheckPath_dirAccess_iff : (∃ ret, gfsCheckPath host session p dirAccess false = .ok ret) ↔
    opened host p session.rpList = true := by
  rw [gfsCheckPath_ok_iff_checkList host session _ _ _ hchroot hrealpath hactive (rpList_of_parse hparse).2]
  refine checkList_dirAccess_iff fun x hx => ?_
  obtain ⟨e, rfl⟩ := exists_ent_of_parse hparse x hx
  exact e.plain_ent

theorem unpruned_iff : Unpruned host session p ↔ (opened host p session.rpList = true →
    ∀ n, IsName n → (checkList host listAccess (childPath p n) session.rpList none).1 = .allowed) := by
  unfold Unpruned
  rw [gfsCheckPath_dirAccess_iff host session homeDir entries hchroot hrealpath hactive hparse]
  simp only [gfsCheckPath_ok_iff_checkList host session _ _ _ hchroot hrealpath hactive (rpList_of_parse hparse).2]

include hglob

/-- A listing holds the names that may be listed, whether or not it is pruned. If there is none behind the pruning, the
function looks at an entry that was never written. -/
theorem statPartial_names (hp : IsNormal p) (hsafe : opened host p session.rpList = true → grantsAll p session.rpList = true)
    {statArray : List StatEntry} (hnames : ∀ stat ∈ statArray, ∃ n, stat.name = some n ∧ (n = dot ∨ n = dotDot ∨ IsName n)) :
    (statPartial host session p false statArray).map (·.map StatEntry.name) =
      if opened host p session.rpList = false ∧ statArray.filter (listable host session p) = [] then none
      else some ((statArray.filter (listable host session p)).map StatEntry.name) := by
  have hdir := gfsCheckPath_dirAccess_iff (p := p) host session homeDir entries hchroot hrealpath hactive hparse
  have hok : ∀ path access, (gfsCheckPath host session path access false).isOk = true ↔
      ∃ ret, gfsCheckPath host session path access false = .ok ret := fun path access => by
    cases gfsCheckPath host session path access false <;> simp [Except.isOk, Except.toBool]
  unfold statPartial
  cases hopen : opened host p session.rpList with
  | true =>
    -- nothing is pruned, and pruning would leave everything
    have hunpruned := (unpruned_iff host session homeDir entries hchroot hrealpath hactive hparse).2 fun _ n hn =>
      checkList_listAccess_of_grantsAll hglob hp hn (exists_ent_of_parse hparse) (hsafe hopen)
    have hfilter : statArray.filter (listable host session p) = statArray := filter_eq_self.2 fun stat hmem => by
      obtain ⟨n, hname, rfl | rfl | hn⟩ := hnames stat hmem
      · simp [listable, hname]
      · simp [listable, hname]
      · simp [listable, hname, (hok _ _).2 (hunpruned (hdir.2 hopen) n hn)]
    rw [Bool.false_or, if_pos ((hok _ _).2 (hdir.2 hopen)), if_neg (by simp), hfilter, Option.map_some, map_map]
    congr 1
    refine map_congr_left fun stat hmem => ?_
    obtain ⟨n, hname, -⟩ := hnames stat hmem
    simp [hname]
  | false =>
    rw [Bool.false_or, if_neg fun h => by simpa [hopen] using hdir.1 ((hok _ _).1 h)]
    cases statArray.filter (listable host session p) <;> simp

end Session

/-! ## A secret -/

/-- Everything is allowed but what is called `s` in a directory of the root with one letter. -/
def secretEntries : List PathEntry :=
  [⟨.n, ['/', '?', '/', 's'], ⟨[['?'], ['s']], by decide, rfl⟩, by simp⟩, ⟨.unmarked, ['/'], ⟨[], by simp, rfl⟩, by simp⟩]

def secretSession : GfsSession where
  activeRpList := []
  rpList := secretEntries.map PathEntry.ent
  chrootPath := none
  realpath := none
  rpFollowSymlinks := false

theorem parse_secretEntries :
    gfsParseRestrictedPaths none [] (restrictText secretEntries) false = .ok secretSession.rpList := by
  rw [gfsParseRestrictedPaths_restrictText none [] (by simp [secretEntries])]
  have hsort : listSortDestructive listCmpAliasEnt (secretEntries.map PathEntry.ent) = secretSession.rpList := by
    have hcmp : listCmpAliasEnt (secretEntries.map PathEntry.ent)[0] (secretEntries.map PathEntry.ent)[1] = true := by
      decide
    simp [listSortDestructive, secretSession, secretEntries] at hcmp ⊢
    simp [hcmp]
  rw [hsort]

theorem statPartial_names_other :
    (statPartial ⟨globMatch, fun _ => none⟩ secretSession ['/', 'a', 'b'] false [⟨some dot, 2⟩, ⟨some ['s'], 1⟩]).map
      (·.map StatEntry.name) = some [some dot, some ['s']] := by
  have hp : IsNormal ['/', 'a', 'b'] := ⟨[['a', 'b']], by decide, rfl⟩
  rw [statPartial_names _ secretSession [] secretEntries rfl rfl rfl rfl parse_secretEntries hp
    (fun _ => by decide) (by simp [dot]; decide)]
  decide

end Globus
