/-
The path restrictions of a session: `globus_l_gfs_data_parse_restricted_paths` reads them from a string,
and `globus_list_cmp_alias_ent` sorts them (gridftp/server/src/globus_i_gfs_data.c). The sort is by
descending string order with the first wildcard of an entry counted lowest, so that of two entries without
wildcards that cover a path the longer one stands in front. Since `globus_i_gfs_data_check_path` follows
the first entry that covers the path, the most specific entry decides.
-/
import GlobusToolkit.Common.List
import GlobusToolkit.Path.CheckPath
import GlobusToolkit.Url.HexDecode

namespace Globus

open Lib List

/-! ## Reading the restrictions -/

/-- The loop over the letters in front of the path, with the access they stand for and the rest at `ptr`.
Another character than a letter or the beginning of a path is an error. -/
def parseAccess (access : Access) : List Char → Option (Access × List Char)
  | [] => some (access, [])
  | c :: s =>
    if c = 'r' ∨ c = 'R' then parseAccess { access with read := true } s
    else if c = 'w' ∨ c = 'W' then parseAccess { access with write := true } s
    else if c = 'n' ∨ c = 'N' then parseAccess { access with none := true } s
    else if c ∈ ['/', '~', '$', '*', '?', '['] then
      some (if access = ⟨false, false, false, false, false⟩ then { access with read := true, write := true } else access,
        c :: s)
    else none

/-- `chroot_path_esc`: the root of the session with its glob characters escaped, where it has a wildcard. -/
def chrootPathEsc (chrootPath : Option (List Char)) (isVirtual : Bool) : Option (List Char) :=
  chrootPath.map fun chroot =>
    if isVirtual && hasWildcard chroot then
      chroot.flatMap fun c => if c ∈ ['*', '?', '[', ']', '\\'] then ['\\', c] else [c]
    else chroot

/-- The alias of an entry that is relative to the root or the home directory of the session. -/
def virtualAlias (chrootEsc : Option (List Char)) (homeDir aliasPath : List Char) : List Char :=
  let full :=
    match aliasPath with
    | '~' :: rest => (if chrootEsc.isSome then ['/'] else homeDir) ++ rest
    | _ => chrootEsc.getD [] ++ aliasPath
  if 1 < full.length ∧ full.getLast? = some '/' then full.dropLast else full

/-- The body of the loop over the entries: the entry, nothing if it is left out, or the error. -/
def parseEnt (chrootEsc : Option (List Char)) (homeDir : List Char) (isVirtual : Bool) (entStr : List Char) :
    Except GfsError (Option AliasEnt) :=
  match parseAccess ⟨false, false, false, false, false⟩ entStr with
  | none =>
    .error (.generic ("Path restriction entries must be full paths, prefixed only with R, W, or N."
      ++ "The entry '" ++ String.ofList entStr ++ "' is invalid.\n"))
  | some (letters, ptr) =>
    let access : Access := if letters.none then ⟨false, false, false, false, true⟩ else { letters with list := true }
    let ent : AliasEnt :=
      match strchr ':' ptr with
      | some rest =>
        { aliasPath := urlStringHexDecode rest.tail, access
          realpath := some (urlStringHexDecode (ptr.take (ptr.length - rest.length))) }
      | none => { aliasPath := urlStringHexDecode ptr, access, realpath := none }
    -- `strchr` finds the null character of an empty alias in any string
    if ent.aliasPath.head?.all (· ∈ ['/', '~', '$', '*', '[', '?']) then
      if isVirtual then
        .ok (some { ent with aliasPath := virtualAlias chrootEsc homeDir ent.aliasPath, realpath := none })
      else .ok (some ent)
    else .ok none

/-- The loop over the entries, each inserted at the front of `tmp_list`. -/
def parseEnts (chrootEsc : Option (List Char)) (homeDir : List Char) (isVirtual : Bool) :
    List (List Char) → List AliasEnt → Except GfsError (List AliasEnt)
  | [], tmpList => .ok tmpList
  | entStr :: rest, tmpList =>
    match parseEnt chrootEsc homeDir isVirtual entStr with
    | .error e => .error e
    | .ok none => parseEnts chrootEsc homeDir isVirtual rest tmpList
    | .ok (some ent) => parseEnts chrootEsc homeDir isVirtual rest (ent :: tmpList)

/-- The string with its first wildcard replaced by a character that sorts below all others. -/
def lowerWildcard : List Char → List Char
  | [] => []
  | c :: s =>
    if c = '*' then '\x01' :: s
    else if c = '?' then '\x02' :: s
    else if c = '[' then '\x03' :: s
    else c :: lowerWildcard s

/-- `globus_list_cmp_alias_ent`: `strcmp` of the two is not negative. -/
def listCmpAliasEnt (a b : AliasEnt) : Bool := (strcmp (lowerWildcard a.aliasPath) (lowerWildcard b.aliasPath)).isGE

/-- `globus_l_gfs_data_parse_restricted_paths` for a session with the given root and home directory: the
list stored at `out_list`, or the error. -/
def gfsParseRestrictedPaths (chrootPath : Option (List Char)) (homeDir restrictPaths : List Char) (isVirtual : Bool) :
    Except GfsError (List AliasEnt) :=
  match parseEnts (chrootPathEsc chrootPath isVirtual) homeDir isVirtual (listFromString restrictPaths ',' []) [] with
  | .error e => .error e
  | .ok [] => .error (.generic "No valid paths added to restricted list.")
  | .ok tmpList => .ok (listSortDestructive listCmpAliasEnt tmpList)

/-! ## Restrictions as they are written -/

/-- The letters that may stand in front of a path. -/
inductive Grant where
  | unmarked
  | r
  | w
  | rw
  | n
  deriving DecidableEq, Repr

def Grant.letters : Grant → List Char
  | unmarked => []
  | r => ['R']
  | w => ['W']
  | rw => ['R', 'W']
  | n => ['N']

/-- What an entry grants: without letters reading and writing. -/
def Grant.access : Grant → Access
  | unmarked => ⟨true, true, false, false, false⟩
  | r => ⟨true, false, false, false, false⟩
  | w => ⟨false, true, false, false, false⟩
  | rw => ⟨true, true, false, false, false⟩
  | n => ⟨false, false, false, false, false⟩

/-- An entry for an absolute path in normal form, without the characters that have a meaning of their own
in a restriction. Wildcards may occur. -/
structure PathEntry where
  grant : Grant
  path : List Char
  normal : IsNormal path
  plain : ∀ c ∈ path, c ∉ ['[', '~', '$', ':', '%', ',', '\x00']

/-- The entries as one string. -/
def restrictText (entries : List PathEntry) : List Char := [','].intercalate (entries.map fun e => e.grant.letters ++ e.path)

/-- What the session keeps of an entry. -/
def PathEntry.ent (e : PathEntry) : AliasEnt where
  aliasPath := e.path
  access := if e.grant = .n then ⟨false, false, false, false, true⟩ else { e.grant.access with list := true }
  realpath := none

@[simp] theorem PathEntry.ent_aliasPath (e : PathEntry) : e.ent.aliasPath = e.path := rfl

theorem PathEntry.not_mem (e : PathEntry) {c : Char} (hc : c ∈ ['[', '~', '$', ':', '%', ',', '\x00']) : c ∉ e.path :=
  fun hmem => e.plain c hmem hc

theorem PathEntry.decode_path (e : PathEntry) : urlStringHexDecode e.path = e.path := by
  unfold urlStringHexDecode
  rw [decode_eq_self (e.not_mem (by simp)), cstr_eq_self (e.not_mem (by simp))]

theorem parseAccess_letters (g : Grant) (s : List Char) :
    parseAccess ⟨false, false, false, false, false⟩ (g.letters ++ '/' :: s) =
      some ({ g.access with none := decide (g = .n) }, '/' :: s) := by
  cases g <;> simp [Grant.letters, Grant.access, parseAccess]

theorem parseEnt_text (chrootEsc : Option (List Char)) (homeDir : List Char) (e : PathEntry) :
    parseEnt chrootEsc homeDir false (e.grant.letters ++ e.path) = .ok (some e.ent) := by
  obtain ⟨s, hs⟩ := e.normal.eq_cons
  have hacc := parseAccess_letters e.grant s
  rw [← hs] at hacc
  unfold parseEnt
  rw [hacc]
  dsimp only
  rw [strchr_eq_none (e.not_mem (by simp)), e.decode_path]
  have hlead : e.path.head? = some '/' := by rw [hs]; rfl
  have hent : (if e.grant = .n then (⟨false, false, false, false, true⟩ : Access) else
      { e.grant.access with list := true, none := decide (e.grant = .n) }) = e.ent.access := by
    cases hg : e.grant <;> simp [PathEntry.ent, hg, Grant.access]
  simp [hlead, hent]
  rfl

theorem parseEnts_text (chrootEsc : Option (List Char)) (homeDir : List Char) :
    ∀ (entries : List PathEntry) (tmpList : List AliasEnt),
      parseEnts chrootEsc homeDir false (entries.map fun e => e.grant.letters ++ e.path) tmpList =
        .ok ((entries.map PathEntry.ent).reverse ++ tmpList)
  | [], tmpList => rfl
  | e :: entries, tmpList => by
    rw [map_cons, parseEnts, parseEnt_text]
    simp [parseEnts_text chrootEsc homeDir entries]

variable {entries : List PathEntry}

theorem gfsParseRestrictedPaths_restrictText (chrootPath : Option (List Char)) (homeDir : List Char)
    (hne : entries ≠ []) :
    gfsParseRestrictedPaths chrootPath homeDir (restrictText entries) false =
      .ok (listSortDestructive listCmpAliasEnt (entries.map PathEntry.ent)) := by
  have hcut : listFromString (restrictText entries) ',' [] =
      entries.reverse.map fun e => e.grant.letters ++ e.path := by
    unfold restrictText
    rw [listFromString_intercalate _ (by simpa using hne), map_reverse]
    intro k hk
    obtain ⟨e, -, rfl⟩ := mem_map.1 hk
    obtain ⟨s, hs⟩ := e.normal.eq_cons
    have hcomma : ',' ∉ e.grant.letters := by cases e.grant <;> simp [Grant.letters]
    refine ⟨?_, by simp [hs]⟩
    rw [mem_append, not_or]
    exact ⟨hcomma, e.not_mem (by simp)⟩
  have hents := parseEnts_text (chrootPathEsc chrootPath false) homeDir entries.reverse []
  rw [map_reverse (f := PathEntry.ent), reverse_reverse, append_nil] at hents
  unfold gfsParseRestrictedPaths
  rw [hcut, hents]
  obtain ⟨e, rest, rfl⟩ := exists_cons_of_ne_nil hne
  rfl

/-! ## The most specific entry -/

theorem prefix_of_leads {a p : List Char} (h : leads a p = true) : a <+: p := by
  unfold leads at h
  rw [Bool.and_eq_true, isPrefixOf_iff_prefix] at h
  exact h.1

theorem leads_iff {a p : List Char} (ha : IsNormal a) (hp : IsNormal p) :
    leads a p = true ↔ components '/' a <+: components '/' p := by
  obtain ⟨cs, hcs, rfl⟩ := ha
  obtain ⟨ds, hds, rfl⟩ := hp
  rw [components_pathOf fun c hc => (hcs c hc).toIsComponent, components_pathOf fun c hc => (hds c hc).toIsComponent]
  unfold leads
  by_cases hnil : cs = []
  · subst hnil
    simp [pathOf_eq ds]
  · have hlast : (pathOf '/' cs).getLast? ≠ some '/' := by
      rw [pathOf_of_ne_nil hnil, ne_eq, getLast?_joinPath hnil fun c hc => (hcs c hc).sep_not_mem]
      intro h
      exact (hcs [] (mem_of_getLast? h)).ne_nil rfl
    simp only [Bool.and_eq_true, Bool.or_eq_true, isPrefixOf_iff_prefix, beq_iff_eq, hlast, false_or]
    constructor
    · rintro ⟨⟨r, hr⟩, hnext⟩
      rw [← hr, getElem?_append_right le_rfl, Nat.sub_self] at hnext
      have hcomp : components '/' (pathOf '/' cs ++ r) = ds := by
        rw [hr, components_pathOf fun c hc => (hds c hc).toIsComponent]
      rcases r with _ | ⟨b, r⟩
      · rw [append_nil, components_pathOf fun c hc => (hcs c hc).toIsComponent] at hcomp
        rw [hcomp]
      · have hb : b = '/' := by simpa using hnext
        rw [hb, components_append_sep, components_pathOf fun c hc => (hcs c hc).toIsComponent] at hcomp
        exact ⟨_, hcomp⟩
    · rintro ⟨es, rfl⟩
      rw [pathOf_of_ne_nil hnil, pathOf_of_ne_nil (by simp [hnil]), joinPath_append]
      refine ⟨prefix_append _ _, ?_⟩
      rw [getElem?_append_right le_rfl, Nat.sub_self]
      cases es <;> simp

theorem lowerWildcard_eq_self : ∀ {s : List Char}, hasWildcard s = false → lowerWildcard s = s
  | [], _ => rfl
  | c :: s, h => by
    simp only [hasWildcard, any_cons, Bool.or_eq_false_iff, beq_eq_false_iff_ne, ne_eq] at h
    obtain ⟨⟨⟨h1, h2⟩, h3⟩, hs⟩ := h
    rw [lowerWildcard, if_neg h2, if_neg h3, if_neg h1, lowerWildcard_eq_self (by simpa [hasWildcard] using hs)]

/-- The list kept for some entries, in its order. -/
theorem listSortDestructive_listCmpAliasEnt (list : List AliasEnt) :
    (listSortDestructive listCmpAliasEnt list).Pairwise (fun a b => listCmpAliasEnt a b) :=
  listSortDestructive_pairwise (fun _ _ _ => Std.TransCmp.isGE_trans)
    (fun a b => by rw [Bool.or_eq_true]; exact strcmp_isGE_total _ _) list

/-- For reading or writing, the first entry that leads to the path decides. -/
theorem checkList_of_literal (host : Host) {access : Access} (hlist : access.list = false) (hdir : access.dir = false)
    (path : List Char) : ∀ {rpList : List AliasEnt} (last : Option AliasEnt),
    (∀ x ∈ rpList, hasWildcard x.aliasPath = false) → ((checkList host access path rpList last).1 = .allowed ↔
      (rpList.find? fun x => leads x.aliasPath path).any (·.access.meets access) = true)
  | [], last, _ => by simp [checkList]
  | ent :: rest, last, hlit => by
    obtain ⟨hent, hrest⟩ := forall_mem_cons.1 hlit
    have hcheck : checkEnt host access path ent =
        if leads ent.aliasPath path then if ent.access.meets access then .allowed else .disallowed else .undecided := by
      simp [checkEnt, hlist, hdir, hent]
    rw [checkList, hcheck, find?_cons]
    cases leads ent.aliasPath path with
    | true => cases hmeets : ent.access.meets access <;> simp [hmeets]
    | false => exact checkList_of_literal host hlist hdir path (some ent) hrest

/-- The access of a request to read. -/
def readAccess : Access := ⟨true, false, false, false, false⟩

/-- The access of a request to write. -/
def writeAccess : Access := ⟨false, true, false, false, false⟩

theorem PathEntry.meets_ent (e : PathEntry) {access : Access} (h : access = readAccess ∨ access = writeAccess) :
    e.ent.access.meets access = e.grant.access.meets access := by
  rcases h with rfl | rfl <;> cases hg : e.grant <;> simp [PathEntry.ent, hg, Grant.access, Access.meets, readAccess, writeAccess]

/-- The list in the order of the comparison has the longest entry that leads to a path in front of the
others. -/
theorem length_le_of_pairwise {before after : List AliasEnt} {ent e : AliasEnt} {path : List Char}
    (hsort : (before ++ ent :: after).Pairwise (fun a b => listCmpAliasEnt a b))
    (hlit : ∀ x ∈ before ++ ent :: after, hasWildcard x.aliasPath = false)
    (hbefore : ∀ x ∈ before, leads x.aliasPath path = false) (hent : ent.aliasPath <+: path)
    (he : e ∈ before ++ ent :: after) (hlead : leads e.aliasPath path = true) :
    e.aliasPath.length ≤ ent.aliasPath.length := by
  rcases mem_append.1 he with hmem | hmem
  · rw [hbefore e hmem] at hlead; cases hlead
  rcases mem_cons.1 hmem with rfl | hmem
  · exact le_refl _
  have hcmp := (pairwise_cons.1 (pairwise_append.1 hsort).2.1).1 e hmem
  unfold listCmpAliasEnt at hcmp
  rw [lowerWildcard_eq_self (hlit ent (by simp)), lowerWildcard_eq_self (hlit e he)] at hcmp
  exact length_le_of_strcmp_isGE hent (prefix_of_leads hlead) hcmp

/-- The list of a session whose restrictions were read from some entries holds those entries. -/
theorem rpList_of_parse {chrootPath : Option (List Char)} {homeDir : List Char}
    {rpList : List AliasEnt}
    (hparse : gfsParseRestrictedPaths chrootPath homeDir (restrictText entries) false = .ok rpList) :
    rpList = listSortDestructive listCmpAliasEnt (entries.map PathEntry.ent) ∧ rpList ≠ [] := by
  have hne : entries ≠ [] := by
    rintro rfl
    simp [gfsParseRestrictedPaths, restrictText, listFromString, listFromStringLoop, strchr, parseEnts] at hparse
  rw [gfsParseRestrictedPaths_restrictText chrootPath homeDir hne] at hparse
  cases hparse
  refine ⟨rfl, fun hnil => hne ?_⟩
  have hperm : (listSortDestructive listCmpAliasEnt (entries.map PathEntry.ent)).Perm _ := listSortDestructive_perm _
  rw [hnil, nil_perm] at hperm
  exact map_eq_nil_iff.1 hperm

theorem exists_ent_of_parse {chrootPath : Option (List Char)} {homeDir : List Char}
    {rpList : List AliasEnt}
    (hparse : gfsParseRestrictedPaths chrootPath homeDir (restrictText entries) false = .ok rpList) :
    ∀ x ∈ rpList, ∃ e : PathEntry, e.ent = x := by
  intro x hx
  rw [(rpList_of_parse hparse).1, (listSortDestructive_perm _).mem_iff, mem_map] at hx
  obtain ⟨e, -, rfl⟩ := hx
  exact ⟨e, rfl⟩

/-- The most specific entry decides: a path may be read or written exactly if the longest entry that is
the path or one of its ancestors grants it. -/
theorem gfsCheckPath_most_specific (host : Host) (session : GfsSession) (homeDir : List Char)
    (entries : List PathEntry) (hchroot : session.chrootPath = none) (hrealpath : session.realpath = none)
    (hactive : session.activeRpList = [])
    (hparse : gfsParseRestrictedPaths session.chrootPath homeDir (restrictText entries) false = .ok session.rpList)
    (hlit : ∀ e ∈ entries, hasWildcard e.path = false) (hdistinct : (entries.map PathEntry.path).Nodup)
    (p : List Char) (hp : IsNormal p) (access : Access) (haccess : access = readAccess ∨ access = writeAccess)
    (isVirtual : Bool) :
    (∃ ret, gfsCheckPath host session p access isVirtual = .ok ret) ↔
      ∃ e ∈ entries, components '/' e.path <+: components '/' p ∧
        (∀ e' ∈ entries, components '/' e'.path <+: components '/' p → e'.path.length ≤ e.path.length) ∧
        e.grant.access.meets access = true := by
  obtain ⟨hrp, hne⟩ := rpList_of_parse hparse
  have hsort := listSortDestructive_listCmpAliasEnt (entries.map PathEntry.ent)
  have hmem : ∀ x, x ∈ session.rpList ↔ ∃ e ∈ entries, e.ent = x := fun x => by
    rw [hrp, (listSortDestructive_perm _).mem_iff, mem_map]
  rw [← hrp] at hsort
  have hlit' : ∀ x ∈ session.rpList, hasWildcard x.aliasPath = false := fun x hx => by
    obtain ⟨e, he, rfl⟩ := (hmem x).1 hx
    exact hlit e he
  have hlist : access.list = false ∧ access.dir = false := by rcases haccess with rfl | rfl <;> exact ⟨rfl, rfl⟩
  have hleads : ∀ e : PathEntry, leads e.path p = true ↔ components '/' e.path <+: components '/' p := fun e =>
    leads_iff e.normal hp
  rw [gfsCheckPath_ok_iff_checkList host session p access isVirtual hchroot hrealpath hactive hne,
    checkList_of_literal host hlist.1 hlist.2 p none hlit']
  simp only [← hleads]
  cases hfind : session.rpList.find? fun x => leads x.aliasPath p with
  | none =>
    refine iff_of_false (by simp) ?_
    rintro ⟨e, he, hlead, -⟩
    exact find?_eq_none.1 hfind e.ent ((hmem _).2 ⟨e, he, rfl⟩) hlead
  | some ent =>
    obtain ⟨hent, before, after, heq, hbefore⟩ := find?_eq_some_iff_append.1 hfind
    obtain ⟨f, hf, rfl⟩ := (hmem ent).1 (by rw [heq]; simp)
    -- it is at least as long as any other
    have hlongest : ∀ e ∈ entries, leads e.path p = true → e.path.length ≤ f.path.length := fun e he hlead => by
      rw [heq] at hsort hlit'
      exact length_le_of_pairwise hsort hlit' (fun x hx => by simpa using hbefore x hx) (prefix_of_leads hent)
        (heq ▸ (hmem e.ent).2 ⟨e, he, rfl⟩) hlead
    rw [Option.any_some, f.meets_ent haccess]
    constructor
    · exact fun hmeets => ⟨f, hf, hent, hlongest, hmeets⟩
    · rintro ⟨e, he, hlead, hmax, hmeets⟩
      -- both are the longest, so they are the same entry
      have hpath : f.path = e.path := (prefix_of_prefix_length_le (prefix_of_leads hent) (prefix_of_leads hlead)
        (hmax f hf hent)).eq_of_length_le (hlongest e he hlead)
      rwa [inj_on_of_nodup_map hdistinct hf he hpath]

/-- A public directory that may be read, and a part of it that may not. -/
def pubEntries : List PathEntry :=
  [⟨.r, ['/', 'p'], ⟨[['p']], by decide, rfl⟩, by simp⟩,
    ⟨.n, ['/', 'p', '/', 's'], ⟨[['p'], ['s']], by decide, rfl⟩, by simp⟩]

/-- A session with these restrictions. -/
def pubSession : GfsSession where
  activeRpList := []
  rpList := listSortDestructive listCmpAliasEnt (pubEntries.map PathEntry.ent)
  chrootPath := none
  realpath := none
  rpFollowSymlinks := false

theorem gfsCheckPath_most_specific_pub :
    (∃ ret, gfsCheckPath ⟨fun _ _ => false, fun _ => none⟩ pubSession ['/', 'p', '/', 't'] readAccess false = .ok ret) ↔
      ∃ e ∈ pubEntries, components '/' e.path <+: components '/' ['/', 'p', '/', 't'] ∧
        (∀ e' ∈ pubEntries, components '/' e'.path <+: components '/' ['/', 'p', '/', 't'] →
          e'.path.length ≤ e.path.length) ∧
        e.grant.access.meets readAccess = true :=
  gfsCheckPath_most_specific _ pubSession [] pubEntries rfl rfl rfl
    (gfsParseRestrictedPaths_restrictText none [] (by simp [pubEntries])) (by decide) (by decide) _
    ⟨[['p'], ['t']], by decide, rfl⟩
    readAccess (.inl rfl) false

end Globus
