/-
The two ways to find the scheme of a URL (common/source/library/globus_url.c). `globus_url_get_scheme` compares the beginning of the
string with each known name and its colon; `globus_url_parse` takes the name in front of the colon and looks it up. They agree, but
for names that continue `https`: the comparison with `https:` leaves the colon out.
-/
import GlobusToolkit.Url.Scan

namespace Globus

open Lib List Yields

/-- `strncmp(a, b, n) == 0`. -/
def strncmpEq (a b : List Char) (n : Nat) : Bool := a.take n == b.take n

/-- `globus_url_get_scheme`: the return code, with `none` for success, and the type that is stored. -/
def urlGetSchemeType (urlString : List Char) : Option UrlError × UrlScheme :=
  if strncmpEq urlString "ftp:".toList 4 then (none, .ftp)
  else if strncmpEq urlString "gsiftp:".toList 7 then (none, .gsiftp)
  else if strncmpEq urlString "sshftp:".toList 7 then (none, .sshftp)
  else if strncmpEq urlString "http:".toList 5 then (none, .http)
  -- the colon is the sixth character
  else if strncmpEq urlString "https:".toList 5 then (none, .https)
  else if strncmpEq urlString "ldap:".toList 5 then (none, .ldap)
  else if strncmpEq urlString "file:".toList 5 then (none, .file)
  else if strncmpEq urlString "x-nexus:".toList 8 then (none, .xNexus)
  else if strncmpEq urlString "x-gass-cache:".toList 13 then (none, .xGassCache)
  else (some .badScheme, .unknown)

section Compare

variable {u v : List Char}

/-- A comparison with a name and its colon is one with the name of the URL. -/
theorem strncmpEq_colon {name : List Char} (hu : ':' ∉ u) (hname : ':' ∉ name) :
    strncmpEq (u ++ ':' :: v) (name ++ [':']) (name.length + 1) = decide (u = name) := by
  have hlen : (name ++ [':']).take (name.length + 1) = name ++ [':'] := take_of_length_le (by simp)
  rw [strncmpEq, hlen, Bool.eq_iff_iff, beq_iff_eq, decide_eq_true_eq]
  constructor
  · intro h
    have hprefix : name ++ [':'] ++ (u ++ ':' :: v).drop (name.length + 1) = u ++ ':' :: v := by
      rw [← h]; exact take_append_drop _ _
    have htake := congrArg (List.takeWhile (· ≠ ':')) hprefix
    rw [append_assoc, singleton_append, takeWhile_ne_append hname, takeWhile_ne_append hu] at htake
    exact htake.symm
  · rintro rfl
    rw [take_append, take_of_length_le (by simp)]
    simp

/-- The comparison with `https:` is one with the beginning of the name. -/
theorem strncmpEq_https (hu : ':' ∉ u) :
    strncmpEq (u ++ ':' :: v) "https:".toList 5 = decide ("https".toList <+: u) := by
  rw [strncmpEq, Bool.eq_iff_iff, beq_iff_eq, decide_eq_true_eq]
  show List.take 5 (u ++ ':' :: v) = "https".toList ↔ _
  constructor
  · intro h
    rcases Nat.lt_or_ge u.length 5 with hlt | hle
    · -- the colon behind the name would be in `https`
      have hmem : ':' ∈ List.take 5 (u ++ ':' :: v) := by
        rw [take_append, take_of_length_le (by omega)]
        obtain ⟨n, hn⟩ : ∃ n, 5 - u.length = n + 1 := ⟨4 - u.length, by omega⟩
        rw [hn]
        simp
      rw [h] at hmem
      exact absurd hmem (by decide)
    · rw [take_append_of_le_length hle] at h
      rw [← h]
      exact take_prefix 5 u
  · rintro ⟨w, rfl⟩
    rfl

end Compare

/-! ## The parser keeps the type -/

section Parser

variable {fuel : Nat} {s : List Char} {url : Url}

theorem parseHostPath_schemeType {getPath : UrlScheme → List Char → Parse (Option (List Char))} :
    Yields (parseHostPath fuel getPath url s) fun r => r.schemeType = url.schemeType := by
  exact trivial.bind fun hp _ => trivial.bind fun _ _ => trivial.bind fun path _ => pure rfl

theorem parseUnknown_schemeType : Yields (parseUnknown fuel url s) fun r => r.schemeType = url.schemeType := by
  refine trivial.bind fun hp _ => ?_
  split
  · refine trivial.bind fun r _ => ?_
    cases r with
    | ok path => exact pure rfl
    | error e => exact pure rfl
  · exact pure rfl

theorem parseLdap_schemeType : Yields (parseLdap fuel url s) fun r => r.schemeType = url.schemeType := by
  refine trivial.bind fun hp _ => ?_
  split
  · exact throw _
  · exact trivial.bind fun _ _ => trivial.bind fun r _ => pure rfl

theorem parseSpecific_schemeType (variant : UrlVariant) :
    Yields (parseSpecific fuel variant url s) fun r => r.schemeType = url.schemeType := by
  unfold parseSpecific
  split
  · exact trivial.bind fun up _ => parseHostPath_schemeType
  · exact trivial.bind fun up _ => parseHostPath_schemeType
  · exact trivial.bind fun up _ => parseHostPath_schemeType
  · exact parseHostPath_schemeType
  · exact parseHostPath_schemeType
  · refine trivial.bind fun hp _ => ?_
    split
    · exact throw _
    · exact trivial.bind fun _ _ => pure rfl
  · exact parseLdap_schemeType
  · exact trivial.bind fun r _ => pure rfl
  · exact pure rfl
  · exact parseUnknown_schemeType

theorem urlGetScheme_name : Yields (urlGetScheme fuel s) fun r =>
    ∃ u v, s = u ++ ':' :: v ∧ ':' ∉ u ∧ r.2.1 = urlGetScheme.schemeType u := by
  obtain ⟨u, v, rfl, hu, hv⟩ := exists_append_of_class isSchemeChar s
  have hcolon : ':' ∉ u := not_mem_of_class hu (by decide)
  unfold urlGetScheme
  rw [scanWhile_eq (by decide), drop_zero, Nat.zero_add, takeWhile_append_of_head hu hv]
  split
  · refine failIf.bind fun _ hc => failIf.bind fun _ _ => pure ?_
    rw [not_not, show charAt (u ++ v) u.length = charAt v 0 from charAt_append u v 0] at hc
    obtain ⟨v, rfl⟩ : ∃ w, v = ':' :: w := by
      cases v with
      | nil => cases hc
      | cons c w => exact ⟨w, by rw [show c = ':' from hc]⟩
    refine ⟨u, v, rfl, hcolon, ?_⟩
    rw [urlGetSubstring_append (not_mem_of_class hu (by decide)) (not_mem_of_class hu (by decide))]
  · exact diverge

theorem urlParse_name : Yields (urlParse fuel s) fun url =>
    ∃ u v, s = u ++ ':' :: v ∧ ':' ∉ u ∧ url.schemeType = urlGetScheme.schemeType u := by
  refine urlGetScheme_name.bind fun r hr => trivial.bind fun _ _ => ?_
  obtain ⟨u, v, hs, hcolon, htype⟩ := hr
  intro url hurl
  exact ⟨u, v, hs, hcolon, (parseSpecific_schemeType _ url hurl).trans htype⟩

end Parser

/-! ## Agreement -/

/-- The name of the scheme begins with `https` and does not end there. -/
def ContinuesHttps (s : List Char) : Prop := "https".toList <+: s ∧ charAt s 5 ≠ ':'

theorem continuesHttps_iff {u v : List Char} (hu : ':' ∉ u) :
    ContinuesHttps (u ++ ':' :: v) ↔ "https".toList <+: u ∧ u ≠ "https".toList := by
  have hprefix : "https".toList <+: u ++ ':' :: v ↔ "https".toList <+: u := by
    have h := strncmpEq_https (v := v) hu
    rw [strncmpEq, Bool.eq_iff_iff, beq_iff_eq, decide_eq_true_eq] at h
    rw [← h, prefix_iff_eq_take, eq_comm]
    rfl
  rw [ContinuesHttps, hprefix]
  refine and_congr_right fun ⟨w, hw⟩ => not_congr ?_
  subst hw
  cases w with
  | nil => exact ⟨fun _ => rfl, fun _ => rfl⟩
  | cons c w =>
    constructor
    · rintro (rfl : c = ':')
      simp at hu
    · intro h
      simp at h

/-- By its name: what the classifier stores. -/
theorem urlGetSchemeType_name {u v : List Char} (hu : ':' ∉ u) :
    urlGetSchemeType (u ++ ':' :: v) =
      if "https".toList <+: u then (none, .https)
      else if urlGetScheme.schemeType u = .unknown then (some .badScheme, .unknown)
      else (none, urlGetScheme.schemeType u) := by
  have hcmp : ∀ name : List Char, ':' ∉ name →
      strncmpEq (u ++ ':' :: v) (name ++ [':']) (name.length + 1) = decide (u = name) := fun name => strncmpEq_colon hu
  have h1 : strncmpEq (u ++ ':' :: v) "ftp:".toList 4 = _ := hcmp "ftp".toList (by decide)
  have h2 : strncmpEq (u ++ ':' :: v) "gsiftp:".toList 7 = _ := hcmp "gsiftp".toList (by decide)
  have h3 : strncmpEq (u ++ ':' :: v) "sshftp:".toList 7 = _ := hcmp "sshftp".toList (by decide)
  have h4 : strncmpEq (u ++ ':' :: v) "http:".toList 5 = _ := hcmp "http".toList (by decide)
  have h5 := strncmpEq_https (v := v) hu
  have h6 : strncmpEq (u ++ ':' :: v) "ldap:".toList 5 = _ := hcmp "ldap".toList (by decide)
  have h7 : strncmpEq (u ++ ':' :: v) "file:".toList 5 = _ := hcmp "file".toList (by decide)
  have h8 : strncmpEq (u ++ ':' :: v) "x-nexus:".toList 8 = _ := hcmp "x-nexus".toList (by decide)
  have h9 : strncmpEq (u ++ ':' :: v) "x-gass-cache:".toList 13 = _ := hcmp "x-gass-cache".toList (by decide)
  simp only [urlGetSchemeType, h1, h2, h3, h4, h5, h6, h7, h8, h9, decide_eq_true_eq]
  by_cases hftp : u = "ftp".toList
  · subst hftp; rfl
  by_cases hgsiftp : u = "gsiftp".toList
  · subst hgsiftp; rfl
  by_cases hsshftp : u = "sshftp".toList
  · subst hsshftp; rfl
  by_cases hhttp : u = "http".toList
  · subst hhttp; rfl
  rw [if_neg hftp, if_neg hgsiftp, if_neg hsshftp, if_neg hhttp]
  by_cases hhttps : "https".toList <+: u
  · rw [if_pos hhttps, if_pos hhttps]
  have hne : u ≠ "https".toList := fun h => hhttps (h ▸ prefix_refl _)
  rw [if_neg hhttps, if_neg hhttps, urlGetScheme.schemeType, if_neg hftp, if_neg hgsiftp, if_neg hhttp, if_neg hne]
  split_ifs <;> first | rfl | contradiction

theorem schemeType_continues {u : List Char} (h : "https".toList <+: u) (hne : u ≠ "https".toList) :
    urlGetScheme.schemeType u = .unknown := by
  obtain ⟨w, rfl⟩ := h
  cases w with
  | nil => exact absurd rfl hne
  | cons c w => simp [urlGetScheme.schemeType]

/-- On every string that the parser accepts, the classifier stores the type of the parser, and fails only if this type is the unknown
one, if and only if the name of the scheme does not continue `https`. -/
theorem urlGetSchemeType_agrees_iff (fuel : Nat) (s : List Char) (url : Url) (h : (urlParse fuel s).run = some (.ok url)) :
    ((urlGetSchemeType s).2 = url.schemeType ∧
        ((urlGetSchemeType s).1 = some .badScheme → url.schemeType = .unknown)) ↔ ¬ ContinuesHttps s := by
  obtain ⟨u, v, rfl, hu, htype⟩ := urlParse_name url h
  rw [continuesHttps_iff hu, urlGetSchemeType_name hu, htype]
  by_cases hhttps : "https".toList <+: u
  · rw [if_pos hhttps]
    by_cases heq : u = "https".toList
    · rw [heq]
      exact iff_of_true ⟨rfl, nofun⟩ fun hc => hc.2 rfl
    · rw [schemeType_continues hhttps heq]
      exact iff_of_false (fun hc => nomatch hc.1) fun hc => hc ⟨hhttps, heq⟩
  · refine iff_of_true ?_ fun hc => hhttps hc.1
    split_ifs with hunknown
    · exact ⟨hunknown.symm, fun _ => hunknown⟩
    · exact ⟨rfl, nofun⟩

/-- A URL with a known scheme. -/
theorem urlGetSchemeType_agrees_gsiftp : (urlGetSchemeType "gsiftp://host/tmp".toList).2 = .gsiftp :=
  ((urlGetSchemeType_agrees_iff 40 "gsiftp://host/tmp".toList
    { scheme := "gsiftp".toList, schemeType := .gsiftp, host := some "host".toList, urlPath := some "/tmp".toList }
    rfl).2 (by unfold ContinuesHttps; decide)).1

/-- The scheme `httpsx` is unknown to the parser, and the classifier takes it for `https`. -/
theorem urlGetSchemeType_httpsx :
    (urlParse 40 "httpsx://host/tmp".toList).run =
        some (.ok { scheme := "httpsx".toList, schemeType := .unknown, host := some "host".toList
                    urlPath := some "/tmp".toList }) ∧
      urlGetSchemeType "httpsx://host/tmp".toList = (none, .https) :=
  ⟨rfl, rfl⟩

end Globus
