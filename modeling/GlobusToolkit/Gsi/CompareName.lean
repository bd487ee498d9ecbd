/-
The comparison of GSS names (gsi/gssapi/source/library/compare_name.c). Names of two types are put in the order of their
types and then compared by the routine for these types. Host names are compared label by label with two kinds of wildcards,
a `*` at the end of a label (RFC 2818) and anything behind a `-` of the first label (GT2). Memory is never short; a
comparison that would read a null string is undefined (`none`).
-/
import GlobusToolkit.Lib.Casecmp
import GlobusToolkit.Lib.Cursor
import GlobusToolkit.Lib.Path

namespace Globus.Gsi

open Lib

/-! ## Host names -/

inductive Wildcard where
  | none
  | gt2
  | rfc2818
  deriving DecidableEq, Repr

/-- `gss_i_name_compatibility_mode`. -/
inductive CompatibilityMode where
  | hybrid
  | strictGt2
  | strictRfc2818
  deriving DecidableEq, Repr

/-- The wildcards that the mode leaves. -/
def CompatibilityMode.wildcards : CompatibilityMode → Wildcard → Wildcard
  | .strictGt2, .rfc2818 => .none
  | .strictRfc2818, .gt2 => .none
  | _, w => w

/-- The loop over equal characters: a star is left where it is a wildcard. -/
def skipEqual (w1 w2 : Wildcard) : List Char → List Char → List Char × List Char
  | c1 :: tok1, c2 :: tok2 =>
    if c1 = c2 ∧ ¬ (w1 = .rfc2818 ∧ c1 = '*') ∧ ¬ (w2 = .rfc2818 ∧ c2 = '*') then skipEqual w1 w2 tok1 tok2
    else (c1 :: tok1, c2 :: tok2)
  | tok1, tok2 => (tok1, tok2)

/-- The check of what remains of two labels. -/
def restMatches (w1 w2 : Wildcard) (firstToken : Bool) (tok1 tok2 : List Char) : Bool :=
  if w1 = .rfc2818 ∧ tok1.head? = some '*' then tok1.tail == []
  else if w2 = .rfc2818 ∧ tok2.head? = some '*' then tok2.tail == []
  else if w1 = .gt2 ∧ tok1.head? = some '-' ∧ firstToken then tok2 == []
  else if w2 = .gt2 ∧ tok2.head? = some '-' ∧ firstToken then tok1 == []
  else tok1 == [] && tok2 == []

def labelMatches (w1 w2 : Wildcard) (firstToken : Bool) (tok1 tok2 : List Char) : Bool :=
  restMatches w1 w2 firstToken (skipEqual w1 w2 tok1 tok2).1 (skipEqual w1 w2 tok1 tok2).2

/-- The loop over the labels of both names. -/
def labelsMatch (w1 w2 : Wildcard) : Bool → List (List Char) → List (List Char) → Bool
  | _, [], [] => true
  | firstToken, tok1 :: run1, tok2 :: run2 => labelMatches w1 w2 firstToken tok1 tok2 && labelsMatch w1 w2 false run1 run2
  | _, _, _ => false

/-- The labels of a host name, in lower case (`gss_l_strsep` with a dot). -/
def labels (host : List Char) : List (List Char) := (lower host).splitOn '.'

/-- `gss_l_compare_hostnames_with_wildcards`. -/
def compareHostnames (mode : CompatibilityMode) (host1 : Option (List Char)) (wildcards1 : Wildcard)
    (host2 : Option (List Char)) (wildcards2 : Wildcard) : Bool :=
  match host1, host2 with
  | some host1, some host2 =>
    labelsMatch (mode.wildcards wildcards1) (mode.wildcards wildcards2) true (labels host1) (labels host2)
  | _, _ => false

/-! ## Names -/

/-- `gss_l_compare_type_t`, in its order. -/
inductive NameType where
  | anonymous
  | x509
  | noOid
  | hostbasedService
  | hostIp
  deriving DecidableEq, Repr

def NameType.rank : NameType → Nat
  | .anonymous => 0
  | .x509 => 1
  | .noOid => 2
  | .hostbasedService => 3
  | .hostIp => 4

/-- An alternative name; a `dNSName` is a string of its encoded length, which may contain a null. -/
inductive GeneralName where
  | dns (data : List Char)
  | ipAddress (data : List Octet)
  | other
  deriving DecidableEq

/-- `gss_name_desc`. -/
structure GssName where
  nameType : NameType
  x509nOneline : Option (List Char)
  hostName : Option (List Char)
  serviceName : Option (List Char)
  ipAddress : Option (List Char)
  ipName : Option (List Char)
  subjectAltNames : Option (List GeneralName)

/-- `strcmp(s, t) == 0`. -/
def sameString (s t : Option (List Char)) : Option Bool := do
  return (← s) == (← t)

/-- `strcasecmp(s, t) == 0`. -/
def sameStringNoCase (s t : Option (List Char)) : Option Bool := do
  return lower (← s) == lower (← t)

/-- Two strings that are both there and equal. -/
def bothEqual (s t : Option (List Char)) : Bool := s.isSome && s == t

/-- The entries of a list of alternative names; `sk_GENERAL_NAME_num` of no list is -1. -/
def altNames (names : Option (List GeneralName)) : List GeneralName := names.getD []

section

variable (mode : CompatibilityMode)

/-! ## The routines for two types -/

/-- The inner loop over `dNSName` entries, with `dns_alt_name_found2`: whether a name is equal, and the flag. -/
def dnsLoop2 (ns1 : List Char) : List GeneralName → Bool → Bool × Bool
  | [], found2 => (false, found2)
  | .dns data :: names2, _ =>
    if compareHostnames mode (some ns1) .rfc2818 (some (cstr data)) .rfc2818 then (true, true) else dnsLoop2 ns1 names2 true
  | _ :: names2, found2 => dnsLoop2 ns1 names2 found2

/-- The outer loop: whether a name is equal, and both flags. -/
def dnsLoop1 (names2 : List GeneralName) (oneline2 : Option (List Char)) : List GeneralName → Bool → Bool → Bool × Bool × Bool
  | [], found1, found2 => (false, found1, found2)
  | .dns data :: names1, _, found2 =>
    let inner := dnsLoop2 mode (cstr data) names2 found2
    if inner.1 then (true, true, inner.2)
    else if (mode ≠ .strictRfc2818 ∨ ¬ inner.2) ∧ compareHostnames mode (some (cstr data)) .rfc2818 oneline2 .none then
      (true, true, inner.2)
    else dnsLoop1 names2 oneline2 names1 true inner.2
  | _ :: names1, found1, found2 => dnsLoop1 names2 oneline2 names1 found1 found2

/-- A `dNSName` of the list matches a text. -/
def anyDns (names : List GeneralName) (p : List Char → Bool) : Bool :=
  names.any fun
    | .dns data => p (cstr data)
    | _ => false

/-- `gss_l_compare_x509_to_x509`. -/
def compareX509ToX509 (name1 name2 : GssName) : Bool :=
  let names1 := altNames name1.subjectAltNames
  -- The number of names of the second one is only asked for if the first one has a list.
  let names2 := if name1.subjectAltNames.isSome then altNames name2.subjectAltNames else []
  let subjects := bothEqual name1.x509nOneline name2.x509nOneline
  if mode ≠ .strictGt2 then
    let (equal, found1, found2) := dnsLoop1 mode names2 name2.x509nOneline names1 false false
    equal ||
      ((mode ≠ .strictRfc2818 ∨ ¬ found1) && name1.hostName.isSome &&
        anyDns names2 fun ns2 => compareHostnames mode name1.x509nOneline .none (some ns2) .rfc2818) ||
      (names1.any fun
        | .ipAddress a => names2.contains (.ipAddress a)
        | _ => false) ||
      ((mode ≠ .strictRfc2818 ∨ ¬ found1 ∨ ¬ found2) && subjects)
  else subjects

/-- What a comparison with a host-based service name finds: a `dNSName` entry, the host name of the subject, or nothing. -/
inductive HostMatch where
  | dnsName (data : List Char)
  | subject
  | notEqual
  deriving DecidableEq

/-- The loop over the alternative names of `gss_l_compare_x509_to_hostbased_service`: the entry that is equal, if there is
one, and `dns_alt_name_found`; in strict mode the first entry ends it if the service is another. -/
def serviceLoop (host service : Option (List Char)) : List GeneralName → Bool → Option (Except HostMatch Bool)
  | [], found => some (.ok found)
  | .dns data :: names, _ => do
    if mode = .strictRfc2818 then
      if !(← sameStringNoCase service (some "host".toList)) then return .error .notEqual
    if compareHostnames mode (some (cstr data)) .rfc2818 host .gt2 then return .error (.dnsName data)
    serviceLoop host service names true
  | _ :: names, found => serviceLoop host service names found

/-- `gss_l_compare_x509_to_hostbased_service`. -/
def x509ToHostbasedService (name1 name2 : GssName) : Option HostMatch := do
  let names1 := if mode ≠ .strictGt2 then altNames name1.subjectAltNames else []
  match ← serviceLoop mode name2.hostName name2.serviceName names1 false with
  | .error result => return result
  | .ok found =>
    if mode ≠ .strictRfc2818 ∨ ¬ found then
      if mode = .strictRfc2818 then
        if !(← sameStringNoCase name1.serviceName name2.serviceName) then return .notEqual
      if compareHostnames mode name1.hostName .gt2 name2.hostName .gt2 then return .subject
    return .notEqual

/-- `name_equal` of it. -/
def compareX509ToHostbasedService (name1 name2 : GssName) : Option Bool :=
  (x509ToHostbasedService mode name1 name2).map (· ≠ .notEqual)

/-- `gss_l_compare_x509_to_host_ip`, with the text of an address (`globus_libc_ints_to_contact_string`). -/
def compareX509ToHostIp (contactString : List Octet → List Char) (name1 name2 : GssName) : Bool :=
  let names1 := if mode ≠ .strictGt2 then altNames name1.subjectAltNames else []
  let found := names1.any fun
    | .dns _ => true
    | _ => false
  (anyDns names1 fun ns1 => compareHostnames mode (some ns1) .rfc2818 name2.hostName .gt2) ||
    (names1.any fun
      | .ipAddress a => name2.ipAddress == some (contactString a)
      | _ => false) ||
    ((mode ≠ .strictRfc2818 ∨ ¬ found) && name1.hostName.isSome &&
      (compareHostnames mode name1.hostName .none name2.hostName .gt2 ||
        (mode ≠ .strictRfc2818 && name2.ipName.isSome && compareHostnames mode name1.hostName .none name2.ipName .gt2)))

/-- `gss_l_compare_default_to_hostbased_service`. -/
def compareDefaultToHostbasedService (name1 name2 : GssName) : Option Bool := do
  if mode = .strictRfc2818 then
    if name1.serviceName.isSome && name2.serviceName.isSome then
      if !(← sameStringNoCase name1.serviceName name2.serviceName) then return false
    else if name2.serviceName.isSome then
      if !(← sameStringNoCase name2.serviceName (some "host".toList)) then return false
  return compareHostnames mode name1.hostName .gt2 name2.hostName .gt2

/-- `gss_l_compare_default_to_host_ip`. -/
def compareDefaultToHostIp (name1 name2 : GssName) : Bool :=
  compareHostnames mode name1.hostName .none name2.hostName .none ||
    (mode ≠ .strictRfc2818 && name2.ipName.isSome && compareHostnames mode name1.hostName .none name2.ipName .none)

/-- `gss_l_compare_hostbased_service_to_hostbased_service`. -/
def compareHostbasedServices (name1 name2 : GssName) : Option Bool := do
  if mode = .strictRfc2818 then
    if !(← sameStringNoCase name1.serviceName name2.serviceName) then return false
  return compareHostnames mode name1.hostName .gt2 name2.hostName .gt2

/-- `gss_l_compare_hostbased_service_to_host_ip`. -/
def compareHostbasedServiceToHostIp (name1 name2 : GssName) : Option Bool := do
  if mode = .strictRfc2818 then
    if !(← sameStringNoCase name1.serviceName (some "host".toList)) then return false
  return compareHostnames mode name1.hostName .gt2 name2.hostName .none ||
    (mode ≠ .strictRfc2818 && name2.ipName.isSome && compareHostnames mode name1.hostName .gt2 name2.ipName .none)

/-- `gss_l_compare_host_ip_to_host_ip`. -/
def compareHostIps (name1 name2 : GssName) : Bool :=
  compareHostnames mode name1.hostName .gt2 name2.hostName .gt2 ||
    bothEqual name1.ipAddress name2.ipAddress ||
    (mode ≠ .strictRfc2818 &&
      (compareHostnames mode name1.ipName .gt2 name2.hostName .gt2 ||
        compareHostnames mode name1.hostName .gt2 name2.ipName .gt2))

/-- The routine for two names in the order of their types. -/
def compareOrdered (contactString : List Octet → List Char) (name1 name2 : GssName) : Option Bool :=
  match name1.nameType, name2.nameType with
  | .anonymous, .anonymous => some (mode ≠ .strictRfc2818)
  | .anonymous, _ => some false
  | .x509, .x509 => some (compareX509ToX509 mode name1 name2)
  | .x509, .noOid => sameString name1.x509nOneline name2.x509nOneline
  | .x509, .hostbasedService => compareX509ToHostbasedService mode name1 name2
  | .x509, .hostIp => some (compareX509ToHostIp mode contactString name1 name2)
  | .noOid, .noOid => sameString name1.x509nOneline name2.x509nOneline
  | .noOid, .hostbasedService => compareDefaultToHostbasedService mode name1 name2
  | .noOid, .hostIp => some (compareDefaultToHostIp mode name1 name2)
  | .hostbasedService, .hostbasedService => compareHostbasedServices mode name1 name2
  | .hostbasedService, .hostIp => compareHostbasedServiceToHostIp mode name1 name2
  | .hostIp, .hostIp => some (compareHostIps mode name1 name2)
  | _, _ => none

/-- `gss_compare_name`, the value of `name_equal`. -/
def compareName (contactString : List Octet → List Char) (name1 name2 : GssName) : Option Bool :=
  if name1.nameType.rank > name2.nameType.rank then compareOrdered mode contactString name2 name1
  else compareOrdered mode contactString name1 name2

end

/-! ## The labels of host names -/

section Labels

variable {w1 w2 : Wildcard}

theorem skipEqual_swap (a : List Char) : ∀ b, skipEqual w1 w2 a b = (skipEqual w2 w1 b a).swap := by
  induction a with
  | nil => intro b; cases b <;> rfl
  | cons c a ih =>
    intro b
    cases b with
    | nil => rfl
    | cons d b =>
      have hiff : (c = d ∧ ¬ (w1 = .rfc2818 ∧ c = '*') ∧ ¬ (w2 = .rfc2818 ∧ d = '*')) ↔
          (d = c ∧ ¬ (w2 = .rfc2818 ∧ d = '*') ∧ ¬ (w1 = .rfc2818 ∧ c = '*')) := by tauto
      simp only [skipEqual, hiff]
      split
      · exact ih b
      · rfl

theorem eq_star_of_skipEqual (a : List Char) : ∀ {b : List Char} {c : Char},
    (skipEqual w1 w2 a b).1.head? = some c → (skipEqual w1 w2 a b).2.head? = some c → c = '*' := by
  induction a with
  | nil => intro b c h; cases b <;> cases h
  | cons d a ih =>
    intro b c h1 h2
    cases b with
    | nil => cases h2
    | cons e b =>
      simp only [skipEqual] at h1 h2
      split at h1
      · next hskip =>
        rw [if_pos hskip] at h2
        exact ih h1 h2
      · next hskip =>
        rw [if_neg hskip] at h2
        cases h1
        cases h2
        simp only [true_and] at hskip
        by_contra hne
        exact hskip ⟨fun h => hne h.2, fun h => hne h.2⟩

/-- A label matches both ways round, unless a star is a wildcard on both sides. -/
theorem labelMatches_swap (hw : ¬ (w1 = .rfc2818 ∧ w2 = .rfc2818)) (firstToken : Bool) (a b : List Char) :
    labelMatches w1 w2 firstToken a b = labelMatches w2 w1 firstToken b a := by
  have hheads : ¬ ((skipEqual w1 w2 a b).1.head? = some '-' ∧ (skipEqual w1 w2 a b).2.head? = some '-') := fun h =>
    absurd (eq_star_of_skipEqual a h.1 h.2) (by decide)
  unfold labelMatches
  rw [skipEqual_swap b a]
  generalize skipEqual w1 w2 a b = r at hheads
  obtain ⟨r1, r2⟩ := r
  simp only [Prod.swap] at hheads ⊢
  unfold restMatches
  cases w1 <;> cases w2 <;> simp only [reduceCtorEq, false_and, true_and, if_false, and_self, not_true_eq_false] at hw ⊢
  · rw [Bool.and_comm]
  · split <;> [rfl; rw [Bool.and_comm]]
  · split <;> [rfl; rw [Bool.and_comm]]
  · split <;> [rfl; rw [Bool.and_comm]]
  · -- Both first labels cannot go on with a dash.
    split
    · next h1 =>
      rw [if_neg fun h2 => hheads ⟨h1.1, h2.1⟩]
    · split <;> [rfl; rw [Bool.and_comm]]
  · split
    · rfl
    · split <;> [rfl; rw [Bool.and_comm]]
  · split <;> [rfl; rw [Bool.and_comm]]
  · split
    · rfl
    · split <;> [rfl; rw [Bool.and_comm]]

theorem labelsMatch_swap (hw : ¬ (w1 = .rfc2818 ∧ w2 = .rfc2818)) (as : List (List Char)) : ∀ firstToken bs,
    labelsMatch w1 w2 firstToken as bs = labelsMatch w2 w1 firstToken bs as := by
  induction as with
  | nil => intro firstToken bs; cases bs <;> rfl
  | cons a as ih =>
    intro firstToken bs
    cases bs with
    | nil => rfl
    | cons b bs => rw [labelsMatch, labelsMatch, labelMatches_swap hw, ih]

end Labels

/-- Host names match both ways round, unless a star is a wildcard on both sides. -/
theorem compareHostnames_swap (mode : CompatibilityMode) {w1 w2 : Wildcard} (hw : ¬ (w1 = .rfc2818 ∧ w2 = .rfc2818))
    (host1 host2 : Option (List Char)) :
    compareHostnames mode host1 w1 host2 w2 = compareHostnames mode host2 w2 host1 w1 := by
  have hmode : ¬ (mode.wildcards w1 = .rfc2818 ∧ mode.wildcards w2 = .rfc2818) := by
    cases mode <;> cases w1 <;> cases w2 <;> simp_all [CompatibilityMode.wildcards]
  cases host1 with
  | none => cases host2 <;> rfl
  | some host1 =>
    cases host2 with
    | none => rfl
    | some host2 => exact labelsMatch_swap hmode _ _ _

/-! ## Two X.509 names -/

/-- The strings of the `dNSName` entries. -/
def dnsNames (names : List GeneralName) : List (List Char) :=
  names.filterMap fun
    | .dns data => some (cstr data)
    | _ => none

def GssName.dnsNames (name : GssName) : List (List Char) := Gsi.dnsNames (altNames name.subjectAltNames)

@[simp] theorem dnsNames_nil : dnsNames [] = [] := rfl

@[simp] theorem dnsNames_dns (data : List Char) (names : List GeneralName) :
    dnsNames (.dns data :: names) = cstr data :: dnsNames names := rfl

@[simp] theorem dnsNames_ip (a : List Octet) (names : List GeneralName) : dnsNames (.ipAddress a :: names) = dnsNames names := rfl

@[simp] theorem dnsNames_other (names : List GeneralName) : dnsNames (.other :: names) = dnsNames names := rfl

theorem anyDns_iff {names : List GeneralName} {p : List Char → Bool} : anyDns names p ↔ ∃ ns ∈ dnsNames names, p ns := by
  induction names with
  | nil => simp [anyDns]
  | cons g names ih =>
    cases g with
    | dns data => simpa [anyDns] using or_congr Iff.rfl (by simpa [anyDns] using ih)
    | ipAddress a => simpa [anyDns] using ih
    | other => simpa [anyDns] using ih

variable {mode : CompatibilityMode}

theorem dnsLoop2_spec (ns1 : List Char) (names2 : List GeneralName) : ∀ found2,
    ((dnsLoop2 mode ns1 names2 found2).1 ↔
      ∃ ns2 ∈ dnsNames names2, compareHostnames mode (some ns1) .rfc2818 (some ns2) .rfc2818) ∧
    ((dnsLoop2 mode ns1 names2 found2).1 = false →
      ((dnsLoop2 mode ns1 names2 found2).2 ↔ found2 ∨ dnsNames names2 ≠ [])) := by
  induction names2 with
  | nil => intro found2; simp [dnsLoop2]
  | cons g names2 ih =>
    intro found2
    cases g with
    | dns data =>
      rw [dnsLoop2]
      split
      · next h => simp [h]
      · next h =>
        obtain ⟨h1, h2⟩ := ih true
        refine ⟨?_, fun hne => ?_⟩
        · rw [h1]
          simp [h]
        · rw [h2 hne]
          simp
    | ipAddress a => simpa [dnsLoop2] using ih found2
    | other => simpa [dnsLoop2] using ih found2

/-- A `dNSName` of one name matches one of the other. -/
def DnsDns (mode : CompatibilityMode) (names1 names2 : List (List Char)) : Prop :=
  ∃ ns1 ∈ names1, ∃ ns2 ∈ names2, compareHostnames mode (some ns1) .rfc2818 (some ns2) .rfc2818

/-- A `dNSName` of one name matches the subject of the other, which counts in strict mode only if that has none. -/
def DnsSubject (mode : CompatibilityMode) (names1 : List (List Char)) (oneline2 : Option (List Char)) (names2 : List (List Char)) :
    Prop :=
  (mode = .strictRfc2818 → names2 = []) ∧ ∃ ns1 ∈ names1, compareHostnames mode (some ns1) .rfc2818 oneline2 .none

theorem dnsLoop1_spec (names2 : List GeneralName) (oneline2 : Option (List Char)) (names1 : List GeneralName) :
    ∀ found1 found2 : Bool, (found2 → dnsNames names2 ≠ []) →
    ((dnsLoop1 mode names2 oneline2 names1 found1 found2).1 ↔
      DnsDns mode (dnsNames names1) (dnsNames names2) ∨ DnsSubject mode (dnsNames names1) oneline2 (dnsNames names2)) ∧
    ((dnsLoop1 mode names2 oneline2 names1 found1 found2).1 = false →
      ((dnsLoop1 mode names2 oneline2 names1 found1 found2).2.1 ↔ found1 ∨ dnsNames names1 ≠ []) ∧
      ((dnsLoop1 mode names2 oneline2 names1 found1 found2).2.2 ↔ found2 ∨ (dnsNames names1 ≠ [] ∧ dnsNames names2 ≠ []))) := by
  induction names1 with
  | nil => intro found1 found2 _; simp [dnsLoop1, DnsDns, DnsSubject]
  | cons g names1 ih =>
    intro found1 found2 hfound
    cases g with
    | ipAddress a => simpa [dnsLoop1] using ih found1 found2 hfound
    | other => simpa [dnsLoop1] using ih found1 found2 hfound
    | dns data =>
      obtain ⟨hany, hflag⟩ := @dnsLoop2_spec mode (cstr data) names2 found2
      rw [dnsLoop1]
      generalize dnsLoop2 mode (cstr data) names2 found2 = inner at hany hflag
      obtain ⟨equal, found⟩ := inner
      cases equal with
      | true => exact ⟨iff_of_true rfl (.inl ⟨_, by simp, hany.1 rfl⟩), fun h => nomatch h⟩
      | false =>
        have hnone : ¬ ∃ ns2 ∈ dnsNames names2, compareHostnames mode (some (cstr data)) .rfc2818 (some ns2) .rfc2818 :=
          fun h => nomatch hany.2 h
        have hfound' : found ↔ dnsNames names2 ≠ [] := (hflag rfl).trans (or_iff_right_of_imp hfound)
        have hstrict : (mode ≠ .strictRfc2818 ∨ ¬ found) ↔ (mode = .strictRfc2818 → dnsNames names2 = []) := by
          rw [hfound', not_not, imp_iff_not_or]
        rw [if_neg (by simp)]
        split
        · next h => exact ⟨iff_of_true rfl (.inr ⟨hstrict.1 h.1, _, by simp, h.2⟩), fun h => nomatch h⟩
        · next h =>
          obtain ⟨ih1, ih2⟩ := ih true found hfound'.1
          refine ⟨?_, fun hne => ?_⟩
          · rw [ih1, dnsNames_dns]
            refine or_congr ?_ ?_
            · simp only [DnsDns, List.exists_mem_cons_iff, hnone, false_or]
            · rw [hstrict, not_and] at h
              simp only [DnsSubject, List.exists_mem_cons_iff]
              exact and_congr_right fun hs => (or_iff_right (h hs)).symm
          · obtain ⟨ih3, ih4⟩ := ih2 hne
            rw [ih3, ih4, hfound']
            simp only [dnsNames_dns, ne_eq, reduceCtorEq, not_false_eq_true, true_and, or_true, true_or]
            constructor
            · rintro (h2 | h2)
              · exact .inr h2
              · exact .inr h2.2
            · rintro (h2 | h2)
              · exact .inl (hfound h2)
              · exact .inl h2

/-- What two X.509 names have in common whichever comes first: an address, or the subject. -/
def InCommon (mode : CompatibilityMode) (name1 name2 : GssName) : Prop :=
  (∃ a, .ipAddress a ∈ altNames name1.subjectAltNames ∧ .ipAddress a ∈ altNames name2.subjectAltNames) ∨
    ((mode = .strictRfc2818 → name1.dnsNames = [] ∨ name2.dnsNames = []) ∧
      bothEqual name1.x509nOneline name2.x509nOneline)

/-- A `dNSName` of the first name matches an entry or the subject of the second. -/
def DnsFound (mode : CompatibilityMode) (name1 name2 : GssName) : Prop :=
  DnsDns mode name1.dnsNames name2.dnsNames ∨ DnsSubject mode name1.dnsNames name2.x509nOneline name2.dnsNames

/-- A `dNSName` of the second name matches the subject of the first, which is asked for if that has a host name and a list of
alternative names. -/
def SubjectFound (mode : CompatibilityMode) (name1 name2 : GssName) : Prop :=
  name1.hostName.isSome ∧ name1.subjectAltNames.isSome ∧
    DnsSubject mode name2.dnsNames name1.x509nOneline name1.dnsNames

theorem any_ipAddress {names1 names2 : List GeneralName} :
    (names1.any fun
      | .ipAddress a => names2.contains (.ipAddress a)
      | _ => false) ↔ ∃ a, .ipAddress a ∈ names1 ∧ .ipAddress a ∈ names2 := by
  rw [List.any_eq_true]
  constructor
  · rintro ⟨g, hg, h⟩
    cases g with
    | dns data => cases h
    | ipAddress a => exact ⟨a, hg, by simpa using h⟩
    | other => cases h
  · rintro ⟨a, h1, h2⟩
    exact ⟨.ipAddress a, h1, by simpa using h2⟩

theorem compareX509ToX509_iff (hmode : mode ≠ .strictGt2) (name1 name2 : GssName) :
    compareX509ToX509 mode name1 name2 ↔
      DnsFound mode name1 name2 ∨ SubjectFound mode name1 name2 ∨ InCommon mode name1 name2 := by
  have hswap : ∀ ns2, compareHostnames mode name1.x509nOneline .none (some ns2) .rfc2818 =
      compareHostnames mode (some ns2) .rfc2818 name1.x509nOneline .none :=
    fun ns2 => compareHostnames_swap mode (by simp) _ _
  unfold compareX509ToX509
  cases hlist : name1.subjectAltNames with
  | none =>
    have hdns : name1.dnsNames = [] := by rw [GssName.dnsNames, hlist]; rfl
    simp [hmode, altNames, dnsLoop1, anyDns, DnsFound, DnsDns, DnsSubject, SubjectFound, InCommon, hdns, hlist]
  | some l =>
    have hdns : dnsNames l = name1.dnsNames := by rw [GssName.dnsNames, hlist]; rfl
    obtain ⟨hequal, hflags⟩ := @dnsLoop1_spec mode (altNames name2.subjectAltNames) name2.x509nOneline l false false (by simp)
    simp only [hmode, ne_eq, not_false_eq_true, if_true, Option.isSome_some, altNames, Option.getD_some]
    simp only [altNames] at hequal hflags
    generalize dnsLoop1 mode (name2.subjectAltNames.getD []) name2.x509nOneline l false false = r at hequal hflags
    obtain ⟨equal, found1, found2⟩ := r
    dsimp only at hequal hflags ⊢
    cases equal with
    | true =>
      refine iff_of_true (by simp) (.inl ?_)
      rw [DnsFound, ← hdns]
      exact hequal.1 rfl
    | false =>
      obtain ⟨hfound1, hfound2⟩ := hflags rfl
      have hnot : ¬ DnsFound mode name1 name2 := fun h => by
        rw [DnsFound, ← hdns] at h
        cases hequal.2 h
      simp only [Bool.false_or, Bool.or_eq_true, Bool.and_eq_true, decide_eq_true_iff, anyDns_iff, any_ipAddress, hswap,
        hnot, false_or, or_assoc]
      refine or_congr ?_ (or_congr ?_ ?_)
      · rw [SubjectFound, DnsSubject, hfound1, hdns, hlist]
        simp only [Bool.false_eq_true, false_or, ne_eq, not_not, Option.isSome_some, true_and]
        rw [imp_iff_not_or, and_assoc, and_left_comm]
        rfl
      · rw [hlist]
        rfl
      · have hname2 : dnsNames (name2.subjectAltNames.getD []) = name2.dnsNames := rfl
        rw [imp_iff_not_or, hfound1, hfound2, hdns, hname2]
        refine and_congr_left fun _ => or_congr Iff.rfl ?_
        by_cases hnil : name1.dnsNames = [] <;> simp [hnil]

theorem compareX509ToX509_strictGt2 (name1 name2 : GssName) :
    compareX509ToX509 .strictGt2 name1 name2 = bothEqual name1.x509nOneline name2.x509nOneline := by
  simp [compareX509ToX509]

/-! ## Symmetry -/

theorem sameString_comm (s t : Option (List Char)) : sameString s t = sameString t s := by
  cases s <;> cases t <;> simp [sameString, Bool.beq_comm]

theorem sameStringNoCase_comm (s t : Option (List Char)) : sameStringNoCase s t = sameStringNoCase t s := by
  cases s <;> cases t <;> simp [sameStringNoCase, Bool.beq_comm]

theorem bothEqual_comm (s t : Option (List Char)) : bothEqual s t = bothEqual t s := by
  cases s <;> cases t <;> simp [bothEqual, Bool.beq_comm]

theorem inCommon_comm (name1 name2 : GssName) : InCommon mode name1 name2 ↔ InCommon mode name2 name1 := by
  unfold InCommon
  rw [bothEqual_comm, or_comm (a := name1.dnsNames = [])]
  refine or_congr ?_ Iff.rfl
  exact exists_congr fun a => and_comm

theorem compareHostbasedServices_comm (name1 name2 : GssName) :
    compareHostbasedServices mode name1 name2 = compareHostbasedServices mode name2 name1 := by
  unfold compareHostbasedServices
  rw [sameStringNoCase_comm, compareHostnames_swap mode (by simp)]

theorem compareHostIps_comm (name1 name2 : GssName) : compareHostIps mode name1 name2 = compareHostIps mode name2 name1 := by
  have hswap := fun s t => @compareHostnames_swap mode .gt2 .gt2 (by simp) s t
  unfold compareHostIps
  rw [hswap name1.hostName name2.hostName, bothEqual_comm, hswap name1.ipName, hswap name1.hostName, Bool.or_comm
    (compareHostnames mode name2.hostName .gt2 name1.ipName .gt2)]

/-- What is found with the first name in front is found the other way round. -/
def FoundBack (mode : CompatibilityMode) (name1 name2 : GssName) : Prop :=
  DnsFound mode name1 name2 → DnsFound mode name2 name1 ∨ SubjectFound mode name2 name1

/-- Two X.509 names are compared alike both ways round exactly if they have something in common, or what a `dNSName` of one
of them matches in the other is found both ways round. -/
theorem compareX509ToX509_comm (hmode : mode ≠ .strictGt2) (name1 name2 : GssName) :
    compareX509ToX509 mode name1 name2 = compareX509ToX509 mode name2 name1 ↔
      InCommon mode name1 name2 ∨ (FoundBack mode name1 name2 ∧ FoundBack mode name2 name1) := by
  have hsubject : ∀ {n m : GssName}, SubjectFound mode n m → DnsFound mode m n := fun h => .inr h.2.2
  rw [Bool.eq_iff_iff, compareX509ToX509_iff hmode, compareX509ToX509_iff hmode, inCommon_comm name2 name1]
  unfold FoundBack
  constructor
  · intro h
    by_cases hcommon : InCommon mode name1 name2
    · exact .inl hcommon
    · simp only [hcommon, or_false] at h
      exact .inr ⟨fun h1 => h.1 (.inl h1), fun h2 => h.2 (.inl h2)⟩
  · rintro (hcommon | ⟨h1, h2⟩)
    · exact iff_of_true (.inr (.inr hcommon)) (.inr (.inr hcommon))
    · constructor
      · rintro (h | h | h)
        · exact (h1 h).imp_right .inl
        · exact .inl (hsubject h)
        · exact .inr (.inr h)
      · rintro (h | h | h)
        · exact (h2 h).imp_right .inl
        · exact .inl (hsubject h)
        · exact .inr (.inr h)

/-- When the comparison does not depend on the order of the names. -/
def OrderFree (mode : CompatibilityMode) (name1 name2 : GssName) : Prop :=
  name1.nameType = .x509 → name2.nameType = .x509 → mode ≠ .strictGt2 →
    InCommon mode name1 name2 ∨ (FoundBack mode name1 name2 ∧ FoundBack mode name2 name1)

theorem rank_injective {t t' : NameType} (h : t.rank = t'.rank) : t = t' := by
  cases t <;> cases t' <;> first | rfl | cases h

/-- The comparison of two names is symmetric exactly if they are not both X.509 names, or are found both ways round. -/
theorem compare_name_symm_iff (mode : CompatibilityMode) (contactString : List Octet → List Char) (name1 name2 : GssName) :
    compareName mode contactString name1 name2 = compareName mode contactString name2 name1 ↔ OrderFree mode name1 name2 := by
  rcases lt_trichotomy name1.nameType.rank name2.nameType.rank with hlt | heq | hlt
  · refine iff_of_true ?_ ?_
    · rw [compareName, compareName, if_neg (by omega), if_pos hlt]
    · intro h1 h2
      rw [h1, h2] at hlt
      exact absurd hlt (by decide)
  · have htype : name1.nameType = name2.nameType := rank_injective heq
    rw [compareName, compareName, if_neg (by omega), if_neg (by omega)]
    unfold compareOrdered OrderFree
    rw [← htype]
    cases hname : name1.nameType with
    | anonymous => simp
    | noOid => simp [sameString_comm name1.x509nOneline]
    | hostbasedService => simp [compareHostbasedServices_comm name1]
    | hostIp => simp [compareHostIps_comm name1]
    | x509 =>
      simp only [Option.some.injEq, true_imp_iff]
      by_cases hmode : mode = .strictGt2
      · subst hmode
        simp [compareX509ToX509_strictGt2, bothEqual_comm name1.x509nOneline]
      · rw [compareX509ToX509_comm hmode]
        simp [hmode]
  · refine iff_of_true ?_ ?_
    · rw [compareName, compareName, if_pos hlt, if_neg (by omega)]
    · intro h1 h2
      rw [h1, h2] at hlt
      exact absurd hlt (by decide)

/-- A name with the alternative name `*.org`, and one without alternative names for the host `x.org`. -/
theorem compare_name_asymmetric :
    compareName .hybrid (fun _ => []) ⟨.x509, some "/CN=a".toList, some "a".toList, none, none, none, some [.dns "*.org".toList]⟩
      ⟨.x509, some "/CN=x.org".toList, some "x.org".toList, none, none, none, none⟩ = some true ∧
    compareName .hybrid (fun _ => []) ⟨.x509, some "/CN=x.org".toList, some "x.org".toList, none, none, none, none⟩
      ⟨.x509, some "/CN=a".toList, some "a".toList, none, none, none, some [.dns "*.org".toList]⟩ = some false := by
  decide

/-! ## Whole names -/

/-- The wildcard rules for an entry and the host of a service. -/
def EntryMatches (mode : CompatibilityMode) (entry : List Char) (name2 : GssName) : Prop :=
  compareHostnames mode (some entry) .rfc2818 name2.hostName .gt2

instance {entry : List Char} {name2 : GssName} : Decidable (EntryMatches mode entry name2) :=
  inferInstanceAs (Decidable (_ = true))

/-- The service must be `host` for an entry to count in strict mode. -/
def ServiceCounts (mode : CompatibilityMode) (name2 : GssName) : Prop :=
  mode = .strictRfc2818 → sameStringNoCase name2.serviceName (some "host".toList) = some true

/-- The first entry of the list whose string matches. -/
def FirstMatch (mode : CompatibilityMode) (names : List GeneralName) (data : List Char) (name2 : GssName) : Prop :=
  ∃ pre post, names = pre ++ .dns data :: post ∧ (∀ d, .dns d ∈ pre → ¬ EntryMatches mode (cstr d) name2) ∧
    EntryMatches mode (cstr data) name2

variable {data : List Char} {name2 : GssName}

theorem firstMatch_nil : ¬ FirstMatch mode [] data name2 := by
  rintro ⟨pre, post, h, -⟩
  simp at h

theorem firstMatch_cons {g : GeneralName} {names : List GeneralName} :
    FirstMatch mode (g :: names) data name2 ↔
      (g = .dns data ∧ EntryMatches mode (cstr data) name2) ∨
      ((∀ d, g = .dns d → ¬ EntryMatches mode (cstr d) name2) ∧ FirstMatch mode names data name2) := by
  constructor
  · rintro ⟨pre, post, h, hpre, hmatch⟩
    cases pre with
    | nil =>
      cases h
      exact .inl ⟨rfl, hmatch⟩
    | cons g' pre =>
      cases h
      exact .inr ⟨fun d hd => hpre d (by simp [hd]), pre, post, rfl, fun d hd => hpre d (by simp [hd]), hmatch⟩
  · rintro (⟨rfl, hmatch⟩ | ⟨hg, pre, post, rfl, hpre, hmatch⟩)
    · exact ⟨[], names, rfl, by simp, hmatch⟩
    · refine ⟨g :: pre, post, rfl, fun d hd => ?_, hmatch⟩
      rcases List.mem_cons.1 hd with rfl | hd
      · exact hg d rfl
      · exact hpre d hd

theorem serviceLoop_dnsName_iff (names : List GeneralName) : ∀ found,
    serviceLoop mode name2.hostName name2.serviceName names found = some (.error (.dnsName data)) ↔
      ServiceCounts mode name2 ∧ FirstMatch mode names data name2 := by
  induction names with
  | nil => simp [serviceLoop, firstMatch_nil]
  | cons g names ih =>
    intro found
    rw [firstMatch_cons]
    cases g with
    | ipAddress a => simpa [serviceLoop] using ih found
    | other => simpa [serviceLoop] using ih found
    | dns d =>
      by_cases hcounts : ServiceCounts mode name2
      · have hloop : serviceLoop mode name2.hostName name2.serviceName (.dns d :: names) found =
            if compareHostnames mode (some (cstr d)) .rfc2818 name2.hostName .gt2 then some (.error (.dnsName d))
            else serviceLoop mode name2.hostName name2.serviceName names true := by
          by_cases hmode : mode = .strictRfc2818
          · rw [serviceLoop, if_pos hmode, hcounts hmode]
            rfl
          · simp [serviceLoop, hmode]
        rw [hloop]
        change (if EntryMatches mode (cstr d) name2 then _ else _) = _ ↔ _
        by_cases hmatch : EntryMatches mode (cstr d) name2
        · rw [if_pos hmatch]
          simp only [Option.some.injEq, Except.error.injEq, HostMatch.dnsName.injEq, hcounts, true_and]
          constructor
          · rintro rfl
            exact .inl ⟨rfl, hmatch⟩
          · rintro (⟨h, -⟩ | ⟨h, -⟩)
            · exact GeneralName.dns.inj h
            · exact absurd hmatch (h d rfl)
        · rw [if_neg hmatch, ih true]
          refine and_congr_right fun _ => ?_
          rw [or_iff_right]
          · exact (and_iff_right (by rintro _ ⟨rfl⟩; exact hmatch)).symm
          · rintro ⟨h, h'⟩
            exact hmatch (GeneralName.dns.inj h ▸ h')
      · refine iff_of_false ?_ fun h => hcounts h.1
        obtain ⟨hmode, hservice⟩ : mode = .strictRfc2818 ∧
            sameStringNoCase name2.serviceName (some "host".toList) ≠ some true := by
          simpa [ServiceCounts] using hcounts
        rw [serviceLoop, if_pos hmode]
        cases hsame : sameStringNoCase name2.serviceName (some "host".toList) with
        | none => simp
        | some b =>
          cases b with
          | true => exact absurd hsame hservice
          | false => simp

/-- Equality because of an entry: the first one whose string matches. -/
theorem x509ToHostbasedService_dnsName_iff {name1 name2 : GssName} :
    x509ToHostbasedService mode name1 name2 = some (.dnsName data) ↔
      mode ≠ .strictGt2 ∧ ServiceCounts mode name2 ∧ FirstMatch mode (altNames name1.subjectAltNames) data name2 := by
  have hloop : x509ToHostbasedService mode name1 name2 = some (.dnsName data) ↔
      serviceLoop mode name2.hostName name2.serviceName
        (if mode ≠ .strictGt2 then altNames name1.subjectAltNames else []) false = some (.error (.dnsName data)) := by
    unfold x509ToHostbasedService
    simp only [Option.bind_eq_bind]
    cases serviceLoop mode name2.hostName name2.serviceName
        (if mode ≠ .strictGt2 then altNames name1.subjectAltNames else []) false with
    | none => simp
    | some r =>
      cases r with
      | error result => simp
      | ok found =>
        simp only [Option.bind_some, reduceCtorEq, iff_false, Option.some.injEq]
        have hsubject : (if compareHostnames mode name1.hostName .gt2 name2.hostName .gt2 then pure HostMatch.subject
            else pure .notEqual : Option HostMatch) ≠ some (.dnsName data) := by
          split <;> simp
        split
        · split
          · cases sameStringNoCase name1.serviceName name2.serviceName with
            | none => simp
            | some b => cases b <;> [simp; exact hsubject]
          · exact hsubject
        · simp
  rw [hloop, serviceLoop_dnsName_iff]
  by_cases hmode : mode = .strictGt2
  · simp [hmode, firstMatch_nil]
  · simp [hmode]

/-- No entry that matches up to a null is the first to match. -/
def NoCutMatch (mode : CompatibilityMode) (name1 name2 : GssName) : Prop :=
  mode ≠ .strictGt2 → ServiceCounts mode name2 →
    ∀ data, FirstMatch mode (altNames name1.subjectAltNames) data name2 → '\x00' ∉ data

/-- An entry that is found equal matches as a whole exactly if the first entry to match has no null. -/
theorem dns_name_matches_whole_iff (mode : CompatibilityMode) (name1 name2 : GssName) :
    (∀ data, x509ToHostbasedService mode name1 name2 = some (.dnsName data) →
      EntryMatches mode data name2 ∧ '\x00' ∉ data) ↔ NoCutMatch mode name1 name2 := by
  simp only [x509ToHostbasedService_dnsName_iff, NoCutMatch]
  constructor
  · intro h hmode hcounts data hfirst
    exact (h data ⟨hmode, hcounts, hfirst⟩).2
  · rintro h data ⟨hmode, hcounts, hfirst⟩
    have hnul := h hmode hcounts data hfirst
    obtain ⟨-, -, -, -, hmatch⟩ := hfirst
    rw [cstr_eq_self hnul] at hmatch
    exact ⟨hmatch, hnul⟩

/-- An entry whose text up to a null is the host, and which goes on with another domain. -/
theorem dns_name_matches_up_to_null :
    ∃ name1 name2, x509ToHostbasedService .strictRfc2818 name1 name2 = some (.dnsName "good.org\x00.evil.org".toList) ∧
      ¬ EntryMatches .strictRfc2818 "good.org\x00.evil.org".toList name2 :=
  ⟨⟨.x509, some "/CN=evil.org".toList, none, none, none, none, some [.dns "good.org\x00.evil.org".toList]⟩,
    ⟨.hostbasedService, none, some "good.org".toList, some "host".toList, none, none, none⟩, by decide +kernel, by decide +kernel⟩

end Globus.Gsi
