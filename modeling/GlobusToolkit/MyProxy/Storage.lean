/-
Where the MyProxy server stores credentials (myproxy/source/myproxy_creds.c, string_funcs.c): the files of a credential are
named by its user and, if it has one, by its own name. A name that is long or has a slash in it is replaced by its MD5
digest, and a dot at the beginning of any other by a dash. The digest is a parameter; the storage directory has passed its
checks.
-/
import GlobusToolkit.Lib.Cursor

namespace Globus.MyProxy

open Lib List

/-! ## The functions -/

/-- A digit of the digest. -/
def nibble (dd : Octet) : Char := if dd < 10#8 then Char.ofNat (dd.toNat + 48) else Char.ofNat (dd.toNat - 10 + 97)

/-- No dot as the first character. -/
def replaceDot : List Char → List Char
  | '.' :: rest => '-' :: rest
  | string => string

/-- `sterilize_string`. -/
def sterilizeString (string : List Char) : List Char := (replaceDot string).map fun c => if c = '/' then '-' else c

/-- The paths that are returned. -/
structure Locations where
  creds : List Char
  data : List Char
  lock : List Char
  deriving DecidableEq

section

variable (md5 : List Char → List Octet) (maxNamelen : Nat)

/-- `strmd5`. -/
def strmd5 (s : List Char) : List Char := (md5 s).flatMap fun d : Octet => [nibble (d >>> 4), nibble (d &&& 15#8)]

/-- The name is replaced by its digest. -/
def Digested (name : List Char) : Prop := maxNamelen < name.length ∨ '/' ∈ name

instance (name : List Char) : Decidable (Digested maxNamelen name) := inferInstanceAs (Decidable (_ ∨ _))

/-- `sterile_username` and `sterile_credname`. -/
def sterileName (name : List Char) : List Char :=
  if Digested maxNamelen name then strmd5 md5 name else sterilizeString name

/-- What stands in front of the suffix in the name of a file. -/
def baseName (username : List Char) : Option (List Char) → List Char
  | none => sterileName md5 maxNamelen username
  | some credname => sterileName md5 maxNamelen username ++ "-".toList ++ sterileName md5 maxNamelen credname

/-- `get_storage_locations`. -/
def getStorageLocations (storageDir username : List Char) (credname : Option (List Char)) : Locations where
  creds := storageDir ++ "/".toList ++ baseName md5 maxNamelen username credname ++ ".creds".toList
  data := storageDir ++ "/".toList ++ baseName md5 maxNamelen username credname ++ ".data".toList
  lock := storageDir ++ "/".toList ++ baseName md5 maxNamelen username credname ++ ".lock".toList

/-- What is assumed of the digests of some names: those of two names differ, and none is a name that is not digested. -/
structure DigestLaws (names : List (List Char)) : Prop where
  injective : ∀ n ∈ names, ∀ n' ∈ names, Digested maxNamelen n → Digested maxNamelen n' →
    strmd5 md5 n = strmd5 md5 n' → n = n'
  not_name : ∀ n ∈ names, ∀ n' ∈ names, Digested maxNamelen n → ¬ Digested maxNamelen n' → strmd5 md5 n ≠ n'

end

/-! ## Names -/

variable {md5 : List Char → List Octet} {maxNamelen : Nat}

theorem nibble_facts : ∀ d : Octet, ∀ c ∈ [nibble (d >>> 4), nibble (d &&& 15#8)], c ≠ '-' ∧ c ≠ '/' := by
  decide +kernel

theorem not_mem_strmd5 (s : List Char) : '-' ∉ strmd5 md5 s ∧ '/' ∉ strmd5 md5 s := by
  constructor <;>
    · intro h
      obtain ⟨d, -, hd⟩ := mem_flatMap.1 h
      have := nibble_facts d _ hd
      simp at this

theorem replaceDot_cases (n : List Char) : (∃ rest, n = '.' :: rest ∧ replaceDot n = '-' :: rest) ∨ replaceDot n = n := by
  unfold replaceDot
  split
  · next rest => exact .inl ⟨rest, rfl, rfl⟩
  · exact .inr rfl

theorem slash_not_mem_replaceDot {n : List Char} (h : '/' ∉ n) : '/' ∉ replaceDot n := by
  rcases replaceDot_cases n with ⟨rest, rfl, hdot⟩ | hself
  · rw [hdot]
    simpa using h
  · rwa [hself]

/-- A name that is not digested has no slashes, so only a dot at its beginning is replaced. -/
theorem sterileName_of_not_digested {name : List Char} (h : ¬ Digested maxNamelen name) :
    sterileName md5 maxNamelen name = replaceDot name := by
  have hslash : '/' ∉ replaceDot name := slash_not_mem_replaceDot fun hs => h (.inr hs)
  rw [sterileName, if_neg h, sterilizeString, map_congr_left (g := id), map_id]
  rintro c hc
  exact if_neg (by rintro rfl; exact hslash hc)

theorem slash_not_mem_sterileName (name : List Char) : '/' ∉ sterileName md5 maxNamelen name := by
  by_cases h : Digested maxNamelen name
  · rw [sterileName, if_pos h]
    exact (not_mem_strmd5 name).2
  · rw [sterileName_of_not_digested h]
    exact slash_not_mem_replaceDot fun hs => h (.inr hs)

/-- Two names that differ in their first characters only, a dot and a dash. -/
def Twins (n n' : List Char) : Prop := ∃ rest, (n = '.' :: rest ∧ n' = '-' :: rest) ∨ (n = '-' :: rest ∧ n' = '.' :: rest)

/-- Equal names, or twins that are not digested. -/
def Alike (maxNamelen : Nat) (n n' : List Char) : Prop :=
  n = n' ∨ (¬ Digested maxNamelen n ∧ ¬ Digested maxNamelen n' ∧ Twins n n')

variable {n n' : List Char}

theorem sterileName_eq_of_alike (h : Alike maxNamelen n n') :
    sterileName md5 maxNamelen n = sterileName md5 maxNamelen n' := by
  rcases h with rfl | ⟨hn, hn', rest, ⟨rfl, rfl⟩ | ⟨rfl, rfl⟩⟩
  · rfl
  · rw [sterileName_of_not_digested hn, sterileName_of_not_digested hn']; rfl
  · rw [sterileName_of_not_digested hn, sterileName_of_not_digested hn']; rfl

variable {names : List (List Char)}

theorem DigestLaws.strmd5_ne (hlaws : DigestLaws md5 maxNamelen names)
    (hn : n ∈ names) (hn' : n' ∈ names) (hdig : Digested maxNamelen n) (hnot : ¬ Digested maxNamelen n') :
    strmd5 md5 n ≠ sterileName md5 maxNamelen n' := by
  rw [sterileName_of_not_digested hnot]
  rcases replaceDot_cases n' with ⟨rest, -, hdot⟩ | hself
  · intro h
    exact (not_mem_strmd5 n).1 (by rw [h, hdot]; simp)
  · rw [hself]
    exact hlaws.not_name n hn n' hn' hdig hnot

theorem DigestLaws.alike (hlaws : DigestLaws md5 maxNamelen names)
    (hn : n ∈ names) (hn' : n' ∈ names) (h : sterileName md5 maxNamelen n = sterileName md5 maxNamelen n') :
    Alike maxNamelen n n' := by
  by_cases hdig : Digested maxNamelen n <;> by_cases hdig' : Digested maxNamelen n'
  · rw [sterileName, sterileName, if_pos hdig, if_pos hdig'] at h
    exact .inl (hlaws.injective n hn n' hn' hdig hdig' h)
  · rw [sterileName, if_pos hdig] at h
    exact absurd h (hlaws.strmd5_ne hn hn' hdig hdig')
  · rw [eq_comm, sterileName, if_pos hdig'] at h
    exact absurd h (hlaws.strmd5_ne hn' hn hdig' hdig)
  · rw [sterileName_of_not_digested hdig, sterileName_of_not_digested hdig'] at h
    rcases replaceDot_cases n with ⟨rest, rfl, hdot⟩ | hself <;> rcases replaceDot_cases n' with ⟨rest', rfl, hdot'⟩ | hself'
    · exact .inl (by rw [(List.cons.inj h).2])
    · rw [hdot, hself'] at h
      exact .inr ⟨hdig, hdig', rest, .inl ⟨rfl, h.symm⟩⟩
    · rw [hself, hdot'] at h
      exact .inr ⟨hdig, hdig', rest', .inr ⟨h, rfl⟩⟩
    · rw [hself, hself'] at h
      exact .inl h

/-! ## Files -/

/-- Two texts around a dash are equal if their parts are, or if one dash stands further to the right. -/
theorem append_dash_eq_iff {a a' b b' : List Char} : a ++ '-' :: b = a' ++ '-' :: b' ↔
    (a = a' ∧ b = b') ∨ (∃ w, a = a' ++ '-' :: w ∧ b' = w ++ '-' :: b) ∨ (∃ w, a' = a ++ '-' :: w ∧ b = w ++ '-' :: b') := by
  constructor
  · intro h
    rcases append_eq_append_iff.1 h with ⟨w, ha, hb⟩ | ⟨w, ha, hb⟩
    · cases w with
      | nil => exact .inl ⟨by simpa using ha.symm, (List.cons.inj hb).2⟩
      | cons c w =>
        obtain ⟨hc, hb⟩ := List.cons.inj hb
        exact .inr (.inr ⟨w, hc ▸ ha, hb⟩)
    · cases w with
      | nil => exact .inl ⟨by simpa using ha, ((List.cons.inj hb).2).symm⟩
      | cons c w =>
        obtain ⟨hc, hb⟩ := List.cons.inj hb
        exact .inr (.inl ⟨w, hc ▸ ha, hb⟩)
  · rintro (⟨rfl, rfl⟩ | ⟨w, rfl, rfl⟩ | ⟨w, rfl, rfl⟩) <;> simp

/-- The ways in which two credentials get one name: a dot and a dash at the beginning of a name, and a dash that belongs to
a name in one of them and stands between the names in the other. -/
def Clash (md5 : List Char → List Octet) (maxNamelen : Nat) (u : List Char) (c : Option (List Char)) (u' : List Char)
    (c' : Option (List Char)) : Prop :=
  let sterile := sterileName md5 maxNamelen
  match c, c' with
  | none, none => Alike maxNamelen u u' ∧ u ≠ u'
  | none, some c' => sterile u = sterile u' ++ '-' :: sterile c'
  | some c, none => sterile u' = sterile u ++ '-' :: sterile c
  | some c, some c' =>
    (Alike maxNamelen u u' ∧ Alike maxNamelen c c' ∧ (u ≠ u' ∨ c ≠ c')) ∨
      (∃ w, sterile u = sterile u' ++ '-' :: w ∧ sterile c' = w ++ '-' :: sterile c) ∨
      (∃ w, sterile u' = sterile u ++ '-' :: w ∧ sterile c = w ++ '-' :: sterile c')

theorem baseName_some (u c : List Char) :
    baseName md5 maxNamelen u (some c) = sterileName md5 maxNamelen u ++ '-' :: sterileName md5 maxNamelen c := by
  rw [baseName, append_assoc]
  rfl

theorem baseName_eq_iff {u u' : List Char} {c c' : Option (List Char)}
    (hlaws : DigestLaws md5 maxNamelen (u :: u' :: (c.toList ++ c'.toList))) :
    (baseName md5 maxNamelen u c = baseName md5 maxNamelen u' c' → u = u' ∧ c = c') ↔ ¬ Clash md5 maxNamelen u c u' c' := by
  have halike : ∀ {n n' : List Char}, n ∈ u :: u' :: (c.toList ++ c'.toList) → n' ∈ u :: u' :: (c.toList ++ c'.toList) →
      (sterileName md5 maxNamelen n = sterileName md5 maxNamelen n' ↔ Alike maxNamelen n n') :=
    fun hn hn' => ⟨hlaws.alike hn hn', sterileName_eq_of_alike⟩
  cases c with
  | none =>
    cases c' with
    | none =>
      rw [baseName, baseName, halike (by simp) (by simp), Clash]
      simp
    | some c' =>
      rw [baseName_some, baseName, Clash]
      simp
  | some c =>
    cases c' with
    | none =>
      rw [baseName_some, baseName, Clash, eq_comm]
      simp
    | some c' =>
      rw [baseName_some, baseName_some, append_dash_eq_iff, halike (by simp) (by simp), halike (by simp) (by simp), Clash]
      simp only [Option.some.injEq]
      constructor
      · rintro h (⟨hu, hc, hne⟩ | hshift)
        · obtain ⟨rfl, rfl⟩ := h (.inl ⟨hu, hc⟩)
          simp at hne
        · obtain ⟨rfl, rfl⟩ := h (.inr hshift)
          rcases hshift with ⟨w, hw, -⟩ | ⟨w, hw, -⟩ <;> exact absurd hw (by simp)
      · rintro h (⟨hu, hc⟩ | hshift)
        · by_contra hne
          exact h (.inl ⟨hu, hc, by tauto⟩)
        · exact absurd (.inr hshift) h

/-- The file is one of the directory itself. -/
def DirectlyIn (dir path : List Char) : Prop :=
  ∃ file, path = dir ++ '/' :: file ∧ '/' ∉ file ∧ file ≠ ".".toList ∧ file ≠ "..".toList

theorem slash_not_mem_baseName (u : List Char) (c : Option (List Char)) : '/' ∉ baseName md5 maxNamelen u c := by
  cases c with
  | none => exact slash_not_mem_sterileName u
  | some c =>
    rw [baseName_some, mem_append, mem_cons, not_or, not_or]
    exact ⟨slash_not_mem_sterileName u, by decide, slash_not_mem_sterileName c⟩

theorem directlyIn_of_suffix (dir : List Char) {base suffix : List Char} (hbase : '/' ∉ base) (hsuffix : '/' ∉ suffix)
    (hlen : 2 < suffix.length) : DirectlyIn dir (dir ++ "/".toList ++ base ++ suffix) := by
  refine ⟨base ++ suffix, by simp, ?_, ?_, ?_⟩
  · rw [mem_append, not_or]
    exact ⟨hbase, hsuffix⟩
  · intro h
    have := congrArg List.length h
    simp at this
    omega
  · intro h
    have := congrArg List.length h
    simp at this
    omega

theorem directlyIn_locations (dir u : List Char) (c : Option (List Char)) :
    DirectlyIn dir (getStorageLocations md5 maxNamelen dir u c).creds ∧
      DirectlyIn dir (getStorageLocations md5 maxNamelen dir u c).data ∧
      DirectlyIn dir (getStorageLocations md5 maxNamelen dir u c).lock :=
  have hbase := @slash_not_mem_baseName md5 maxNamelen u c
  ⟨directlyIn_of_suffix dir hbase (by decide) (by decide), directlyIn_of_suffix dir hbase (by decide) (by decide),
    directlyIn_of_suffix dir hbase (by decide) (by decide)⟩

/-- Two credentials are stored apart: in files of the directory itself, and in one file only if they are the same. -/
def StoredApart (md5 : List Char → List Octet) (maxNamelen : Nat) (dir u : List Char) (c : Option (List Char))
    (u' : List Char) (c' : Option (List Char)) : Prop :=
  let l := getStorageLocations md5 maxNamelen dir u c
  let l' := getStorageLocations md5 maxNamelen dir u' c'
  (l.creds = l'.creds ∨ l.data = l'.data → u = u' ∧ c = c') ∧
    ∀ path ∈ [l.creds, l.data, l.lock, l'.creds, l'.data, l'.lock], DirectlyIn dir path

/-- Credentials are stored apart exactly if their names do not clash. -/
theorem stored_apart_iff (dir u u' : List Char) (c c' : Option (List Char))
    (hlaws : DigestLaws md5 maxNamelen (u :: u' :: (c.toList ++ c'.toList))) :
    StoredApart md5 maxNamelen dir u c u' c' ↔ ¬ Clash md5 maxNamelen u c u' c' := by
  have hfile : ∀ suffix : List Char, dir ++ "/".toList ++ baseName md5 maxNamelen u c ++ suffix =
      dir ++ "/".toList ++ baseName md5 maxNamelen u' c' ++ suffix ↔ baseName md5 maxNamelen u c = baseName md5 maxNamelen u' c' :=
    fun suffix => by rw [append_cancel_right_eq, append_cancel_left_eq]
  have hin : ∀ path ∈ [(getStorageLocations md5 maxNamelen dir u c).creds, (getStorageLocations md5 maxNamelen dir u c).data,
      (getStorageLocations md5 maxNamelen dir u c).lock, (getStorageLocations md5 maxNamelen dir u' c').creds,
      (getStorageLocations md5 maxNamelen dir u' c').data, (getStorageLocations md5 maxNamelen dir u' c').lock],
      DirectlyIn dir path := by
    obtain ⟨h1, h2, h3⟩ := @directlyIn_locations md5 maxNamelen dir u c
    obtain ⟨h4, h5, h6⟩ := @directlyIn_locations md5 maxNamelen dir u' c'
    simp [h1, h2, h3, h4, h5, h6]
  rw [← baseName_eq_iff hlaws, StoredApart]
  refine (and_iff_left hin).trans ?_
  rw [getStorageLocations, getStorageLocations]
  simp only [hfile, or_self]

/-- The credential `x` of one user and the only one of another, whose names have slashes and are digested. -/
theorem stored_apart_users : StoredApart (map fun c => BitVec.ofNat 8 c.toNat) 80 "/var/myproxy".toList
    "/CN=ann".toList (some "x".toList) "/CN=bob".toList none := by
  refine (stored_apart_iff _ _ _ _ _ ⟨by decide, by decide⟩).2 ?_
  show ¬ (_ = _)
  decide

/-- The user `a-b` shares the files of the credential `b` of the user `a`. -/
theorem stored_together :
    (∀ n ∈ ["a-b".toList, "a".toList, "b".toList], ¬ Digested 80 n) ∧
      getStorageLocations (fun _ => []) 80 "/var/myproxy".toList "a-b".toList none =
        getStorageLocations (fun _ => []) 80 "/var/myproxy".toList "a".toList (some "b".toList) := by
  decide

end Globus.MyProxy
