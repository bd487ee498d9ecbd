/-
Which URLs the parsers come to an end with (common/source/library/globus_url.c). Every loop moves `pos` forward or
is left, with one exception: the loop over the host name of a `file:` URL in `globus_url_parse_loose`.
-/
import GlobusToolkit.Url.Scan

namespace Globus

open Lib List Returns

section Parts

variable {fuel : Nat} {s : List Char}

theorem schemeType_eq_file {scheme : List Char} (h : urlGetScheme.schemeType scheme = .file) :
    scheme = "file".toList := by
  unfold urlGetScheme.schemeType at h
  split_ifs at h
  assumption

/-- A path is read to its end from every string that is not longer than `n`. -/
def PathReturns (n : Nat) (getPath : UrlScheme → List Char → Parse (Option (List Char))) : Prop :=
  ∀ scheme rest, rest.length ≤ n → Returns (getPath scheme rest) fun _ => True

theorem PathReturns.mono {n m : Nat} {getPath : UrlScheme → List Char → Parse (Option (List Char))}
    (h : PathReturns n getPath) (hle : m ≤ n) : PathReturns m getPath :=
  fun scheme rest hrest => h scheme rest (hrest.trans hle)

variable (hfuel : s.length < fuel)
include hfuel

theorem urlGetScheme_returns : Returns (urlGetScheme fuel s) fun r =>
      r.2.2.length ≤ s.length ∧ (r.2.1 = .file → s = "file:".toList ++ r.2.2.drop 1) := by
  unfold urlGetScheme
  have hle := (takeWhile_sublist (l := s) isSchemeChar).length_le
  rw [scanWhile_eq (by decide), drop_zero, if_pos (by omega), pure_bind, Nat.zero_add]
  refine failIf.bind fun _ hcolon => failIf.bind fun _ _ => Returns.pure ⟨by simp, fun hfile => ?_⟩
  rw [urlGetSubstring_takeWhile (by decide) (by decide)] at hfile
  have hscheme := schemeType_eq_file hfile
  have hsplit := prefix_iff_eq_append.1 ( takeWhile_prefix (l := s) isSchemeChar)
  have hdrop := drop_eq_charAt_cons (s := s) (lt_of_charAt (by rw [not_not.1 hcolon]; decide))
  rw [hdrop, not_not.1 hcolon, hscheme] at hsplit
  rw [hdrop, hscheme]
  exact hsplit.symm

theorem urlGetPassword_returns (user : List Char) :
    Returns (urlGetPassword fuel user s) fun r => r.stringp.length ≤ s.length := by
  refine bind (scanField_returns (fun _ => scanIf_returns (by decide)) ?_ hfuel) fun pos _ => ?_
  · rintro _ ⟨⟩
    exact throw _
  · refine failIf.bind fun _ _ => ?_
    split
    · exact Returns.pure (by simp)
    · exact Returns.pure le_rfl

theorem urlGetUser_returns : Returns (urlGetUser fuel s) fun r => r.stringp.length ≤ s.length := by
  refine bind (scanField_returns (fun _ hpos => scanWhile_returns (by decide) hpos hfuel) ?_ hfuel)
    fun found _ => ?_
  · rintro _ ⟨⟩
    exact Returns.pure trivial
  · cases found with
    | none => exact Returns.pure le_rfl
    | some pos =>
      refine failIf.bind fun _ _ => ?_
      split
      · exact Returns.pure (by simp)
      · split
        · have hle : (s.drop (pos + 1)).length ≤ s.length := by simp
          exact (urlGetPassword_returns (by omega) _).mono fun _ h => h.trans hle
        · exact Returns.pure le_rfl

theorem urlGetUserPassword_returns : Returns (urlGetUserPassword fuel s) fun r => r.stringp.length ≤ s.length := by
  refine bind (scanField_returns (fun _ hpos => scanWhile_returns (by decide) hpos hfuel) ?_ hfuel)
    fun found _ => ?_
  · rintro _ ⟨⟩
    exact Returns.pure trivial
  · cases found with
    | none => exact Returns.pure le_rfl
    | some pos =>
      show Returns (if _ then _ else _) _
      split
      · exact Returns.pure le_rfl
      · exact urlGetUser_returns hfuel

theorem urlGetPort_returns (host : List Char) :
    Returns (urlGetPort fuel host s) fun r => r.stringp.length ≤ s.length := by
  unfold urlGetPort
  split
  · have hle : (s.drop 1).length ≤ s.length := by simp
    refine bind (scanWhile_returns (by decide) (Nat.zero_le _) (by omega)) fun pos _ => ?_
    split
    · exact Returns.pure hle
    · exact Returns.pure (by simp)
  · exact Returns.pure le_rfl

theorem urlGetHostPort_returns : Returns (urlGetHostPort fuel s) fun r => r.stringp.length ≤ s.length := by
  have hle : (if charAt s 0 = '[' then s.drop 1 else s).length ≤ s.length := by
    split <;> simp
  refine bind (scanWhile_returns (by split <;> decide) (Nat.zero_le _) (by omega)) fun pos _ => ?_
  generalize (if charAt s 0 = '[' then s.drop 1 else s) = rest at *
  generalize (if charAt rest pos = ']' then pos + 1 else pos) = next
  have hnext : (rest.drop next).length ≤ rest.length := by simp
  split
  · exact Returns.pure hle
  · split
    · exact (urlGetPort_returns (by omega) _).mono fun _ h => (h.trans hnext).trans hle
    · split
      · exact Returns.pure (hnext.trans hle)
      · exact Returns.pure hle

theorem urlGetLdapField_returns (err : UrlError) (stop : Char) :
    Returns (urlGetLdapField fuel err stop s) fun r => r.2.length ≤ s.length := by
  refine bind (scanField_returns (fun _ => scanIf_returns (by decide)) (by simp) hfuel) fun pos _ => ?_
  exact failIf.bind fun _ _ => failIf.bind fun _ _ => Returns.pure (by simp)

theorem urlGetLdapSpecific_returns : Returns (urlGetLdapSpecific fuel s) fun _ => True := by
  refine (urlGetLdapField_returns hfuel _ _).bind fun dn hdn => ?_
  refine (urlGetLdapField_returns (by omega) _ _).bind fun attributes hattributes => ?_
  refine (urlGetLdapField_returns (by omega) _ _).bind fun scope hscope => ?_
  exact (urlGetLdapField_returns (by omega) _ _).bind fun filter _ => Returns.pure trivial

theorem urlGetPathOf_returns {isClass : Char → Bool} (hclass : isClass '\x00' = false) :
    PathReturns s.length (urlGetPathOf fuel isClass) := by
  intro scheme rest hle
  refine bind (scanField_returns (fun _ => scanIf_returns hclass) (by simp) (by omega)) fun pos _ => ?_
  split
  · exact Returns.pure trivial
  · exact failIf.bind fun _ _ => Returns.pure trivial

theorem skipSlashes_returns (tmpbuf : List Char) {pos : Nat} (hpos : pos ≤ s.length) :
    Returns (skipSlashes fuel s (pos, tmpbuf)) fun r => pos ≤ r.1 ∧ r.1 ≤ s.length := by
  refine Returns.loopE (fun p => pos ≤ p.1 ∧ p.1 ≤ s.length) (fun p => s.length - p.1) (fun p hp => Returns.pure ?_)
    ⟨le_rfl, hpos⟩ (by simp only; omega)
  split
  · next hc =>
    have hlt : p.1 < s.length := lt_of_charAt (by rw [hc]; decide)
    exact ⟨⟨by simp only; omega, hlt⟩, by simp only; omega⟩
  · exact hp

omit hfuel in
theorem takeRfc1738_le {at' : Nat × List Char} (hpos : at'.1 ≤ s.length) :
    at'.1 ≤ (takeRfc1738 s at').1 ∧ (takeRfc1738 s at').1 ≤ s.length := by
  unfold takeRfc1738
  split
  · next hc => exact ⟨by simp, lt_of_charAt (charAt_ne_of_class (by decide) hc)⟩
  · exact ⟨le_rfl, hpos⟩

theorem scanRfc1738_returns : Returns (loopE (scanRfc1738 fuel s) fuel (0, [])) fun _ => True := by
  refine Returns.loopE (fun p => p.1 ≤ s.length) (fun p => s.length - p.1) (fun p hp => ?_) (Nat.zero_le _)
    (by simp only; omega)
  refine bind (skipSlashes_returns hfuel p.2 hp) fun r hr => ?_
  have htake := takeRfc1738_le hr.2
  refine (scanEscape_returns .badPath htake.2).bind fun next hnext => Returns.pure ?_
  split
  · exact ⟨hnext.2, by simp only; omega⟩
  · trivial

theorem urlGetPathRfc1738_returns : PathReturns s.length (urlGetPathRfc1738 fuel) := by
  intro scheme rest hle
  refine bind (scanRfc1738_returns (by omega)) fun r _ => ?_
  dsimp only
  split
  · exact Returns.pure trivial
  · exact failIf.bind fun _ _ => Returns.pure trivial

variable {getPath : UrlScheme → List Char → Parse (Option (List Char))}

theorem urlGetFilePath_returns (hpath : PathReturns s.length getPath) (host : Option (List Char)) {pos : Nat}
    (hpos : pos ≤ s.length) : Returns (urlGetFilePath fuel getPath host pos s) fun _ => True := by
  refine bind (scanWhile_returns (by decide) hpos hfuel) fun p _ => ?_
  refine failIf.bind fun _ _ => (hpath _ _ ?_).bind fun path _ => Returns.pure trivial
  split <;> simp

theorem urlGetFileSpecific_returns : Returns (urlGetFileSpecific fuel s) fun _ => True := by
  have hpath : PathReturns s.length (urlGetPath fuel) := urlGetPathOf_returns hfuel (by decide)
  refine bind (scanWhile_returns (by decide) (Nat.zero_le _) hfuel) fun pos hpos => ?_
  refine failIf.bind fun _ _ => ?_
  split
  · have hle : (s.drop 2).length ≤ s.length := by simp
    generalize s.drop 2 = t at *
    refine bind (scanWhile_returns (by decide) (Nat.zero_le _) (by omega)) fun p _ => ?_
    split
    · have hle' : (t.drop p).length ≤ t.length := by simp
      exact urlGetFilePath_returns (by omega) (hpath.mono (by omega)) _ (Nat.zero_le _)
    · exact urlGetFilePath_returns (by omega) (hpath.mono hle) _ (Nat.zero_le _)
  · exact urlGetFilePath_returns hfuel hpath _ hpos.2

omit hfuel

/-- What the loop over the host name in the loose parser stays at. -/
def HostLoop (s : List Char) : Prop := ∃ c rest, isHostChar c ∧ s = '/' :: '/' :: c :: rest

/-- The loop over the host name is left at once or never. -/
theorem scanHostLoose_eq (s : List Char) :
    scanHostLoose (fuel + 1) s = if isHostChar (charAt s 0) then diverge else pure (s, none) := by
  split
  · next hc =>
    refine loopE_eq_diverge (fun st => st = (0, s, none)) (fun st hst => ⟨st, ?_, hst⟩) rfl
    rw [hst]
    simp [hc]
  · next hc => exact loopE_done (by simp [hc])

theorem hostLoop_of_charAt (hslash : (s.takeWhile (· == '/')).length = 2) (hc : isHostChar (charAt (s.drop 2) 0)) :
    HostLoop s := by
  have hs : s.takeWhile (· == '/') = ['/', '/'] :=
    eq_replicate_iff.2 ⟨hslash, fun a ha => by simpa using mem_takeWhile_imp ha⟩
  have hsplit := takeWhile_append_dropWhile (p := (· == '/')) (l := s)
  rw [hs] at hsplit
  rw [← hsplit] at hc ⊢
  cases hrest : s.dropWhile (· == '/') with
  | nil =>
    rw [hrest] at hc
    cases hc
  | cons c rest =>
    rw [hrest] at hc
    exact ⟨c, rest, hc, rfl⟩

theorem urlGetFileSpecificLoose_returns (hs : ¬ HostLoop s) (hfuel : s.length < fuel) :
    Returns (urlGetFileSpecificLoose fuel s) fun _ => True := by
  unfold urlGetFileSpecificLoose
  have hpath : PathReturns s.length (urlGetPathLoose fuel) := urlGetPathOf_returns hfuel (by decide)
  have hle := (takeWhile_sublist (l := s) (· == '/')).length_le
  rw [scanWhile_eq (by decide), drop_zero, if_pos (by omega), pure_bind, Nat.zero_add]
  refine failIf.bind fun _ _ => ?_
  split
  · next hslash =>
    have hle : (s.drop 2).length ≤ s.length := by simp
    obtain ⟨n, rfl⟩ : ∃ n, fuel = n + 1 := ⟨fuel - 1, by omega⟩
    rw [scanHostLoose_eq, if_neg fun hc => hs (hostLoop_of_charAt hslash hc), pure_bind]
    exact urlGetFilePath_returns (by omega) (hpath.mono hle) _ (Nat.zero_le _)
  · exact urlGetFilePath_returns hfuel hpath _ hle

theorem urlGetFileSpecificLoose_diverge (hs : HostLoop s) : urlGetFileSpecificLoose fuel s = diverge := by
  obtain ⟨c, rest, hc, rfl⟩ := hs
  have hne : (c == '/') = false := beq_false_of_ne (by rintro rfl; cases hc)
  show urlGetFileSpecificLoose fuel ("//".toList ++ c :: rest) = diverge
  unfold urlGetFileSpecificLoose
  rw [scanWhile_append_cons (p := (· == '/')) (by decide) (all_eq_true.1 rfl) hne]
  split
  · next hfuel =>
    obtain ⟨n, rfl⟩ : ∃ n, fuel = n + 1 := ⟨fuel - 1, by omega⟩
    show scanHostLoose (n + 1) (c :: rest) >>= _ = diverge
    rw [scanHostLoose_eq, if_pos (by exact hc), diverge_bind]
  · rfl

/-! ## Whole URLs -/

section Fuel

include hfuel

theorem parseHostPath_returns (hpath : PathReturns s.length getPath) (url : Url) :
    Returns (parseHostPath fuel getPath url s) fun _ => True := by
  refine (urlGetHostPort_returns hfuel).bind fun hp hle => ?_
  exact failIf.bind fun _ _ => (hpath _ _ hle).bind fun _ _ => Returns.pure trivial

theorem parseUnknown_returns (url : Url) : Returns (parseUnknown fuel url s) fun _ => True := by
  refine (urlGetHostPort_returns hfuel).bind fun hp hle => ?_
  split
  · refine (urlGetPathOf_returns hfuel (by decide) _ _ hle).attempt.bind fun r _ => ?_
    split <;> exact Returns.pure trivial
  · exact Returns.pure trivial

theorem parseLdap_returns (url : Url) : Returns (parseLdap fuel url s) fun _ => True := by
  refine (urlGetHostPort_returns hfuel).bind fun hp hle => ?_
  split
  · exact throw _
  · have hle' : (hp.stringp.drop 1).length ≤ hp.stringp.length := by simp
    exact failIf.bind fun _ _ => (urlGetLdapSpecific_returns (by omega)).bind fun _ _ => Returns.pure trivial

/-- A parser returns if its paths do, and what it has for `file:`. -/
theorem urlParseOf_returns {v : UrlVariant} (hftp : PathReturns s.length v.ftpPath) (hhttp : PathReturns s.length v.httpPath)
    (hfile : ∀ rest, s = "file:".toList ++ rest → rest.length < fuel → Returns (v.fileSpecific rest) fun _ => True) :
    Returns (urlParseOf fuel v s) fun _ => True := by
  refine (urlGetScheme_returns hfuel).bind fun r hr => ?_
  obtain ⟨scheme, schemeType, rest⟩ := r
  refine failIf.bind fun _ _ => ?_
  have hle : (rest.drop 3).length ≤ s.length := (by simp : _ ≤ rest.length).trans hr.1
  cases schemeType with
  | file =>
    have hle' : (rest.drop 1).length ≤ s.length := (by simp : _ ≤ rest.length).trans hr.1
    exact (hfile _ (hr.2 rfl) (hle'.trans_lt hfuel)).bind fun _ _ => Returns.pure trivial
  | ftp | gsiftp | sshftp =>
    refine (urlGetUserPassword_returns (s := rest.drop 3) (by omega)).bind fun up hup => ?_
    exact parseHostPath_returns (by omega) (hftp.mono (by omega)) _
  | http | https => exact parseHostPath_returns (hle.trans_lt hfuel) (hhttp.mono hle) _
  | xNexus =>
    refine (urlGetHostPort_returns (s := rest.drop 3) (by omega)).bind fun hp _ => ?_
    split
    · exact throw _
    · exact failIf.bind fun _ _ => Returns.pure trivial
  | ldap => exact parseLdap_returns (hle.trans_lt hfuel) _
  | xGassCache => exact Returns.pure trivial
  | unknown => exact parseUnknown_returns (hle.trans_lt hfuel) _

theorem urlParse_returns : Returns (urlParse fuel s) fun _ => True :=
  urlParseOf_returns hfuel (urlGetPathOf_returns hfuel (by decide)) (urlGetPathOf_returns hfuel (by decide))
    fun _ _ h => urlGetFileSpecific_returns h

theorem urlParseRfc1738_returns : Returns (urlParseRfc1738 fuel s) fun _ => True :=
  urlParseOf_returns hfuel (urlGetPathRfc1738_returns hfuel) (urlGetPathOf_returns hfuel (by decide))
    fun _ _ h => urlGetFileSpecific_returns h

theorem urlParseLoose_returns (hs : ∀ rest, s = "file:".toList ++ rest → ¬ HostLoop rest) :
    Returns (urlParseLoose fuel s) fun _ => True :=
  urlParseOf_returns hfuel (urlGetPathOf_returns hfuel (by decide)) (urlGetPathOf_returns hfuel (by decide))
    fun rest hrest h => urlGetFileSpecificLoose_returns (hs rest hrest) h

end Fuel

theorem urlParseLoose_diverge {rest : List Char} (hs : HostLoop rest) :
    urlParseLoose fuel ("file:".toList ++ rest) = diverge := by
  show urlParseLoose fuel ("file".toList ++ ':' :: rest) = diverge
  unfold urlParseLoose urlParseOf
  rw [urlGetScheme_append (all_eq_true.1 rfl) (by decide)]
  split
  · have hfile : urlGetScheme.schemeType "file".toList = .file := by decide
    rw [hfile, pure_bind]
    dsimp only
    rw [failIf_of_not (by simp), pure_bind]
    show urlGetFileSpecificLoose fuel rest >>= _ = diverge
    rw [urlGetFileSpecificLoose_diverge hs, diverge_bind]
  · rfl

end Parts

/-- The parsers come to an end with every string but one kind: after `file://`, the loose parser stays at a first
character of a host name forever. -/
theorem urlParse_terminates_iff (s : List Char) :
    (∃ fuel, (urlParse fuel s).run ≠ none ∧ (urlParseRfc1738 fuel s).run ≠ none ∧ (urlParseLoose fuel s).run ≠ none) ↔
      ¬ ∃ c rest, isHostChar c ∧ s = "file://".toList ++ c :: rest := by
  constructor
  · rintro ⟨fuel, -, -, hloose⟩ ⟨c, rest, hc, rfl⟩
    refine hloose ?_
    exact congrArg ExceptT.run (urlParseLoose_diverge ⟨c, rest, hc, rfl⟩)
  · intro hs
    have hloop : ∀ rest, s = "file:".toList ++ rest → ¬ HostLoop rest := by
      rintro _ rfl ⟨c, rest, hc, rfl⟩
      exact hs ⟨c, rest, hc, rfl⟩
    have hfuel : s.length < s.length + 1 := Nat.lt_succ_self _
    exact ⟨s.length + 1, (urlParse_returns hfuel).ne_none, (urlParseRfc1738_returns hfuel).ne_none,
      (urlParseLoose_returns hfuel hloop).ne_none⟩

/-- The loose parser does not return from `file://host/path`. -/
theorem urlParseLoose_file_host : ¬ ∃ fuel, (urlParseLoose fuel "file://host/path".toList).run ≠ none := by
  rintro ⟨fuel, hne⟩
  exact hne (congrArg ExceptT.run (urlParseLoose_diverge ⟨'h', "ost/path".toList, by decide, rfl⟩))

end Globus
