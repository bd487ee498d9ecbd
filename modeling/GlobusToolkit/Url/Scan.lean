/-
Facts about the scanning loops of the URL parsers (common/source/library/globus_url.c): what the loop over a class of
characters takes, and that the loops do not go beyond the end of the string.
-/
import GlobusToolkit.Url.Parse

namespace Globus

open Lib List

section Scanning

variable {fuel : Nat} {isClass : Char → Bool} {s : List Char} {pos : Nat}

theorem lt_of_charAt (h : charAt s pos ≠ '\x00') : pos < s.length := by
  by_contra hpos
  refine h ?_
  unfold charAt
  rw [getD_eq_getElem?_getD, getElem?_eq_none (by omega)]
  rfl

theorem charAt_ne_of_class (hclass : isClass '\x00' = false) (h : isClass (charAt s pos)) : charAt s pos ≠ '\x00' := by
  intro heq
  rw [heq, hclass] at h
  cases h

theorem drop_eq_charAt_cons (h : pos < s.length) : s.drop pos = charAt s pos :: s.drop (pos + 1) := by
  unfold charAt
  rw [drop_eq_getElem_cons h, getD_eq_getElem?_getD, getElem?_eq_getElem h]
  rfl

theorem takeWhile_drop_of_class (hclass : isClass '\x00' = false) (h : isClass (charAt s pos)) :
    (s.drop pos).takeWhile isClass = charAt s pos :: (s.drop (pos + 1)).takeWhile isClass := by
  rw [drop_eq_charAt_cons (lt_of_charAt (charAt_ne_of_class hclass h)), takeWhile_cons_of_pos h]

theorem takeWhile_drop_of_not_class (h : ¬ isClass (charAt s pos)) : (s.drop pos).takeWhile isClass = [] := by
  by_cases hpos : pos < s.length
  · rw [drop_eq_charAt_cons hpos, takeWhile_cons_of_neg h]
  · rw [drop_eq_nil_of_le (by omega), takeWhile_nil]

/-- The loop over a class of characters takes the longest text over it, given a unit of fuel for each character. -/
theorem scanWhile_eq (hclass : isClass '\x00' = false) :
    scanWhile fuel isClass s pos =
      if ((s.drop pos).takeWhile isClass).length < fuel then pure (pos + ((s.drop pos).takeWhile isClass).length)
      else diverge := by
  induction fuel generalizing pos with
  | zero => rfl
  | succ fuel ih =>
    by_cases h : isClass (charAt s pos)
    · have hnext : scanWhile (fuel + 1) isClass s pos = scanWhile fuel isClass s (pos + 1) :=
        loopE_next (by rw [if_pos h])
      rw [hnext, ih, takeWhile_drop_of_class hclass h]
      simp only [length_cons, Nat.add_lt_add_iff_right]
      congr 2
      omega
    · have hdone : scanWhile (fuel + 1) isClass s pos = pure pos := loopE_done (by rw [if_neg h])
      rw [hdone, takeWhile_drop_of_not_class h]
      simp

theorem length_takeWhile_drop_le : ((s.drop pos).takeWhile isClass).length ≤ s.length - pos :=
  (takeWhile_sublist _).length_le.trans_eq length_drop

theorem scanWhile_returns (hclass : isClass '\x00' = false) (hpos : pos ≤ s.length) (hfuel : s.length < fuel) :
    Returns (scanWhile fuel isClass s pos) fun p => pos ≤ p ∧ p ≤ s.length := by
  have hle : ((s.drop pos).takeWhile isClass).length ≤ s.length - pos := length_takeWhile_drop_le
  rw [scanWhile_eq hclass, if_pos (by omega)]
  exact Returns.pure ⟨by omega, by omega⟩

theorem scanIf_returns (hclass : isClass '\x00' = false) (hpos : pos ≤ s.length) :
    Returns (scanIf isClass s pos) fun p => pos ≤ p ∧ p ≤ s.length := by
  refine Returns.pure ?_
  split
  · next hc => exact ⟨by omega, lt_of_charAt (charAt_ne_of_class hclass hc)⟩
  · exact ⟨le_rfl, hpos⟩

theorem scanEscape_returns (err : UrlError) (hpos : pos ≤ s.length) :
    Returns (scanEscape err s pos) fun q => pos ≤ q ∧ q ≤ s.length := by
  unfold scanEscape
  split
  · split
    · split
      · next hb =>
        have hlt : pos + 2 < s.length := lt_of_charAt (charAt_ne_of_class (by decide) hb)
        exact Returns.pure ⟨by omega, hlt⟩
      · exact Returns.throw _
    · exact Returns.throw _
  · exact Returns.pure ⟨le_rfl, hpos⟩

/-- The loop over a field comes to an end, since `pos` moves forward while it is not left. -/
theorem scanField_returns {β : Type} {skip : Nat → Parse Nat} {atNul : Option (Parse β)} {err : UrlError}
    {stop : Char → Bool} {done : Nat → β}
    (hskip : ∀ pos, pos ≤ s.length → Returns (skip pos) fun p => pos ≤ p ∧ p ≤ s.length)
    (hnul : ∀ r ∈ atNul, Returns r fun _ => True) (hfuel : s.length < fuel) :
    Returns (loopE (scanField skip atNul err stop done s) fuel 0) fun _ => True := by
  refine Returns.loopE (fun p => p ≤ s.length) (fun p => s.length - p) (fun pos hpos => ?_) (Nat.zero_le _) (by omega)
  refine Returns.bind (hskip pos hpos) fun p hp => ?_
  split
  · next leave _ =>
    exact Returns.bind (hnul leave rfl) fun r _ => Returns.pure trivial
  · refine Returns.bind (scanEscape_returns err hp.2) fun q hq => Returns.pure ?_
    split
    · next hc =>
      simp only [Bool.and_eq_true, bne_iff_ne, ne_eq] at hc
      exact ⟨hq.2, by omega⟩
    · trivial

end Scanning

/-! ## Substrings -/

theorem substring_decode_eq_self : ∀ {l : List Char}, '%' ∉ l → urlGetSubstring.decode l = l
  | [], _ => rfl
  | c :: s, h => by
    rw [mem_cons, not_or] at h
    rw [urlGetSubstring.decode.eq_2 _ _ fun _ _ _ hc => absurd hc.symm h.1]
    rw [substring_decode_eq_self h.2]

theorem urlGetSubstring_append {u : List Char} (hpercent : '%' ∉ u) (hnul : '\x00' ∉ u) (v : List Char) :
    urlGetSubstring (u ++ v) u.length = u := by
  unfold urlGetSubstring
  rw [append_assoc, take_left, substring_decode_eq_self hpercent, cstr_eq_self hnul]

theorem urlGetSubstring_takeWhile {isClass : Char → Bool} {s : List Char} (hpercent : isClass '%' = false)
    (hnul : isClass '\x00' = false) :
    urlGetSubstring s (s.takeWhile isClass).length = s.takeWhile isClass := by
  have hmem : ∀ c, isClass c = false → c ∉ s.takeWhile isClass := fun c hc h => by
    rw [mem_takeWhile_imp h] at hc
    cases hc
  have heq := urlGetSubstring_append (hmem _ hpercent) (hmem _ hnul) (s.dropWhile isClass)
  rwa [takeWhile_append_dropWhile] at heq

/-! ## The host of a URL -/

/-- A host: it is not empty and has the characters of a name or of an address. -/
structure HostText (host : List Char) : Prop where
  ne_nil : host ≠ []
  chars : ∀ c ∈ host, isHostChar c ∨ isIpv6Char c

section Host

variable {fuel : Nat} {s : List Char}

theorem scanWhile_host {isClass : Char → Bool} (hpercent : isClass '%' = false) (hnul : isClass '\x00' = false)
    (hclass : ∀ c, isClass c → isHostChar c ∨ isIpv6Char c) :
    Yields (scanWhile fuel isClass s 0) fun pos => pos ≠ 0 → HostText (urlGetSubstring s pos) := by
  rw [scanWhile_eq hnul]
  split
  · refine Yields.pure fun hpos => ?_
    rw [drop_zero, Nat.zero_add] at hpos ⊢
    rw [urlGetSubstring_takeWhile hpercent hnul]
    exact ⟨fun h => hpos (by rw [h]; rfl), fun c hc => hclass c (mem_takeWhile_imp hc)⟩
  · exact Yields.diverge

theorem urlGetPort_host {host : List Char} (hhost : HostText host) :
    Yields (urlGetPort fuel host s) fun r => ∀ h ∈ r.host, HostText h := by
  have hsome : ∀ h ∈ some host, HostText h := fun h hh => Option.some.inj hh ▸ hhost
  unfold urlGetPort
  split
  · refine Yields.trivial.bind fun pos _ => ?_
    split
    · exact Yields.pure hsome
    · exact Yields.pure hsome
  · exact Yields.pure hsome

theorem urlGetHostPort_host : Yields (urlGetHostPort fuel s) fun r => ∀ h ∈ r.host, HostText h := by
  refine Yields.bind (scanWhile_host (by split <;> decide) (by split <;> decide) ?_) fun pos hpos => ?_
  · intro c hc
    split at hc
    · exact .inr hc
    · exact .inl hc
  · generalize (if charAt s 0 = '[' then s.drop 1 else s) = rest at *
    dsimp only
    generalize (if charAt rest pos = ']' then pos + 1 else pos) = next
    split
    · exact Yields.pure (by simp)
    · next hne =>
      split
      · exact urlGetPort_host (hpos hne)
      · split
        · exact Yields.pure fun h hh => Option.some.inj hh ▸ hpos hne
        · exact Yields.pure (by simp)

/-- A path has no null character in it. -/
def PathText (path : Option (List Char)) : Prop := ∀ p ∈ path, '\x00' ∉ p

theorem nul_not_mem_urlGetSubstring (src : List Char) (n : Nat) : '\x00' ∉ urlGetSubstring src n := fun h => by
  have hc := mem_takeWhile_imp h
  simp at hc

theorem urlGetPath_text (scheme : UrlScheme) : Yields (urlGetPath fuel scheme s) PathText := by
  refine Yields.trivial.bind fun pos _ => ?_
  split
  · exact Yields.pure (by simp [PathText])
  · exact Yields.trivial.bind fun _ _ =>
      Yields.pure fun p hp => Option.some.inj hp ▸ nul_not_mem_urlGetSubstring _ _

/-- The host and the path of a URL. -/
structure UrlText (url : Url) : Prop where
  host : ∀ h ∈ url.host, HostText h
  path : PathText url.urlPath

variable {url : Url}

theorem parseHostPath_text : Yields (parseHostPath fuel (urlGetPath fuel) url s) UrlText := by
  exact urlGetHostPort_host.bind fun hp hhost => Yields.trivial.bind fun _ _ =>
    (urlGetPath_text _).bind fun path hpath => Yields.pure ⟨hhost, hpath⟩

theorem parseUnknown_text (hnone : url.urlPath = none) : Yields (parseUnknown fuel url s) UrlText := by
  have hempty : PathText url.urlPath := by simp [PathText, hnone]
  refine urlGetHostPort_host.bind fun hp hhost => ?_
  split
  · refine Yields.bind (Yields.attempt (urlGetPath_text _)) fun r hr => ?_
    cases r with
    | ok path => exact Yields.pure ⟨hhost, hr path rfl⟩
    | error e => exact Yields.pure ⟨hhost, hempty⟩
  · exact Yields.pure ⟨hhost, hempty⟩

theorem parseLdap_text (hnone : url.urlPath = none) : Yields (parseLdap fuel url s) UrlText := by
  have hempty : PathText url.urlPath := by simp [PathText, hnone]
  refine urlGetHostPort_host.bind fun hp hhost => ?_
  split
  · exact Yields.throw _
  · exact Yields.trivial.bind fun _ _ => Yields.trivial.bind fun r _ => Yields.pure ⟨hhost, hempty⟩

theorem urlGetFilePath_text {host : Option (List Char)} {pos : Nat} (hhost : ∀ h ∈ host, HostText h) :
    Yields (urlGetFilePath fuel (urlGetPath fuel) host pos s) fun r => (∀ h ∈ r.1, HostText h) ∧ PathText r.2 := by
  exact Yields.trivial.bind fun _ _ => Yields.trivial.bind fun _ _ =>
    (urlGetPath_text _).bind fun path hpath => Yields.pure ⟨hhost, hpath⟩

theorem urlGetFileSpecific_text :
    Yields (urlGetFileSpecific fuel s) fun r => (∀ h ∈ r.1, HostText h) ∧ PathText r.2 := by
  refine Yields.trivial.bind fun _ _ => Yields.trivial.bind fun _ _ => ?_
  split
  · refine Yields.bind (scanWhile_host (by decide) (by decide) fun c hc => .inl hc) fun pos hpos => ?_
    split
    · next hne => exact urlGetFilePath_text fun h hh => Option.some.inj hh ▸ hpos hne.2
    · exact urlGetFilePath_text (by simp)
  · exact urlGetFilePath_text (by simp)

theorem urlParse_text : Yields (urlParse fuel s) UrlText := by
  refine Yields.trivial.bind fun r _ => Yields.trivial.bind fun _ _ => ?_
  have hempty : PathText none := by simp [PathText]
  unfold parseSpecific
  split
  · exact Yields.trivial.bind fun up _ => parseHostPath_text
  · exact Yields.trivial.bind fun up _ => parseHostPath_text
  · exact Yields.trivial.bind fun up _ => parseHostPath_text
  · exact parseHostPath_text
  · exact parseHostPath_text
  · refine urlGetHostPort_host.bind fun hp hhost => ?_
    split
    · exact Yields.throw _
    · exact Yields.trivial.bind fun _ _ => Yields.pure ⟨hhost, hempty⟩
  · exact parseLdap_text rfl
  · exact urlGetFileSpecific_text.bind fun r hr => Yields.pure ⟨hr.1, hr.2⟩
  · exact Yields.pure ⟨by simp, hempty⟩
  · exact parseUnknown_text rfl

end Host

/-! ## Texts in front of a character outside their class -/

theorem charAt_append (u v : List Char) (i : Nat) : charAt (u ++ v) (u.length + i) = charAt v i := by
  unfold charAt
  rw [getD_eq_getElem?_getD, getD_eq_getElem?_getD, getElem?_append_right (by omega), Nat.add_sub_cancel_left]

theorem scanWhile_append {fuel : Nat} {isClass : Char → Bool} {u v : List Char} (hclass : isClass '\x00' = false)
    (hu : ∀ c ∈ u, isClass c) (hv : ∀ c ∈ v.head?, isClass c = false) (hfuel : u.length < fuel) :
    scanWhile fuel isClass (u ++ v) 0 = pure u.length := by
  rw [scanWhile_eq hclass, drop_zero, takeWhile_append_of_head hu hv, if_pos hfuel, Nat.zero_add]

section Text

variable {fuel : Nat} {isClass : Char → Bool} {u v : List Char} {c : Char}

theorem charAt_append_cons : charAt (u ++ c :: v) u.length = c := by
  unfold charAt
  rw [getD_eq_getElem?_getD, getElem?_append_right le_rfl, Nat.sub_self]
  rfl

theorem takeWhile_append_cons (hu : ∀ a ∈ u, isClass a) (hc : isClass c = false) :
    (u ++ c :: v).takeWhile isClass = u := by
  rw [takeWhile_append_of_pos hu, takeWhile_cons_of_neg (by rw [hc]; decide), append_nil]

theorem scanWhile_append_cons {p : Char → Bool} (hclass : p '\x00' = false) (hu : ∀ a ∈ u, p a) (hc : p c = false) :
    scanWhile fuel p (u ++ c :: v) 0 = if u.length < fuel then pure u.length else diverge := by
  rw [scanWhile_eq hclass, drop_zero, takeWhile_append_cons hu hc, Nat.zero_add]

theorem not_mem_of_class (hu : ∀ a ∈ u, isClass a) (hc : isClass c = false) : c ∉ u := fun h => by
  rw [hu c h] at hc
  cases hc

theorem urlGetScheme_append (hu : ∀ a ∈ u, isSchemeChar a) (hne : u ≠ []) :
    urlGetScheme fuel (u ++ ':' :: v) =
      if u.length < fuel then pure (u, urlGetScheme.schemeType u, ':' :: v) else diverge := by
  unfold urlGetScheme
  rw [scanWhile_append_cons (by decide) hu (by decide)]
  split
  · have hpos : u.length ≠ 0 := fun h => hne (length_eq_zero_iff.1 h)
    rw [pure_bind, charAt_append_cons, failIf_of_not (by simp), failIf_of_not hpos,
      urlGetSubstring_append (not_mem_of_class hu (by decide)) (not_mem_of_class hu (by decide)), drop_left]
    rfl
  · rfl

end Text

end Globus
