/-
The names of the GASS cache (gass/cache/source/globus_gass_cache.c): a URL or a tag is mangled into a path, either with
escapes or as an MD5 digest, and the path is put behind the root of the cache. `char` is signed, and the locale is the C
locale; the digest is a parameter.
-/
import GlobusToolkit.Lib.Cursor
import GlobusToolkit.Lib.Path

namespace Globus.Gass

open Lib List

/-! ## The functions -/

def safe : List Char := "$-_.+".toList

def extra : List Char := "!*'(),".toList

/-- Letters, digits, safe and extra characters are copied wherever they stand. -/
def copied (c : Octet) : Bool := c.chr.isAlphanum || safe.contains c.chr || extra.contains c.chr

/-- The loop of `globus_l_gass_cache_mangle_html`: what is stored for every character. -/
def mangleLoop (separator : Octet) : Bool → List Octet → List Write
  | _, [] => []
  | mangleSeparator, c :: string =>
    if copied c || (separator == c && !mangleSeparator) then
      .char c.chr :: mangleLoop separator (separator == c) string
    else
      -- A separator that is mangled leaves `mangle_separator` as it is.
      hexPiece c :: mangleLoop separator (mangleSeparator && separator == c) string

/-- `globus_l_gass_cache_mangle_html` with a buffer: the memory that it writes. -/
def mangleHtml (separator : Octet) (string : List Octet) : List Char :=
  Cursor.string (mangleLoop separator false string)

/-- `globus_l_gass_cache_mangle_html` without a buffer: the length that it reports. -/
def mangleHtmlLength (separator : Octet) (string : List Octet) : Nat :=
  ((mangleLoop separator false string).map Write.advance).sum + 1

/-- `globus_l_gass_cache_mangle_md5`, with the digest of the string. -/
def mangleMd5 (separator : Octet) (levels : Int) (md5 : List Octet) : List Char :=
  md5.zipIdx.flatMap fun (b, i) =>
    printHex (b.setWidth 32) ++ if (i : Int) ≤ levels - 2 then [separator.chr] else []

/-- The length it reports, for a digest of 16 bytes. -/
def mangleMd5Length : Nat := 39

/-- An entry of `cache_mangling_list` that the cache has switched on. -/
structure ManglingOption where
  subdirectory : List Char
  mangle : List Octet → List Char
  length : List Octet → Nat

/-- The entries for the separator, the number of levels and the digest. -/
def manglingHtml (separator : Octet) : ManglingOption where
  subdirectory := "html".toList
  mangle s := cstr (mangleHtml separator s)
  length := mangleHtmlLength separator

def manglingMd5 (separator : Octet) (levels : Int) (md5 : List Octet → List Octet) : ManglingOption where
  subdirectory := "md5".toList
  mangle s := mangleMd5 separator levels (md5 s)
  length _ := mangleMd5Length

/-- `globus_l_gass_cache_mangle`: the first entry whose name is short enough; none is the error
`GLOBUS_GASS_CACHE_ERROR_NAME_TOO_LONG`. -/
def gassCacheMangle (separator : Octet) (options : List ManglingOption) (maxMangledLen : Int) (string : List Octet) :
    Option (List Char) :=
  (options.find? fun o => maxMangledLen > 0 ∧ ((o.length string + o.subdirectory.length + 1 : Nat) : Int) ≤ maxMangledLen).map
    fun o => o.subdirectory ++ separator.chr :: o.mangle string

/-- `globus_l_gass_cache_build_dirname`. -/
def buildDirname (root separator : List Char) (mangledTag mangledUrl : Option (List Char)) : List Char :=
  let path := match mangledTag with
    | some tag => root ++ separator ++ tag
    | none => root
  match mangledUrl with
  | some url => path ++ separator ++ url
  | none => path

/-! ## The text that is read back -/

/-- The separator of a cache with directories. -/
def slash : Octet := 0x2f#8

/-- The text for a string, from a value of `mangle_separator` on. -/
def mangledText (separated : Bool) (s : List Octet) : List Char := (mangleLoop slash separated s).flatMap Write.shown

/-- What is seen of one character. -/
def token (separated : Bool) (c : Octet) : List Char :=
  if copied c || (slash == c && !separated) then [c.chr] else (hexPiece c).shown

theorem copied_facts : ∀ c : Octet,
    (copied c || slash == c → c.msb = false ∧ c.chr ≠ '%' ∧ c.chr ≠ '\x00') ∧ (copied c → c ≠ slash) ∧
      '.' ∉ (hexPiece c).shown ∧ '/' ∉ (hexPiece c).shown := by
  decide +kernel

/-- `mangle_separator` is set behind a separator, copied or mangled, and behind nothing else. -/
theorem mangleLoop_cons (separated : Bool) (c : Octet) (s : List Octet) : mangleLoop slash separated (c :: s) =
    (if copied c || (slash == c && !separated) then .char c.chr else hexPiece c) :: mangleLoop slash (slash == c) s := by
  rw [mangleLoop]
  split
  · rfl
  · next h =>
    have : (separated && slash == c) = (slash == c) := by
      cases separated <;> cases hc : slash == c <;> simp_all
    rw [this]

theorem mangledText_cons (separated : Bool) (c : Octet) (s : List Octet) :
    mangledText separated (c :: s) = token separated c ++ mangledText (slash == c) s := by
  rw [mangledText, mangleLoop_cons, flatMap_cons, token]
  split <;> rfl

theorem token_ne_nil (separated : Bool) (c : Octet) : token separated c ≠ [] := by
  obtain ⟨h, l, hshown, -⟩ := shown_hexPiece c
  unfold token
  split <;> simp [hshown]

variable {s : List Octet}

theorem mangledText_eq_nil {separated : Bool} (h : mangledText separated s = []) : s = [] := by
  cases s with
  | nil => rfl
  | cons c s =>
    rw [mangledText_cons] at h
    exact absurd (append_eq_nil_iff.1 h).1 (token_ne_nil separated c)

/-- `mangle_separator` behind a string. -/
def separatedBehind : Bool → List Octet → Bool
  | separated, [] => separated
  | _, c :: s => separatedBehind (slash == c) s

theorem separatedBehind_concat (s : List Octet) (c : Octet) : ∀ separated, separatedBehind separated (s ++ [c]) = (slash == c) := by
  induction s with
  | nil => intro separated; rfl
  | cons d s ih => intro separated; exact ih (slash == d)

theorem separatedBehind_append (u v : List Octet) : ∀ separated,
    separatedBehind separated (u ++ v) = separatedBehind (separatedBehind separated u) v := by
  induction u with
  | nil => intro separated; rfl
  | cons c u ih => intro separated; exact ih (slash == c)

theorem mangledText_append (u v : List Octet) : ∀ separated,
    mangledText separated (u ++ v) = mangledText separated u ++ mangledText (separatedBehind separated u) v := by
  induction u with
  | nil => intro separated; rfl
  | cons c u ih =>
    intro separated
    rw [cons_append, mangledText_cons, mangledText_cons, ih, append_assoc]
    rfl

/-! ## Reading the escapes -/

theorem unescape_token (separated : Bool) (c : Octet) (rest : List Char) :
    unescape (token separated c ++ rest) = (hexSeen c).chr :: unescape rest := by
  unfold token
  split
  · next h =>
    have hcopied : copied c || slash == c := by
      cases hc : copied c <;> simp_all
    obtain ⟨hmsb, hpct, -⟩ := (copied_facts c).1 hcopied
    rw [singleton_append, unescape_cons hpct, hexSeen, if_neg (by simp [hmsb])]
  · exact unescape_hexPiece c rest

theorem unescape_mangledText (s : List Octet) : ∀ separated,
    unescape (mangledText separated s) = s.map fun c => (hexSeen c).chr := by
  induction s with
  | nil => intro separated; rfl
  | cons c s ih =>
    intro separated
    rw [mangledText_cons, unescape_token, ih, map_cons]

theorem forall_mem_mangleLoop {P : Write → Prop}
    (h : ∀ c ∈ s, (copied c || slash == c → P (.char c.chr)) ∧ P (hexPiece c)) :
    ∀ separated, ∀ p ∈ mangleLoop slash separated s, P p := by
  induction s with
  | nil => intro separated p hp; cases hp
  | cons c s ih =>
    intro separated p hp
    rw [mangleLoop_cons, mem_cons] at hp
    rcases hp with rfl | hp
    · split
      · next hc =>
        refine (h c (by simp)).1 ?_
        cases hcop : copied c <;> simp_all
      · exact (h c (by simp)).2
    · exact ih (fun d hd => h d (by simp [hd])) _ p hp

theorem cstr_mangleHtml (s : List Octet) : cstr (mangleHtml slash s) = mangledText false s := by
  refine Cursor.cstr_string (forall_mem_mangleLoop (fun c _ => ⟨fun hc => ?_, nul_not_mem_hexPiece c⟩) false)
  simpa using Ne.symm ((copied_facts c).1 hc).2.2

theorem length_mangleHtml (hs : ∀ c ∈ s, c.msb = false) :
    (mangleHtml slash s).length = mangleHtmlLength slash s := by
  rw [mangleHtml, Cursor.length_string, mangleHtmlLength, length_flatMap]
  · simp only [Write.length_shown]
  · refine forall_mem_mangleLoop (fun c hc => ⟨fun _ => Nat.le_succ 1, ?_⟩) false
    rw [length_stored_hexPiece, if_neg (by simp [hs c hc]), advance_hexPiece]

/-- A string of characters that are not negative is not read back as another one. -/
theorem eq_of_mangledText_eq {a b : List Octet} (ha : ∀ c ∈ a, c.msb = false)
    (h : mangledText false a = mangledText false b) : a = b := by
  have hseen : a.map hexSeen = b.map hexSeen := by
    have := congrArg unescape h
    rw [unescape_mangledText, unescape_mangledText] at this
    refine map_injective_iff.2 Octet.chr_injective ?_
    rwa [map_map, map_map]
  have hself : a.map hexSeen = a := by
    rw [map_congr_left (g := id), map_id]
    exact fun c hc => if_neg (by simp [ha c hc])
  rw [hself] at hseen
  refine hseen.trans ?_
  rw [map_congr_left (g := id), map_id]
  intro c hc
  -- A negative character would be seen as one.
  have hmsb := ha (hexSeen c) (by rw [hseen]; exact mem_map_of_mem hc)
  unfold hexSeen at hmsb ⊢
  split
  · next hneg => rw [if_pos hneg] at hmsb; cases hmsb
  · rfl

/-- Two strings that differ in one negative character are mangled alike. -/
theorem mangledText_flip {u v : List Octet} {c d : Octet} (hc : c.msb) (hd : d.msb) :
    mangledText false (u ++ c :: v) = mangledText false (u ++ d :: v) := by
  have htoken : ∀ {x : Octet} (separated : Bool), x.msb → token separated x = ['%', 'f', 'f'] ∧ (slash == x) = false := by
    intro x separated hx
    have hcopied : (copied x || slash == x) = false := by
      by_contra h
      rw [((copied_facts x).1 (Bool.eq_true_of_not_eq_false h)).1] at hx
      cases hx
    rw [Bool.or_eq_false_iff] at hcopied
    rw [token, hcopied.1, hcopied.2, if_neg (by simp), (shown_of_msb x hx).1]
    exact ⟨rfl, rfl⟩
  rw [mangledText_append, mangledText_append, mangledText_cons, mangledText_cons, (htoken _ hc).1, (htoken _ hd).1,
    (htoken false hc).2, (htoken false hd).2]

/-! ## Components -/

/-- A dot or a slash of the text was copied, from a place where it stands in the string. -/
theorem exists_of_mangledText_eq {d : Char} (hd : d = '.' ∨ d = '/') : ∀ {separated : Bool} {x y : List Char},
    mangledText separated s = x ++ d :: y → ∃ u c v, s = u ++ c :: v ∧ c.chr = d ∧ mangledText separated u = x ∧
      mangledText (slash == c) v = y ∧ (c = slash → separatedBehind separated u = false) := by
  induction s with
  | nil => intro separated x y h; simp [mangledText, mangleLoop] at h
  | cons c s ih =>
    intro separated x y h
    rw [mangledText_cons] at h
    by_cases hmem : d ∈ token separated c
    · -- Only a character that is copied can be `d`.
      obtain ⟨hcopied, htoken⟩ : (copied c || (slash == c && !separated)) = true ∧ token separated c = [c.chr] := by
        unfold token at hmem ⊢
        split at hmem
        · next hc => exact ⟨hc, if_pos hc⟩
        · rcases hd with rfl | rfl
          · exact absurd hmem (copied_facts c).2.2.1
          · exact absurd hmem (copied_facts c).2.2.2
      rw [htoken, mem_singleton] at hmem
      rw [htoken, singleton_append] at h
      cases x with
      | nil =>
        refine ⟨[], c, s, rfl, hmem.symm, rfl, (List.cons.inj h).2, ?_⟩
        rintro rfl
        rcases Bool.or_eq_true_iff.1 hcopied with hc | hc
        · exact absurd rfl ((copied_facts slash).2.1 hc)
        · simpa [separatedBehind] using (Bool.and_eq_true_iff.1 hc).2
      | cons e x =>
        obtain ⟨he, htail⟩ := List.cons.inj h
        obtain ⟨u, c', v, rfl, hc', hu, hv, hsep⟩ := ih htail
        exact ⟨c :: u, c', v, rfl, hc', by rw [mangledText_cons, htoken, hu, he]; rfl, hv, hsep⟩
    · obtain ⟨x', rfl, htail⟩ := exists_of_append_eq hmem h
      obtain ⟨u, c', v, rfl, hc', hu, hv, hsep⟩ := ih htail
      exact ⟨c :: u, c', v, rfl, hc', by rw [mangledText_cons, hu], hv, hsep⟩

/-- The byte of a dot. -/
def period : Octet := 0x2e#8

/-- A piece `.` or `..` of the string, at its beginning or behind the first of the slashes in front of it. -/
def DotPiece (s : List Octet) : Prop := ∃ u w v, s = u ++ w ++ v ∧ (w = [period] ∨ w = [period, period]) ∧
  (∀ c ∈ v.head?, c = slash) ∧ (u = [] ∨ ∃ u', u = u' ++ [slash] ∧ ∀ c ∈ u'.getLast?, c ≠ slash)

theorem eq_of_chr {c d : Octet} (h : c.chr = d.chr) : c = d := Octet.chr_injective h

theorem separatedBehind_eq_false {u : List Octet} :
    separatedBehind false u = false ↔ ∀ c ∈ u.getLast?, c ≠ slash := by
  rcases eq_nil_or_concat u with rfl | ⟨u, c, rfl⟩
  · simp [separatedBehind]
  · rw [concat_eq_append, separatedBehind_concat, getLast?_concat, beq_eq_false_iff_ne, ne_comm]
    simp only [Option.mem_some, forall_eq']

/-- A text that ends in a separator was written for a string with a separator that is the first of its run. -/
theorem first_slash_of_getLast {u : List Octet} (h : ∀ c ∈ (mangledText false u).getLast?, c = '/') :
    u = [] ∨ ∃ u', u = u' ++ [slash] ∧ ∀ c ∈ u'.getLast?, c ≠ slash := by
  rcases eq_nil_or_concat (mangledText false u) with hnil | ⟨x, c, hx⟩
  · exact .inl (mangledText_eq_nil hnil)
  · rw [concat_eq_append] at hx
    obtain rfl : c = '/' := h c (by simp [hx])
    obtain ⟨u', c', v, rfl, hc', -, hv, hsep⟩ := exists_of_mangledText_eq (.inr rfl) hx
    obtain rfl := mangledText_eq_nil hv
    obtain rfl : c' = slash := eq_of_chr hc'
    exact .inr ⟨u', rfl, separatedBehind_eq_false.1 (hsep rfl)⟩

theorem head_slash {v : List Octet} {separated : Bool} (h : ∀ c ∈ (mangledText separated v).head?, c = '/') :
    ∀ c ∈ v.head?, c = slash := by
  cases hv : mangledText separated v with
  | nil => simp [mangledText_eq_nil hv]
  | cons c y =>
    rw [hv] at h
    obtain rfl : c = '/' := h c (by simp)
    obtain ⟨u', c', v', rfl, hc', hu, -⟩ := exists_of_mangledText_eq (x := []) (.inr rfl) hv
    obtain rfl := mangledText_eq_nil hu
    simpa using eq_of_chr hc'

theorem exists_dots {x y : List Char} {w : List Char} (hw : w = dot ∨ w = dotDot)
    (h : mangledText false s = x ++ w ++ y) : ∃ u v, s = u ++ w.map (fun _ => period) ++ v ∧ mangledText false u = x ∧
      mangledText false v = y := by
  rcases hw with rfl | rfl
  · obtain ⟨u, c, v, rfl, hc, hu, hv, -⟩ := exists_of_mangledText_eq (y := y) (.inl rfl) (by simpa [dot] using h)
    obtain rfl : c = period := eq_of_chr hc
    exact ⟨u, v, by simp [dot], hu, hv⟩
  · obtain ⟨u, c, v, rfl, hc, hu, hv, -⟩ := exists_of_mangledText_eq (y := '.' :: y) (.inl rfl) (by simpa [dotDot] using h)
    obtain rfl : c = period := eq_of_chr hc
    obtain ⟨u', c', v', rfl, hc', hu', hv', -⟩ := exists_of_mangledText_eq (x := []) (.inl rfl) hv
    obtain rfl := mangledText_eq_nil hu'
    obtain rfl : c' = period := eq_of_chr hc'
    exact ⟨u, v', by simp [dotDot], hu, hv'⟩

theorem mangledText_slash (v : List Octet) : mangledText false (slash :: v) = '/' :: mangledText true v := by
  rfl

theorem dotPiece_iff (s : List Octet) :
    DotPiece s ↔ ∃ w ∈ (mangledText false s).splitOn '/', w = dot ∨ w = dotDot := by
  constructor
  · rintro ⟨u, w, v, rfl, hw, hv, hu⟩
    obtain ⟨w', hw', htext, hbehind⟩ : ∃ w', (w' = dot ∨ w' = dotDot) ∧ (∀ separated, mangledText separated w = w') ∧
        ∀ separated, separatedBehind separated w = false := by
      rcases hw with rfl | rfl
      · exact ⟨dot, .inl rfl, by decide, by decide⟩
      · exact ⟨dotDot, .inr rfl, by decide, by decide⟩
    have hslash : '/' ∉ w' := by rcases hw' with rfl | rfl <;> decide
    refine ⟨w', mem_splitOn_iff.2 ⟨hslash, mangledText false u, mangledText false v, ?_, ?_, ?_⟩, hw'⟩
    · rw [mangledText_append, mangledText_append, htext, separatedBehind_append, hbehind]
    · rcases hu with rfl | ⟨u', rfl, hlast⟩
      · simp [mangledText, mangleLoop]
      · rw [mangledText_append, separatedBehind_eq_false.2 hlast, mangledText_slash]
        simp [mangledText, mangleLoop]
    · cases v with
      | nil => simp [mangledText, mangleLoop]
      | cons c v =>
        obtain rfl : c = slash := hv c (by simp)
        simp [mangledText_slash]
  · rintro ⟨w, hmem, hw⟩
    obtain ⟨-, x, y, heq, hx, hy⟩ := mem_splitOn_iff.1 hmem
    obtain ⟨u, v, rfl, rfl, rfl⟩ := exists_dots hw heq
    refine ⟨u, _, v, rfl, ?_, head_slash hy, first_slash_of_getLast hx⟩
    rcases hw with rfl | rfl
    · exact .inl rfl
    · exact .inr rfl

/-! ## The names of the cache -/

/-- A path below a directory: it goes on from there, and never back. -/
def Below (root path : List Char) : Prop := ∃ ks, ks ≠ [] ∧ names path = names root ++ ks

/-- The entries of `cache_mangling_list`. -/
def IsManglingOption (o : ManglingOption) : Prop :=
  o = manglingHtml slash ∨ ∃ levels md5, o = manglingMd5 slash levels md5

theorem printHex_digits : ∀ b : Octet, '.' ∉ printHex (b.setWidth 32) := by
  decide +kernel

theorem period_not_mem_mangleMd5 (levels : Int) (md5 : List Octet) : '.' ∉ mangleMd5 slash levels md5 := by
  intro h
  obtain ⟨⟨b, i⟩, -, hb⟩ := mem_flatMap.1 h
  rcases mem_append.1 hb with hb | hb
  · exact printHex_digits b hb
  · split at hb
    · exact absurd hb (by decide)
    · cases hb

theorem dotDot_not_mem_mangle {o : ManglingOption} (ho : IsManglingOption o) (hs : ¬ DotPiece s) :
    dotDot ∉ components '/' (o.mangle s) := by
  intro h
  have hsplit : dotDot ∈ (o.mangle s).splitOn '/' := mem_of_mem_filter h
  rcases ho with rfl | ⟨levels, md5, rfl⟩
  · refine hs ((dotPiece_iff s).2 ⟨dotDot, ?_, .inr rfl⟩)
    rwa [← cstr_mangleHtml]
  · obtain ⟨-, u, v, heq, -⟩ := mem_splitOn_iff.1 hsplit
    have hdot : '.' ∈ u ++ dotDot ++ v := by simp [dotDot]
    rw [← heq] at hdot
    exact period_not_mem_mangleMd5 levels (md5 s) hdot

/-- Every name that is made of a string without such pieces stays below the root. -/
theorem below_of_gassCacheMangle {options : List ManglingOption} (hoptions : ∀ o ∈ options, IsManglingOption o)
    (hs : ¬ DotPiece s) {maxLen : Int} {mangled : List Char}
    (h : gassCacheMangle slash options maxLen s = some mangled) (root : List Char) {tag : Option (List Char)}
    (htag : ∀ t ∈ tag, dotDot ∉ components '/' t) : Below root (buildDirname root ['/'] tag (some mangled)) := by
  obtain ⟨o, hfind, rfl⟩ := Option.map_eq_some_iff.1 h
  have ho : IsManglingOption o := hoptions o (mem_of_find?_eq_some hfind)
  obtain ⟨hdirDot, hdir⟩ : dotDot ∉ components '/' o.subdirectory ∧ (components '/' o.subdirectory).filter (· ≠ dot) ≠ [] := by
    rcases ho with rfl | ⟨levels, md5, rfl⟩
    · decide
    · exact (by decide : dotDot ∉ components '/' "md5".toList ∧ (components '/' "md5".toList).filter (· ≠ dot) ≠ [])
  have hcomps : components '/' (o.subdirectory ++ slash.chr :: o.mangle s) =
      components '/' o.subdirectory ++ components '/' (o.mangle s) := components_append_sep _ _
  have hdots : dotDot ∉ components '/' (o.subdirectory ++ slash.chr :: o.mangle s) := by
    rw [hcomps, mem_append, not_or]
    exact ⟨hdirDot, dotDot_not_mem_mangle ho hs⟩
  have hstep : ∀ dir : List Char, names (dir ++ ['/'] ++ (o.subdirectory ++ slash.chr :: o.mangle s)) =
      names dir ++ (components '/' (o.subdirectory ++ slash.chr :: o.mangle s)).filter (· ≠ dot) := fun dir => by
    rw [append_assoc, singleton_append, names_append, descend_of_no_dotDot hdots]
  have hne : (components '/' (o.subdirectory ++ slash.chr :: o.mangle s)).filter (· ≠ dot) ≠ [] := by
    rw [hcomps, filter_append]
    exact append_ne_nil_of_left_ne_nil hdir _
  cases tag with
  | none => exact ⟨_, hne, hstep root⟩
  | some t =>
    refine ⟨(components '/' t).filter (· ≠ dot) ++ _, append_ne_nil_of_right_ne_nil _ hne, ?_⟩
    show names (root ++ ['/'] ++ t ++ ['/'] ++ _) = _
    rw [hstep, append_assoc root, singleton_append, names_append, descend_of_no_dotDot (htag t rfl),
      append_assoc]

/-- A name is the name of one string only, fits into its memory, and does not leave the directory that it is put into. -/
structure CacheName (a : CBytes) : Prop where
  injective : ∀ b : CBytes, cstr (mangleHtml slash a.bytes) = cstr (mangleHtml slash b.bytes) → a.bytes = b.bytes
  length : (mangleHtml slash a.bytes).length = mangleHtmlLength slash a.bytes
  components : ∀ w ∈ (cstr (mangleHtml slash a.bytes)).splitOn '/', w ≠ dot ∧ w ≠ dotDot
  below : ∀ (options : List ManglingOption) (maxLen : Int) (mangled root : List Char) (tag : Option (List Char)),
    (∀ o ∈ options, IsManglingOption o) → gassCacheMangle slash options maxLen a.bytes = some mangled →
    (∀ t ∈ tag, dotDot ∉ Lib.components '/' t) → Below root (buildDirname root ['/'] tag (some mangled))

theorem exists_same_mangled {a : CBytes} {c : Octet} (hc : c ∈ a.bytes) (hmsb : c.msb) : ∃ b : CBytes,
    cstr (mangleHtml slash a.bytes) = cstr (mangleHtml slash b.bytes) ∧ a.bytes ≠ b.bytes := by
  obtain ⟨u, v, ha⟩ := append_of_mem hc
  obtain ⟨d, hd, hne⟩ : ∃ d : Octet, d.msb ∧ d ≠ c := by
    by_cases h : c = 128#8
    · exact ⟨129#8, by decide, by rw [h]; decide⟩
    · exact ⟨128#8, by decide, Ne.symm h⟩
  have hnul : 0#8 ∉ u ++ d :: v := by
    have := a.nul
    rw [ha] at this
    simp only [mem_append, mem_cons, not_or] at this ⊢
    refine ⟨this.1, fun h => ?_, this.2.2⟩
    rw [← h] at hd
    exact absurd hd (by decide)
  refine ⟨⟨u ++ d :: v, hnul⟩, ?_, fun h => ?_⟩
  · rw [cstr_mangleHtml, cstr_mangleHtml, ha]
    exact mangledText_flip hmsb hd
  · rw [ha, append_cancel_left_eq] at h
    exact hne (List.cons.inj h).1.symm

/-- The names of the cache are such names exactly for the ASCII strings without `.` and `..` among their pieces. -/
theorem mangle_cacheName (a : CBytes) : CacheName a ↔ (∀ c ∈ a.bytes, c.msb = false) ∧ ¬ DotPiece a.bytes := by
  constructor
  · intro h
    refine ⟨fun c hc => ?_, fun hdot => ?_⟩
    · by_contra hmsb
      obtain ⟨b, heq, hne⟩ := exists_same_mangled hc (by simpa using hmsb)
      exact hne (h.injective b heq)
    · obtain ⟨w, hw, hdots⟩ := (dotPiece_iff a.bytes).1 hdot
      rw [← cstr_mangleHtml] at hw
      exact hdots.elim (h.components w hw).1 (h.components w hw).2
  · rintro ⟨hascii, hdot⟩
    refine ⟨fun b hb => ?_, length_mangleHtml hascii, fun w hw => ?_, ?_⟩
    · rw [cstr_mangleHtml, cstr_mangleHtml] at hb
      exact eq_of_mangledText_eq hascii hb
    · rw [cstr_mangleHtml] at hw
      exact ⟨fun h => hdot ((dotPiece_iff _).2 ⟨w, hw, .inl h⟩), fun h => hdot ((dotPiece_iff _).2 ⟨w, hw, .inr h⟩)⟩
    · intro options maxLen mangled root tag hoptions hmangle htag
      exact below_of_gassCacheMangle hoptions hdot hmangle root htag

/-- Two bytes with the highest bit share a name, and the second is written behind the length that is reported; the name of
`../../e` leads out of the cache. -/
theorem mangle_cacheName_fails :
    cstr (mangleHtml slash [0x80#8]) = cstr (mangleHtml slash [0x81#8]) ∧
      mangleHtmlLength slash [0x81#8] < (mangleHtml slash [0x81#8]).length ∧
      (gassCacheMangle slash [manglingHtml slash] 255 [period, period, slash, period, period, slash, 0x65#8]).map
        (fun mangled => names (buildDirname "/cache".toList ['/'] none (some mangled))) = some ["e".toList] := by
  decide +kernel

end Globus.Gass
