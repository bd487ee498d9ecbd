/-
Gridmap files (gsi/gss_assist/source/gridmap.c). A line has a distinguished name, quoted or not, and the accounts it may use.
A line is the text in front of its null character; memory is never short, and the file can be read.
-/
import GlobusToolkit.Gsi.SigningPolicy
import GlobusToolkit.Lib.Words

namespace Globus.Gsi

open Lib List

/-! ## Parsing a line -/

/-- `WHITESPACE_CHARS`. -/
def isWhitespace (c : Char) : Bool := c = ' ' || c = '\t' || c = '\n'

/-- `USERID_TERMINATOR_CHARS`. -/
def isTerminator (c : Char) : Bool := c = ',' || isWhitespace c

/-- `globus_i_gss_assist_gridmap_line_t`. The name is missing if nothing was written to its buffer; no accounts are a null
pointer. -/
structure GridmapLine where
  dn : Option (List Char)
  userIds : List (List Char)
  deriving DecidableEq

/-- The two errors of a line, with the text that they print. -/
inductive GridmapError where
  | closingQuoteMissing (line : List Char)
  | nothingFollowsDn (line : List Char)
  deriving DecidableEq

/-- A character of a name; one that cannot be printed is written as `\xHH`. -/
def printedChar (c : Char) : List Char :=
  if c < ' ' || c > '~' then
    ['\\', 'x', (Nat.digitChar (c.toNat / 16 % 16)).toUpper, (Nat.digitChar (c.toNat % 16)).toUpper]
  else [c]

/-- The loop of `globus_i_gss_assist_gridmap_parse_globusid`, with its flag `escaped`. -/
def globusidLoop : Bool → List Char → List Char
  | _, [] => []
  | escaped, c :: unparsed =>
    if c = '\\' && !escaped then globusidLoop true unparsed
    else
      match unparsed with
      | a :: b :: rest =>
        if c = 'x' && escaped && isxdigit a && isxdigit b then printedChar (hexByte a b) ++ globusidLoop false rest
        else printedChar c ++ globusidLoop false (a :: b :: rest)
      | rest => printedChar c ++ globusidLoop false rest

/-- `globus_i_gss_assist_gridmap_parse_globusid`. -/
def parseGlobusid (unparsed : List Char) : Option (List Char) :=
  if globusidLoop false unparsed = [] then none else some (globusidLoop false unparsed)

/-- The loop from quote to quote, which goes on at a quote behind a backslash: the text in front of the closing quote, and
the text behind it. -/
def closingQuote : Char → List Char → Option (List Char × List Char)
  | _, [] => none
  | before, c :: line =>
    if c = '"' ∧ before ≠ '\\' then some ([], line) else (closingQuote c line).map fun r => (c :: r.1, r.2)

/-- The loop over the accounts. -/
def userids (line : List Char) : List (List Char) :=
  if line = [] then []
  else
    line.takeWhile (!isTerminator ·) ::
      userids ((line.dropWhile (!isTerminator ·)).dropWhile isTerminator)
termination_by line.length
decreasing_by
  next hne =>
    obtain ⟨c, rest, rfl⟩ := exists_cons_of_ne_nil hne
    have hle := (dropWhile_suffix isTerminator (l := (c :: rest).dropWhile (!isTerminator ·))).length_le
    by_cases hc : isTerminator c
    · rw [dropWhile_cons_of_neg (by simp [hc]), dropWhile_cons_of_pos hc]
      exact Nat.lt_succ_of_le (dropWhile_suffix _).length_le
    · rw [dropWhile_cons_of_pos (by simp [hc])] at hle ⊢
      exact Nat.lt_succ_of_le (hle.trans (dropWhile_suffix _).length_le)

/-- `globus_i_gss_assist_gridmap_parse_line`. -/
def parseLine (line : List Char) : Except GridmapError (Option GridmapLine) :=
  match line.dropWhile isWhitespace with
  -- Also the null character is found by `strchr` in the comment characters.
  | [] => .ok none
  | '#' :: _ => .ok none
  | '"' :: line =>
    match closingQuote '"' line with
    | none => .error (.closingQuoteMissing line)
    | some (dn, rest) => .ok (some ⟨parseGlobusid dn, userids (rest.dropWhile isWhitespace)⟩)
  | line =>
    match line.dropWhile (!isWhitespace ·) with
    | [] => .error (.nothingFollowsDn line)
    | _ :: rest =>
      .ok (some ⟨parseGlobusid (line.takeWhile (!isWhitespace ·)), userids (rest.dropWhile isWhitespace)⟩)

/-- `globus_i_gss_assist_gridmap_find_dn` on the lines of the file, with the comparison of names. -/
def findDn (dnCmp : Option (List Char) → Bool) : List (List Char) → Option GridmapLine
  | [] => none
  | line :: lines =>
    match parseLine line with
    | .ok (some gline) => if dnCmp gline.dn then some gline else findDn dnCmp lines
    | _ => findDn dnCmp lines

/-- `globus_gss_assist_userok`: whether the name may use the account, with the answer of the gridmapdir. -/
def userok (dnCmp : Option (List Char) → Bool) (gridmapdirUserok : List Char → Bool) (lines : List (List Char))
    (userid : List Char) : Bool :=
  match findDn dnCmp lines with
  | some ⟨_, first :: rest⟩ =>
    if first.head? = some '.' then gridmapdirUserok userid else (first :: rest).contains userid
  | _ => false

/-- The loop of `globus_i_gss_assist_gridmap_find_local_user`: the line whose default is the user, and the text of the
first one that has the user behind its default. -/
def findLocalUserLoop (localUser : List Char) :
    Option (List Char) → List (List Char) → Option GridmapLine × Option (List Char)
  | nondefaultLine, [] => (none, nondefaultLine)
  | nondefaultLine, line :: lines =>
    match parseLine line with
    | .ok (some gline) =>
      if gline.userIds.head? = some localUser then (some gline, nondefaultLine)
      else findLocalUserLoop localUser
        (if localUser ∈ gline.userIds ∧ nondefaultLine = none then some line else nondefaultLine) lines
    | _ => findLocalUserLoop localUser nondefaultLine lines

/-- `globus_i_gss_assist_gridmap_find_local_user` on the lines of the file. A line that was set aside is parsed again, also
if another one was found. -/
def findLocalUser (localUser : List Char) (lines : List (List Char)) : Except GridmapError (Option GridmapLine) :=
  match findLocalUserLoop localUser none lines with
  | (gline, none) => .ok gline
  | (_, some line) => parseLine line

/-! ## The line of a user -/

/-- The lines that can be parsed. -/
def gridmapLines (lines : List (List Char)) : List GridmapLine :=
  lines.filterMap fun line =>
    match parseLine line with
    | .ok gline => gline
    | .error _ => none

/-- The first line whose default is the user, or else the first one that lists the user. -/
def preferredLine (localUser : List Char) (lines : List (List Char)) : Option GridmapLine :=
  ((gridmapLines lines).find? fun gline => gline.userIds.head? = some localUser).or
    ((gridmapLines lines).find? fun gline => localUser ∈ gline.userIds)

theorem findLocalUserLoop_some (localUser line : List Char) (lines : List (List Char)) :
    (findLocalUserLoop localUser (some line) lines).2 = some line := by
  induction lines with
  | nil => rfl
  | cons l lines ih =>
    rw [findLocalUserLoop]
    split
    · split <;> simp [ih]
    · exact ih

theorem findLocalUser_eq (localUser : List Char) (lines : List (List Char)) :
    findLocalUser localUser lines = .ok ((gridmapLines lines).find? fun gline => localUser ∈ gline.userIds) := by
  induction lines with
  | nil => rfl
  | cons line lines ih =>
    unfold findLocalUser at ih ⊢
    rw [findLocalUserLoop, gridmapLines, filterMap_cons, ← gridmapLines]
    rcases hparse : parseLine line with _ | (_ | gline) <;> dsimp only
    · exact ih
    · exact ih
    · by_cases hdefault : gline.userIds.head? = some localUser
      · simp [hdefault, mem_of_mem_head? hdefault]
      · by_cases hmem : localUser ∈ gline.userIds
        · have hline := findLocalUserLoop_some localUser line lines
          generalize hloop : findLocalUserLoop localUser (some line) lines = r at hline
          obtain ⟨_, _⟩ := r
          subst hline
          simp [hdefault, hmem, hloop, hparse]
        · simpa [hdefault, hmem] using ih

/-- The line that is found is the preferred one exactly if the first line that lists the user has him as its default, or
no line has. -/
theorem findLocalUser_preferred_iff (localUser : List Char) (lines : List (List Char)) :
    findLocalUser localUser lines = .ok (preferredLine localUser lines) ↔
      (∀ gline ∈ (gridmapLines lines).find? fun gline => localUser ∈ gline.userIds,
        gline.userIds.head? = some localUser) ∨
      ∀ gline ∈ gridmapLines lines, gline.userIds.head? ≠ some localUser := by
  rw [findLocalUser_eq, preferredLine, Except.ok.injEq]
  generalize gridmapLines lines = glines
  induction glines with
  | nil => simp
  | cons gline glines ih =>
    by_cases hdefault : gline.userIds.head? = some localUser
    · simp [hdefault, mem_of_mem_head? hdefault]
    · by_cases hmem : localUser ∈ gline.userIds
      · cases hfind : glines.find? fun gline => gline.userIds.head? = some localUser with
        | none => simpa [hdefault, hmem, hfind] using find?_eq_none.1 hfind
        | some g =>
          have hhead : g.userIds.head? = some localUser := by simpa using find?_some hfind
          have hne : gline ≠ g := by
            rintro rfl
            exact hdefault hhead
          simpa [hdefault, hmem, hfind, hne] using ⟨g, mem_of_find?_eq_some hfind, hhead⟩
      · simpa [hdefault, hmem] using ih

/-- A line in front of the one whose default is the user is found. -/
theorem findLocalUser_nondefault :
    findLocalUser "joe".toList ["/CN=a ann,joe".toList, "/CN=b joe".toList] =
        .ok (some ⟨some "/CN=a".toList, ["ann".toList, "joe".toList]⟩) ∧
      preferredLine "joe".toList ["/CN=a ann,joe".toList, "/CN=b joe".toList] =
        some ⟨some "/CN=b".toList, ["joe".toList]⟩ := by
  decide +kernel

/-! ## The names of an account -/

theorem findDn_eq (dnCmp : Option (List Char) → Bool) (lines : List (List Char)) :
    findDn dnCmp lines = (gridmapLines lines).find? fun gline => dnCmp gline.dn := by
  induction lines with
  | nil => rfl
  | cons line lines ih =>
    rw [findDn, gridmapLines, filterMap_cons, ← gridmapLines, ih]
    rcases parseLine line with _ | (_ | gline) <;> simp
    split <;> simp [*]

/-- `globus_gss_assist_lookup_all_globusid` on the lines of the file: the result, and the names of the lines that list the
account. -/
def lookupAllGlobusid (username : List Char) (lines : List (List Char)) :
    Except GridmapError Unit × List (Option (List Char)) :=
  -- The result of the last line is overwritten by the next read, unless the end of the file was met in the line.
  (lines.getLast?.elim (.ok ()) fun line =>
      if line.getLast? = some '\n' then .ok () else (parseLine line).map fun _ => (),
    ((gridmapLines lines).filter (username ∈ ·.userIds)).map (·.dn))

/-- The comparison in `globus_i_gss_assist_gridmap_find_dn`. -/
def sameDn (d : List Char) (dn : Option (List Char)) : Bool := dn.any fun dn => dnCmp d dn = .eq

/-- Both directions agree exactly if an account that any line lists for a name is listed in the first line for the name. -/
theorem userok_lookup_iff {lines : List (List Char)} (hparsed : ∀ line ∈ lines, ∃ gline, parseLine line = .ok gline)
    (hpool : ∀ gline ∈ gridmapLines lines, ∀ u ∈ gline.userIds, u.head? ≠ some '.')
    (gridmapdirUserok : List Char → Bool) (d u : List Char) :
    (lookupAllGlobusid u lines).1 = .ok () ∧
    ((userok (sameDn d) gridmapdirUserok lines u ↔
        ∃ dn, some dn ∈ (lookupAllGlobusid u lines).2 ∧ dnCmp d dn = .eq) ↔
      ∀ gline ∈ gridmapLines lines, sameDn d gline.dn → u ∈ gline.userIds →
        ∃ first ∈ (gridmapLines lines).find? fun gline => sameDn d gline.dn, u ∈ first.userIds) := by
  have hlookup : (∃ dn, some dn ∈ (lookupAllGlobusid u lines).2 ∧ dnCmp d dn = .eq) ↔
      ∃ gline ∈ gridmapLines lines, sameDn d gline.dn ∧ u ∈ gline.userIds := by
    constructor
    · rintro ⟨dn, hdn, hcmp⟩
      obtain ⟨gline, hgline, hname⟩ := mem_map.1 hdn
      obtain ⟨hmem, hu⟩ := mem_filter.1 hgline
      exact ⟨gline, hmem, by simp [hname, sameDn, hcmp], by simpa using hu⟩
    · rintro ⟨gline, hmem, hsame, hu⟩
      obtain ⟨dn, hdn, hcmp⟩ := Option.any_eq_true _ _ |>.1 hsame
      exact ⟨dn, mem_map.2 ⟨gline, mem_filter.2 ⟨hmem, by simpa using hu⟩, hdn⟩, by simpa using hcmp⟩
  have huserok : userok (sameDn d) gridmapdirUserok lines u ↔
      ∃ first ∈ (gridmapLines lines).find? fun gline => sameDn d gline.dn, u ∈ first.userIds := by
    rw [userok, findDn_eq]
    cases hfind : (gridmapLines lines).find? fun gline => sameDn d gline.dn with
    | none => simp
    | some gline =>
      obtain ⟨dn, _ | ⟨first, rest⟩⟩ := gline
      · simp
      · have := hpool _ (mem_of_find?_eq_some hfind) first (by simp)
        simp [this]
  refine ⟨?_, ?_⟩
  · cases hlast : lines.getLast? with
    | none => simp [lookupAllGlobusid, hlast]
    | some line =>
      obtain ⟨gline, hgline⟩ := hparsed line (mem_of_getLast? hlast)
      simp [lookupAllGlobusid, hlast, hgline, Except.map]
  · rw [hlookup, huserok]
    constructor
    · exact fun h gline hgline hsame hu => h.2 ⟨gline, hgline, hsame, hu⟩
    · intro h
      refine ⟨?_, fun ⟨gline, hgline, hsame, hu⟩ => h gline hgline hsame hu⟩
      rintro ⟨first, hfirst, hu⟩
      exact ⟨first, mem_of_find?_eq_some hfirst, by simpa using find?_some hfirst, hu⟩

/-- An account that the second line lists for a name is in the first one, too. -/
theorem userok_lookup_two :
    userok (sameDn "/UID=a".toList) (fun _ => false) ["/USERID=a ann,bob\n".toList, "/UID=a bob\n".toList] "bob".toList ↔
      ∃ dn, some dn ∈ (lookupAllGlobusid "bob".toList ["/USERID=a ann,bob\n".toList, "/UID=a bob\n".toList]).2 ∧
        dnCmp "/UID=a".toList dn = .eq :=
  (userok_lookup_iff (by simpa using ⟨⟨_, rfl⟩, ⟨_, rfl⟩⟩) (by decide +kernel) _ _ _).2.2 (by decide +kernel)

/-- An account in the second line for a name is found for the account, and not for the name. -/
theorem userok_lookup_repeated :
    userok (sameDn "/CN=a".toList) (fun _ => false) ["/CN=a ann\n".toList, "/CN=a bob\n".toList] "bob".toList = false ∧
      some "/CN=a".toList ∈ (lookupAllGlobusid "bob".toList ["/CN=a ann\n".toList, "/CN=a bob\n".toList]).2 := by
  decide +kernel

/-! ## The accounts of a text -/

theorem isTerminator_of_isWhitespace {c : Char} (h : isWhitespace c) : isTerminator c := by simp [isTerminator, h]

theorem isTerminator_eq_false {c : Char} (hcomma : c ≠ ',') (h : isWhitespace c = false) : isTerminator c = false := by
  simp [isTerminator, hcomma, h]

theorem head?_dropWhile {p : Char → Bool} (s : List Char) : ∀ c ∈ (s.dropWhile p).head?, p c = false := by
  intro c hc
  have := head?_dropWhile_not p s
  rw [Option.mem_def.1 hc] at this
  simpa using this

theorem words_dropWhile {p : Char → Bool} (hp : ∀ c, p c → isTerminator c) (s : List Char) :
    words isTerminator (s.dropWhile p) = words isTerminator s := by
  have hskip : ∀ c ∈ s.takeWhile p, isTerminator c := fun c hc => hp c (mem_takeWhile_imp hc)
  rw [← words_append_of_forall hskip, takeWhile_append_dropWhile]

theorem userids_eq_words {line : List Char} (hhead : ∀ c ∈ line.head?, isTerminator c = false) :
    userids line = words isTerminator line := by
  fun_induction userids line with
  | case1 => rfl
  | case2 line hne ih =>
    rw [ih (head?_dropWhile _), words_dropWhile fun _ h => h]
    obtain ⟨c, rest, rfl⟩ := exists_cons_of_ne_nil hne
    have hc : isTerminator c = false := hhead c (by simp)
    have hword : ∀ d ∈ (c :: rest).takeWhile (!isTerminator ·), isTerminator d = false := fun d hd => by
      simpa using mem_takeWhile_imp hd
    have hend : ∀ d ∈ ((c :: rest).dropWhile (!isTerminator ·)).head?, isTerminator d := fun d hd => by
      simpa using head?_dropWhile _ d hd
    rw [← words_word_append (by simp [hc]) hword hend, takeWhile_append_dropWhile]

/-- The accounts of a text in front of which white space is skipped: its words, if no comma comes first. -/
theorem userids_dropWhile_iff {text : List Char} {ids : List (List Char)} (hids : ∀ u ∈ ids, u ≠ []) :
    userids (text.dropWhile isWhitespace) = ids ↔
      (∀ c ∈ (text.dropWhile isWhitespace).head?, c ≠ ',') ∧ words isTerminator text = ids := by
  by_cases hcomma : ∀ c ∈ (text.dropWhile isWhitespace).head?, c ≠ ','
  · rw [userids_eq_words fun c hc => isTerminator_eq_false (hcomma c hc) (head?_dropWhile _ c hc),
      words_dropWhile fun _ => isTerminator_of_isWhitespace]
    exact (and_iff_right hcomma).symm
  · refine iff_of_false ?_ fun h => hcomma h.1
    push Not at hcomma
    obtain ⟨c, hc, rfl⟩ := hcomma
    obtain ⟨rest, hrest⟩ := head?_eq_some_iff.1 (Option.mem_def.1 hc)
    -- The first account is the empty text in front of the comma.
    rw [hrest, userids, if_neg (by simp)]
    intro h
    refine hids [] ?_ rfl
    rw [← h]
    simp [isTerminator]

/-! ## Written lines -/

/-- An account that can be listed. -/
structure IsUserid (u : List Char) : Prop where
  ne_nil : u ≠ []
  not_terminator : ∀ c ∈ u, isTerminator c = false
  not_comment : '#' ∉ u

/-- Text between quotes: a backslash takes the next character with it, and other characters are no quotes. -/
def wellQuoted : List Char → Bool
  | [] => true
  | ['\\'] => false
  | '\\' :: _ :: body => wellQuoted body
  | c :: body => c ≠ '"' && wellQuoted body

/-- A distinguished name as it is written in a line. -/
inductive WrittenDn where
  | bare (dn : List Char) (ne_nil : dn ≠ []) (not_whitespace : ∀ c ∈ dn, isWhitespace c = false)
      (start : ∀ c ∈ dn.head?, c ≠ '#' ∧ c ≠ '"')
  | quoted (body : List Char) (closed : wellQuoted body)

def WrittenDn.text : WrittenDn → List Char
  | .bare dn _ _ _ => dn
  | .quoted body _ => '"' :: (body ++ ['"'])

/-- The closing quote stands behind a backslash (which is escaped itself). -/
def WrittenDn.endsInBackslash : WrittenDn → Bool
  | .bare _ _ _ _ => false
  | .quoted body _ => body.getLast? = some '\\'

/-- A line that lists accounts: white space, a name, white space, accounts with commas between them, and anything that white
space or a `#` keeps apart from them. -/
structure WrittenLine where
  lead : List Char
  dn : WrittenDn
  gap : List Char
  ids : List (List Char)
  rest : List Char
  lead_whitespace : ∀ c ∈ lead, isWhitespace c
  gap_ne_nil : gap ≠ []
  gap_whitespace : ∀ c ∈ gap, isWhitespace c
  ids_ne_nil : ids ≠ []
  isUserid : ∀ u ∈ ids, IsUserid u
  rest_start : ∀ c ∈ rest.head?, isWhitespace c ∨ c = '#'

namespace WrittenLine

/-- The accounts and what follows them. -/
def tail (line : WrittenLine) : List Char := [','].intercalate line.ids ++ line.rest

def text (line : WrittenLine) : List Char := line.lead ++ line.dn.text ++ (line.gap ++ line.tail)

theorem head?_tail (line : WrittenLine) : ∀ c ∈ line.tail.head?, isTerminator c = false := by
  obtain ⟨u, us, hids⟩ := exists_cons_of_ne_nil line.ids_ne_nil
  obtain ⟨hne, hu, -⟩ := line.isUserid u (by simp [hids])
  obtain ⟨c, u, rfl⟩ := exists_cons_of_ne_nil hne
  have hc := hu c (by simp)
  cases us <;> simpa [tail, hids, intercalate_cons_cons] using hc

theorem userids_tail_iff (line : WrittenLine) : userids line.tail = line.ids ↔ ∀ c ∈ line.rest, isTerminator c := by
  have hids : ∀ u ∈ line.ids, u ≠ [] ∧ ∀ d ∈ u, isTerminator d = false := fun u hu =>
    ⟨(line.isUserid u hu).ne_nil, (line.isUserid u hu).not_terminator⟩
  rw [userids_eq_words line.head?_tail]
  constructor
  · intro h
    -- The words of the whole text have all of its other characters, and the accounts have theirs.
    have hall := congrArg List.flatten h
    have hlisted := congrArg List.flatten (words_intercalate_append (p := isTerminator) (c := ',') (t := []) rfl (by simp) hids)
    rw [flatten_words] at hall hlisted
    rw [tail, filter_append, ← hlisted, append_nil, append_right_eq_self] at hall
    simpa using hall
  · intro h
    exact words_intercalate_append rfl h hids

theorem dropWhile_gap (line : WrittenLine) {gap : List Char} (hgap : ∀ c ∈ gap, isWhitespace c) :
    (gap ++ line.tail).dropWhile isWhitespace = line.tail := by
  refine dropWhile_append_of_head hgap fun c hc => ?_
  have := line.head?_tail c hc
  simp only [isTerminator, Bool.or_eq_false_iff] at this
  exact this.2

end WrittenLine

/-! ## Quotes -/

/-- Every quote of the text stands behind a backslash. -/
def quotesEscaped : Char → List Char → Bool
  | _, [] => true
  | before, c :: s => (c ≠ '"' || before = '\\') && quotesEscaped c s

theorem closingQuote_append (s : List Char) : ∀ {before : Char} {body : List Char}, quotesEscaped before body →
    closingQuote before (body ++ s) = (closingQuote (body.getLastD before) s).map fun r => (body ++ r.1, r.2)
  | before, [], _ => by simp
  | before, c :: body, h => by
    simp only [quotesEscaped, Bool.and_eq_true_iff] at h
    rw [cons_append, closingQuote, if_neg (by simpa [imp_iff_not_or] using h.1), closingQuote_append s h.2, Option.map_map]
    cases body <;> rfl

theorem closingQuote_eq_some_iff {dn rest : List Char} : ∀ {s : List Char} {before : Char},
    closingQuote before s = some (dn, rest) ↔
      s = dn ++ '"' :: rest ∧ quotesEscaped before dn ∧ dn.getLastD before ≠ '\\' := by
  intro s before
  constructor
  · induction s generalizing before dn with
    | nil => simp [closingQuote]
    | cons c s ih =>
      rw [closingQuote]
      split
      · next h =>
        rintro ⟨rfl, rfl⟩
        exact ⟨by rw [h.1]; rfl, rfl, h.2⟩
      · next h =>
        rw [Option.map_eq_some_iff]
        rintro ⟨⟨dn', rest'⟩, hrest, heq⟩
        cases heq
        obtain ⟨rfl, hescaped, hlast⟩ := ih hrest
        refine ⟨rfl, ?_, by cases dn' <;> exact hlast⟩
        rw [quotesEscaped, Bool.and_eq_true_iff]
        exact ⟨by simpa [imp_iff_not_or] using h, hescaped⟩
  · rintro ⟨rfl, hescaped, hlast⟩
    rw [closingQuote_append _ hescaped, closingQuote, if_pos ⟨rfl, hlast⟩]
    simp

theorem quotesEscaped_of_wellQuoted {body : List Char} (h : wellQuoted body) : ∀ before, quotesEscaped before body := by
  fun_induction wellQuoted body with
  | case1 => simp [quotesEscaped]
  | case2 => cases h
  | case3 c body ih => simp [quotesEscaped, ih h]
  | case4 c body h1 h2 ih =>
    intro before
    simp_all [quotesEscaped]

/-! ## The accounts of a line -/

theorem parseLine_bare {lead dn rest : List Char} {c : Char} (hlead : ∀ c ∈ lead, isWhitespace c) (hne : dn ≠ [])
    (hdn : ∀ c ∈ dn, isWhitespace c = false) (hstart : ∀ c ∈ dn.head?, c ≠ '#' ∧ c ≠ '"') (hc : isWhitespace c) :
    parseLine (lead ++ dn ++ c :: rest) = .ok (some ⟨parseGlobusid dn, userids (rest.dropWhile isWhitespace)⟩) := by
  obtain ⟨d, dn, rfl⟩ := exists_cons_of_ne_nil hne
  have hd : isWhitespace d = false := hdn d (by simp)
  obtain ⟨hcomment, hquote⟩ := hstart d (by simp)
  have hskip : (lead ++ (d :: dn) ++ c :: rest).dropWhile isWhitespace = d :: dn ++ c :: rest := by
    rw [append_assoc]
    exact dropWhile_append_of_head hlead (by simpa using hd)
  have hdrop : (d :: dn ++ c :: rest).dropWhile (!isWhitespace ·) = c :: rest :=
    dropWhile_append_of_head (fun e he => by simpa using hdn e he) (by simpa using hc)
  have htake : (d :: dn ++ c :: rest).takeWhile (!isWhitespace ·) = d :: dn :=
    takeWhile_append_of_head (fun e he => by simpa using hdn e he) (by simpa using hc)
  rw [parseLine, hskip]
  split
  · next h => cases h
  · next h => exact absurd (List.cons.inj h).1 hcomment
  · next h => exact absurd (List.cons.inj h).1 hquote
  · rw [hdrop, htake]

theorem parseLine_quoted {lead line : List Char} (hlead : ∀ c ∈ lead, isWhitespace c) :
    parseLine (lead ++ '"' :: line) =
      match closingQuote '"' line with
      | none => .error (.closingQuoteMissing line)
      | some (dn, rest) => .ok (some ⟨parseGlobusid dn, userids (rest.dropWhile isWhitespace)⟩) := by
  have hskip : (lead ++ '"' :: line).dropWhile isWhitespace = '"' :: line :=
    dropWhile_append_of_head hlead (by simp [isWhitespace])
  rw [parseLine, hskip]
  rfl

/-- The line is read, and its accounts are these. -/
def Grants (line : List Char) (ids : List (List Char)) : Prop :=
  ∃ dn, parseLine line = .ok (some ⟨dn, ids⟩)

/-- What follows the accounts must be separators. A name whose closing quote stands behind a backslash goes on to the next
quote that does not, and the accounts must be listed again behind that one. -/
def WrittenLine.Listed (line : WrittenLine) : Prop :=
  if line.dn.endsInBackslash then
    ∃ before after, line.gap ++ line.tail = before ++ '"' :: after ∧ quotesEscaped '"' before ∧
      before.getLast? ≠ some '\\' ∧
      (∀ c ∈ (after.dropWhile isWhitespace).head?, c ≠ ',') ∧ words isTerminator after = line.ids
  else ∀ c ∈ line.rest, isTerminator c

theorem getLastD_eq_backslash_iff {body : List Char} : body.getLastD '"' = '\\' ↔ body.getLast? = some '\\' := by
  cases h : body.getLast? <;> simp [getLastD_eq_getLast?, h]

/-- A line grants exactly the accounts that it lists if and only if nothing but separators follows them. -/
theorem parse_line_grants_iff (line : WrittenLine) : Grants line.text line.ids ↔ line.Listed := by
  cases hdn : line.dn with
  | bare dn hne hws hstart =>
    obtain ⟨c, gap, hgap⟩ := exists_cons_of_ne_nil line.gap_ne_nil
    have hwhite := line.gap_whitespace
    rw [hgap, forall_mem_cons] at hwhite
    have hparse : parseLine line.text = .ok (some ⟨parseGlobusid dn, userids line.tail⟩) := by
      rw [WrittenLine.text, hdn, hgap, cons_append]
      refine (parseLine_bare line.lead_whitespace hne hws hstart hwhite.1).trans ?_
      rw [line.dropWhile_gap hwhite.2]
    have hlisted : line.Listed ↔ ∀ c ∈ line.rest, isTerminator c := by
      simp [WrittenLine.Listed, hdn, WrittenDn.endsInBackslash]
    rw [hlisted, ← line.userids_tail_iff, Grants, hparse]
    simp
  | quoted body hclosed =>
    have hescaped := quotesEscaped_of_wellQuoted hclosed '"'
    have htext : line.text = line.lead ++ '"' :: (body ++ '"' :: (line.gap ++ line.tail)) := by
      simp [WrittenLine.text, hdn, WrittenDn.text]
    have hclose := closingQuote_append ('"' :: (line.gap ++ line.tail)) hescaped
    rw [closingQuote] at hclose
    rw [Grants, htext, parseLine_quoted line.lead_whitespace, hclose]
    by_cases hlast : body.getLast? = some '\\'
    · have hlisted : line.Listed ↔ ∃ before after, closingQuote '"' (line.gap ++ line.tail) = some (before, after) ∧
          userids (after.dropWhile isWhitespace) = line.ids := by
        simp only [WrittenLine.Listed, hdn, WrittenDn.endsInBackslash, hlast, decide_true, if_true]
        refine exists_congr fun before => exists_congr fun after => ?_
        rw [closingQuote_eq_some_iff, userids_dropWhile_iff fun u hu => (line.isUserid u hu).ne_nil, ne_eq,
          ← getLastD_eq_backslash_iff, and_assoc, and_assoc]
      rw [hlisted, if_neg fun h => h.2 (getLastD_eq_backslash_iff.2 hlast)]
      cases closingQuote '"' (line.gap ++ line.tail) with
      | none => simp
      | some r =>
        obtain ⟨before, after⟩ := r
        simp
    · have hlisted : line.Listed ↔ ∀ c ∈ line.rest, isTerminator c := by
        simp [WrittenLine.Listed, hdn, WrittenDn.endsInBackslash, hlast]
      rw [hlisted, ← line.userids_tail_iff, if_pos ⟨rfl, mt getLastD_eq_backslash_iff.1 hlast⟩]
      simp [line.dropWhile_gap line.gap_whitespace]

/-! ## Quoted names -/

/-- A name with a backslash in front of every backslash and every quote. -/
def escapeDn (dn : List Char) : List Char := dn.flatMap fun c => if c = '\\' ∨ c = '"' then ['\\', c] else [c]

theorem getLast?_escapeDn (dn : List Char) : (escapeDn dn).getLast? = dn.getLast? := by
  rcases eq_nil_or_concat dn with rfl | ⟨dn, c, rfl⟩
  · rfl
  · rw [escapeDn, concat_eq_append, flatMap_append, flatMap_singleton]
    split <;> simp

theorem wellQuoted_escapeDn (dn : List Char) : wellQuoted (escapeDn dn) := by
  induction dn with
  | nil => rfl
  | cons c dn ih =>
    rw [escapeDn, flatMap_cons, ← escapeDn]
    split
    · exact ih
    · next hc =>
      rw [singleton_append, wellQuoted.eq_4 _ _ (fun h _ => hc (.inl h)) fun _ _ h _ => hc (.inl h)]
      simp_all

/-- A character is written, unless it is a backslash that escapes the next one or begins a hexadecimal number. -/
theorem globusidLoop_char {escaped : Bool} {c : Char} (hescape : c = '\\' → escaped) (hx : c = 'x' → escaped = false)
    (s : List Char) : globusidLoop escaped (c :: s) = printedChar c ++ globusidLoop false s := by
  rw [globusidLoop.eq_def]
  dsimp only
  rw [if_neg (by cases escaped <;> simp_all)]
  rcases s with _ | ⟨a, _ | ⟨b, s⟩⟩
  · rfl
  · rfl
  · dsimp only
    rw [if_neg (by cases escaped <;> simp_all)]

theorem globusidLoop_escapeDn (rest : List Char) : ∀ {dn : List Char}, (∀ c ∈ dn, ' ' ≤ c ∧ c ≤ '~') →
    globusidLoop false (escapeDn dn ++ rest) = dn ++ globusidLoop false rest
  | [], _ => rfl
  | c :: dn, hdn => by
    obtain ⟨⟨hlo, hhi⟩, hdn⟩ := forall_mem_cons.1 hdn
    have hprint : printedChar c = [c] := by simpa [printedChar] using ⟨hlo, hhi⟩
    have ih := globusidLoop_escapeDn rest hdn
    rw [escapeDn, flatMap_cons, ← escapeDn, append_assoc]
    split
    · next hc =>
      have hx : c ≠ 'x' := by rcases hc with rfl | rfl <;> decide
      have hescape : globusidLoop false (['\\', c] ++ (escapeDn dn ++ rest)) = globusidLoop true (c :: (escapeDn dn ++ rest)) := by
        rw [cons_append, globusidLoop.eq_def]
        rfl
      rw [hescape, globusidLoop_char (fun _ => rfl) (absurd · hx), hprint, ih]
      rfl
    · next hc =>
      rw [singleton_append, globusidLoop_char (fun h => absurd (.inl h) hc) (fun _ => rfl), hprint, ih]
      rfl

/-- A name that is written between quotes is read back exactly if it does not end in a backslash: the closing quote would
stand behind the one that escapes it. -/
theorem parseLine_quoteDn_iff {dn : List Char} (hne : dn ≠ []) (hdn : ∀ c ∈ dn, ' ' ≤ c ∧ c ≤ '~') (userid : List Char) :
    (∃ ids, parseLine ('"' :: (escapeDn dn ++ '"' :: ' ' :: userid)) = .ok (some ⟨some dn, ids⟩)) ↔
      dn.getLast? ≠ some '\\' := by
  have hclose := closingQuote_append ('"' :: ' ' :: userid) (quotesEscaped_of_wellQuoted (wellQuoted_escapeDn dn) '"')
  have hlast : (escapeDn dn).getLastD '"' = '\\' ↔ dn.getLast? = some '\\' := by
    rw [getLastD_eq_backslash_iff, getLast?_escapeDn]
  have hparse := @parseLine_quoted [] (escapeDn dn ++ '"' :: ' ' :: userid) (by simp)
  rw [nil_append, hclose, closingQuote] at hparse
  rw [hparse]
  by_cases hend : dn.getLast? = some '\\'
  · rw [if_neg fun h => h.2 (hlast.2 hend)]
    refine iff_of_false ?_ (not_not.2 hend)
    rintro ⟨ids, h⟩
    cases hquote : closingQuote '"' (' ' :: userid) with
    | none => simp [hquote] at h
    | some r =>
      -- The name goes on behind the quote.
      have hlong : globusidLoop false (escapeDn dn ++ '"' :: r.1) = dn ++ '"' :: globusidLoop false r.1 := by
        rw [globusidLoop_escapeDn _ hdn, globusidLoop_char (by simp) (by simp)]
        rfl
      simp [hquote, parseGlobusid, hlong] at h
  · have hread : globusidLoop false (escapeDn dn ++ []) = dn := by
      rw [globusidLoop_escapeDn _ hdn, globusidLoop, append_nil]
    rw [if_pos ⟨rfl, mt hlast.1 hend⟩]
    refine iff_of_true ⟨userids ((' ' :: userid).dropWhile isWhitespace), ?_⟩ hend
    simp only [Option.map_some, parseGlobusid, hread, if_neg hne]

theorem parseLine_quoteDn_inside : "/CN=\"x\\y".toList ≠ [] ∧
    ∃ ids, parseLine ('"' :: (escapeDn "/CN=\"x\\y".toList ++ '"' :: ' ' :: "joe".toList)) =
      .ok (some ⟨some "/CN=\"x\\y".toList, ids⟩) :=
  ⟨by decide, (parseLine_quoteDn_iff (by decide) (by decide) _).2 (by decide)⟩

/-- No name is read back from the line of one that ends in a backslash. -/
theorem parseLine_quoteDn_backslash : parseLine ('"' :: (escapeDn "/CN=x\\".toList ++ '"' :: ' ' :: "joe".toList)) =
    .error (.closingQuoteMissing "/CN=x\\\\\" joe".toList) := by
  decide +kernel

/-- The line `/CN=x joe # root`. -/
def commentedLine : WrittenLine where
  lead := []
  dn := .bare "/CN=x".toList (by decide) (by decide) (by decide)
  gap := [' ']
  ids := ["joe".toList]
  rest := " # root".toList
  lead_whitespace := by simp
  gap_ne_nil := by simp
  gap_whitespace := by decide
  ids_ne_nil := by simp
  isUserid := by
    rintro u hu
    obtain rfl := mem_singleton.1 hu
    exact ⟨by decide, by decide, by decide⟩
  rest_start := by decide

theorem parseLine_commentedLine :
    parseLine commentedLine.text = .ok (some ⟨some "/CN=x".toList, ["joe".toList, "#".toList, "root".toList]⟩) := by
  decide +kernel

/-- The comment behind the accounts lets the name use `root`. -/
theorem parse_line_grants_comment :
    ¬ Grants commentedLine.text commentedLine.ids ∧
      userok (fun _ => true) (fun _ => false) [commentedLine.text] "root".toList := by
  refine ⟨?_, ?_⟩
  · rintro ⟨dn, h⟩
    rw [parseLine_commentedLine] at h
    cases h
  · rw [userok, findDn, parseLine_commentedLine]
    decide

/-! ## Reading the file -/

/-- The inner loop of `globus_l_gss_assist_read_line`, with room for so many characters: what is stored, the rest of the
stream, and whether its end was met. -/
def readChars : Nat → List Char → List Char × List Char × Bool
  | 0, stream => ([], stream, false)
  | _ + 1, [] => ([], [], true)
  | room + 1, c :: stream => if c = '\n' then ([c], stream, false) else (readChars room stream).map (c :: ·) id

/-- The outer loop, from a buffer of `bufferSize` bytes with `line` in it. -/
def readLineLoop (bufsiz : Nat) : Nat → Nat → List Char → List Char → Option (Option (List Char) × List Char)
  | 0, _, _, _ => none
  | fuel + 1, bufferSize, line, stream =>
    let bufferSize := bufferSize + bufsiz
    let (more, stream, eof) := readChars (bufferSize - (line.length + 1)) stream
    let line := line ++ more
    -- When the buffer is full, `continue` goes to the condition of the loop.
    if line.length + 1 ≠ bufferSize ∧ eof then some (if line = [] then none else some line, stream)
    else if line.getLast? = some '\n' then some (some line, stream)
    else readLineLoop bufsiz fuel bufferSize line stream

/-- `globus_l_gss_assist_read_line`: a line or a null pointer, and the rest of the stream. -/
def readLine (bufsiz : Nat) (stream : List Char) : Option (Option (List Char) × List Char) :=
  readLineLoop bufsiz (stream.length + 1) 0 [] stream

/-- The lines of all calls up to the one that has none. -/
def readLines (bufsiz : Nat) : Nat → List Char → Option (List (List Char))
  | 0, _ => none
  | calls + 1, stream =>
    match readLine bufsiz stream with
    | some (some line, stream) => (readLines bufsiz calls stream).map (line :: ·)
    | some (none, _) => some []
    | none => none

/-- The lines of a file, each with its newline. The last one may do without. -/
inductive FileLines : List Char → List (List Char) → Prop
  | nil : FileLines [] []
  | last {text : List Char} : text ≠ [] → '\n' ∉ text → FileLines text [text]
  | line {text rest : List Char} {lines : List (List Char)} : '\n' ∉ text → FileLines rest lines →
    FileLines (text ++ '\n' :: rest) ((text ++ ['\n']) :: lines)

section ReadLine

variable {text tail : List Char} (hnl : '\n' ∉ text) (htail : ∀ c ∈ tail.head?, c = '\n')
include hnl htail

theorem readChars_eq (room : Nat) : readChars room (text ++ tail) =
    if room ≤ text.length then (text.take room, text.drop room ++ tail, false)
    else (text ++ tail.take 1, tail.drop 1, tail.isEmpty) := by
  induction text generalizing room with
  | nil =>
    cases room with
    | zero => rfl
    | succ room =>
      cases tail with
      | nil => rfl
      | cons c tail =>
        obtain rfl := htail c rfl
        rfl
  | cons c text ih =>
    cases room with
    | zero => rfl
    | succ room =>
      obtain ⟨hc, hnl⟩ := not_or.1 (mem_cons.not.1 hnl)
      rw [cons_append, readChars, if_neg (Ne.symm hc), ih hnl, length_cons]
      simp only [Nat.add_le_add_iff_right]
      split_ifs <;> rfl

/-- Each round stores a part of the line, and the last one its end. -/
theorem readLineLoop_eq {bufsiz fuel bufferSize : Nat} {line : List Char} (hfuel : text.length < fuel)
    (hsize : bufferSize ≤ line.length + 1) (hroom : line.length + 1 < bufferSize + bufsiz) :
    readLineLoop bufsiz fuel bufferSize line (text ++ tail) =
      some (if line ++ text ++ tail.take 1 = [] then none else some (line ++ text ++ tail.take 1), tail.drop 1) := by
  induction fuel generalizing text bufferSize line with
  | zero => cases hfuel
  | succ fuel ih =>
    rw [readLineLoop, readChars_eq hnl htail]
    generalize hk : bufferSize + bufsiz - (line.length + 1) = k
    by_cases hle : k ≤ text.length
    · rw [if_pos hle]
      have hlast : (line ++ text.take k).getLast? ≠ some '\n' := by
        have hne : text.take k ≠ [] := by
          rw [Ne, take_eq_nil_iff, ← length_eq_zero_iff]
          omega
        rw [getLast?_append_of_ne_nil _ hne]
        exact fun h => hnl (mem_of_mem_take (mem_of_getLast? h))
      have hfull : (line ++ text.take k).length + 1 = bufferSize + bufsiz := by
        rw [length_append, length_take_of_le hle]
        omega
      simp only [hfull, ne_eq, not_true_eq_false, false_and, if_false, if_neg hlast]
      rw [ih (fun h => hnl (mem_of_mem_drop h)) (by rw [length_drop]; omega) hfull.ge (by omega), append_assoc line,
        take_append_drop]
    · rw [if_neg hle]
      cases tail with
      | nil =>
        have hne : line.length + text.length + 1 ≠ bufferSize + bufsiz := by omega
        simp [hne]
      | cons c tail =>
        obtain rfl := htail c rfl
        simp

end ReadLine

/-- The lines that are read are those of the file, whatever the size of the buffer. -/
theorem readLines_exact {bufsiz : Nat} (hbufsiz : 2 ≤ bufsiz) (content : List Char) {calls : Nat}
    (hcalls : content.length < calls) : ∃ lines, readLines bufsiz calls content = some lines ∧ FileLines content lines := by
  induction calls generalizing content with
  | zero => cases hcalls
  | succ calls ih =>
    obtain ⟨text, tail, rfl, htext, htail⟩ := exists_append_of_class (· ≠ '\n') content
    have hnl : '\n' ∉ text := fun h => by simpa using htext _ h
    replace htail : ∀ c ∈ tail.head?, c = '\n' := by simpa using htail
    have hread := @readLineLoop_eq text tail hnl htail bufsiz ((text ++ tail).length + 1) 0 [] (by simp)
      (Nat.zero_le _) (by rw [length_nil]; omega)
    rw [readLines, readLine, hread]
    rw [length_append] at hcalls
    cases tail with
    | nil =>
      cases text with
      | nil => exact ⟨[], rfl, .nil⟩
      | cons c text =>
        obtain ⟨n, rfl⟩ := Nat.exists_eq_add_of_le' hbufsiz
        obtain ⟨calls, rfl⟩ := Nat.exists_eq_succ_of_ne_zero (Nat.ne_zero_of_lt (Nat.lt_of_succ_lt_succ hcalls))
        refine ⟨[c :: text], ?_, by simpa using FileLines.last (by simp) hnl⟩
        simp [readLines, readLine, readLineLoop, readChars]
    | cons c rest =>
      obtain rfl := htail c rfl
      rw [length_cons] at hcalls
      obtain ⟨lines, hlines, hfile⟩ := ih rest (by omega)
      exact ⟨_, by simp [hlines], .line hnl hfile⟩

theorem readLines_exact_two : ∃ lines, readLines 2 5 "ab\nc".toList = some lines ∧ FileLines "ab\nc".toList lines :=
  readLines_exact (by decide) _ (by decide)

end Globus.Gsi
