/-
Perl data. A program is a list of assignments of strings, numbers, and lists of them. In a single-quoted string a
backslash escapes a backslash or a quote and stands for itself elsewhere. The elements of a list are separated by
commas; a comma may be repeated and may stand at the end of a list, but not at its front.

The lexer and the parser are machines that take one character, or one token, at a time.
-/
import GlobusToolkit.Lib.CString

namespace Lib

open Option

open List

/-! ## Tokens -/

inductive PerlToken where
  | str (s : List Char)
  | num (n : Nat)
  /-- `$name` -/
  | var (name : List Char)
  | word (name : List Char)
  /-- the opening bracket or brace of a list -/
  | openList (brace : Bool)
  | closeList (brace : Bool)
  /-- `,` or `=>` -/
  | comma
  | equals
  | semicolon
  deriving DecidableEq, Repr

/-- What the lexer has begun to read. -/
inductive LexMode where
  | code
  | quoted (acc : List Char)
  /-- behind a backslash in a string -/
  | escaped (acc : List Char)
  | word (acc : List Char)
  | var (acc : List Char)
  /-- behind `=` -/
  | equals
  deriving DecidableEq, Repr

/-- The characters of names and numbers. -/
def isWordChar (c : Char) : Bool := c.isAlphanum || c = '_'

/-- A number, if the word begins with a digit. Numbers in other bases and the like are not read. -/
def wordToken (acc : List Char) : Option PerlToken :=
  if acc.all Char.isDigit then
    if acc.head? = some '0' ∧ acc ≠ ['0'] then none else some (.num (Nat.ofDigitChars 10 acc 0))
  else if acc.head?.any Char.isDigit then none
  else some (.word acc)

/-- A character outside of strings and words. -/
def lexCode (c : Char) : Option (List PerlToken × LexMode) :=
  if isspace c then some ([], .code)
  else if c = '\'' then some ([], .quoted [])
  else if c = '=' then some ([], .equals)
  else if c = '$' then some ([], .var [])
  else if c = '[' then some ([.openList false], .code)
  else if c = '{' then some ([.openList true], .code)
  else if c = ']' then some ([.closeList false], .code)
  else if c = '}' then some ([.closeList true], .code)
  else if c = ',' then some ([.comma], .code)
  else if c = ';' then some ([.semicolon], .code)
  else if isWordChar c then some ([], .word [c])
  else none

/-- The tokens that end with the character `c`, and what the lexer reads next. -/
def lexStep (m : LexMode) (c : Char) : Option (List PerlToken × LexMode) :=
  match m with
  | .code => lexCode c
  | .quoted acc =>
    if c = '\'' then some ([.str acc], .code)
    else if c = '\\' then some ([], .escaped acc)
    else some ([], .quoted (acc ++ [c]))
  | .escaped acc => some ([], .quoted (acc ++ if c = '\'' ∨ c = '\\' then [c] else ['\\', c]))
  | .word acc =>
    if isWordChar c then some ([], .word (acc ++ [c]))
    else if c = '\'' then none
    else do
      let token ← wordToken acc
      let (tokens, m) ← lexCode c
      return (token :: tokens, m)
  | .var acc =>
    if isWordChar c then some ([], .var (acc ++ [c]))
    else if c = '\'' ∨ acc = [] then none
    else do
      let (tokens, m) ← lexCode c
      return (.var acc :: tokens, m)
  | .equals =>
    if c = '>' then some ([.comma], .code)
    else if c = '=' then none
    else do
      let (tokens, m) ← lexCode c
      return (.equals :: tokens, m)

/-- The tokens of a text. -/
def lexRun : LexMode → List Char → Option (List PerlToken × LexMode)
  | m, [] => some ([], m)
  | m, c :: s => do
    let (tokens, m) ← lexStep m c
    let (more, m) ← lexRun m s
    return (tokens ++ more, m)

/-- The tokens of a text that ends outside of strings and words. -/
def lexPerl (s : List Char) : Option (List PerlToken) :=
  match lexRun .code s with
  | some (tokens, .code) => some tokens
  | _ => none

/-! ## Values and assignments -/

inductive PerlValue where
  | str (s : List Char)
  | num (n : Nat)
  | arr (items : List PerlValue)
  /-- the keys and values, one after the other -/
  | hash (items : List PerlValue)
  deriving Repr

/-- What may come next in a list. -/
inductive ListPhase where
  | start
  | item
  | comma
  deriving DecidableEq, Repr

/-- A list that is being read. -/
structure PerlFrame where
  brace : Bool
  items : List PerlValue
  phase : ListPhase

/-- The list read so far, as a value. -/
def PerlFrame.value (f : PerlFrame) : PerlValue := if f.brace then .hash f.items else .arr f.items

/-- The list with one more element. -/
def PerlFrame.push (f : PerlFrame) (v : PerlValue) : PerlFrame := ⟨f.brace, f.items ++ [v], .item⟩

/-- A variable, or an element of a hash variable. -/
structure PerlTarget where
  name : List Char
  key : Option (List Char)
  deriving DecidableEq, Repr

/-- The part of an assignment that has been read. -/
inductive StatementPhase where
  | start
  | target (t : PerlTarget)
  | braced (name : List Char)
  | keyed (name key : List Char)
  | assigned (t : PerlTarget)
  | nested (t : PerlTarget) (top : PerlFrame) (rest : List PerlFrame)
  | valued (t : PerlTarget) (v : PerlValue)

/-- An element of a list, or the value of the assignment. -/
def StatementPhase.pushValue (v : PerlValue) : StatementPhase → Option StatementPhase
  | .assigned t => some (.valued t v)
  | .nested t top rest => if top.phase = .item then none else some (.nested t (top.push v) rest)
  | _ => none

open StatementPhase

def StatementPhase.openList (brace : Bool) : StatementPhase → Option StatementPhase
  | .assigned t => some (.nested t ⟨brace, [], .start⟩ [])
  | .nested t top rest => if top.phase = .item then none else some (.nested t ⟨brace, [], .start⟩ (top :: rest))
  | .target ⟨name, none⟩ => if brace then some (.braced name) else none
  | _ => none

def StatementPhase.closeList (brace : Bool) : StatementPhase → Option StatementPhase
  | .nested t top [] => if top.brace = brace then some (.valued t top.value) else none
  | .nested t top (f :: fs) => if top.brace = brace then some (.nested t (f.push top.value) fs) else none
  | .keyed name key => if brace then some (.target ⟨name, some key⟩) else none
  | _ => none

def StatementPhase.separate : StatementPhase → Option StatementPhase
  | .nested t top rest => if top.phase = .start then none else some (.nested t { top with phase := .comma } rest)
  | _ => none

/-- The complete assignments, and the one that is being read. -/
structure ParseState where
  assignments : List (PerlTarget × PerlValue)
  phase : StatementPhase

def parseStep (s : ParseState) (token : PerlToken) : Option ParseState :=
  match token with
  | .str t => (s.phase.pushValue (.str t)).map (⟨s.assignments, ·⟩)
  | .num n => (s.phase.pushValue (.num n)).map (⟨s.assignments, ·⟩)
  | .openList brace => (s.phase.openList brace).map (⟨s.assignments, ·⟩)
  | .closeList brace => (s.phase.closeList brace).map (⟨s.assignments, ·⟩)
  | .comma => s.phase.separate.map (⟨s.assignments, ·⟩)
  | .var name =>
    match s.phase with
    | .start => some ⟨s.assignments, .target ⟨name, none⟩⟩
    | _ => none
  | .word key =>
    match s.phase with
    | .braced name => some ⟨s.assignments, .keyed name key⟩
    | _ => none
  | .equals =>
    match s.phase with
    | .target t => some ⟨s.assignments, .assigned t⟩
    | _ => none
  | .semicolon =>
    match s.phase with
    | .valued t v => some ⟨s.assignments ++ [(t, v)], .start⟩
    | _ => none

/-- The assignments of a list of tokens. -/
def parsePerl (tokens : List PerlToken) : Option (List (PerlTarget × PerlValue)) :=
  match tokens.foldlM parseStep ⟨[], .start⟩ with
  | some ⟨assignments, .start⟩ => some assignments
  | _ => none

/-- The assignments of a text. -/
def readPerl (s : List Char) : Option (List (PerlTarget × PerlValue)) := (lexPerl s).bind parsePerl

/-! ## Running the lexer -/

section LexRun

variable {m m' : LexMode} {c : Char} {ts : List PerlToken}

theorem lexRun_cons {s : List Char} (h : lexStep m c = some (ts, m')) :
    lexRun m (c :: s) = (lexRun m' s).map fun r => (ts ++ r.1, r.2) := by
  rw [lexRun, h]
  cases hs : lexRun m' s <;> simp [hs]

theorem lexRun_cons_nil {s : List Char} (h : lexStep m c = some ([], m')) : lexRun m (c :: s) = lexRun m' s := by
  rw [lexRun_cons h]
  simp

theorem lexRun_append (s t : List Char) : lexRun m (s ++ t) =
    (lexRun m s).bind fun r => (lexRun r.2 t).map fun r' => (r.1 ++ r'.1, r'.2) := by
  induction s generalizing m with
  | nil => simp [lexRun]
  | cons c s ih =>
    cases hstep : lexStep m c with
    | none => simp [lexRun, hstep]
    | some r =>
      obtain ⟨ts, m'⟩ := r
      rw [cons_append, lexRun_cons hstep, lexRun_cons hstep, ih]
      cases lexRun m' s with
      | none => rfl
      | some r' => cases hrest : lexRun r'.2 t <;> simp [hrest]

end LexRun

/-! ## Text with marks -/

/-- A text in which the characters of inserted strings are marked. -/
abbrev MarkedText := List (Char × Bool)

def MarkedText.chars (s : MarkedText) : List Char := s.map Prod.fst

/-- Text of the writer's own. -/
def lit (s : String) : MarkedText := s.toList.map (·, false)

/-- An inserted string. -/
def arg (s : List Char) : MarkedText := s.map (·, true)

@[simp] theorem MarkedText.chars_arg (s : List Char) : (arg s).chars = s := by
  simp [chars, arg, Function.comp_def]

@[simp] theorem MarkedText.chars_append (s t : MarkedText) : (s ++ t).chars = s.chars ++ t.chars := map_append

/-- The text between quotes. -/
def quote (s : MarkedText) : MarkedText := ('\'', false) :: s ++ [('\'', false)]

theorem MarkedText.chars_quote (s : MarkedText) : (quote s).chars = '\'' :: s.chars ++ ['\''] := by simp [chars, quote]

/-- The lexer is between two quotes. -/
def LexMode.inString : LexMode → Bool
  | .quoted _ => true
  | .escaped _ => true
  | _ => false

/-- The text is read to its end, and every character that is marked is read between quotes. -/
def dataInside : LexMode → MarkedText → Bool
  | _, [] => true
  | m, (c, mark) :: s =>
    (!mark || m.inString) &&
      match lexStep m c with
      | none => false
      | some (_, m') => dataInside m' s

variable {c : Char}

theorem dataInside_cons {m m' : LexMode} {ts : List PerlToken} {mark : Bool} {s : MarkedText}
    (h : lexStep m c = some (ts, m')) :
    dataInside m ((c, mark) :: s) = ((!mark || m.inString) && dataInside m' s) := by
  rw [dataInside, h]

theorem dataInside_append {t : MarkedText} : ∀ {s : MarkedText} {m m' : LexMode} {ts : List PerlToken},
    lexRun m s.chars = some (ts, m') → dataInside m (s ++ t) = (dataInside m s && dataInside m' t)
  | [], m, m', ts, h => by
    cases h
    rfl
  | (c, mark) :: s, m, m', ts, h => by
    have hrun : lexRun m (c :: MarkedText.chars s) = some (ts, m') := h
    cases hstep : lexStep m c with
    | none => simp [lexRun, hstep] at hrun
    | some r =>
      rw [lexRun_cons hstep, map_eq_some_iff] at hrun
      obtain ⟨⟨us, m₁⟩, hus, hm⟩ := hrun
      cases hm
      rw [cons_append, dataInside_cons hstep, dataInside_cons hstep, dataInside_append hus, Bool.and_assoc]

/-- A text that is read completely, with all of its data between quotes, and the tokens in it. -/
def Lexes (s : MarkedText) (tokens : List PerlToken) : Prop :=
  lexRun .code s.chars = some (tokens, .code) ∧ dataInside .code s

instance (s : MarkedText) (tokens : List PerlToken) : Decidable (Lexes s tokens) := inferInstanceAs (Decidable (_ ∧ _))

theorem Lexes.nil : Lexes [] [] := ⟨rfl, rfl⟩

theorem Lexes.append {s t : MarkedText} {ts us : List PerlToken} (hs : Lexes s ts) (ht : Lexes t us) :
    Lexes (s ++ t) (ts ++ us) := by
  refine ⟨?_, ?_⟩
  · rw [MarkedText.chars_append, lexRun_append, hs.1, bind_some, ht.1]
    rfl
  · rw [dataInside_append hs.1, hs.2, ht.2]
    rfl

theorem Lexes.lexPerl_eq {s : MarkedText} {tokens : List PerlToken} (h : Lexes s tokens) :
    lexPerl s.chars = some tokens := by
  rw [lexPerl, h.1]

/-! ## Strings in a text -/

/-- What has been read of a string, with a backslash that waits for its character. -/
def LexMode.text : LexMode → List Char
  | .quoted acc => acc
  | .escaped acc => acc ++ ['\\']
  | _ => []

section Quoted

variable {m m' : LexMode} {acc : List Char}

theorem lexRun_escape {c : Char} (hc : c = '\'' ∨ c = '\\') (s : List Char) :
    lexRun (.quoted acc) ('\\' :: c :: s) = lexRun (.quoted (acc ++ [c])) s := by
  rw [lexRun_cons_nil rfl, lexRun_cons_nil (by rw [lexStep, if_pos hc])]

theorem lexRun_char {c : Char} (hquote : c ≠ '\'') (hback : c ≠ '\\') (s : List Char) :
    lexRun (.quoted acc) (c :: s) = lexRun (.quoted (acc ++ [c])) s :=
  lexRun_cons_nil (by rw [lexStep, if_neg hquote, if_neg hback])

/-- A character closes the string, or it is added to it, maybe in the place of a backslash. -/
theorem lexStep_inString (hm : m.inString) (c : Char) :
    (c = '\'' ∧ m = .quoted m.text ∧ lexStep m c = some ([.str m.text], .code)) ∨
      ∃ m', lexStep m c = some ([], m') ∧ m'.inString ∧ m'.text.length ≤ m.text.length + 1 ∧
        m'.text.count '\'' = m.text.count '\'' + [c].count '\'' := by
  cases m with
  | quoted acc =>
    by_cases hquote : c = '\''
    · exact .inl ⟨hquote, rfl, by rw [lexStep, if_pos hquote]; rfl⟩
    · right
      by_cases hback : c = '\\' <;> simp [lexStep, hquote, hback, LexMode.inString, LexMode.text]
  | escaped acc =>
    right
    by_cases hc : c = '\'' ∨ c = '\\' <;> simp [lexStep, hc, LexMode.inString, LexMode.text]
  | _ => cases hm

/-- Without a token the lexer does not leave the string. What it reads is no longer than the text and has its quotes. -/
theorem lexRun_inString : ∀ {s : MarkedText} {m : LexMode}, m.inString → lexRun m s.chars = some ([], m') →
    dataInside m s ∧ m'.text.length ≤ m.text.length + s.length ∧
      m'.text.count '\'' = m.text.count '\'' + s.chars.count '\''
  | [], m, _, h => by
    cases h
    exact ⟨rfl, le_rfl, rfl⟩
  | (c, mark) :: s, m, hm, h => by
    have hrun : lexRun m (c :: MarkedText.chars s) = some ([], m') := h
    rcases lexStep_inString hm c with ⟨-, -, hstep⟩ | ⟨m₁, hstep, hm₁, hlen, hcount⟩
    · simp [lexRun_cons hstep] at hrun
    · rw [lexRun_cons_nil hstep] at hrun
      obtain ⟨hdata, hlen', hcount'⟩ := lexRun_inString hm₁ hrun
      refine ⟨?_, ?_, ?_⟩
      · rw [dataInside_cons hstep, hm, Bool.or_true, hdata]
        rfl
      · rw [length_cons]
        omega
      · have hchars : MarkedText.chars ((c, mark) :: s) = [c] ++ MarkedText.chars s := rfl
        rw [hcount', hcount, hchars, count_append, Nat.add_assoc]

/-- A text that ends outside of strings closes the one it begins in. -/
theorem exists_string : ∀ {s : List Char} {m : LexMode} {tokens : List PerlToken}, m.inString →
    lexRun m s = some (tokens, .code) → ∃ u v w ts, s = u ++ '\'' :: w ∧ lexRun m u = some ([], .quoted v) ∧
      lexRun .code w = some (ts, .code) ∧ tokens = .str v :: ts
  | [], m, tokens, hm, h => by
    cases h
    cases hm
  | c :: s, m, tokens, hm, h => by
    rcases lexStep_inString hm c with ⟨rfl, htext, hstep⟩ | ⟨m₁, hstep, hm₁, -⟩
    · rw [lexRun_cons hstep, map_eq_some_iff] at h
      obtain ⟨⟨ts, m'⟩, hts, hm'⟩ := h
      cases hm'
      exact ⟨[], m.text, s, ts, rfl, by rw [← htext]; rfl, hts, rfl⟩
    · rw [lexRun_cons_nil hstep] at h
      obtain ⟨u, v, w, ts, rfl, hu, hw, rfl⟩ := exists_string hm₁ h
      exact ⟨c :: u, v, w, ts, rfl, by rw [lexRun_cons_nil hstep, hu], hw, rfl⟩

theorem lexes_quoted {s : MarkedText} {t : List Char} (h : lexRun (.quoted []) s.chars = some ([], .quoted t)) :
    Lexes (quote s) [.str t] := by
  have hquote : lexStep .code '\'' = some ([], .quoted []) := rfl
  refine ⟨?_, ?_⟩
  · rw [MarkedText.chars_quote, cons_append, lexRun_cons_nil hquote, lexRun_append, h]
    rfl
  · rw [quote, cons_append, dataInside_cons hquote, dataInside_append h, (lexRun_inString rfl h).1]
    rfl

end Quoted

/-- A string that stands for itself between quotes. -/
def Pasteable (s : List Char) : Prop := '\'' ∉ s ∧ ¬ ['\\', '\\'] <:+: s ∧ s.getLast? ≠ some '\\'

instance (s : List Char) : Decidable (Pasteable s) := inferInstanceAs (Decidable (_ ∧ _ ∧ _))

theorem pasteable_cons_iff (hback : c ≠ '\\') (s : List Char) :
    Pasteable (c :: s) ↔ c ≠ '\'' ∧ Pasteable s := by
  have hinfix : ['\\', '\\'] <:+: c :: s ↔ ['\\', '\\'] <:+: s := by
    rw [infix_cons_iff]
    simp [hback.symm]
  have hlast : (c :: s).getLast? ≠ some '\\' ↔ s.getLast? ≠ some '\\' := by
    cases s with
    | nil => simp [hback]
    | cons d s => simp
  simp only [Pasteable, hinfix, hlast, mem_cons, not_or, ne_comm (a := c)]
  tauto

theorem pasteable_backslash_iff (c : Char) (s : List Char) :
    Pasteable ('\\' :: c :: s) ↔ c ≠ '\\' ∧ Pasteable (c :: s) := by
  have hinfix : ['\\', '\\'] <:+: '\\' :: c :: s ↔ c = '\\' ∨ ['\\', '\\'] <:+: c :: s := by
    rw [infix_cons_iff]
    simp [eq_comm]
  simp only [Pasteable, hinfix, mem_cons, getLast?_cons_cons, not_or]
  tauto

theorem pasteable_of_forall_ne {s : List Char} (h : ∀ c ∈ s, c ≠ '\'' ∧ c ≠ '\\') : Pasteable s :=
  ⟨fun hc => (h _ hc).1 rfl, fun hc => (h '\\' (hc.mem (by simp))).2 rfl,
    fun hc => (h _ (mem_of_getLast? hc)).2 rfl⟩

/-- The strings that may be pasted are those that the lexer reads as they are. -/
theorem lexRun_quoted_iff : ∀ {s acc : List Char},
    lexRun (.quoted acc) s = some ([], .quoted (acc ++ s)) ↔ Pasteable s
  | [], acc => by simp [lexRun, show Pasteable [] by decide]
  | [c], acc => by
    by_cases hc : c = '\'' ∨ c = '\\'
    · rcases hc with rfl | rfl <;> simp [lexRun, lexStep, Pasteable]
    · obtain ⟨hquote, hback⟩ := not_or.1 hc
      simp [lexRun, lexStep, hquote, hback, pasteable_of_forall_ne]
  | c :: d :: s, acc => by
    by_cases hback : c = '\\'
    · subst hback
      by_cases hd : d = '\'' ∨ d = '\\'
      · refine iff_of_false (fun h => ?_) fun h => ?_
        · -- Two characters are read as one.
          rw [lexRun_escape hd] at h
          have hlen := (@lexRun_inString _ (arg s) _ rfl (by rwa [MarkedText.chars_arg])).2.1
          simp [LexMode.text, arg] at hlen
          omega
        · obtain ⟨hd', h⟩ := (pasteable_backslash_iff d s).1 h
          exact ((pasteable_cons_iff hd' s).1 h).1 (hd.resolve_right hd')
      · obtain ⟨hquote, hback⟩ := not_or.1 hd
        have hrun : lexRun (.quoted acc) ('\\' :: d :: s) = lexRun (.quoted (acc ++ ['\\'])) (d :: s) := by
          rw [lexRun_cons_nil rfl, lexRun_cons_nil (by rw [lexStep, if_neg hd]), lexRun_char hquote hback, append_assoc]
          rfl
        rw [hrun, append_cons acc _ (d :: s), lexRun_quoted_iff, pasteable_backslash_iff, and_iff_right hback]
    · by_cases hquote : c = '\''
      · simp [hquote, lexRun_cons (show lexStep (.quoted acc) '\'' = some ([.str acc], .code) from rfl), Pasteable]
      · rw [lexRun_char hquote hback, append_cons acc c (d :: s), lexRun_quoted_iff, pasteable_cons_iff hback,
          and_iff_right hquote]

theorem lexes_pasteable {s : List Char} (h : Pasteable s) : Lexes (quote (arg s)) [.str s] := by
  refine lexes_quoted ?_
  rw [MarkedText.chars_arg]
  exact lexRun_quoted_iff.2 h

/-- A string that is read as itself may be pasted. A quote inside of it would make it shorter, and one behind it that is
read as a part of it is one quote more than it has. -/
theorem pasteable_of_string {t u w rest : List Char} (h : t ++ '\'' :: rest = u ++ '\'' :: w)
    (hu : lexRun (.quoted []) u = some ([], .quoted t)) : Pasteable t ∧ w = rest := by
  obtain ⟨-, hlen, hcount⟩ := @lexRun_inString _ (arg u) _ rfl (by rwa [MarkedText.chars_arg])
  rcases append_eq_append_iff.1 h with ⟨x, rfl, hx⟩ | ⟨x, rfl, hx⟩
  · cases x with
    | nil =>
      rw [append_nil] at hu
      exact ⟨lexRun_quoted_iff.1 hu, by simpa using hx.symm⟩
    | cons d x =>
      obtain ⟨rfl, -⟩ := cons.inj hx
      simp [LexMode.text] at hcount
  · cases x with
    | nil =>
      rw [append_nil] at hu ⊢
      exact ⟨lexRun_quoted_iff.1 hu, by simpa using hx⟩
    | cons d x =>
      simp [LexMode.text, arg] at hlen

/-! ## Pasting strings into a text -/

def PerlToken.string? : PerlToken → Option (List Char)
  | .str s => some s
  | _ => none

/-- The strings among the tokens. -/
def tokenStrings (tokens : List PerlToken) : List (List Char) := tokens.filterMap PerlToken.string?

/-- A part of a text: code, or quotes with a string pasted between them. -/
inductive Piece where
  | code (text : MarkedText) (tokens : List PerlToken) (lexes : Lexes text tokens)
  | pasted (s : List Char)

def Piece.text : Piece → MarkedText
  | .code text _ _ => text
  | .pasted s => quote (arg s)

/-- The tokens that the piece is meant to be read as. -/
def Piece.tokens : Piece → List PerlToken
  | .code _ tokens _ => tokens
  | .pasted s => [.str s]

theorem lexes_pieces : ∀ {ps : List Piece}, (∀ s, .pasted s ∈ ps → Pasteable s) →
    Lexes (ps.flatMap Piece.text) (ps.flatMap Piece.tokens)
  | [], _ => .nil
  | p :: ps, h => by
    refine Lexes.append ?_ (lexes_pieces fun s hs => h s (mem_cons_of_mem p hs))
    cases p with
    | code text tokens lexes => exact lexes
    | pasted s => exact lexes_pasteable (h s mem_cons_self)

theorem pasteable_of_lexRun : ∀ {ps : List Piece} {tokens : List PerlToken},
    lexRun .code (MarkedText.chars (ps.flatMap Piece.text)) = some (tokens, .code) →
    tokenStrings tokens = tokenStrings (ps.flatMap Piece.tokens) →
    ∀ s, .pasted s ∈ ps → Pasteable s
  | [], _, _, _, s, hs => by cases hs
  | .code text ts lexes :: ps, tokens, hlex, heq, s, hs => by
    have hmem : Piece.pasted s ∈ ps := (mem_cons.1 hs).resolve_left (by rintro ⟨⟩)
    rw [flatMap_cons, MarkedText.chars_append, lexRun_append, show lexRun .code (Piece.code text ts lexes).text.chars = _ from lexes.1,
      bind_some, map_eq_some_iff] at hlex
    obtain ⟨⟨us, m⟩, hus, hm⟩ := hlex
    cases hm
    refine pasteable_of_lexRun hus ?_ s hmem
    simpa [tokenStrings, Piece.tokens] using heq
  | .pasted t :: ps, tokens, hlex, heq, s, hs => by
    rw [flatMap_cons, Piece.text, MarkedText.chars_append, MarkedText.chars_quote, MarkedText.chars_arg,
      cons_append, cons_append, lexRun_cons_nil rfl, append_assoc, singleton_append] at hlex
    obtain ⟨u, v, w, us, htext, hu, hw, rfl⟩ := exists_string rfl hlex
    have hstrings : v = t ∧ tokenStrings us = tokenStrings (ps.flatMap Piece.tokens) := by
      simpa [tokenStrings, Piece.tokens, PerlToken.string?] using heq
    obtain ⟨ht, rfl⟩ := pasteable_of_string htext (hstrings.1 ▸ hu)
    rcases mem_cons.1 hs with hst | hs
    · rw [Piece.pasted.inj hst]
      exact ht
    · exact pasteable_of_lexRun hw hstrings.2 s hs

/-- The text is meant to be read as the tokens; the strings in `pasted` are pasted into it. -/
def Spells (text : MarkedText) (tokens : List PerlToken) (pasted : List (List Char)) : Prop :=
  ∃ ps : List Piece, ps.flatMap Piece.text = text ∧ ps.flatMap Piece.tokens = tokens ∧
    ∀ s, .pasted s ∈ ps ↔ s ∈ pasted

section Spells

variable {text text' : MarkedText} {tokens tokens' : List PerlToken} {pasted pasted' : List (List Char)}

theorem Lexes.spells (h : Lexes text tokens) : Spells text tokens [] := by
  refine ⟨[.code text tokens h], ?_, ?_, by simp⟩
  · exact flatMap_singleton ..
  · exact flatMap_singleton ..

theorem Spells.quote (s : List Char) : Spells (quote (arg s)) [.str s] [s] := by
  refine ⟨[.pasted s], ?_, ?_, by simp⟩
  · exact flatMap_singleton ..
  · exact flatMap_singleton ..

variable (h : Spells text tokens pasted)
include h

theorem Spells.append (h' : Spells text' tokens' pasted') :
    Spells (text ++ text') (tokens ++ tokens') (pasted ++ pasted') := by
  obtain ⟨ps, rfl, rfl, hps⟩ := h
  obtain ⟨qs, rfl, rfl, hqs⟩ := h'
  refine ⟨ps ++ qs, flatMap_append, flatMap_append, fun s => ?_⟩
  rw [mem_append, mem_append, hps, hqs]

theorem Spells.append_code (h' : Lexes text' tokens') :
    Spells (text ++ text') (tokens ++ tokens') pasted := by
  have happ := h.append h'.spells
  rwa [append_nil] at happ

/-- If no string breaks out of its quotes, the text is read as it is meant. -/
theorem Spells.lexes (hpasted : ∀ s ∈ pasted, Pasteable s) : Lexes text tokens := by
  obtain ⟨ps, rfl, rfl, hps⟩ := h
  exact lexes_pieces fun s hs => hpasted s ((hps s).1 hs)

theorem Spells.pasteable {tokens' : List PerlToken} (hlex : lexPerl text.chars = some tokens')
    (heq : tokenStrings tokens' = tokenStrings tokens) : ∀ s ∈ pasted, Pasteable s := by
  obtain ⟨ps, rfl, rfl, hps⟩ := h
  have hrun : lexRun .code (MarkedText.chars (ps.flatMap Piece.text)) = some (tokens', .code) := by
    unfold lexPerl at hlex
    split at hlex
    · next hrun => cases hlex; exact hrun
    · cases hlex
  exact fun s hs => pasteable_of_lexRun hrun heq s ((hps s).2 hs)

end Spells

/-! ## Strings in values -/

mutual

/-- The tokens of a value. -/
def PerlValue.tokens : PerlValue → List PerlToken
  | .str s => [.str s]
  | .num n => [.num n]
  | .arr items => .openList false :: joinTokens items ++ [.closeList false]
  | .hash items => .openList true :: joinTokens items ++ [.closeList true]

/-- The tokens of the elements of a list, with commas between them. -/
def PerlValue.joinTokens : List PerlValue → List PerlToken
  | [] => []
  | v :: vs => v.tokens ++ if vs.isEmpty then [] else .comma :: joinTokens vs

end

theorem tokenStrings_append (ts us : List PerlToken) : tokenStrings (ts ++ us) = tokenStrings ts ++ tokenStrings us :=
  filterMap_append

def PerlValue.strings (v : PerlValue) : List (List Char) := tokenStrings v.tokens

theorem tokenStrings_joinTokens : ∀ vs : List PerlValue,
    tokenStrings (PerlValue.joinTokens vs) = vs.flatMap PerlValue.strings
  | [] => rfl
  | v :: vs => by
    rw [PerlValue.joinTokens, tokenStrings_append, flatMap_cons, ← tokenStrings_joinTokens vs]
    cases vs <;> rfl

/-- The strings of the values of assignments. -/
def assignmentStrings (assignments : List (PerlTarget × PerlValue)) : List (List Char) :=
  assignments.flatMap (·.2.strings)

def framesStrings : List PerlFrame → List (List Char)
  | [] => []
  | f :: fs => framesStrings fs ++ f.items.flatMap PerlValue.strings

def StatementPhase.strings : StatementPhase → List (List Char)
  | .nested _ top rest => framesStrings (top :: rest)
  | .valued _ v => v.strings
  | _ => []

theorem PerlFrame.strings_value (f : PerlFrame) : f.value.strings = f.items.flatMap PerlValue.strings := by
  have hbrackets (brace : Bool) (ts : List PerlToken) :
      tokenStrings (.openList brace :: ts ++ [.closeList brace]) = tokenStrings ts := by
    rw [tokenStrings_append]
    exact append_nil _
  unfold value PerlValue.strings
  split <;> rw [PerlValue.tokens, hbrackets, tokenStrings_joinTokens]
  · rfl
  · rfl

section Phase

variable {p p' : StatementPhase}

theorem StatementPhase.strings_pushValue {v : PerlValue} (h : p.pushValue v = some p') :
    p'.strings = p.strings ++ v.strings := by
  cases p with
  | nested t top rest =>
    simp only [pushValue] at h
    split at h <;> cases h
    simp [strings, framesStrings, PerlFrame.push]
  | assigned t => cases h; rfl
  | _ => cases h

theorem StatementPhase.strings_openList {brace : Bool} (h : p.openList brace = some p') : p'.strings = p.strings := by
  unfold openList at h
  split at h
  · cases h; rfl
  · split at h <;> cases h
    simp [strings, framesStrings]
  · split at h <;> cases h
    rfl
  · cases h

theorem StatementPhase.strings_closeList {brace : Bool} (h : p.closeList brace = some p') : p'.strings = p.strings := by
  unfold closeList at h
  split at h
  · split at h <;> cases h
    simp [strings, framesStrings, PerlFrame.strings_value]
  · split at h <;> cases h
    simp [strings, framesStrings, PerlFrame.strings_value, PerlFrame.push]
  · split at h <;> cases h
    rfl
  · cases h

theorem StatementPhase.strings_separate (h : p.separate = some p') : p'.strings = p.strings := by
  unfold separate at h
  split at h
  · split at h <;> cases h
    rfl
  · cases h

end Phase

/-- Each token of a string adds the string, and nothing else does. -/
theorem parseStep_strings {s s' : ParseState} {token : PerlToken} (h : parseStep s token = some s') :
    assignmentStrings s'.assignments ++ s'.phase.strings =
      assignmentStrings s.assignments ++ s.phase.strings ++ token.string?.toList := by
  have hphase : ∀ {o : Option StatementPhase} (t : List (List Char)),
      o.map (⟨s.assignments, ·⟩) = some s' → (∀ p, o = some p → p.strings = s.phase.strings ++ t) →
      assignmentStrings s'.assignments ++ s'.phase.strings =
        assignmentStrings s.assignments ++ s.phase.strings ++ t := by
    intro o t ho hp
    obtain ⟨p, rfl, rfl⟩ := map_eq_some_iff.1 ho
    rw [hp p rfl, append_assoc]
  cases token with
  | str t => exact hphase [t] h fun p hp => strings_pushValue hp
  | num n => exact hphase [] h fun p hp => strings_pushValue hp
  | openList brace => exact hphase [] h fun p hp => by rw [strings_openList hp, append_nil]
  | closeList brace => exact hphase [] h fun p hp => by rw [strings_closeList hp, append_nil]
  | comma => exact hphase [] h fun p hp => by rw [strings_separate hp, append_nil]
  | var name =>
    simp only [parseStep] at h
    split at h <;> cases h
    next hstart => simp [hstart, StatementPhase.strings, PerlToken.string?]
  | word key =>
    simp only [parseStep] at h
    split at h <;> cases h
    next hbraced => simp [hbraced, StatementPhase.strings, PerlToken.string?]
  | equals =>
    simp only [parseStep] at h
    split at h <;> cases h
    next htarget => simp [htarget, StatementPhase.strings, PerlToken.string?]
  | semicolon =>
    simp only [parseStep] at h
    split at h <;> cases h
    next hvalued =>
      simp [hvalued, StatementPhase.strings, PerlToken.string?, assignmentStrings]

theorem foldlM_parseStep_strings : ∀ {tokens : List PerlToken} {s s' : ParseState},
    tokens.foldlM parseStep s = some s' →
    assignmentStrings s'.assignments ++ s'.phase.strings =
      assignmentStrings s.assignments ++ s.phase.strings ++ tokenStrings tokens
  | [], s, s', h => by
    cases h
    exact (append_nil _).symm
  | token :: tokens, s, s', h => by
    obtain ⟨s₁, hstep, hrest⟩ := bind_eq_some_iff.1 h
    rw [foldlM_parseStep_strings hrest, parseStep_strings hstep, append_assoc]
    congr 1
    cases hs : token.string? <;> simp [tokenStrings, hs]

theorem parsePerl_strings {tokens : List PerlToken} {assignments : List (PerlTarget × PerlValue)}
    (h : parsePerl tokens = some assignments) : assignmentStrings assignments = tokenStrings tokens := by
  unfold parsePerl at h
  split at h
  · next hrun =>
    cases h
    simpa [assignmentStrings, StatementPhase.strings] using foldlM_parseStep_strings hrun
  · cases h

/-! ## Reading a value -/

section ReadValue

variable {as : List (PerlTarget × PerlValue)} {t : PerlTarget}

/-- A list that is read between its brackets is one element of the list around it. -/
theorem foldlM_brackets {brace : Bool} {items : List PerlValue} {tokens : List PerlToken} {phase : ListPhase}
    {top : PerlFrame} {rest : List PerlFrame} (htop : top.phase ≠ .item)
    (h : tokens.foldlM parseStep ⟨as, .nested t ⟨brace, [], .start⟩ (top :: rest)⟩ =
      some ⟨as, .nested t ⟨brace, items, phase⟩ (top :: rest)⟩) :
    (PerlToken.openList brace :: tokens ++ [PerlToken.closeList brace]).foldlM parseStep ⟨as, .nested t top rest⟩ =
      some ⟨as, .nested t (top.push (PerlFrame.value ⟨brace, items, phase⟩)) rest⟩ := by
  have hopen : parseStep ⟨as, .nested t top rest⟩ (.openList brace) =
      some ⟨as, .nested t ⟨brace, [], .start⟩ (top :: rest)⟩ := by
    simp [parseStep, StatementPhase.openList, htop]
  have hclose : parseStep ⟨as, .nested t ⟨brace, items, phase⟩ (top :: rest)⟩ (.closeList brace) =
      some ⟨as, .nested t (top.push (PerlFrame.value ⟨brace, items, phase⟩)) rest⟩ := by
    simp [parseStep, StatementPhase.closeList]
  simp [foldlM_append, hopen, h, hclose]

theorem parseStep_comma {top : PerlFrame} {rest : List PerlFrame} (h : top.phase ≠ .start) :
    parseStep ⟨as, .nested t top rest⟩ .comma = some ⟨as, .nested t { top with phase := .comma } rest⟩ := by
  simp [parseStep, StatementPhase.separate, h]

mutual

theorem foldlM_tokens : ∀ (v : PerlValue) (top : PerlFrame) (rest : List PerlFrame), top.phase ≠ .item →
    v.tokens.foldlM parseStep ⟨as, .nested t top rest⟩ = some ⟨as, .nested t (top.push v) rest⟩
  | .str s, top, rest, h => by simp [PerlValue.tokens, parseStep, StatementPhase.pushValue, h]
  | .num n, top, rest, h => by simp [PerlValue.tokens, parseStep, StatementPhase.pushValue, h]
  | .arr items, top, rest, h => by
    obtain ⟨phase, hitems⟩ := foldlM_joinTokens items ⟨false, [], .start⟩ (top :: rest) (by simp)
    exact foldlM_brackets h hitems
  | .hash items, top, rest, h => by
    obtain ⟨phase, hitems⟩ := foldlM_joinTokens items ⟨true, [], .start⟩ (top :: rest) (by simp)
    exact foldlM_brackets h hitems

theorem foldlM_joinTokens : ∀ (vs : List PerlValue) (top : PerlFrame) (rest : List PerlFrame), top.phase ≠ .item →
    ∃ phase, (PerlValue.joinTokens vs).foldlM parseStep ⟨as, .nested t top rest⟩ =
      some ⟨as, .nested t ⟨top.brace, top.items ++ vs, phase⟩ rest⟩
  | [], top, rest, h => ⟨top.phase, by simp [PerlValue.joinTokens]⟩
  | v :: vs, top, rest, h => by
    have hv := foldlM_tokens v top rest h
    rw [PerlValue.joinTokens, foldlM_append, hv, bind_eq_bind, bind_some]
    split
    · next hnil =>
      obtain rfl := isEmpty_iff.1 hnil
      exact ⟨.item, rfl⟩
    · obtain ⟨phase, hvs⟩ :=
        foldlM_joinTokens vs { top.push v with phase := .comma } rest (by simp)
      refine ⟨phase, ?_⟩
      rw [foldlM_cons, parseStep_comma (by simp [PerlFrame.push]), bind_eq_bind, bind_some, hvs]
      simp [PerlFrame.push]

end

end ReadValue

end Lib
