/-
The lexical grammar of the resource specification language, as a relation between a text and its tokens, and what the
scanner makes of it. The scanner gives the tokens of the text up to its end, or up to a place where no token can be read:
a character that begins none, or a quoted literal that the end of the input cuts off. It ends the input there. A literal
whose closing delimiter is the last character is lost in the same way. So the parser may accept a part of the text.
-/
import GlobusToolkit.Rsl.RoundTrip

namespace Globus

open Lib List

/-! ## The lexical grammar -/

/-- The spelling of an operator. -/
def RslToken.symbol : RslToken → Option (List Char)
  | .opAnd => some ['&']
  | .opOr => some ['|']
  | .opMultireq => some ['+']
  | .opEq => some ['=']
  | .opNeq => some ['!', '=']
  | .opLt => some ['<']
  | .opLteq => some ['<', '=']
  | .opGt => some ['>']
  | .opGteq => some ['>', '=']
  | .opConcatenate => some ['#']
  | _ => none

/-- The text `o` opens a literal that ends with the delimiter `d`. -/
def Opens (o : List Char) (d : Char) : Prop := (o = [d] ∧ (d = '"' ∨ d = '\'')) ∨ o = ['^', d]

/-- The operator that is understood where the text goes on without white space. -/
def implied (start : StartState) : List RslToken := if start = .implicitConcatenate then [.opConcatenate] else []

/-- The state behind an unquoted literal, in front of `s`. -/
def afterLiteral (s : List Char) : StartState := if s.head? = some '$' then .implicitConcatenate else .calling

/-- What stands behind the end of a comment. -/
def commentEnd (s : List Char) : Option (List Char) := (strstr ['*', ')'] s).map Prod.snd

/-- `Lexed counts s ts rest`: the text `s` in front of `rest` is white space, comments and the spellings of the tokens
`ts`, each as long as possible. A comment may run to the end of the text. In references, `counts` are the numbers of open
parentheses. -/
inductive Lexed : List Int → List Char → List RslToken → List Char → Prop where
  | nil {counts : List Int} {s : List Char} : Lexed counts s [] s
  | blank {counts : List Int} {c : Char} {s : List Char} {ts : List RslToken} {rest : List Char} (hc : isWhitespace c)
    (h : Lexed counts (s.dropWhile isWhitespace) ts rest) : Lexed counts (c :: s) ts rest
  | comment {counts : List Int} {s s' : List Char} {ts : List RslToken} {rest : List Char}
    (hend : commentEnd s = some s') (h : Lexed counts s' ts rest) : Lexed counts ('(' :: '*' :: s) ts rest
  | openComment {counts : List Int} {s : List Char} (hend : commentEnd s = none) :
    Lexed counts ('(' :: '*' :: s) [] []
  | op {counts : List Int} {t : RslToken} {w s : List Char} {ts : List RslToken} {rest : List Char}
    (hw : t.symbol = some w) (hlong : t = .opLt ∨ t = .opGt → s.head? ≠ some '=') (h : Lexed counts s ts rest) :
    Lexed counts (w ++ s) (t :: ts) rest
  | variableStart {counts : List Int} {s : List Char} {ts : List RslToken} {rest : List Char}
    (h : Lexed (0 :: counts) s ts rest) : Lexed counts ('$' :: s) (.variableStart :: ts) rest
  | lparen {counts : List Int} {s : List Char} {ts : List RslToken} {rest : List Char} (hlong : s.head? ≠ some '*')
    (h : Lexed (counts.modifyHead (· + 1)) s ts rest) : Lexed counts ('(' :: s) (.lparen :: ts) rest
  | rparen {counts : List Int} {s : List Char} {ts : List RslToken} {rest : List Char}
    (h : Lexed (scanRparen counts s).parenCountStack s ts rest) :
    Lexed counts (')' :: s) (.rparen :: implied (scanRparen counts s).start ++ ts) rest
  | unquoted {counts : List Int} {c : Char} {s : List Char} {ts : List RslToken} {rest : List Char}
    (hc : isLiteralChar c) (h : Lexed counts (s.dropWhile isLiteralRest) ts rest) :
    Lexed counts (c :: s)
      (.string (c :: s.takeWhile isLiteralRest) :: implied (afterLiteral (s.dropWhile isLiteralRest)) ++ ts) rest
  | quoted {counts : List Int} {o : List Char} {d : Char} {u s : List Char} {ts : List RslToken} {rest : List Char}
    (hopens : Opens o d) (hlong : s.head? ≠ some d) (h : Lexed counts s ts rest) :
    Lexed counts (o ++ (doubled d u ++ d :: s)) (.string u :: ts) rest

/-- No token begins here, or a quoted literal that does not end in front of another character. -/
inductive Stops : List Char → Prop where
  | char {c : Char} {s : List Char} (hc : c ∈ ['*', '?', '~']) : Stops (c :: s)
  | bang {s : List Char} (hs : s.head? ≠ some '=') : Stops ('!' :: s)
  | caret : Stops ['^']
  | openQuote {o : List Char} {d : Char} {u : List Char} (hopens : Opens o d) : Stops (o ++ doubled d u)
  | lastQuote {o : List Char} {d : Char} {u : List Char} (hopens : Opens o d) : Stops (o ++ (doubled d u ++ [d]))

/-! ## The scanner follows the grammar -/

section Follow

variable {counts : List Int} {s rest : List Char} {ts : List RslToken}

/-- The text is scanned to its end. -/
def Scanner.complete (p : Scanner) (rest : List Char) : Bool :=
  match p.start with
  | .calling => rest = []
  | .implicitConcatenate => rest = []
  | .comment => true
  | .quote _ _ => false
  | .quoteHitDelim _ _ => false

variable {o : List Char} {d : Char}

theorem scans_opens (h : Opens o d) :
    Scans ⟨.calling, counts⟩ (o ++ s) [] ⟨.quote d [], counts⟩ s := by
  obtain ⟨rfl, rfl | rfl⟩ | rfl := h
  · exact .next (t := none) rfl
  · exact .next (t := none) rfl
  · exact .next (t := none) rfl

theorem scans_implied {start : StartState} (h : start = .calling ∨ start = .implicitConcatenate ∧ s ≠ []) :
    Scans ⟨start, counts⟩ s (implied start) ⟨.calling, counts⟩ s := by
  obtain rfl | ⟨rfl, hs⟩ := h
  · exact .refl
  · refine .next (t := some .opConcatenate) ?_
    simp [scanMatch, hs]

theorem scanRparen_start (counts : List Int) (s : List Char) :
    (scanRparen counts s).start = .calling ∨ (scanRparen counts s).start = .implicitConcatenate ∧ s ≠ [] := by
  unfold scanRparen
  split
  · exact .inl rfl
  · split
    · cases s with
      | nil => exact .inl rfl
      | cons c s =>
        by_cases hc : isLiteralChar c || c = '$'
        · exact .inr ⟨if_pos (by simpa using hc), by simp⟩
        · exact .inl (if_neg (by simpa using hc))
    · exact .inl rfl

theorem afterLiteral_start (s : List Char) :
    afterLiteral s = .calling ∨ afterLiteral s = .implicitConcatenate ∧ s ≠ [] := by
  unfold afterLiteral
  split
  · next h => exact .inr ⟨rfl, by rintro rfl; cases h⟩
  · exact .inl rfl

variable {c : Char}

theorem commentEnd_cons (h : ¬ ['*', ')'] <+: c :: s) : commentEnd (c :: s) = commentEnd s := by
  rw [commentEnd, strstr_cons_of_not_prefix h, Option.map_map]
  rfl

theorem commentEnd_dropWhile : ∀ s : List Char, commentEnd (s.dropWhile (· ≠ '*')) = commentEnd s
  | [] => rfl
  | c :: s => by
    by_cases hc : c = '*'
    · rw [dropWhile_cons_of_neg (by simp [hc])]
    · rw [dropWhile_cons_of_pos (by simp [hc]), commentEnd_dropWhile s, commentEnd_cons]
      rw [cons_prefix_cons]
      exact fun h => hc h.1.symm

theorem scans_comment (counts : List Int) : ∀ (n : Nat) {s : List Char}, s.length ≤ n →
    (∀ s', commentEnd s = some s' → s'.length < s.length ∧ Scans ⟨.comment, counts⟩ s [] ⟨.calling, counts⟩ s') ∧
    (commentEnd s = none → ∃ rest, Scans ⟨.comment, counts⟩ s [] ⟨.comment, counts⟩ rest ∧
      scanMatch ⟨.comment, counts⟩ rest = none)
  | _, [], _ => ⟨fun s' h => (by cases h), fun _ => ⟨[], .refl, rfl⟩⟩
  | n + 1, c :: s, hn => by
    have hs : s.length ≤ n := Nat.le_of_succ_le_succ hn
    -- what a match that stays in the comment leaves
    have hstep : ∀ {s' : List Char}, s'.length ≤ s.length → commentEnd (c :: s) = commentEnd s' →
        scanMatch ⟨.comment, counts⟩ (c :: s) = some (none, ⟨.comment, counts⟩, s') →
        (∀ s', commentEnd (c :: s) = some s' →
          s'.length < (c :: s).length ∧ Scans ⟨.comment, counts⟩ (c :: s) [] ⟨.calling, counts⟩ s') ∧
        (commentEnd (c :: s) = none → ∃ rest, Scans ⟨.comment, counts⟩ (c :: s) [] ⟨.comment, counts⟩ rest ∧
          scanMatch ⟨.comment, counts⟩ rest = none) := by
      intro s' hle hend hmatch
      obtain ⟨hclosed, hopen⟩ := scans_comment counts n (hle.trans hs)
      refine ⟨fun s'' h => ?_, fun h => ?_⟩
      · obtain ⟨hlt, hscan⟩ := hclosed s'' (hend ▸ h)
        exact ⟨Nat.lt_succ_of_lt (Nat.lt_of_lt_of_le hlt hle), (Scans.next hmatch).trans hscan⟩
      · obtain ⟨rest, hscan, hstop⟩ := hopen (hend ▸ h)
        exact ⟨rest, (Scans.next hmatch).trans hscan, hstop⟩
    by_cases hc : c = '*'
    · subst hc
      cases s with
      | nil => exact ⟨fun s' h => (by cases h), fun _ => ⟨['*'], .refl, rfl⟩⟩
      | cons d s =>
        by_cases hd : d = ')'
        · subst hd
          have hend : commentEnd ('*' :: ')' :: s) = some s := by
            have hpre : ['*', ')'] <+: '*' :: ')' :: s := ⟨s, rfl⟩
            rfl
          refine ⟨fun s' h => ?_, fun h => by cases h⟩
          cases h
          exact ⟨by simp, .next (t := none) rfl⟩
        · refine hstep le_rfl (commentEnd_cons ?_) (by simp [scanMatch])
          simp [Ne.symm hd]
    · refine hstep (dropWhile_sublist (· ≠ '*')).length_le ?_ (by simp [scanMatch, hc])
      rw [commentEnd_dropWhile, commentEnd_cons]
      rw [cons_prefix_cons]
      exact fun h => hc h.1.symm

theorem scans_quoted (u : List Char) (hopens : Opens o d) (hs : s ≠ []) (hlong : s.head? ≠ some d) :
    Scans ⟨.calling, counts⟩ (o ++ (doubled d u ++ d :: s)) [.string u] ⟨.calling, counts⟩ s := by
  obtain ⟨c, s, rfl⟩ := exists_cons_of_ne_nil hs
  exact (scans_opens hopens).trans (scans_quote (by simpa using hlong) u)

theorem scans_openQuote (u : List Char) (hopens : Opens o d) :
    Scans ⟨.calling, counts⟩ (o ++ (doubled d u ++ s)) [] ⟨.quote d u, counts⟩ s :=
  (scans_opens hopens).trans (scans_doubled d u [])

theorem scans_lastQuote (u : List Char) (hopens : Opens o d) :
    Scans ⟨.calling, counts⟩ (o ++ (doubled d u ++ [d])) [] ⟨.quoteHitDelim d u, counts⟩ [] := by
  have hend : scanMatch ⟨.quote d u, counts⟩ [d] = some (none, ⟨.quoteHitDelim d u, counts⟩, []) := by simp [scanMatch]
  exact (scans_openQuote u hopens).trans (.next hend)

theorem Stops.ne_nil (h : Stops s) : s ≠ [] := by
  cases h with
  | openQuote hopens => obtain ⟨rfl, -⟩ | rfl := hopens <;> simp
  | lastQuote hopens => simp
  | _ => simp

/-- The scanner ends where no token can be read, and has not come to the end of the text. -/
theorem Stops.scans (h : Stops s) (counts : List Int) : ∃ p rest, Scans ⟨.calling, counts⟩ s [] p rest ∧ scanMatch p rest = none ∧
    p.complete rest = false := by
  cases h with
  | @char c s hc =>
    refine ⟨_, _, .refl, ?_, by simp [Scanner.complete]⟩
    simp only [mem_cons, not_mem_nil, or_false] at hc
    rcases hc with rfl | rfl | rfl <;> rfl
  | @bang s hs =>
    refine ⟨_, _, .refl, ?_, by simp [Scanner.complete]⟩
    cases s with
    | nil => rfl
    | cons c s =>
      have hc : c ≠ '=' := by simpa using hs
      simp [scanMatch, scanCalling, hc, isWhitespace, isLiteralChar, isLiteralRest]
  | caret => exact ⟨_, _, .refl, rfl, rfl⟩
  | @openQuote o d u hopens =>
    have hscan : Scans ⟨.calling, counts⟩ (o ++ (doubled d u ++ [])) [] ⟨.quote d u, counts⟩ [] :=
      scans_openQuote u hopens
    rw [append_nil] at hscan
    exact ⟨_, _, hscan, rfl, rfl⟩
  | @lastQuote o d u hopens => exact ⟨_, _, scans_lastQuote u hopens, rfl, rfl⟩

theorem scans_op {t : RslToken} {w : List Char} (hw : t.symbol = some w)
    (hlong : t = .opLt ∨ t = .opGt → s.head? ≠ some '=') :
    Scans ⟨.calling, counts⟩ (w ++ s) [t] ⟨.calling, counts⟩ s := by
  refine .next (t := some t) ?_
  cases t <;> cases hw
  case opLt | opGt =>
    cases s with
    | nil => rfl
    | cons c s =>
      have hc : c ≠ '=' := by simpa using hlong (by simp)
      simp [scanMatch, scanCalling, hc]
  all_goals rfl

theorem scans_variableStart : Scans ⟨.calling, counts⟩ ('$' :: s) [.variableStart] ⟨.calling, 0 :: counts⟩ s :=
  .next (t := some .variableStart) rfl

theorem scans_openParen (hlong : s.head? ≠ some '*') :
    Scans ⟨.calling, counts⟩ ('(' :: s) [.lparen] ⟨.calling, counts.modifyHead (· + 1)⟩ s := by
  refine .next (t := some .lparen) ?_
  cases s with
  | nil => rfl
  | cons c s =>
    have hc : c ≠ '*' := by simpa using hlong
    simp [scanMatch, scanCalling, hc]

theorem scans_closeParen : Scans ⟨.calling, counts⟩ (')' :: s) (.rparen :: implied (scanRparen counts s).start)
    ⟨.calling, (scanRparen counts s).parenCountStack⟩ s :=
  (Scans.next (t := some .rparen) rfl).trans (scans_implied (scanRparen_start counts s))

/-- White space and unquoted literals begin with none of the other tokens. -/
theorem scanCalling_other (h : isWhitespace c || isLiteralChar c) :
    scanCalling counts (c :: s) =
      if isWhitespace c then some (none, ⟨.calling, counts⟩, s.dropWhile isWhitespace)
      else some (some (.string (c :: s.takeWhile isLiteralRest)),
        ⟨afterLiteral (s.dropWhile isLiteralRest), counts⟩, s.dropWhile isLiteralRest) := by
  have hspecial : ∀ d ∈ ['=', '!', '<', '>', '(', ')', '"', '\'', '^', '$', '#', '+', '&', '|'], c ≠ d := by
    rintro d hd rfl
    revert h
    simp only [mem_cons, not_mem_nil, or_false] at hd
    rcases hd with rfl | rfl | rfl | rfl | rfl | rfl | rfl | rfl | rfl | rfl | rfl | rfl | rfl | rfl <;> decide
  simp only [mem_cons, not_mem_nil, or_false, forall_eq_or_imp, forall_eq] at hspecial
  obtain ⟨heq, hbang, hlt, hgt, hopen, hclose, hquote, htick, hcaret, hdollar, hsharp, hplus, hand, hor⟩ := hspecial
  have hliteral : isWhitespace c = false → isLiteralChar c := fun hw => by simpa [hw] using h
  unfold scanCalling
  split <;> simp_all [afterLiteral]

theorem scans_blanks (hc : isWhitespace c) :
    Scans ⟨.calling, counts⟩ (c :: s) [] ⟨.calling, counts⟩ (s.dropWhile isWhitespace) := by
  refine .next (t := none) ?_
  exact (scanCalling_other (by simp [hc])).trans (if_pos hc)

theorem isWhitespace_of_isLiteralChar (hc : isLiteralChar c) : isWhitespace c = false := by
  simp only [isLiteralChar, isLiteralRest, Bool.and_eq_true, Bool.not_eq_true'] at hc
  exact hc.1.1

theorem scans_unquoted (hc : isLiteralChar c) :
    Scans ⟨.calling, counts⟩ (c :: s)
      (.string (c :: s.takeWhile isLiteralRest) :: implied (afterLiteral (s.dropWhile isLiteralRest)))
      ⟨.calling, counts⟩ (s.dropWhile isLiteralRest) := by
  have hmatch : scanMatch ⟨.calling, counts⟩ (c :: s) = some (some (.string (c :: s.takeWhile isLiteralRest)),
      ⟨afterLiteral (s.dropWhile isLiteralRest), counts⟩, s.dropWhile isLiteralRest) := by
    exact (scanCalling_other (by simp [hc])).trans (if_neg (by simp [isWhitespace_of_isLiteralChar hc]))
  exact (Scans.next hmatch).trans (scans_implied (afterLiteral_start _))

/-- The text `s` begins with a token, or with white space or a comment, and goes on with `s'`. -/
structure Lexeme (counts : List Int) (s : List Char) (us : List RslToken) (counts' : List Int) (s' : List Char) : Prop where
  length_lt : s'.length < s.length
  scans : Scans ⟨.calling, counts⟩ s us ⟨.calling, counts'⟩ s'
  lexed : ∀ {ts rest}, Lexed counts' s' ts rest → Lexed counts s (us ++ ts) rest

theorem lexeme_comment {s' : List Char} (hend : commentEnd s = some s') :
    Lexeme counts ('(' :: '*' :: s) [] counts s' := by
  obtain ⟨hlt, hscan⟩ := (scans_comment counts s.length le_rfl).1 s' hend
  have hopen : Scans ⟨.calling, counts⟩ ('(' :: '*' :: s) [] ⟨.comment, counts⟩ s := .next (t := none) rfl
  exact ⟨Nat.lt_succ_of_lt (Nat.lt_succ_of_lt hlt), hopen.trans hscan, .comment hend⟩

theorem scans_openComment (hend : commentEnd s = none) : ∃ rest,
    Scans ⟨.calling, counts⟩ ('(' :: '*' :: s) [] ⟨.comment, counts⟩ rest ∧ scanMatch ⟨.comment, counts⟩ rest = none := by
  obtain ⟨rest, hscan, hstop⟩ := (scans_comment counts s.length le_rfl).2 hend
  have hopen : Scans ⟨.calling, counts⟩ ('(' :: '*' :: s) [] ⟨.comment, counts⟩ s := .next (t := none) rfl
  exact ⟨rest, hopen.trans hscan, hstop⟩

theorem Lexed.eq_nil (h : Lexed counts s ts rest) (hs : s = []) : ts = [] ∧ rest = [] := by
  cases h with
  | nil => exact ⟨rfl, hs⟩
  | op hw hlong h => rename_i t w s _; cases t <;> cases hw <;> cases hs
  | quoted hopens hlong h => simp at hs
  | _ => cases hs

/-- The scanner gives the tokens of a text. At the end of the input it may be in a comment, and it loses a quoted literal
there. -/
theorem Lexed.scans (h : Lexed counts s ts rest) :
    (∃ counts', Scans ⟨.calling, counts⟩ s ts ⟨.calling, counts'⟩ rest) ∨
    rest = [] ∧ ∃ ts' p rest', Scans ⟨.calling, counts⟩ s ts' p rest' ∧ scanMatch p rest' = none ∧
      (ts' = ts ∧ p.complete rest' ∨ ∃ u, ts = ts' ++ [.string u]) := by
  -- a token in front
  have hcons : ∀ {k k' : List Int} {s s' rest : List Char} {us ts : List RslToken},
      Scans ⟨.calling, k⟩ s us ⟨.calling, k'⟩ s' →
      ((∃ counts', Scans ⟨.calling, k'⟩ s' ts ⟨.calling, counts'⟩ rest) ∨
        rest = [] ∧ ∃ ts' p rest', Scans ⟨.calling, k'⟩ s' ts' p rest' ∧ scanMatch p rest' = none ∧
          (ts' = ts ∧ p.complete rest' ∨ ∃ u, ts = ts' ++ [.string u])) →
      (∃ counts', Scans ⟨.calling, k⟩ s (us ++ ts) ⟨.calling, counts'⟩ rest) ∨
        rest = [] ∧ ∃ ts' p rest', Scans ⟨.calling, k⟩ s ts' p rest' ∧ scanMatch p rest' = none ∧
          (ts' = us ++ ts ∧ p.complete rest' ∨ ∃ u, us ++ ts = ts' ++ [.string u]) := by
    rintro k k' s s' rest us ts hscan (⟨counts', h⟩ | ⟨rfl, ts', p, rest', h, hstop, hts⟩)
    · exact .inl ⟨counts', hscan.trans h⟩
    · refine .inr ⟨rfl, us ++ ts', p, rest', hscan.trans h, hstop, ?_⟩
      rcases hts with ⟨rfl, hcomplete⟩ | ⟨u, rfl⟩
      · exact .inl ⟨rfl, hcomplete⟩
      · exact .inr ⟨u, by rw [append_assoc]⟩
  induction h with
  | nil => exact .inl ⟨_, .refl⟩
  | blank hc h ih => exact hcons (scans_blanks hc) ih
  | comment hend h ih => exact hcons (lexeme_comment hend).scans ih
  | openComment hend =>
    obtain ⟨rest, hscan, hstop⟩ := scans_openComment hend
    exact .inr ⟨rfl, [], _, rest, hscan, hstop, .inl ⟨rfl, rfl⟩⟩
  | op hw hlong h ih => exact hcons (scans_op hw hlong) ih
  | variableStart h ih => exact hcons scans_variableStart ih
  | lparen hlong h ih => exact hcons (scans_openParen hlong) ih
  | rparen h ih => exact hcons scans_closeParen ih
  | unquoted hc h ih => exact hcons (scans_unquoted hc) ih
  | @quoted counts o d u s ts rest hopens hlong h ih =>
    by_cases hs : s = []
    · subst hs
      obtain ⟨rfl, rfl⟩ := h.eq_nil rfl
      exact .inr ⟨rfl, [], _, [], scans_lastQuote u hopens, rfl, .inr ⟨u, rfl⟩⟩
    · exact hcons (scans_quoted u hopens hs hlong) ih

end Follow

/-! ## What is parsed -/

section Consume

variable {s rest rest' : List Char} {ts ts' : List RslToken} {p p' : Scanner}

theorem Scans.unique {fuel : Nat} (h : scan fuel Scanner.init s = some (ts, p, rest))
    (h' : Scans Scanner.init s ts' p' rest') (hstop' : scanMatch p' rest' = none) : ts = ts' ∧ p = p' ∧ rest = rest' := by
  obtain ⟨m, hm⟩ := h'.scan_eq hstop'
  have heq := (scan_mono h m).symm.trans (hm fuel)
  simpa using heq

end Consume

end Globus
