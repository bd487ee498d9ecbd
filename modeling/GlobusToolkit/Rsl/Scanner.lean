/-
The scanner of the resource specification language (gram/rsl/source/globus_rsl_scanner.l). It has six start states. The
longest match counts, with the trailing context of a rule; a character that no rule matches ends the input, as its real
end does, in every start state.
-/
import GlobusToolkit.Rsl.Syntax

namespace Globus

open Lib List

/-! ## The rules -/

/-- The tokens of the language. -/
inductive RslToken where
  | string (s : List Char)
  | opAnd
  | opOr
  | opMultireq
  | opEq
  | opNeq
  | opLt
  | opLteq
  | opGt
  | opGteq
  | opConcatenate
  | lparen
  | rparen
  | variableStart
  deriving DecidableEq, Repr

/-- The start states. `calling` stands for `INITIAL` and `VARIABLE`, to which the others go back. -/
inductive StartState where
  | calling
  | comment
  | quote (delimiter : Char) (text : List Char)
  | quoteHitDelim (delimiter : Char) (text : List Char)
  | implicitConcatenate
  deriving DecidableEq, Repr

/-- The scanner is in a variable reference, in the state `VARIABLE`, as long as its stack of paren counts is not
empty. -/
structure Scanner where
  start : StartState
  parenCountStack : List Int
  deriving DecidableEq, Repr

/-- The state at the front of the input. -/
def Scanner.init : Scanner := ⟨.calling, []⟩

/-- `WHITESPACE`. -/
def isWhitespace (c : Char) : Bool := c = ' ' || c = '\t' || c = '\n'

/-- The characters behind the first one of an `UNQUOTED_LITERAL`. -/
def isLiteralRest (c : Char) : Bool :=
  !isWhitespace c && c ∉ ['=', '!', '<', '>', '(', ')', '"', '\'', '^', '*', '$', '#', '?', '~']

/-- `UNQUOTED_LITERAL_CHAR`. -/
def isLiteralChar (c : Char) : Bool := isLiteralRest c && c ∉ ['+', '&', '|']

/-- `RPAREN`, in front of `rest`. In a variable reference that ends here, an operator follows if the text goes on without
white space. -/
def scanRparen (counts : List Int) (rest : List Char) : Scanner :=
  match counts with
  | [] => ⟨.calling, []⟩
  | count :: outer =>
    if count - 1 = 0 then
      ⟨if rest.head?.any fun c => isLiteralChar c || c = '$' then .implicitConcatenate else .calling, outer⟩
    else ⟨.calling, (count - 1) :: outer⟩

/-- The rules of `INITIAL` and `VARIABLE`: the token, if any, the next state, and the input behind the match. -/
def scanCalling (counts : List Int) (s : List Char) : Option (Option RslToken × Scanner × List Char) :=
  let here : Scanner := ⟨.calling, counts⟩
  match s with
  | '(' :: '*' :: rest => some (none, ⟨.comment, counts⟩, rest)
  | '^' :: c :: rest => some (none, ⟨.quote c [], counts⟩, rest)
  | '!' :: '=' :: rest => some (some .opNeq, here, rest)
  | '<' :: '=' :: rest => some (some .opLteq, here, rest)
  | '>' :: '=' :: rest => some (some .opGteq, here, rest)
  | '"' :: rest => some (none, ⟨.quote '"' [], counts⟩, rest)
  | '\'' :: rest => some (none, ⟨.quote '\'' [], counts⟩, rest)
  | '$' :: rest => some (some .variableStart, ⟨.calling, 0 :: counts⟩, rest)
  | '(' :: rest => some (some .lparen, ⟨.calling, counts.modifyHead (· + 1)⟩, rest)
  | ')' :: rest => some (some .rparen, scanRparen counts rest, rest)
  | '=' :: rest => some (some .opEq, here, rest)
  | '<' :: rest => some (some .opLt, here, rest)
  | '>' :: rest => some (some .opGt, here, rest)
  | '+' :: rest => some (some .opMultireq, here, rest)
  | '&' :: rest => some (some .opAnd, here, rest)
  | '|' :: rest => some (some .opOr, here, rest)
  | '#' :: rest => some (some .opConcatenate, here, rest)
  | c :: rest =>
    if isWhitespace c then some (none, here, rest.dropWhile isWhitespace)
    else if isLiteralChar c then
      let rest' := rest.dropWhile isLiteralRest
      some (some (.string (c :: rest.takeWhile isLiteralRest)),
        ⟨if rest'.head? = some '$' then .implicitConcatenate else .calling, counts⟩, rest')
    else none
  | [] => none

/-- The rules of all states. -/
def scanMatch (p : Scanner) (s : List Char) : Option (Option RslToken × Scanner × List Char) :=
  let counts := p.parenCountStack
  match p.start, s with
  | .calling, s => scanCalling counts s
  | .implicitConcatenate, s => if s = [] then none else some (some .opConcatenate, ⟨.calling, counts⟩, s)
  | .comment, '*' :: ')' :: rest => some (none, ⟨.calling, counts⟩, rest)
  | .comment, '*' :: c :: rest => some (none, p, c :: rest)
  | .comment, ['*'] => none
  | .comment, _ :: rest => some (none, p, rest.dropWhile (· ≠ '*'))
  | .comment, [] => none
  | .quote _ _, [] => none
  | .quote delimiter text, c :: rest =>
    some (none, ⟨if c ≠ delimiter then .quote delimiter (text ++ [c]) else .quoteHitDelim delimiter text, counts⟩, rest)
  | .quoteHitDelim _ _, [] => none
  | .quoteHitDelim delimiter text, c :: rest =>
    if c = delimiter then some (none, ⟨.quote delimiter (text ++ [c]), counts⟩, rest)
    else some (some (.string text), ⟨.calling, counts⟩, c :: rest)

/-- The tokens of an input, the state in which the scanner stops, and the input it stops at. -/
def scan : Nat → Scanner → List Char → Option (List RslToken × Scanner × List Char)
  | 0, _, _ => none
  | fuel + 1, p, s =>
    match scanMatch p s with
    | none => some ([], p, s)
    | some (t, p', rest) => (scan fuel p' rest).map fun r => (t.toList ++ r.1, r.2)

/-! ## The end of a scan -/

section Scan

variable {p p' : Scanner} {s rest : List Char} {t : Option RslToken} {fuel : Nat}

theorem scan_next (h : scanMatch p s = some (t, p', rest)) :
    scan (fuel + 1) p s = (scan fuel p' rest).map fun r => (t.toList ++ r.1, r.2) := by
  rw [scan, h]

theorem scan_stop (h : scanMatch p s = none) : scan (fuel + 1) p s = some ([], p, s) := by
  rw [scan, h]

/-- A match takes from the input, or leaves one of the states in which nothing may be taken. -/
def Scanner.measure (p : Scanner) (s : List Char) : Nat :=
  2 * s.length +
    match p.start with
    | .quoteHitDelim _ _ => 1
    | .implicitConcatenate => 1
    | _ => 0

theorem Scanner.measure_le (p : Scanner) (s : List Char) : p.measure s ≤ 2 * s.length + 1 := by
  unfold measure
  split <;> omega

theorem scanCalling_length {counts : List Int} (h : scanCalling counts s = some (t, p', rest)) :
    rest.length < s.length := by
  unfold scanCalling at h
  split at h
  case h_18 c tail _ _ _ _ _ _ _ _ _ _ _ _ _ _ _ _ _ =>
    have hdrop : ∀ q : Char → Bool, (tail.dropWhile q).length < (c :: tail).length := fun q =>
      Nat.lt_succ_of_le (dropWhile_sublist q).length_le
    split at h
    · cases h
      exact hdrop isWhitespace
    · split at h
      · cases h
        exact hdrop isLiteralRest
      · cases h
  all_goals cases h <;> simp

theorem scanMatch_measure (h : scanMatch p s = some (t, p', rest)) : p'.measure rest < p.measure s := by
  obtain ⟨start, counts⟩ := p
  unfold scanMatch at h
  dsimp only at h
  split at h
  · have hlength := scanCalling_length h
    have hle := p'.measure_le rest
    simp only [Scanner.measure] at hle ⊢
    omega
  · split at h <;> cases h
    simp [Scanner.measure]
  · cases h
    simp [Scanner.measure]
  · cases h
    simp [Scanner.measure]
  · cases h
  · next tail _ _ _ =>
    cases h
    have hle := (dropWhile_sublist (l := tail) (· ≠ '*')).length_le
    simp only [Scanner.measure, length_cons]
    omega
  · cases h
  · cases h
  · cases h
    split <;> simp only [Scanner.measure, length_cons] <;> omega
  · cases h
  · split at h <;> cases h <;> simp [Scanner.measure]

theorem exists_scan : ∀ {n : Nat} {p : Scanner} {s : List Char}, p.measure s < n → ∃ r, ∀ k, scan (n + k) p s = some r
  | 0, _, _, h => nomatch h
  | n + 1, p, s, h => by
    cases hmatch : scanMatch p s with
    | none => exact ⟨([], p, s), fun k => by rw [Nat.add_right_comm, scan_stop hmatch]⟩
    | some r =>
      obtain ⟨t, p', rest⟩ := r
      obtain ⟨r, hr⟩ := exists_scan ((scanMatch_measure hmatch).trans_le (Nat.le_of_lt_succ h))
      exact ⟨(t.toList ++ r.1, r.2), fun k => by rw [Nat.add_right_comm, scan_next hmatch, hr]; rfl⟩

/-- From every state the scanner stops on every text, after at most two matches for each character and one. -/
theorem scan_ends (p : Scanner) (s : List Char) : ∃ r, ∀ k, scan (2 * s.length + 2 + k) p s = some r :=
  exists_scan (Nat.lt_succ_of_le (p.measure_le s))

/-- From the state `p` at `s` the scanner comes to `p'` at `rest`, with the tokens `ts`. -/
def Scans (p : Scanner) (s : List Char) (ts : List RslToken) (p' : Scanner) (rest : List Char) : Prop :=
  ∃ n, ∀ fuel, scan (fuel + n) p s = (scan fuel p' rest).map fun r => (ts ++ r.1, r.2)

theorem Scans.refl : Scans p s [] p s := ⟨0, fun fuel => by cases scan fuel p s <;> simp⟩

theorem Scans.next (h : scanMatch p s = some (t, p', rest)) : Scans p s t.toList p' rest := ⟨1, fun _ => scan_next h⟩

theorem Scans.trans {p'' : Scanner} {rest' : List Char} {ts us : List RslToken} (h : Scans p s ts p' rest)
    (h' : Scans p' rest us p'' rest') : Scans p s (ts ++ us) p'' rest' := by
  obtain ⟨n, hn⟩ := h
  obtain ⟨m, hm⟩ := h'
  refine ⟨m + n, fun fuel => ?_⟩
  rw [← Nat.add_assoc, hn, hm, Option.map_map]
  simp [Function.comp_def]

/-- The scanner stops at the end of the input, or where no rule matches. -/
theorem Scans.scan_eq {ts : List RslToken} (h : Scans p s ts p' rest) (hstop : scanMatch p' rest = none) :
    ∃ n, ∀ fuel, scan (fuel + n) p s = some (ts, p', rest) := by
  obtain ⟨n, hn⟩ := h
  refine ⟨1 + n, fun fuel => ?_⟩
  rw [← Nat.add_assoc, hn, scan_stop hstop]
  simp

theorem scan_mono : ∀ {fuel : Nat} {p : Scanner} {s : List Char} {r : List RslToken × Scanner × List Char},
    scan fuel p s = some r → ∀ more, scan (fuel + more) p s = some r
  | 0, _, _, _, h, _ => by cases h
  | fuel + 1, p, s, r, h, more => by
    rw [Nat.add_right_comm]
    cases hmatch : scanMatch p s with
    | none =>
      rw [scan_stop hmatch] at h ⊢
      exact h
    | some m =>
      obtain ⟨t, p', rest⟩ := m
      rw [scan_next hmatch, Option.map_eq_some_iff] at h
      obtain ⟨r', hr', rfl⟩ := h
      rw [scan_next hmatch, scan_mono hr' more]
      rfl

end Scan

/-! ## Quoted literals -/

section Quote

variable {counts : List Int} {rest : List Char}

/-- A delimiter is doubled in the text that is quoted. -/
def doubled (delimiter : Char) (s : List Char) : List Char :=
  s.flatMap fun c => if c = delimiter then [delimiter, delimiter] else [c]

theorem scans_doubled (delimiter : Char) : ∀ s text : List Char,
    Scans ⟨.quote delimiter text, counts⟩ (doubled delimiter s ++ rest) [] ⟨.quote delimiter (text ++ s), counts⟩ rest
  | [], text => by
    rw [append_nil]
    exact .refl
  | c :: s, text => by
    have hrest := scans_doubled delimiter s (text ++ [c])
    rw [append_assoc, singleton_append] at hrest
    rw [doubled, flatMap_cons, ← doubled]
    by_cases hc : c = delimiter
    · subst hc
      rw [if_pos rfl]
      have hfirst : scanMatch ⟨.quote c text, counts⟩ (c :: c :: (doubled c s ++ rest)) =
          some (none, ⟨.quoteHitDelim c text, counts⟩, c :: (doubled c s ++ rest)) := by simp [scanMatch]
      have hsecond : scanMatch ⟨.quoteHitDelim c text, counts⟩ (c :: (doubled c s ++ rest)) =
          some (none, ⟨.quote c (text ++ [c]), counts⟩, doubled c s ++ rest) := by simp [scanMatch]
      exact (Scans.next hfirst).trans ((Scans.next hsecond).trans hrest)
    · rw [if_neg hc]
      have hchar : scanMatch ⟨.quote delimiter text, counts⟩ (c :: (doubled delimiter s ++ rest)) =
          some (none, ⟨.quote delimiter (text ++ [c]), counts⟩, doubled delimiter s ++ rest) := by simp [scanMatch, hc]
      exact (Scans.next hchar).trans hrest

/-- A quoted literal is a token if another character follows it. -/
theorem scans_quote {delimiter c : Char} (hc : c ≠ delimiter) (s : List Char) :
    Scans ⟨.quote delimiter [], counts⟩ (doubled delimiter s ++ delimiter :: c :: rest) [.string s] ⟨.calling, counts⟩
      (c :: rest) := by
  have hend : scanMatch ⟨.quote delimiter s, counts⟩ (delimiter :: c :: rest) =
      some (none, ⟨.quoteHitDelim delimiter s, counts⟩, c :: rest) := by simp [scanMatch]
  have htoken : scanMatch ⟨.quoteHitDelim delimiter s, counts⟩ (c :: rest) =
      some (some (.string s), ⟨.calling, counts⟩, c :: rest) := by simp [scanMatch, hc]
  exact (scans_doubled delimiter s []).trans ((Scans.next hend).trans (Scans.next htoken))

/-- `globus_i_rsl_unparse_string_literal_to_fifo` writes a quoted literal. -/
theorem scans_stringLiteral {c : Char} (hc : c ≠ '"') (s : List Char) :
    Scans ⟨.calling, counts⟩ (unparseStringLiteral s ++ c :: rest) [.string s] ⟨.calling, counts⟩ (c :: rest) := by
  have htext : unparseStringLiteral s ++ c :: rest = '"' :: (doubled '"' s ++ '"' :: c :: rest) := by
    simp [unparseStringLiteral, doubled]
  have hopen : scanMatch ⟨.calling, counts⟩ ('"' :: (doubled '"' s ++ '"' :: c :: rest)) =
      some (none, ⟨.quote '"' [], counts⟩, doubled '"' s ++ '"' :: c :: rest) := rfl
  rw [htext]
  exact (Scans.next hopen).trans (scans_quote hc s)

end Quote

end Globus
