/-
Printing a specification and parsing the text. The printer quotes every literal and puts a blank behind every value, so
the scanner gives back the tokens of the tree, and the parser makes the tree of them if its stack has room for it.
-/
import GlobusToolkit.Rsl.Parser

namespace Globus

open Lib

/-! ## Trees that can be printed -/

mutual

/-- The values with non-empty sequences, references of a name and perhaps a default that are literals, and concatenations
of literals and references that nest to the right. -/
def RslValue.printable : RslValue → Bool
  | .literal _ => true
  | .sequence vs => !vs.isEmpty && printableList vs
  | .var (.sequence [.literal _]) => true
  | .var (.sequence [.literal _, .literal _]) => true
  | .var _ => false
  | .concatenation l r => l.isLeaf && l.printable && (r.isSimple && r.printable)

def RslValue.printableList : List RslValue → Bool
  | [] => true
  | v :: vs => v.printable && printableList vs

end

mutual

/-- The trees with non-empty booleans and relations with at least one value. -/
def Rsl.printable : Rsl → Bool
  | .boolean _ ts => !ts.isEmpty && printableList ts
  | .relation _ _ seq => seq.isSequence && seq.printable

def Rsl.printableList : List Rsl → Bool
  | [] => true
  | t :: ts => t.printable && printableList ts

end

theorem RslValue.printable_var {seq : RslValue} (h : (RslValue.var seq).printable) :
    (∃ n, seq = .sequence [.literal n]) ∨ ∃ n d, seq = .sequence [.literal n, .literal d] := by
  unfold printable at h
  split at h
  all_goals cases ‹RslValue.var seq = _›
  · exact .inl ⟨_, rfl⟩
  · exact .inr ⟨_, _, rfl⟩
  · cases h

open RslValue (printable printableList)

mutual

theorem RslValue.canonical_of_printable : ∀ v : RslValue, v.printable → v.canonical
  | .literal _, _ => rfl
  | .sequence vs, h => by
    obtain ⟨hne, hvs⟩ : vs ≠ [] ∧ printableList vs := by simpa [printable] using h
    simp [canonical, hne, canonicalList_of_printableList vs hvs]
  | .var seq, h => by
    obtain ⟨n, rfl⟩ | ⟨n, d, rfl⟩ := printable_var h <;> rfl
  | .concatenation l r, h => by
    obtain ⟨⟨hl, hl'⟩, hr, hr'⟩ : (l.isLeaf ∧ l.printable) ∧ r.isSimple ∧ r.printable := by simpa [printable] using h
    simp [canonical, hl, hr, canonical_of_printable l hl', canonical_of_printable r hr']

theorem RslValue.canonicalList_of_printableList : ∀ vs : List RslValue, printableList vs → canonicalList vs
  | [], _ => rfl
  | v :: vs, h => by
    obtain ⟨hv, hvs⟩ : v.printable ∧ printableList vs := by simpa [printableList] using h
    simp [canonicalList, canonical_of_printable v hv, canonicalList_of_printableList vs hvs]

end

mutual

theorem Rsl.canonical_of_printable : ∀ t : Rsl, t.printable → t.canonical
  | .boolean op ts, h => by
    obtain ⟨hne, hts⟩ : ts ≠ [] ∧ printableList ts := by simpa [printable] using h
    simp [canonical, hne, canonicalList_of_printableList ts hts]
  | .relation op attr seq, h => by
    obtain ⟨hseq, hseq'⟩ : seq.isSequence ∧ seq.printable := by simpa [printable] using h
    simp [canonical, hseq, seq.canonical_of_printable hseq']

theorem Rsl.canonicalList_of_printableList : ∀ ts : List Rsl, printableList ts → canonicalList ts
  | [], _ => rfl
  | t :: ts, h => by
    obtain ⟨ht, hts⟩ : t.printable ∧ printableList ts := by simpa [printableList] using h
    simp [canonicalList, canonical_of_printable t ht, canonicalList_of_printableList ts hts]

end

/-! ## Scanning what is printed -/

section Scan

variable {counts : List Int} {rest : List Char}

/-- A text that no parenthesis in front makes a comment of, and that does not begin with a blank. -/
def Begins (s : List Char) : Prop := ∃ c rest, s = c :: rest ∧ c ∈ ['"', '(', '$', '+', '&', '|']

theorem Begins.append {s : List Char} (h : Begins s) (t : List Char) : Begins (s ++ t) := by
  obtain ⟨c, rest, rfl, hc⟩ := h
  exact ⟨c, rest ++ t, rfl, hc⟩

theorem Begins.head {s : List Char} (h : Begins s) : ∀ c ∈ s.head?, isWhitespace c = false := by
  obtain ⟨c, rest, rfl, hc⟩ := h
  have hall : ∀ c ∈ ['"', '(', '$', '+', '&', '|'], isWhitespace c = false := by decide
  simpa using hall c hc

theorem begins_stringLiteral (s : List Char) : Begins (unparseStringLiteral s) := ⟨'"', _, rfl, by simp⟩

theorem scans_blank (h : ∀ c ∈ rest.head?, isWhitespace c = false) :
    Scans ⟨.calling, counts⟩ (' ' :: rest) [] ⟨.calling, counts⟩ rest := by
  have hdrop : rest.dropWhile isWhitespace = rest := by
    cases rest with
    | nil => rfl
    | cons c rest => exact List.dropWhile_cons_of_neg (by simp [h c (by simp)])
  have hmatch : scanMatch ⟨.calling, counts⟩ (' ' :: rest) = some (none, ⟨.calling, counts⟩, rest.dropWhile isWhitespace) :=
    rfl
  rw [hdrop] at hmatch
  exact .next hmatch

theorem scans_lparen (h : Begins rest) :
    Scans ⟨.calling, counts⟩ ('(' :: rest) [.lparen] ⟨.calling, counts.modifyHead (· + 1)⟩ rest := by
  obtain ⟨c, tail, rfl, hc⟩ := h
  refine .next (t := some .lparen) ?_
  have hstar : c ≠ '*' := by rintro rfl; simp at hc
  simp [scanMatch, scanCalling, hstar]

theorem scans_rparen : Scans ⟨.calling, []⟩ (')' :: rest) [.rparen] ⟨.calling, []⟩ rest := .next (t := some .rparen) rfl

theorem scans_boolOp (op : RslBoolOp) :
    Scans ⟨.calling, counts⟩ (op.unparse ++ rest) [op.token] ⟨.calling, counts⟩ rest := by
  cases op
  · exact .next (t := some .opAnd) rfl
  · exact .next (t := some .opOr) rfl
  · exact .next (t := some .opMultireq) rfl

/-- The blank behind an operator keeps `<` and `=` apart. -/
theorem scans_relOp (op : RslRelOp) :
    Scans ⟨.calling, counts⟩ (op.unparse ++ ' ' :: rest) [op.token] ⟨.calling, counts⟩ (' ' :: rest) := by
  cases op
  · exact .next (t := some .opEq) rfl
  · exact .next (t := some .opNeq) rfl
  · exact .next (t := some .opGt) rfl
  · exact .next (t := some .opGteq) rfl
  · exact .next (t := some .opLt) rfl
  · exact .next (t := some .opLteq) rfl

theorem scans_var {name : List Char} (dflt : List Char) (ts : List RslToken) (hdflt : ∀ c ∈ dflt.head?, c = ' ')
    (h : ∀ rest, Scans ⟨.calling, [1]⟩ (dflt ++ ')' :: rest) ts ⟨.calling, [1]⟩ (')' :: rest)) :
    Scans ⟨.calling, []⟩ ('$' :: '(' :: unparseStringLiteral name ++ dflt ++ [')'] ++ ' ' :: rest)
      (.variableStart :: .lparen :: .string name :: ts ++ [.rparen]) ⟨.calling, []⟩ (' ' :: rest) := by
  have hopen : Scans ⟨.calling, []⟩ ('$' :: '(' :: (unparseStringLiteral name ++ (dflt ++ ')' :: ' ' :: rest)))
      [.variableStart] ⟨.calling, [0]⟩ ('(' :: (unparseStringLiteral name ++ (dflt ++ ')' :: ' ' :: rest))) :=
    .next (t := some .variableStart) rfl
  have hparen : Scans ⟨.calling, [0]⟩ ('(' :: (unparseStringLiteral name ++ (dflt ++ ')' :: ' ' :: rest))) [.lparen]
      ⟨.calling, [1]⟩ (unparseStringLiteral name ++ (dflt ++ ')' :: ' ' :: rest)) :=
    scans_lparen ((begins_stringLiteral name).append _)
  have hname : Scans ⟨.calling, [1]⟩ (unparseStringLiteral name ++ (dflt ++ ')' :: ' ' :: rest)) [.string name]
      ⟨.calling, [1]⟩ (dflt ++ ')' :: ' ' :: rest) := by
    cases dflt with
    | nil => exact scans_stringLiteral (by decide) name
    | cons c dflt =>
      obtain rfl := hdflt c (by simp)
      exact scans_stringLiteral (by decide) name
  have hclose : Scans ⟨.calling, [1]⟩ (')' :: ' ' :: rest) [.rparen] ⟨.calling, []⟩ (' ' :: rest) :=
    .next (t := some .rparen) rfl
  have hall := hopen.trans (hparen.trans (hname.trans ((h (' ' :: rest)).trans hclose)))
  simpa using hall

mutual

theorem scans_value : ∀ v : RslValue, v.printable → ∃ text, v.unparse = some text ∧ Begins text ∧
    ∀ rest, Scans ⟨.calling, []⟩ (text ++ ' ' :: rest) v.tokens ⟨.calling, []⟩ (' ' :: rest)
  | .literal s, _ => ⟨_, rfl, begins_stringLiteral s, fun rest => scans_stringLiteral (by decide) s⟩
  | .sequence vs, h => by
    obtain ⟨hne, hvs⟩ : vs ≠ [] ∧ printableList vs := by simpa [printable] using h
    obtain ⟨text, htext, hbegins, hscan⟩ := scans_values vs hvs
    refine ⟨'(' :: text ++ [')'], by simp [RslValue.unparse, htext], ⟨'(', _, rfl, by simp⟩, fun rest => ?_⟩
    have hopen : Scans ⟨.calling, []⟩ ('(' :: (text ++ ')' :: ' ' :: rest)) [.lparen] ⟨.calling, []⟩
        (text ++ ')' :: ' ' :: rest) := scans_lparen ((hbegins hne).append _)
    have hall := hopen.trans ((hscan (')' :: ' ' :: rest) (by simp [isWhitespace])).trans scans_rparen)
    simpa [RslValue.tokens] using hall
  | .var seq, h => by
    obtain ⟨n, rfl⟩ | ⟨n, d, rfl⟩ := RslValue.printable_var h
    · refine ⟨_, rfl, ⟨'$', _, rfl, by simp⟩, fun rest => ?_⟩
      exact scans_var [] [] (by simp) (fun rest => .refl)
    · refine ⟨_, rfl, ⟨'$', _, rfl, by simp⟩, fun rest => ?_⟩
      refine scans_var (' ' :: unparseStringLiteral d) [.string d] (by simp) (fun rest => ?_)
      exact (scans_blank ((begins_stringLiteral d).append _).head).trans (scans_stringLiteral (by decide) d)
  | .concatenation l r, h => by
    obtain ⟨⟨-, hl⟩, -, hr⟩ : (l.isLeaf ∧ l.printable) ∧ r.isSimple ∧ r.printable := by
      simpa [printable] using h
    obtain ⟨left, hleft, hbegins, hscan⟩ := scans_value l hl
    obtain ⟨right, hright, hbegins', hscan'⟩ := scans_value r hr
    refine ⟨left ++ " # ".toList ++ right, by simp [RslValue.unparse, hleft, hright], ?_, fun rest => ?_⟩
    · rw [List.append_assoc]
      exact hbegins.append _
    · have hblank : Scans ⟨.calling, []⟩ (' ' :: '#' :: ' ' :: (right ++ ' ' :: rest)) [] ⟨.calling, []⟩
          ('#' :: ' ' :: (right ++ ' ' :: rest)) := scans_blank (by simp [isWhitespace])
      have hop : Scans ⟨.calling, []⟩ ('#' :: ' ' :: (right ++ ' ' :: rest)) [.opConcatenate] ⟨.calling, []⟩
          (' ' :: (right ++ ' ' :: rest)) := .next (t := some .opConcatenate) rfl
      have hblank' : Scans ⟨.calling, []⟩ (' ' :: (right ++ ' ' :: rest)) [] ⟨.calling, []⟩ (right ++ ' ' :: rest) :=
        scans_blank (hbegins'.append _).head
      have hall := (hscan ('#' :: ' ' :: (right ++ ' ' :: rest))).trans
        (hblank.trans (hop.trans (hblank'.trans (hscan' rest))))
      simpa [RslValue.tokens] using hall

theorem scans_values : ∀ vs : List RslValue, printableList vs → ∃ text, RslValue.unparseValues vs = some text ∧
    (vs ≠ [] → Begins text) ∧ ∀ rest, (∀ c ∈ rest.head?, isWhitespace c = false) →
      Scans ⟨.calling, []⟩ (text ++ rest) (RslValue.tokensList vs) ⟨.calling, []⟩ rest
  | [], _ => ⟨[], rfl, fun h => absurd rfl h, fun rest _ => .refl⟩
  | v :: vs, h => by
    obtain ⟨hv, hvs⟩ : v.printable ∧ printableList vs := by simpa [printableList] using h
    obtain ⟨value, hvalue, hbegins, hscan⟩ := scans_value v hv
    obtain ⟨text, htext, hbegins', hscan'⟩ := scans_values vs hvs
    refine ⟨value ++ ' ' :: text, by simp [RslValue.unparseValues, hvalue, htext], fun _ => hbegins.append _, ?_⟩
    intro rest hrest
    have hhead : ∀ c ∈ (text ++ rest).head?, isWhitespace c = false := by
      cases vs with
      | nil =>
        cases htext
        exact hrest
      | cons u us => exact ((hbegins' (by simp)).append rest).head
    have hall := (hscan (text ++ rest)).trans ((scans_blank hhead).trans (hscan' rest hrest))
    simpa [RslValue.tokensList] using hall

end

mutual

theorem scans_rsl : ∀ t : Rsl, t.printable → ∃ text, t.unparse = some text ∧ Begins text ∧
    ∀ rest, (∀ c ∈ rest.head?, isWhitespace c = false) →
      Scans ⟨.calling, []⟩ (text ++ rest) t.tokens ⟨.calling, []⟩ rest
  | .relation op attr seq, h => by
    obtain ⟨hseq, hseq'⟩ : seq.isSequence ∧ seq.printable := by simpa [Rsl.printable] using h
    cases seq with
    | literal _ => cases hseq
    | var _ => cases hseq
    | concatenation _ _ => cases hseq
    | sequence vs =>
      obtain ⟨hne, hvs⟩ : vs ≠ [] ∧ printableList vs := by simpa [printable] using hseq'
      obtain ⟨text, htext, hbegins, hscan⟩ := scans_values vs hvs
      refine ⟨unparseStringLiteral attr ++ ' ' :: op.unparse ++ ' ' :: text,
        by simp [Rsl.unparse, RslValue.sequenceGetValueList, htext], ?_, fun rest hrest => ?_⟩
      · rw [List.append_assoc]
        exact (begins_stringLiteral attr).append _
      · have hhead : ∀ c ∈ (op.unparse ++ ' ' :: (text ++ rest)).head?, isWhitespace c = false := by
          cases op <;> simp [RslRelOp.unparse, isWhitespace]
        have hattr : Scans ⟨.calling, []⟩ (unparseStringLiteral attr ++ ' ' :: (op.unparse ++ ' ' :: (text ++ rest)))
            [.string attr] ⟨.calling, []⟩ (' ' :: (op.unparse ++ ' ' :: (text ++ rest))) :=
          scans_stringLiteral (by decide) attr
        have hblank : Scans ⟨.calling, []⟩ (' ' :: (text ++ rest)) [] ⟨.calling, []⟩ (text ++ rest) :=
          scans_blank ((hbegins hne).append rest).head
        have hall := hattr.trans ((scans_blank hhead).trans ((scans_relOp op).trans (hblank.trans (hscan rest hrest))))
        simpa [Rsl.tokens, RslValue.sequenceGetValueList] using hall
  | .boolean op ts, h => by
    obtain ⟨-, hts⟩ : ts ≠ [] ∧ Rsl.printableList ts := by simpa [Rsl.printable] using h
    obtain ⟨text, htext, hscan⟩ := scans_operands ts hts
    refine ⟨op.unparse ++ text, by simp [Rsl.unparse, htext], ?_, fun rest _ => ?_⟩
    · cases op <;> exact ⟨_, _, rfl, by simp⟩
    · have hall := (scans_boolOp op).trans (hscan rest)
      simpa [Rsl.tokens] using hall

theorem scans_operands : ∀ ts : List Rsl, Rsl.printableList ts → ∃ text, Rsl.unparseOperands ts = some text ∧
    ∀ rest, Scans ⟨.calling, []⟩ (text ++ rest) (Rsl.tokensList ts) ⟨.calling, []⟩ rest
  | [], _ => ⟨[], rfl, fun rest => .refl⟩
  | t :: ts, h => by
    obtain ⟨ht, hts⟩ : t.printable ∧ Rsl.printableList ts := by simpa [Rsl.printableList] using h
    obtain ⟨operand, hoperand, hbegins, hscan⟩ := scans_rsl t ht
    obtain ⟨text, htext, hscan'⟩ := scans_operands ts hts
    refine ⟨'(' :: operand ++ ')' :: text, by simp [Rsl.unparseOperands, hoperand, htext], fun rest => ?_⟩
    have hopen : Scans ⟨.calling, []⟩ ('(' :: (operand ++ ')' :: (text ++ rest))) [.lparen] ⟨.calling, []⟩
        (operand ++ ')' :: (text ++ rest)) := scans_lparen (hbegins.append _)
    have hall := hopen.trans ((hscan (')' :: (text ++ rest)) (by simp [isWhitespace])).trans
      (scans_rparen.trans (hscan' rest)))
    simpa [Rsl.tokensList] using hall

end

end Scan

/-! ## The round trip -/

theorem exists_rslParse_eq {s : List Char} {ts : List RslToken} {p : Scanner} {rest : List Char} {r : Option RslSem}
    (hscan : ∃ n, ∀ fuel, scan (fuel + n) Scanner.init s = some (ts, p, rest))
    (hparse : ∃ n, ∀ fuel, rslParser.parse (fuel + n) ts = some r) :
    ∃ n, ∀ fuel, rslParse (fuel + n) s = some (r.bind RslSem.rslSpec) := by
  obtain ⟨n, hn⟩ := hscan
  obtain ⟨m, hm⟩ := hparse
  refine ⟨m + n, fun fuel => ?_⟩
  have hscan' : scan (fuel + (m + n)) Scanner.init s = some (ts, p, rest) := by rw [← Nat.add_assoc, hn]
  have hparse' : rslParser.parse (fuel + (m + n)) ts = some r := by
    rw [Nat.add_comm m n, ← Nat.add_assoc, hm]
  simp [rslParse, hscan', hparse']

/-- Every tree that can be printed is parsed back from its text if the parser's stack has room for it; otherwise the
parser fails. -/
theorem exists_rslParse_unparse (t : Rsl) (h : t.printable) : ∃ text, t.unparse = some text ∧
    (1 + t.depth < rslMaxDepth → ∃ n, ∀ fuel, rslParse (fuel + n) text = some (some t)) ∧
    (¬ 1 + t.depth < rslMaxDepth → ∃ n, ∀ fuel, rslParse (fuel + n) text = some none) := by
  obtain ⟨text, htext, -, hscan⟩ := scans_rsl t h
  have hstop := hscan [] (by simp)
  rw [List.append_nil] at hstop
  have htokens := hstop.scan_eq rfl
  obtain ⟨hfits, hfails⟩ := parse_tokens t (t.canonical_of_printable h)
  exact ⟨text, htext, fun hroom => exists_rslParse_eq htokens (hfits hroom),
    fun hroom => exists_rslParse_eq htokens (hfails hroom)⟩

theorem rslParse_mono {fuel : Nat} {s : List Char} {r : Option Rsl} (h : rslParse fuel s = some r) (more : Nat) :
    rslParse (fuel + more) s = some r := by
  simp only [rslParse, Option.bind_eq_bind, Option.bind_eq_some_iff] at h ⊢
  obtain ⟨⟨ts, rest⟩, hscan, sem, hparse, hr⟩ := h
  exact ⟨(ts, rest), scan_mono hscan more, sem, loop_mono hparse more, hr⟩

/-- A tree that can be printed comes back from `globus_rsl_parse` if and only if the stack has room for it; otherwise the
parser fails. -/
theorem rslParse_unparse_iff (t : Rsl) (h : t.printable) : ∃ text, t.unparse = some text ∧
    ((∃ fuel, rslParse fuel text = some (some t)) ↔ 1 + t.depth < rslMaxDepth) ∧
    (¬ 1 + t.depth < rslMaxDepth → ∃ n, ∀ fuel, rslParse (fuel + n) text = some none) := by
  obtain ⟨text, htext, hfits, hfails⟩ := exists_rslParse_unparse t h
  refine ⟨text, htext, ⟨fun ⟨fuel, hparse⟩ => ?_, fun hroom => ?_⟩, hfails⟩
  · by_contra hroom
    obtain ⟨n, hn⟩ := hfails hroom
    have heq := (rslParse_mono hparse n).symm.trans (hn fuel)
    cases heq
  · obtain ⟨n, hn⟩ := hfits hroom
    exact ⟨0 + n, hn 0⟩

/-- `&("a" = "b" )`. -/
theorem rslParse_unparse_small : ∃ text,
    Rsl.unparse (.boolean .and [.relation .eq ['a'] (.sequence [.literal ['b']])]) = some text ∧
    ∃ fuel, rslParse fuel text = some (some (.boolean .and [.relation .eq ['a'] (.sequence [.literal ['b']])])) := by
  obtain ⟨text, htext, hiff, -⟩ :=
    rslParse_unparse_iff (.boolean .and [.relation .eq ['a'] (.sequence [.literal ['b']])]) (by decide)
  exact ⟨text, htext, hiff.2 (by decide)⟩

theorem RslValue.depthList_replicate (s : List Char) : ∀ n, depthList (List.replicate n (.literal s)) = n
  | 0 => rfl
  | n + 1 => by
    rw [List.replicate_succ, depthList, depthList_replicate s n, depth]
    omega

theorem RslValue.printableList_replicate (s : List Char) : ∀ n, printableList (List.replicate n (.literal s))
  | 0 => rfl
  | n + 1 => by simp [List.replicate_succ, printableList, printable, printableList_replicate s n]

/-- A relation with as many values as the stack has places. -/
def wideRelation : Rsl := .relation .eq ['a'] (.sequence (List.replicate rslMaxDepth (.literal ['b'])))

/-- The values of a long relation do not fit on the stack: the parser fails on its text. -/
theorem rslParse_unparse_wide : wideRelation.printable ∧ ∃ text, wideRelation.unparse = some text ∧
    ∀ t : Rsl, ¬ ∃ fuel, rslParse fuel text = some (some t) := by
  have hprintable : wideRelation.printable := by
    have hne : List.replicate rslMaxDepth (RslValue.literal ['b']) ≠ [] := fun h =>
      absurd ((List.replicate_eq_nil_iff _).1 h) (by decide)
    rw [wideRelation, Rsl.printable, RslValue.isSequence, printable, RslValue.printableList_replicate]
    simpa using hne
  have hdepth : wideRelation.depth = 2 + rslMaxDepth := by
    rw [wideRelation, Rsl.depth, RslValue.sequenceGetValueList, RslValue.depthList_replicate]
  refine ⟨hprintable, ?_⟩
  obtain ⟨text, htext, -, hfails⟩ := exists_rslParse_unparse wideRelation hprintable
  obtain ⟨n, hn⟩ := hfails (by rw [hdepth]; omega)
  refine ⟨text, htext, fun t ⟨fuel, hparse⟩ => ?_⟩
  have heq := (rslParse_mono hparse n).symm.trans (hn fuel)
  cases heq

end Globus
