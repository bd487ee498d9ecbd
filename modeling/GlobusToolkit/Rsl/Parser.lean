/-
The parser of the resource specification language: the tables and the skeleton that Bison has made of the grammar
(gram/rsl/source/globus_rsl_parser.y, globus_rsl_parser.c). A tree determines its tokens and the depth of stack that the
parser needs for them. The parser accepts the tokens of the trees whose concatenations nest to the right, as long as its
stack has room.
-/
import GlobusToolkit.Lib.Lalr
import GlobusToolkit.Rsl.Scanner

namespace Globus

open Lib List RslValue Leads
open LalrParser (top)

/-! ## The parser -/

/-- Semantic values. -/
inductive RslSem where
  | none
  | string (s : List Char)
  | boolOp (op : RslBoolOp)
  | relOp (op : RslRelOp)
  | rsl (t : Rsl)
  | rslList (ts : List Rsl)
  | value (v : RslValue)
  | valueList (vs : List RslValue)

/-- The internal numbers of the tokens. -/
def RslToken.kind : RslToken → Nat
  | .string _ => 3
  | .opAnd => 4
  | .opOr => 5
  | .opMultireq => 6
  | .opEq => 7
  | .opNeq => 8
  | .opLt => 9
  | .opLteq => 10
  | .opGt => 11
  | .opGteq => 12
  | .opConcatenate => 13
  | .lparen => 14
  | .rparen => 15
  | .variableStart => 16

def RslToken.value : RslToken → RslSem
  | .string s => .string s
  | _ => .none

/-- The tables `yypact` and so on. -/
def rslTables : Lalr where
  final := 10
  ntokens := 17
  last := 34
  pactNinf := -20
  tableNinf := -1
  pact := [2, -20, -20, -20, -20, 3, -20, -5, -20, 9, -20, 2, -20, -20, -20, -20, -20, -20, -20, -3, 7, -3, -4, -20, -20,
    -3, 10, -20, -20, -5, 11, -3, -20, -2, -20, -20, 12, 10, -20]
  table := [1, 1, 30, 10, 9, 1, 2, 3, 4, 11, 31, 21, 36, 22, 22, 9, 13, 14, 15, 16, 17, 18, 29, 33, 20, 32, 35, 38, 34, 0,
    0, 0, 0, 0, 37]
  check := [3, 3, 21, 0, 0, 3, 4, 5, 6, 14, 14, 14, 31, 16, 16, 11, 7, 8, 9, 10, 11, 12, 15, 13, 11, 25, 15, 15, 29, -1,
    -1, -1, -1, -1, 33]
  defact := [0, 26, 6, 7, 5, 0, 2, 0, 4, 0, 1, 0, 3, 11, 12, 15, 16, 13, 14, 0, 0, 0, 0, 10, 17, 19, 21, 24, 23, 9, 0, 0,
    18, 0, 8, 20, 0, 22, 25]
  pgoto := [-20, -20, 13, -20, -1, -20, -20, -19, 0, -20, 1, -20, 4]
  defgoto := [-1, 5, 6, 7, 12, 8, 19, 23, 24, 25, 26, 27, 28]
  r1 := [0, 17, 18, 19, 19, 20, 20, 20, 21, 21, 22, 23, 23, 23, 23, 23, 23, 24, 25, 25, 26, 26, 27, 27, 27, 28, 29]
  r2 := [0, 2, 1, 2, 1, 1, 1, 1, 4, 3, 3, 1, 1, 1, 1, 1, 1, 1, 2, 1, 3, 1, 3, 1, 1, 4, 1]

/-- The actions of the rules. -/
def rslAct : Nat → List RslSem → Option RslSem
  | 2, [.rsl t] => some (.rsl t)
  | 3, [.boolOp op, .rslList ts] => some (.rsl (.boolean op ts))
  | 4, [.rsl t] => some (.rsl t)
  | 5, [_] => some (.boolOp .multireq)
  | 6, [_] => some (.boolOp .and)
  | 7, [_] => some (.boolOp .or)
  | 8, [_, .rsl t, _, .rslList ts] => some (.rslList (t :: ts))
  | 9, [_, .rsl t, _] => some (.rslList [t])
  | 10, [.string attr, .relOp op, .value v] => some (.rsl (.relation op attr v))
  | 11, [_] => some (.relOp .eq)
  | 12, [_] => some (.relOp .neq)
  | 13, [_] => some (.relOp .gt)
  | 14, [_] => some (.relOp .gteq)
  | 15, [_] => some (.relOp .lt)
  | 16, [_] => some (.relOp .lteq)
  | 17, [.valueList vs] => some (.value (.sequence vs))
  | 18, [.value v, .valueList vs] => some (.valueList (v :: vs))
  | 19, [.value v] => some (.valueList [v])
  | 20, [_, .value v, _] => some (.value v)
  | 21, [.value v] => some (.value v)
  | 22, [.value l, _, .value r] => some (.value (.concatenation l r))
  | 23, [.string s] => some (.value (.literal s))
  | 24, [.value v] => some (.value v)
  | 25, [_, _, .value v, _] => some (.value (.var v))
  | 26, [.string s] => some (.string s)
  | _, _ => none

/-- `YYMAXDEPTH`. -/
def rslMaxDepth : Nat := 10000

/-- `yyparse`. -/
def rslParser : LalrParser RslToken RslSem where
  tables := rslTables
  kind := RslToken.kind
  value := RslToken.value
  act := rslAct
  maxDepth := rslMaxDepth

/-- The specification that the rule for the start symbol has stored. -/
def RslSem.rslSpec : RslSem → Option Rsl
  | .rsl t => some t
  | _ => Option.none

/-- `globus_rsl_parse`. -/
def rslParse (fuel : Nat) (buf : List Char) : Option (Option Rsl) := do
  let (tokens, _) ← scan fuel Scanner.init buf
  let sem ← rslParser.parse fuel tokens
  return sem.bind RslSem.rslSpec

/-! ## The tokens of a tree -/

def RslBoolOp.token : RslBoolOp → RslToken
  | .and => .opAnd
  | .or => .opOr
  | .multireq => .opMultireq

def RslRelOp.token : RslRelOp → RslToken
  | .eq => .opEq
  | .neq => .opNeq
  | .gt => .opGt
  | .gteq => .opGteq
  | .lt => .opLt
  | .lteq => .opLteq

mutual

def RslValue.tokens : RslValue → List RslToken
  | .literal s => [.string s]
  | .sequence vs => .lparen :: tokensList vs ++ [.rparen]
  | .var seq => .variableStart :: seq.tokens
  | .concatenation l r => l.tokens ++ .opConcatenate :: r.tokens

def RslValue.tokensList : List RslValue → List RslToken
  | [] => []
  | v :: vs => v.tokens ++ tokensList vs

end

mutual

def Rsl.tokens : Rsl → List RslToken
  | .boolean op ts => op.token :: tokensList ts
  | .relation op attr seq => .string attr :: op.token :: RslValue.tokensList seq.sequenceGetValueList

def Rsl.tokensList : List Rsl → List RslToken
  | [] => []
  | t :: ts => .lparen :: t.tokens ++ .rparen :: tokensList ts

end

/-- Not a sequence. -/
def RslValue.isSimple : RslValue → Bool
  | .sequence _ => false
  | _ => true

/-- A literal or a variable. -/
def RslValue.isLeaf : RslValue → Bool
  | .literal _ => true
  | .var _ => true
  | _ => false

mutual

/-- The values that the parser makes: sequences have elements, and concatenations nest to the right. -/
def RslValue.canonical : RslValue → Bool
  | .literal _ => true
  | .sequence vs => !vs.isEmpty && canonicalList vs
  | .var seq => seq.isSequence && seq.canonical
  | .concatenation l r => l.isLeaf && l.canonical && (r.isSimple && r.canonical)

def RslValue.canonicalList : List RslValue → Bool
  | [] => true
  | v :: vs => v.canonical && canonicalList vs

end

mutual

/-- The trees that the parser makes. -/
def Rsl.canonical : Rsl → Bool
  | .boolean _ ts => !ts.isEmpty && canonicalList ts
  | .relation _ _ seq => seq.isSequence && seq.canonical

def Rsl.canonicalList : List Rsl → Bool
  | [] => true
  | t :: ts => t.canonical && canonicalList ts

end

mutual

/-- The depth of stack for the tokens of a value. The grammar recurses on the right, so the values of a sequence are all
on the stack before the first of them is put into a list. -/
def RslValue.depth : RslValue → Nat
  | .literal _ => 1
  | .sequence vs => max (1 + depthList vs) 3
  | .var seq => 1 + seq.depth
  | .concatenation l r => max l.depth (2 + r.depth)

def RslValue.depthList : List RslValue → Nat
  | [] => 0
  | v :: vs => max v.depth (1 + depthList vs)

end

mutual

/-- The depth of stack for the tokens of a tree. -/
def Rsl.depth : Rsl → Nat
  | .boolean _ ts => 1 + depthList ts
  | .relation _ _ seq => 2 + RslValue.depthList seq.sequenceGetValueList

def Rsl.depthList : List Rsl → Nat
  | [] => 0
  | t :: ts => max (max (1 + t.depth) 3) (3 + depthList ts)

end

/-! ## Parsing the tokens of a tree -/

/-- The stack has room for `n` more states. -/
def Room (stack : List (Nat × RslSem)) (n : Nat) : Prop := stack.length + 1 + n < rslMaxDepth

/-- The parser reads these tokens on this stack and pushes the state `s` with the value `v`, which takes `n` places at
most on the way. -/
def Reads (stack : List (Nat × RslSem)) (tokens input : List RslToken) (n s : Nat) (v : RslSem) : Prop :=
  Leads rslParser ⟨stack, tokens ++ input⟩ (Room stack n) ⟨(s, v) :: stack, input⟩

section Parse

variable {stack : List (Nat × RslSem)} {input : List RslToken} {n s : Nat} {v : RslSem}

theorem next_lt (input : List RslToken) : rslParser.next input < 17 := by
  cases input with
  | nil => decide
  | cons t rest => cases t <;> simp [LalrParser.next, rslParser, RslToken.kind]

theorem reads_token (t : RslToken) (h : rslTables.action (top stack) t.kind = .shift s) :
    Reads stack [t] input 1 s t.value :=
  leads_shift h

/-- Reducing by a rule. There is room for the result where there was room for the values of the rule. -/
theorem leads_rule (r : Nat) (frames : List (Nat × RslSem))
    (haction : rslTables.action (top (frames ++ stack)) (rslParser.next input) = .reduce r)
    (hlength : rslTables.r2.getD r 0 = frames.length) (hact : rslAct r (frames.map Prod.snd).reverse = some v)
    (hgoto : rslTables.goto (rslTables.r1.getD r 0) (top stack) = s) :
    Leads rslParser ⟨frames ++ stack, input⟩ (Room stack 1) ⟨(s, v) :: stack, input⟩ := by
  subst hgoto
  exact leads_reduce haction hlength hact

theorem Reads.unit {tokens : List RslToken} {q : Nat} {w : RslSem} (h : Reads stack tokens input n q w) (r : Nat)
    (hn : 1 ≤ n) (haction : rslTables.action q (rslParser.next input) = .reduce r)
    (hlength : rslTables.r2.getD r 0 = 1) (hact : rslAct r [w] = some v)
    (hgoto : rslTables.goto (rslTables.r1.getD r 0) (top stack) = s) : Reads stack tokens input n s v := by
  refine (trans h (leads_rule r [(q, w)] haction hlength hact hgoto)).congr ?_
  unfold Room
  omega

/-- The states in which a value may begin. -/
def valueStates : List Nat := [19, 21, 25, 31]

/-- The states in which a simple value may begin. -/
def simpleStates : List Nat := 33 :: valueStates

/-- The state behind a simple value. -/
def simpleGoto (q : Nat) : Nat := if q = 33 then 37 else 26

/-- The state behind a list of values. -/
def listGoto (q : Nat) : Nat := if q = 25 then 32 else 24

theorem reads_literal (string : List Char) (hstack : top stack ∈ simpleStates) :
    Reads stack [.string string] input 1 (simpleGoto (top stack)) (.value (.literal string)) := by
  have hshift : ∀ q ∈ simpleStates, rslTables.action q 3 = .shift 1 := by decide
  have hstring : ∀ q ∈ simpleStates, rslTables.goto 29 q = 28 := by decide
  have hsimple : ∀ q ∈ simpleStates, rslTables.goto 27 q = simpleGoto q := by decide
  have h : Reads stack [.string string] input 1 1 (.string string) := reads_token _ (hshift _ hstack)
  exact (h.unit 26 (by decide) rfl rfl rfl (hstring _ hstack)).unit 23 (by decide) rfl rfl rfl (hsimple _ hstack)

variable {vs : List RslValue}

theorem leads_parens {o c e : Nat} (hopen : rslTables.action (top stack) 14 = .shift o)
    (hlist : Reads ((o, .none) :: stack) (tokensList vs) (.rparen :: input) (depthList vs) 24
      (.valueList vs))
    (hpos : 1 ≤ depthList vs) (hgoto : rslTables.goto 24 o = c) (hclose : rslTables.action c 15 = .shift e) :
    Leads rslParser ⟨stack, tokens (.sequence vs) ++ input⟩ (Room stack (depth (.sequence vs)))
      ⟨(e, .none) :: (c, .value (.sequence vs)) :: (o, .none) :: stack, input⟩ := by
  have hl : Reads stack [.lparen] (tokensList vs ++ .rparen :: input) 1 o .none := reads_token .lparen hopen
  have hs : Reads ((o, .none) :: stack) (tokensList vs) (.rparen :: input) (depthList vs) c
      (.value (.sequence vs)) := hlist.unit 17 hpos rfl rfl rfl hgoto
  have hr : Reads ((c, .value (.sequence vs)) :: (o, .none) :: stack) [.rparen] input 1 e .none :=
    reads_token .rparen hclose
  have htext : tokens (.sequence vs) ++ input = [.lparen] ++ (tokensList vs ++ .rparen :: input) := by
    simp [tokens]
  rw [htext]
  refine ((trans hl hs).trans hr).congr ?_
  simp only [Room, depth, length_cons]
  omega

theorem RslValue.depthList_pos (h : vs ≠ []) : 1 ≤ depthList vs := by
  cases vs with
  | nil => exact absurd rfl h
  | cons v vs =>
    rw [depthList]
    omega

theorem reads_var (hstack : top stack ∈ simpleStates) (hpos : 1 ≤ depthList vs)
    (hlist : Reads ((31, .none) :: (22, .none) :: stack) (tokensList vs) (.rparen :: input)
      (depthList vs) 24 (.valueList vs)) :
    Reads stack (tokens (.var (.sequence vs))) input (depth (.var (.sequence vs)))
      (simpleGoto (top stack)) (.value (.var (.sequence vs))) := by
  have hshift : ∀ q ∈ simpleStates, rslTables.action q 16 = .shift 22 := by decide
  have hvar : ∀ q ∈ simpleStates, rslTables.goto 28 q = 27 := by decide
  have hsimple : ∀ q ∈ simpleStates, rslTables.goto 27 q = simpleGoto q := by decide
  have hd : Reads stack [.variableStart] (tokens (.sequence vs) ++ input) 1 22 .none :=
    reads_token .variableStart (hshift _ hstack)
  have hparens : Leads rslParser ⟨(22, .none) :: stack, tokens (.sequence vs) ++ input⟩ _ _ :=
    leads_parens rfl hlist hpos rfl rfl
  have hrule : Leads rslParser ⟨[(38, .none), (36, .value (.sequence vs)), (31, .none), (22, .none)] ++ stack, input⟩ _
      ⟨(27, .value (.var (.sequence vs))) :: stack, input⟩ :=
    leads_rule 25 _ rfl rfl rfl (hvar _ hstack)
  have hread : Reads stack (tokens (.var (.sequence vs))) input (depth (.var (.sequence vs))) 27
      (.value (.var (.sequence vs))) := by
    refine ((trans hd hparens).trans hrule).congr ?_
    simp only [Room, depth, length_cons]
    omega
  refine hread.unit 24 ?_ rfl rfl rfl (hsimple _ hstack)
  rw [depth]
  omega

theorem reads_sequence (hstack : top stack ∈ valueStates)
    (hpos : 1 ≤ depthList vs)
    (hlist : Reads ((21, .none) :: stack) (tokensList vs) (.rparen :: input) (depthList vs) 24
      (.valueList vs)) :
    Reads stack (tokens (.sequence vs)) input (depth (.sequence vs)) 25 (.value (.sequence vs)) := by
  have hopen : ∀ q ∈ valueStates, rslTables.action q 14 = .shift 21 := by decide
  have hvalue : ∀ q ∈ valueStates, rslTables.goto 26 q = 25 := by decide
  have hparens := leads_parens (hopen _ hstack) hlist hpos rfl rfl
  have hrule : Leads rslParser ⟨[(35, .none), (30, .value (.sequence vs)), (21, .none)] ++ stack, input⟩ _
      ⟨(25, .value (.sequence vs)) :: stack, input⟩ :=
    leads_rule 20 _ rfl rfl rfl (hvalue _ hstack)
  refine (trans hparens hrule).congr ?_
  simp only [Room, depth]
  omega

/-- A concatenation, of which the right part has been read up to something that is no operator. -/
theorem reads_concatenation {l r : RslValue} (hstack : top stack ∈ simpleStates) (hpos : 1 ≤ r.depth)
    (hinput : rslParser.next input ≠ 13)
    (hl : Reads stack l.tokens (.opConcatenate :: (r.tokens ++ input)) l.depth (simpleGoto (top stack))
      (.value l))
    (hr : Reads ((33, .none) :: (simpleGoto (top stack), .value l) :: stack) r.tokens input r.depth 37
      (.value r)) :
    Reads stack (tokens (.concatenation l r)) input (depth (.concatenation l r))
      (simpleGoto (top stack)) (.value (.concatenation l r)) := by
  have hshift : ∀ q ∈ simpleStates, rslTables.action (simpleGoto q) 13 = .shift 33 := by decide
  have hreduce : ∀ t < 17, t ≠ 13 → rslTables.action 37 t = .reduce 22 := by decide
  have hsimple : ∀ q ∈ simpleStates, rslTables.goto 27 q = simpleGoto q := by decide
  have hop : Reads ((simpleGoto (top stack), .value l) :: stack) [.opConcatenate] (r.tokens ++ input) 1 33
      .none := reads_token .opConcatenate (hshift _ hstack)
  have hrule : Leads rslParser ⟨[(37, .value r), (33, .none), (simpleGoto (top stack), .value l)] ++ stack,
      input⟩ _ ⟨(simpleGoto (top stack), .value (.concatenation l r)) :: stack, input⟩ :=
    leads_rule 22 _ (hreduce _ (next_lt input) hinput) rfl rfl (hsimple _ hstack)
  have htext : tokens (.concatenation l r) ++ input = l.tokens ++ .opConcatenate :: (r.tokens ++ input) := by
    simp [tokens]
  unfold Reads
  rw [htext]
  refine (((trans hl hop).trans hr).trans hrule).congr ?_
  simp only [Room, depth, length_cons]
  omega

theorem reads_last {u : RslValue} (hstack : top stack ∈ valueStates)
    (hinput : rslParser.next input ∉ [3, 13, 14, 16]) (hpos : 1 ≤ n)
    (hu : Reads stack u.tokens input n 25 (.value u)) :
    Reads stack (tokensList [u]) input n (listGoto (top stack)) (.valueList [u]) := by
  have hreduce : ∀ t < 17, t ∉ [3, 13, 14, 16] → rslTables.action 25 t = .reduce 19 := by decide
  have hlist : ∀ q ∈ valueStates, rslTables.goto 25 q = listGoto q := by decide
  rw [tokensList, tokensList, append_nil]
  exact hu.unit 19 hpos (hreduce _ (next_lt input) hinput) rfl rfl (hlist _ hstack)

theorem reads_cons {u : RslValue} {us : List RslValue} (hstack : top stack ∈ valueStates)
    (hpos : 1 ≤ depthList us)
    (hu : Reads stack u.tokens (tokensList us ++ input) u.depth 25 (.value u))
    (hus : Reads ((25, .value u) :: stack) (tokensList us) input (depthList us) 32 (.valueList us)) :
    Reads stack (tokensList (u :: us)) input (depthList (u :: us)) (listGoto (top stack))
      (.valueList (u :: us)) := by
  have hlist : ∀ q ∈ valueStates, rslTables.goto 25 q = listGoto q := by decide
  have hrule : Leads rslParser ⟨[(32, .valueList us), (25, .value u)] ++ stack, input⟩ _
      ⟨(listGoto (top stack), .valueList (u :: us)) :: stack, input⟩ :=
    leads_rule 18 _ rfl rfl rfl (hlist _ hstack)
  unfold Reads
  rw [tokensList, append_assoc]
  refine ((trans hu hus).trans hrule).congr ?_
  simp only [Room, depthList, length_cons]
  omega

theorem Reads.value {u : RslValue} (h : Reads stack u.tokens input n 26 (.value u))
    (hstack : top stack ∈ valueStates) (hinput : rslParser.next input ≠ 13) (hpos : 1 ≤ n) :
    Reads stack u.tokens input n 25 (.value u) := by
  have hreduce : ∀ t < 17, t ≠ 13 → rslTables.action 26 t = .reduce 21 := by decide
  have hvalue : ∀ q ∈ valueStates, rslTables.goto 26 q = 25 := by decide
  exact h.unit 21 hpos (hreduce _ (next_lt input) hinput) rfl rfl (hvalue _ hstack)

theorem RslValue.depth_pos (u : RslValue) : 1 ≤ u.depth := by
  cases u <;> rw [depth] <;> omega

theorem next_value : ∀ (u : RslValue) (input : List RslToken), rslParser.next (u.tokens ++ input) ∈ [3, 14, 16]
  | .literal _, _ => by simp [tokens, LalrParser.next, rslParser, RslToken.kind]
  | .sequence _, _ => by simp [tokens, LalrParser.next, rslParser, RslToken.kind]
  | .var _, _ => by simp [tokens, LalrParser.next, rslParser, RslToken.kind]
  | .concatenation l r, input => by
    rw [tokens, append_assoc]
    exact next_value l _

mutual

/-- A simple value is read in front of anything but an operator; a leaf is read in front of anything. -/
theorem reads_simple : ∀ (u : RslValue) {stack : List (Nat × RslSem)} {input : List RslToken}, u.isSimple → u.canonical →
    top stack ∈ simpleStates → u.isLeaf ∨ rslParser.next input ≠ 13 →
    Reads stack u.tokens input u.depth (simpleGoto (top stack)) (.value u)
  | .literal string, stack, input, _, _, hstack, _ => reads_literal string hstack
  | .sequence _, _, _, hsimple, _, _, _ => by cases hsimple
  | .var (.sequence us), stack, input, _, hcanonical, hstack, _ => by
    obtain ⟨hne, hus⟩ : us ≠ [] ∧ canonicalList us := by
      simpa [canonical, isSequence] using hcanonical
    exact reads_var hstack (depthList_pos hne)
      (reads_values us hne hus (by simp [top, valueStates]) (by simp [LalrParser.next, rslParser, RslToken.kind]))
  | .var (.literal _), _, _, _, hcanonical, _, _ => by simp [canonical, isSequence] at hcanonical
  | .var (.var _), _, _, _, hcanonical, _, _ => by simp [canonical, isSequence] at hcanonical
  | .var (.concatenation _ _), _, _, _, hcanonical, _, _ => by
    simp [canonical, isSequence] at hcanonical
  | .concatenation l r, stack, input, _, hcanonical, hstack, hinput => by
    have hinput : rslParser.next input ≠ 13 := hinput.resolve_left (by simp [isLeaf])
    obtain ⟨⟨hleaf, hl⟩, hsimple, hr⟩ : (l.isLeaf ∧ l.canonical) ∧ r.isSimple ∧ r.canonical := by
      simpa [canonical] using hcanonical
    have hlsimple : l.isSimple := by cases l <;> first | rfl | cases hleaf
    exact reads_concatenation hstack r.depth_pos hinput (reads_simple l hlsimple hl hstack (.inl hleaf))
      (reads_simple r hsimple hr (by simp [top, simpleStates]) (.inr hinput))

/-- A list of values is read in front of something that is no value and no operator. -/
theorem reads_values : ∀ (us : List RslValue) {stack : List (Nat × RslSem)} {input : List RslToken}, us ≠ [] →
    canonicalList us → top stack ∈ valueStates → rslParser.next input ∉ [3, 13, 14, 16] →
    Reads stack (tokensList us) input (depthList us) (listGoto (top stack)) (.valueList us)
  | [], _, _, hne, _, _, _ => absurd rfl hne
  | u :: us, stack, input, _, hcanonical, hstack, hinput => by
    obtain ⟨hu, hus⟩ : u.canonical ∧ canonicalList us := by simpa [canonicalList] using hcanonical
    have hvalue : ∀ {input : List RslToken}, rslParser.next input ≠ 13 →
        Reads stack u.tokens input u.depth 25 (.value u) := by
      intro input hinput
      have hsub : top stack ∈ simpleStates := mem_cons_of_mem _ hstack
      have hgoto : ∀ q ∈ valueStates, simpleGoto q = 26 := by decide
      have hsimple : u.isSimple → Reads stack u.tokens input u.depth 25 (.value u) := by
        intro hs
        have h := reads_simple u hs hu hsub (.inr hinput)
        rw [hgoto _ hstack] at h
        exact h.value hstack hinput u.depth_pos
      cases u with
      | sequence ws =>
        obtain ⟨hne, hws⟩ : ws ≠ [] ∧ canonicalList ws := by simpa [canonical] using hu
        exact reads_sequence hstack (depthList_pos hne)
          (reads_values ws hne hws (by simp [top, valueStates])
            (by simp [LalrParser.next, rslParser, RslToken.kind]))
      | literal _ => exact hsimple rfl
      | var _ => exact hsimple rfl
      | concatenation _ _ => exact hsimple rfl
    cases us with
    | nil =>
      have hdepth : depthList [u] = u.depth := by
        have := u.depth_pos
        simp only [depthList]
        omega
      rw [hdepth]
      exact reads_last hstack hinput u.depth_pos (hvalue fun h => hinput (by simp [h]))
    | cons w ws =>
      have hnext : rslParser.next (tokensList (w :: ws) ++ input) ≠ 13 := by
        rw [tokensList, append_assoc]
        have := next_value w (tokensList ws ++ input)
        intro h
        rw [h] at this
        exact absurd this (by decide)
      exact reads_cons hstack (depthList_pos (by simp)) (hvalue hnext)
        (reads_values (w :: ws) (by simp) hus (by simp [top, valueStates]) hinput)

end

/-- The states in which a specification may begin. -/
def specStates : List Nat := [0, 11]

/-- The state behind a specification. -/
def specGoto (q : Nat) : Nat := if q = 11 then 20 else 6

/-- The states in which a list of specifications may begin. -/
def specListStates : List Nat := [7, 29]

/-- The state behind a list of specifications. -/
def specListGoto (q : Nat) : Nat := if q = 29 then 34 else 12

theorem reads_relOp (op : RslRelOp) {attr : List Char} :
    Reads ((9, .string attr) :: stack) [op.token] input 1 19 (.relOp op) := by
  cases op with
  | eq => exact (reads_token (s := 13) .opEq rfl).unit 11 (by decide) rfl rfl rfl rfl
  | neq => exact (reads_token (s := 14) .opNeq rfl).unit 12 (by decide) rfl rfl rfl rfl
  | gt => exact (reads_token (s := 17) .opGt rfl).unit 13 (by decide) rfl rfl rfl rfl
  | gteq => exact (reads_token (s := 18) .opGteq rfl).unit 14 (by decide) rfl rfl rfl rfl
  | lt => exact (reads_token (s := 15) .opLt rfl).unit 15 (by decide) rfl rfl rfl rfl
  | lteq => exact (reads_token (s := 16) .opLteq rfl).unit 16 (by decide) rfl rfl rfl rfl

theorem reads_boolOp (op : RslBoolOp) (hstack : top stack ∈ specStates) :
    Reads stack [op.token] input 1 7 (.boolOp op) := by
  have hgoto : ∀ q ∈ specStates, rslTables.goto 20 q = 7 := by decide
  have hshift : ∀ q ∈ specStates, rslTables.action q 4 = .shift 2 ∧ rslTables.action q 5 = .shift 3 ∧
      rslTables.action q 6 = .shift 4 := by decide
  obtain ⟨hand, hor, hmulti⟩ := hshift _ hstack
  cases op with
  | and => exact (reads_token .opAnd hand).unit 6 (by decide) rfl rfl rfl (hgoto _ hstack)
  | or => exact (reads_token .opOr hor).unit 7 (by decide) rfl rfl rfl (hgoto _ hstack)
  | multireq => exact (reads_token .opMultireq hmulti).unit 5 (by decide) rfl rfl rfl (hgoto _ hstack)

theorem reads_relation (op : RslRelOp) (attr : List Char) {us : List RslValue}
    (hstack : top stack ∈ specStates) (hne : us ≠ []) (hus : canonicalList us)
    (hinput : rslParser.next input ∈ [0, 15]) :
    Reads stack (Rsl.tokens (.relation op attr (.sequence us))) input (Rsl.depth (.relation op attr (.sequence us)))
      (specGoto (top stack)) (.rsl (.relation op attr (.sequence us))) := by
  have hshift : ∀ q ∈ specStates, rslTables.action q 3 = .shift 1 := by decide
  have hgoto : ∀ q ∈ specStates, rslTables.goto 29 q = 9 ∧ rslTables.goto 22 q = 8 ∧
      rslTables.goto 19 q = specGoto q := by decide
  obtain ⟨hstring, hrequest, hspec⟩ := hgoto _ hstack
  have hnext : ∀ t ∈ [0, 15], t ∉ [3, 13, 14, 16] := by decide
  have hattr : Reads stack [.string attr] (op.token :: (tokensList us ++ input)) 1 9 (.string attr) :=
    (reads_token (.string attr) (hshift _ hstack)).unit 26 (by decide) rfl rfl rfl hstring
  have hop : Reads ((9, .string attr) :: stack) [op.token] (tokensList us ++ input) 1 19 (.relOp op) :=
    reads_relOp op
  have hlist : Reads ((19, .relOp op) :: (9, .string attr) :: stack) (tokensList us) input
      (depthList us) 24 (.valueList us) :=
    reads_values us hne hus (by simp [top, valueStates]) (hnext _ hinput)
  have hseq : Reads ((19, .relOp op) :: (9, .string attr) :: stack) (tokensList us) input
      (depthList us) 23 (.value (.sequence us)) :=
    hlist.unit 17 (depthList_pos hne) rfl rfl rfl rfl
  have hrule : Leads rslParser ⟨[(23, .value (.sequence us)), (19, .relOp op), (9, .string attr)] ++ stack, input⟩ _
      ⟨(8, .rsl (.relation op attr (.sequence us))) :: stack, input⟩ :=
    leads_rule 10 _ rfl rfl rfl hrequest
  have hread : Reads stack (Rsl.tokens (.relation op attr (.sequence us))) input
      (Rsl.depth (.relation op attr (.sequence us))) 8 (.rsl (.relation op attr (.sequence us))) := by
    refine (((trans hattr hop).trans hseq).trans hrule).congr ?_
    simp only [Room, Rsl.depth, sequenceGetValueList, length_cons]
    omega
  refine hread.unit 4 ?_ rfl rfl rfl hspec
  rw [Rsl.depth]
  omega

theorem leads_operand {t : Rsl} (hstack : top stack ∈ specListStates)
    (ht : Reads ((11, .none) :: stack) t.tokens (.rparen :: input) t.depth 20 (.rsl t)) :
    Leads rslParser ⟨stack, .lparen :: t.tokens ++ .rparen :: input⟩ (Room stack (max (1 + t.depth) 3))
      ⟨(29, .none) :: (20, .rsl t) :: (11, .none) :: stack, input⟩ := by
  have hopen : ∀ q ∈ specListStates, rslTables.action q 14 = .shift 11 := by decide
  have hl : Reads stack [.lparen] (t.tokens ++ .rparen :: input) 1 11 .none := reads_token .lparen (hopen _ hstack)
  have hr : Reads ((20, .rsl t) :: (11, .none) :: stack) [.rparen] input 1 29 .none := reads_token .rparen rfl
  refine ((trans hl ht).trans hr).congr ?_
  simp only [Room, length_cons]
  omega

theorem Rsl.depth_pos (t : Rsl) : 1 ≤ t.depth := by
  cases t <;> rw [depth] <;> omega

mutual

/-- A specification is read in front of a closing parenthesis, or at the end of the input. -/
theorem reads_rsl : ∀ (t : Rsl) {stack : List (Nat × RslSem)} {input : List RslToken}, t.canonical →
    top stack ∈ specStates → rslParser.next input ∈ [0, 15] →
    Reads stack t.tokens input t.depth (specGoto (top stack)) (.rsl t)
  | .relation op attr seq, stack, input, hcanonical, hstack, hinput => by
    obtain ⟨hseq, hseq'⟩ : seq.isSequence ∧ seq.canonical := by simpa [Rsl.canonical] using hcanonical
    cases seq with
    | sequence us =>
      obtain ⟨hne, hus⟩ : us ≠ [] ∧ canonicalList us := by simpa [canonical] using hseq'
      exact reads_relation op attr hstack hne hus hinput
    | literal _ => cases hseq
    | var _ => cases hseq
    | concatenation _ _ => cases hseq
  | .boolean op ts, stack, input, hcanonical, hstack, hinput => by
    obtain ⟨hne, hts⟩ : ts ≠ [] ∧ Rsl.canonicalList ts := by simpa [Rsl.canonical] using hcanonical
    have hspec : ∀ q ∈ specStates, rslTables.goto 19 q = specGoto q := by decide
    have hop : Reads stack [op.token] (Rsl.tokensList ts ++ input) 1 7 (.boolOp op) := reads_boolOp op hstack
    have hlist : Reads ((7, .boolOp op) :: stack) (Rsl.tokensList ts) input (Rsl.depthList ts) 12 (.rslList ts) :=
      reads_rslList ts hne hts (by simp [top, specListStates]) hinput
    have hrule : Leads rslParser ⟨[(12, .rslList ts), (7, .boolOp op)] ++ stack, input⟩ _
        ⟨(specGoto (top stack), .rsl (.boolean op ts)) :: stack, input⟩ :=
      leads_rule 3 _ rfl rfl rfl (hspec _ hstack)
    refine ((trans hop hlist).trans hrule).congr ?_
    simp only [Room, Rsl.depth, length_cons]
    omega

theorem reads_rslList : ∀ (ts : List Rsl) {stack : List (Nat × RslSem)} {input : List RslToken}, ts ≠ [] →
    Rsl.canonicalList ts → top stack ∈ specListStates → rslParser.next input ∈ [0, 15] →
    Reads stack (Rsl.tokensList ts) input (Rsl.depthList ts) (specListGoto (top stack)) (.rslList ts)
  | [], _, _, hne, _, _, _ => absurd rfl hne
  | t :: ts, stack, input, _, hcanonical, hstack, hinput => by
    obtain ⟨ht, hts⟩ : t.canonical ∧ Rsl.canonicalList ts := by simpa [Rsl.canonicalList] using hcanonical
    have hgoto : ∀ q ∈ specListStates, rslTables.goto 21 q = specListGoto q := by decide
    have hoperand : ∀ input : List RslToken, Leads rslParser ⟨stack, .lparen :: t.tokens ++ .rparen :: input⟩
        (Room stack (max (1 + t.depth) 3)) ⟨(29, .none) :: (20, .rsl t) :: (11, .none) :: stack, input⟩ := fun input =>
      leads_operand hstack (reads_rsl t ht (by simp [top, specStates])
        (by simp [LalrParser.next, rslParser, RslToken.kind]))
    cases ts with
    | nil =>
      have hreduce : ∀ n ∈ [0, 15], rslTables.action 29 n = .reduce 9 := by decide
      have hrule : Leads rslParser ⟨[(29, .none), (20, .rsl t), (11, .none)] ++ stack, input⟩ _
          ⟨(specListGoto (top stack), .rslList [t]) :: stack, input⟩ :=
        leads_rule 9 _ (hreduce _ hinput) rfl rfl (hgoto _ hstack)
      have htext : Rsl.tokensList [t] ++ input = .lparen :: t.tokens ++ .rparen :: input := by simp [Rsl.tokensList]
      unfold Reads
      rw [htext]
      refine (trans (hoperand input) hrule).congr ?_
      simp only [Room, Rsl.depthList]
      omega
    | cons u us =>
      have hlist : Reads ((29, .none) :: (20, .rsl t) :: (11, .none) :: stack) (Rsl.tokensList (u :: us)) input
          (Rsl.depthList (u :: us)) 34 (.rslList (u :: us)) :=
        reads_rslList (u :: us) (by simp) hts (by simp [top, specListStates]) hinput
      have hrule : Leads rslParser ⟨[(34, .rslList (u :: us)), (29, .none), (20, .rsl t), (11, .none)] ++ stack, input⟩ _
          ⟨(specListGoto (top stack), .rslList (t :: u :: us)) :: stack, input⟩ :=
        leads_rule 8 _ rfl rfl rfl (hgoto _ hstack)
      have htext : Rsl.tokensList (t :: u :: us) ++ input =
          .lparen :: t.tokens ++ .rparen :: (Rsl.tokensList (u :: us) ++ input) := by
        rw [Rsl.tokensList]
        simp
      unfold Reads
      rw [htext]
      refine ((trans (hoperand _) hlist).trans hrule).congr ?_
      have hdepth : Rsl.depthList (t :: u :: us) = max (max (1 + t.depth) 3) (3 + Rsl.depthList (u :: us)) := rfl
      simp only [Room, length_cons, hdepth]
      omega

end

/-- The parser makes a tree of the tokens of the tree if its stack has room, and fails otherwise. -/
theorem parse_tokens (t : Rsl) (h : t.canonical) :
    (1 + t.depth < rslMaxDepth → ∃ n, ∀ fuel, rslParser.parse (fuel + n) t.tokens = some (some (.rsl t))) ∧
    (¬ 1 + t.depth < rslMaxDepth → ∃ n, ∀ fuel, rslParser.parse (fuel + n) t.tokens = some none) := by
  have hspec : Reads [] t.tokens [] t.depth 6 (.rsl t) := reads_rsl t h (by decide) (by decide)
  have hstart : Reads [] t.tokens [] t.depth 5 (.rsl t) := hspec.unit 2 t.depth_pos rfl rfl rfl rfl
  have hroom : Room [] t.depth ↔ 1 + t.depth < rslMaxDepth := by simp [Room]
  have hparse := parse_eq hstart (show rslParser.step ⟨[(5, .rsl t)], []⟩ = some (.inr (some (.rsl t))) from rfl)
  rw [append_nil, hroom] at hparse
  exact hparse

end Parse

/-! ## What the parser accepts -/

variable {ts : List RslToken}

end Globus
