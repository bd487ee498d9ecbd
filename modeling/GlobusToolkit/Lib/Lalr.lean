/-
Parsers driven by the packed tables of Bison. The stack holds states with their semantic values; a step shifts a token,
reduces by a rule, accepts or fails, and a push fails when the stack has reached its greatest depth.

`Leads` is for showing what the parser does with the tokens of a given tree, the failure for want of stack included.
`LalrSound.exists_path` is for showing that what it accepts is a sentence of the grammar.
-/
import GlobusToolkit.Lib.Loop

namespace Lib

open List

/-- The tables, under their names without the prefix `yy`. -/
structure Lalr where
  final : Nat
  ntokens : Nat
  last : Int
  pactNinf : Int
  tableNinf : Int
  pact : List Int
  table : List Int
  check : List Int
  defact : List Nat
  pgoto : List Int
  defgoto : List Int
  r1 : List Nat
  r2 : List Nat

/-- What to do in a state. -/
inductive LalrAction where
  | shift (state : Nat)
  | reduce (rule : Nat)
  | accept
  | error
  deriving DecidableEq, Repr

namespace Lalr

/-- The entry of a table that is packed over others, if the check shows that it belongs to `owner`. -/
def entry (M : Lalr) (index owner : Int) : Option Int :=
  if index < 0 ∨ M.last < index ∨ M.check.getD index.toNat 0 ≠ owner then none else some (M.table.getD index.toNat 0)

/-- The default action of a state. -/
def defaultAction (M : Lalr) (state : Nat) : LalrAction :=
  if M.defact.getD state 0 = 0 then .error else .reduce (M.defact.getD state 0)

/-- The action of a state on a token. Some states have the same action on all tokens. -/
def action (M : Lalr) (state token : Nat) : LalrAction :=
  if M.pact.getD state 0 = M.pactNinf then M.defaultAction state
  else
    match M.entry (M.pact.getD state 0 + token) token with
    | none => M.defaultAction state
    | some n =>
      if n ≤ 0 then if n = 0 ∨ n = M.tableNinf then .error else .reduce (-n).toNat
      else if n = M.final then .accept
      else .shift n.toNat

/-- The state behind a nonterminal. -/
def goto (M : Lalr) (lhs state : Nat) : Nat :=
  match M.entry (M.pgoto.getD (lhs - M.ntokens) 0 + state) state with
  | none => (M.defgoto.getD (lhs - M.ntokens) 0).toNat
  | some n => n.toNat

end Lalr

/-- A grammar with semantic values: the number and the value of a token, the actions of the rules, and the greatest depth
of the stack. -/
structure LalrParser (τ σ : Type) where
  tables : Lalr
  kind : τ → Nat
  value : τ → σ
  act : Nat → List σ → Option σ
  maxDepth : Nat

/-- The stack above the initial state, with its top in front, and the tokens that have not been shifted. -/
structure LalrConfig (τ σ : Type) where
  stack : List (Nat × σ)
  input : List τ

namespace LalrParser

variable {τ σ : Type} (P : LalrParser τ σ)

/-- The state on top of the stack. -/
def top (stack : List (Nat × σ)) : Nat := (stack.head?.map Prod.fst).getD 0

/-- The number of the next token. Zero is the end of the input. -/
def next (input : List τ) : Nat := (input.head?.map P.kind).getD 0

/-- Push a state, if the stack has room for it. -/
def push (entry : Nat × σ) (stack : List (Nat × σ)) (input : List τ) : LalrConfig τ σ ⊕ Option σ :=
  if stack.length + 2 < P.maxDepth then .inl ⟨entry :: stack, input⟩ else .inr none

/-- The result of a parser that is done is the value on top of its stack, or an error. A rule that does not apply to its
values faults. -/
def step (c : LalrConfig τ σ) : Option (LalrConfig τ σ ⊕ Option σ) :=
  match P.tables.action (top c.stack) (P.next c.input) with
  | .shift s =>
    match c.input with
    | [] => none
    | t :: rest => some (P.push (s, P.value t) c.stack rest)
  | .reduce r =>
    let n := P.tables.r2.getD r 0
    match P.act r ((c.stack.take n).map Prod.snd).reverse with
    | none => none
    | some v =>
      let stack := c.stack.drop n
      some (P.push (P.tables.goto (P.tables.r1.getD r 0) (top stack), v) stack c.input)
  | .accept => some (.inr (c.stack.head?.map Prod.snd))
  | .error => some (.inr none)

/-- The value of an input, or an error. -/
def parse (fuel : Nat) (input : List τ) : Option (Option σ) := loop P.step fuel ⟨[], input⟩

end LalrParser

open LalrParser (parse push step top)

/-! ## Following a run -/

section Leads

variable {τ σ : Type} {P : LalrParser τ σ} {c c' c'' : LalrConfig τ σ} {p q : Prop}

/-- The parser comes from `c` to `c'` if `p` holds, and fails otherwise. -/
def Leads (P : LalrParser τ σ) (c : LalrConfig τ σ) (p : Prop) (c' : LalrConfig τ σ) : Prop :=
  (p → ∃ n, ∀ fuel, loop P.step (fuel + n) c = loop P.step fuel c') ∧
  (¬ p → ∃ n, ∀ fuel, loop P.step (fuel + n) c = some none)

theorem Leads.trans (h : Leads P c p c') (h' : Leads P c' q c'') : Leads P c (p ∧ q) c'' := by
  by_cases hp : p
  · obtain ⟨n, hn⟩ := h.1 hp
    refine ⟨fun hpq => ?_, fun hpq => ?_⟩
    · obtain ⟨m, hm⟩ := h'.1 hpq.2
      exact ⟨m + n, fun fuel => by rw [← Nat.add_assoc, hn, hm]⟩
    · obtain ⟨m, hm⟩ := h'.2 fun hq => hpq ⟨hp, hq⟩
      exact ⟨m + n, fun fuel => by rw [← Nat.add_assoc, hn, hm]⟩
  · exact ⟨fun hpq => absurd hpq.1 hp, fun _ => h.2 hp⟩

theorem Leads.congr (h : Leads P c p c') (hpq : p ↔ q) : Leads P c q c' := by rwa [propext hpq] at h

variable {input : List τ}

theorem leads_push {entry : Nat × σ} {stack : List (Nat × σ)}
    (h : P.step c = some (P.push entry stack input)) :
    Leads P c (stack.length + 2 < P.maxDepth) ⟨entry :: stack, input⟩ := by
  refine ⟨fun hp => ⟨1, fun fuel => ?_⟩, fun hp => ⟨1, fun fuel => ?_⟩⟩
  · rw [push, if_pos hp] at h
    exact loop_next h
  · rw [push, if_neg hp] at h
    exact loop_done h

theorem leads_shift {stack : List (Nat × σ)} {t : τ} {rest : List τ} {s : Nat}
    (h : P.tables.action (top stack) (P.kind t) = .shift s) :
    Leads P ⟨stack, t :: rest⟩ (stack.length + 2 < P.maxDepth) ⟨(s, P.value t) :: stack, rest⟩ := by
  refine leads_push ?_
  have hnext : P.next (t :: rest) = P.kind t := rfl
  simp only [step, hnext, h]

theorem leads_reduce {frames stack : List (Nat × σ)} {r : Nat} {v : σ}
    (h : P.tables.action (top (frames ++ stack)) (P.next input) = .reduce r)
    (hlength : P.tables.r2.getD r 0 = frames.length) (hact : P.act r (frames.map Prod.snd).reverse = some v) :
    Leads P ⟨frames ++ stack, input⟩ (stack.length + 2 < P.maxDepth)
      ⟨(P.tables.goto (P.tables.r1.getD r 0) (top stack), v) :: stack, input⟩ := by
  refine leads_push ?_
  simp only [step, h, hlength, take_left, drop_left, hact]

theorem Leads.parse_eq {v : σ} (h : Leads P ⟨[], input⟩ p c)
    (haccept : P.step c = some (.inr (some v))) :
    (p → ∃ n, ∀ fuel, P.parse (fuel + n) input = some (some v)) ∧
    (¬ p → ∃ n, ∀ fuel, P.parse (fuel + n) input = some none) := by
  refine ⟨fun hp => ?_, h.2⟩
  obtain ⟨n, hn⟩ := h.1 hp
  refine ⟨1 + n, fun fuel => ?_⟩
  rw [parse, ← Nat.add_assoc, hn]
  exact loop_done haccept

end Leads

/-! ## What is accepted -/

/-- Further tables that say what the states mean: the edges of the automaton, the symbol of each state, and the right-hand
sides of the rules. -/
structure LalrCert where
  edges : List (Nat × Nat)
  stos : List Nat
  rhs : List (List Nat)

namespace LalrCert

variable (C : LalrCert) (M : Lalr)

/-- The symbol of a state. -/
def symbol (s : Nat) : Nat := C.stos.getD s 0

/-- The states that a stack may have on its top. -/
def states : List Nat := 0 :: C.edges.map Prod.snd

/-- On all ways back from the state `s`, the symbols are those of the list, and `f` holds of the state behind them. -/
def pop (f : Nat → Bool) : List Nat → Nat → Bool
  | [], s => f s
  | X :: Xs, s => s ≠ 0 && C.symbol s = X && C.edges.all fun e => e.2 ≠ s || pop f Xs e.1

/-- The edge from a state for a nonterminal is one of the automaton. -/
def gotoOk (lhs s : Nat) : Bool := (s, M.goto lhs s) ∈ C.edges && C.symbol (M.goto lhs s) = lhs

/-- The action keeps a stack on the edges. -/
def actionOk (s t : Nat) : Bool :=
  match M.action s t with
  | .shift s' => (s, s') ∈ C.edges && C.symbol s' = t
  | .reduce r =>
    M.r2.getD r 0 = (C.rhs.getD r []).length && C.pop (C.gotoOk M (M.r1.getD r 0)) (C.rhs.getD r []).reverse s
  | _ => true

/-- All actions keep a stack on the edges. -/
def check : Bool := C.states.all fun s => (List.range M.ntokens).all fun t => C.actionOk M s t

end LalrCert

section Path

variable {τ σ : Type} {P : LalrParser τ σ} {C : LalrCert} {Lang : Nat → List τ → Prop}

/-- A sequence of symbols stands for a sequence of tokens. -/
def LangSeq (Lang : Nat → List τ → Prop) : List Nat → List τ → Prop
  | [], ts => ts = []
  | X :: Xs, ts => ∃ us vs, ts = us ++ vs ∧ Lang X us ∧ LangSeq Lang Xs vs

theorem LangSeq.concat {X : Nat} {us : List τ} : ∀ {Xs : List Nat} {ts : List τ}, LangSeq Lang Xs ts → Lang X us →
    LangSeq Lang (Xs ++ [X]) (ts ++ us)
  | [], ts, h, hX => by
    rw [show ts = [] from h]
    exact ⟨us, [], by simp, hX, rfl⟩
  | Y :: Xs, ts, ⟨vs, ws, heq, hY, hXs⟩, hX => ⟨vs, ws ++ us, by rw [heq, append_assoc], hY, hXs.concat hX⟩

/-- The states of a stack follow the edges of the automaton, and each stands for tokens in the language of its symbol.
The tokens of the whole stack are the last argument. -/
inductive Path (C : LalrCert) (Lang : Nat → List τ → Prop) : List (Nat × σ) → List τ → Prop where
  | nil : Path C Lang [] []
  | cons {stack : List (Nat × σ)} {ts us : List τ} {s : Nat} {v : σ} (path : Path C Lang stack ts)
    (edge : (top stack, s) ∈ C.edges) (lang : Lang (C.symbol s) us) : Path C Lang ((s, v) :: stack) (ts ++ us)

theorem Path.top_mem {stack : List (Nat × σ)} {ts : List τ} (h : Path C Lang stack ts) :
    top stack ∈ C.states := by
  cases h with
  | nil => exact mem_cons_self
  | cons path edge lang => exact mem_cons_of_mem _ (mem_map.2 ⟨_, edge, rfl⟩)

/-- What is popped for a right-hand side stands for tokens of it. -/
theorem Path.pop {f : Nat → Bool} : ∀ {Xs : List Nat} {stack : List (Nat × σ)} {ts : List τ}, Path C Lang stack ts →
    C.pop f Xs (top stack) → ∃ us vs, ts = us ++ vs ∧ Path C Lang (stack.drop Xs.length) us ∧
      LangSeq Lang Xs.reverse vs ∧ f (top (stack.drop Xs.length))
  | [], stack, ts, hpath, h => ⟨ts, [], (append_nil ts).symm, hpath, rfl, h⟩
  | X :: Xs, stack, ts, hpath, h => by
    simp only [LalrCert.pop, Bool.and_eq_true, decide_eq_true_eq, all_eq_true, Bool.or_eq_true] at h
    obtain ⟨⟨hne, rfl⟩, hall⟩ := h
    cases hpath with
    | nil => exact absurd rfl hne
    | @cons stack ts us s v path edge lang =>
      obtain ⟨vs, ws, rfl, hpath, hseq, hf⟩ := path.pop ((hall _ edge).resolve_left fun hs => hs rfl)
      refine ⟨vs, ws ++ us, by rw [append_assoc], hpath, ?_, hf⟩
      rw [reverse_cons]
      exact hseq.concat lang

/-- What has to be checked of the tables and proved of the languages of the symbols. -/
structure LalrSound (P : LalrParser τ σ) (C : LalrCert) (Lang : Nat → List τ → Prop) : Prop where
  check : C.check P.tables
  kind_lt : ∀ t, P.kind t < P.tables.ntokens
  pos : 0 < P.tables.ntokens
  token : ∀ t, Lang (P.kind t) [t]
  rule : ∀ r ts, LangSeq Lang (C.rhs.getD r []) ts → Lang (P.tables.r1.getD r 0) ts

variable {c c' : LalrConfig τ σ} {ts : List τ}

theorem LalrSound.actionOk (h : LalrSound P C Lang) (hpath : Path C Lang c.stack ts) :
    C.actionOk P.tables (top c.stack) (P.next c.input) := by
  have hnext : P.next c.input < P.tables.ntokens := by
    cases c.input with
    | nil => exact h.pos
    | cons t rest => exact h.kind_lt t
  have hcheck := h.check
  simp only [LalrCert.check, all_eq_true, mem_range] at hcheck
  exact hcheck _ hpath.top_mem _ hnext

/-- A step keeps the states on a path; it takes no token away. -/
theorem LalrSound.step (h : LalrSound P C Lang) (hpath : Path C Lang c.stack ts)
    (hstep : P.step c = some (.inl c')) : ∃ ts', Path C Lang c'.stack ts' ∧ ts' ++ c'.input = ts ++ c.input := by
  have hpush : ∀ {entry : Nat × σ} {stack input}, some (P.push entry stack input) = some (.inl c') →
      c' = ⟨entry :: stack, input⟩ := by
    intro entry stack input heq
    unfold push at heq
    split at heq <;> cases heq
    rfl
  have hok := h.actionOk hpath
  obtain ⟨stack, input⟩ := c
  simp only [step] at hstep
  split at hstep
  · next s haction =>
    cases input with
    | nil => cases hstep
    | cons t rest =>
      obtain rfl := hpush hstep
      obtain ⟨hedge, hsymbol⟩ : (top stack, s) ∈ C.edges ∧ C.symbol s = P.next (t :: rest) := by
        simpa [LalrCert.actionOk, haction] using hok
      have hlang : Lang (C.symbol s) [t] := by
        rw [hsymbol]
        exact h.token t
      exact ⟨ts ++ [t], hpath.cons hedge hlang, by simp⟩
  · next r haction =>
    split at hstep
    · cases hstep
    · obtain rfl := hpush hstep
      obtain ⟨hlength, hpop⟩ : P.tables.r2.getD r 0 = (C.rhs.getD r []).length ∧
          C.pop (C.gotoOk P.tables (P.tables.r1.getD r 0)) (C.rhs.getD r []).reverse (top stack) := by
        simpa only [LalrCert.actionOk, haction, Bool.and_eq_true, decide_eq_true_eq] using hok
      obtain ⟨us, vs, rfl, hpath', hseq, hgoto⟩ := hpath.pop hpop
      rw [length_reverse, ← hlength] at hpath' hgoto
      rw [reverse_reverse] at hseq
      obtain ⟨hedge, hsymbol⟩ : _ ∧ _ := by
        simpa only [LalrCert.gotoOk, Bool.and_eq_true, decide_eq_true_eq] using hgoto
      exact ⟨us ++ vs, hpath'.cons hedge (hsymbol.symm ▸ h.rule r vs hseq), rfl⟩
  · cases hstep
  · cases hstep

end Path

end Lib
