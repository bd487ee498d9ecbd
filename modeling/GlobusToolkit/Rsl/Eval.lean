/-
Evaluation of a specification (gram/rsl/source/globus_rsl.c: globus_rsl_eval, globus_rsl_value_eval). A boolean opens a
scope of the symbol table, a substitution relation binds names in it, and references and concatenations are replaced by
literals. The meaning of a tree is given by bindings alone: a reference stands for the first binding made so far in the
innermost boolean that has one.
-/
import GlobusToolkit.Common.SymbolTable
import GlobusToolkit.Rsl.Syntax

namespace Globus

open Lib List Option Rsl Realizes

/-! ## The functions -/

abbrev RslTable := SymbolTable (List Char) (List Char)

/-- A list of values in place of the one of a sequence. -/
def RslValue.setValueList : RslValue → List RslValue → RslValue
  | .sequence _, vs => .sequence vs
  | v, _ => v

/-- The relations that bind names. -/
def isSubstitution (attr : List Char) : Bool :=
  attr.map Char.toLower = "rsl_substitution".toList || attr.map Char.toLower = "rslsubstitution".toList

mutual

/-- `globus_rsl_value_eval`: the string, unless it is null, the node, and the table. The caller replaces the node of a
concatenation, whose operands have been freed. -/
def rslValueEval (flag : Bool) : RslValue → RslTable → Partial Unit (Option (List Char) × RslValue × RslTable)
  | .literal s, table => pure (some s, .literal s, table)
  | .sequence vs, table => if flag then rslPairEval vs table else do
    let (vs, table) ← rslValuesEval vs table
    return (none, .sequence vs, table)
  | .var seq, table =>
    if seq.variableGetSize ≠ 1 then throw ()
    else
      match seq.variableGetName with
      | none => throw ()
      | some name => do
        match ← ofOption (table.lookup name) with
        | none => throw ()
        | some value => return (some value, .var seq, table)
  | .concatenation l r, table => do
    let (left, _, table) ← rslValueEval flag l table
    let (right, _, table) ← rslValueEval flag r table
    match left, right with
    | some left, some right => return (some (left ++ right), .concatenation l r, table)
    | _, _ => throw ()

/-- A name and its value in a substitution. -/
def rslPairEval : List RslValue → RslTable → Partial Unit (Option (List Char) × RslValue × RslTable)
  | [name, value], table => do
    let (symbolName, _, table) ← rslValueEval true name table
    let (symbolValue, _, table) ← rslValueEval true value table
    match symbolName, symbolValue with
    | some symbolName, some symbolValue => do
      let table ← ofOption (table.insert symbolName symbolValue)
      return (none, .sequence [.literal symbolName, .literal symbolValue], table)
    | _, _ => throw ()
  | _, _ => throw ()

/-- The loop over the values of a sequence. The string of a value that is no sequence is not null. -/
def rslValuesEval : List RslValue → RslTable → Partial Unit (List RslValue × RslTable)
  | [], table => return ([], table)
  | v :: vs, table => do
    let (string, v', table) ← rslValueEval false v table
    let (vs, table) ← rslValuesEval vs table
    return ((if v.isSequence then v' else .literal (string.getD [])) :: vs, table)

end

/-- The loop over the values of a relation. -/
def rslRelationEval (flag : Bool) : List RslValue → RslTable → Partial Unit (List RslValue × RslTable)
  | [], table => return ([], table)
  | v :: vs, table => do
    failIf (flag ∧ ¬ v.isSequence) ()
    let (string, v', table) ← rslValueEval flag v table
    let (vs, table) ← rslRelationEval flag vs table
    return (string.elim v' .literal :: vs, table)

section Eval

variable (mem : Nat → HashEntry (List Char) (List Char))

mutual

/-- `globus_rsl_eval`. -/
def rslEval : Rsl → RslTable → Partial Unit (Rsl × RslTable)
  | .boolean op ts, table => do
    let table ← ofOption (table.createScope mem)
    let (ts, table) ← rslOperandsEval ts table
    return (.boolean op ts, table.removeScope)
  | .relation op attr seq, table => do
    let flag := isRelationAttributeEqual "rsl_substitution".toList (.relation op attr seq) ||
      isRelationAttributeEqual "rslsubstitution".toList (.relation op attr seq)
    let (vs, table) ← rslRelationEval flag seq.sequenceGetValueList table
    return (.relation op attr (seq.setValueList vs), table)

/-- The loop over the operands of a boolean. -/
def rslOperandsEval : List Rsl → RslTable → Partial Unit (List Rsl × RslTable)
  | [], table => return ([], table)
  | t :: ts, table => do
    let (t, table) ← rslEval t table
    let (ts, table) ← rslOperandsEval ts table
    return (t :: ts, table)

end

end Eval

/-! ## The meaning of a tree -/

mutual

/-- The meaning of a value, given what the names stand for. -/
def RslValue.meaning (env : List Char → Option (List Char)) : RslValue → Option RslValue
  | .literal s => some (.literal s)
  | .sequence vs => (meaningList env vs).map .sequence
  | .var (.sequence [.literal name]) => (env name).map .literal
  | .var _ => none
  | .concatenation l r =>
    match l.meaning env, r.meaning env with
    | some (.literal a), some (.literal b) => some (.literal (a ++ b))
    | _, _ => none

def RslValue.meaningList (env : List Char → Option (List Char)) : List RslValue → Option (List RslValue)
  | [] => some []
  | v :: vs => do
    let v ← v.meaning env
    let vs ← meaningList env vs
    return v :: vs

end

/-- The string that a value means, if it means a string. -/
def RslValue.text (env : List Char → Option (List Char)) (v : RslValue) : Option (List Char) :=
  (v.meaning env).bind literalGetString

/-- What the names stand for outside of a boolean, and the bindings that were made in it, in this order. -/
structure RslEnv where
  keyeq : List Char → List Char → Bool
  outer : List Char → Option (List Char)
  made : List (List Char × List Char)

/-- The first binding in the boolean, or what the name stands for outside of it. -/
def RslEnv.denotes (env : RslEnv) (name : List Char) : Option (List Char) :=
  ((firstBinding env.keyeq env.made name).map Prod.snd).or (env.outer name)

def RslEnv.bind (env : RslEnv) (bindings : List (List Char × List Char)) : RslEnv :=
  { env with made := env.made ++ bindings }

/-- The environment of the operands of a boolean, at its beginning. -/
def RslEnv.enter (env : RslEnv) : RslEnv := { env with outer := env.denotes, made := [] }

/-- The binding that a value of a substitution relation makes. -/
def RslValue.binding (env : List Char → Option (List Char)) : RslValue → Option (List Char × List Char)
  | .sequence [name, value] => do
    let n ← name.text env
    let v ← value.text env
    return (n, v)
  | _ => none

/-- The bindings of a substitution relation, each made before the next value is looked at. -/
def RslValue.bindings (env : RslEnv) : List RslValue → Option (List (List Char × List Char))
  | [] => some []
  | v :: vs => do
    let b ← v.binding env.denotes
    let bs ← bindings (env.bind [b]) vs
    return b :: bs

/-- A binding as a value. -/
def bindingValue (b : List Char × List Char) : RslValue := .sequence [.literal b.1, .literal b.2]

mutual

/-- The meaning of a tree, and the bindings that it makes in the boolean around it. -/
def Rsl.meaning (env : RslEnv) : Rsl → Option (Rsl × List (List Char × List Char))
  | .boolean op ts => (meaningList env.enter ts).map fun ts => (.boolean op ts, [])
  | .relation op attr seq =>
    if isSubstitution attr then
      (RslValue.bindings env seq.sequenceGetValueList).map fun bs =>
        (.relation op attr (seq.setValueList (bs.map bindingValue)), bs)
    else
      (RslValue.meaningList env.denotes seq.sequenceGetValueList).map fun vs =>
        (.relation op attr (seq.setValueList vs), [])

/-- The operands of a boolean, each in the environment that the ones before it leave. -/
def Rsl.meaningList (env : RslEnv) : List Rsl → Option (List Rsl)
  | [] => some []
  | t :: ts => do
    let (t, bs) ← t.meaning env
    let ts ← meaningList (env.bind bs) ts
    return t :: ts

end

/-! ## Values -/

section Values

variable {env : List Char → Option (List Char)} {table : RslTable}

variable {v : RslValue}

theorem RslValue.text_eq_some {s : List Char} (h : v.text env = some s) :
    v.meaning env = some (.literal s) := by
  obtain ⟨v', hv', hs⟩ := bind_eq_some_iff.1 h
  cases v' <;> cases hs
  exact hv'

theorem RslValue.meaning_concatenation (l r : RslValue) : (RslValue.concatenation l r).meaning env =
    (l.text env).bind fun a => (r.text env).map fun b => .literal (a ++ b) := by
  rw [meaning, text, text]
  rcases l.meaning env with _ | (_ | _ | _ | _) <;> rcases r.meaning env with _ | (_ | _ | _ | _) <;> rfl

theorem RslValue.meaning_var (seq : RslValue) : (RslValue.var seq).meaning env =
    if seq.variableGetSize = 1 then (seq.variableGetName.bind env).map .literal else none := by
  match seq with
  | .literal _ => rfl
  | .var _ => rfl
  | .concatenation _ _ => rfl
  | .sequence [] => rfl
  | .sequence [.literal _] => rfl
  | .sequence [.sequence _] => rfl
  | .sequence [.var _] => rfl
  | .sequence [.concatenation _ _] => rfl
  | .sequence (_ :: _ :: _) => simp [meaning, variableGetSize, sequenceGetValueList]

/-- What comes of a value: the string it means, or an error, or nothing, where the table may have got bindings. -/
inductive EvalCase (flag : Bool) (v : RslValue) (table : RslTable) : Prop where
  | string (s : List Char) (htext : v.text table.denotes = some s)
    (hrun : (rslValueEval flag v table).run = some (.ok (some s, v, table)))
  | error (htext : v.text table.denotes = none) (hrun : (rslValueEval flag v table).run = some (.error ()))
  | null (node : RslValue) (table' : RslTable) (hseq : v.isSequence) (htext : v.text table.denotes = none)
    (hwf : table'.WF) (hrun : (rslValueEval flag v table).run = some (.ok (none, node, table')))

theorem EvalCase.returns {flag : Bool} (h : EvalCase flag v table) (hwf : table.WF) :
    Returns (rslValueEval flag v table) fun r => r.2.2.WF := by
  cases h with
  | string s htext hrun => exact ⟨_, hrun, fun a ha => Except.ok.inj ha ▸ hwf⟩
  | error htext hrun => exact ⟨_, hrun, fun a ha => by cases ha⟩
  | null node table' _ htext hwf' hrun => exact ⟨_, hrun, fun a ha => Except.ok.inj ha ▸ hwf'⟩

theorem evalCase_var (flag : Bool) (seq : RslValue) (h : table.WF) : EvalCase flag (.var seq) table := by
  have htext : (RslValue.var seq).text table.denotes =
      if seq.variableGetSize = 1 then seq.variableGetName.bind table.denotes else none := by
    rw [RslValue.text, RslValue.meaning_var]
    split
    · cases seq.variableGetName.bind table.denotes <;> rfl
    · rfl
  by_cases hsize : seq.variableGetSize = 1
  · rw [if_pos hsize] at htext
    cases hname : seq.variableGetName with
    | none =>
      rw [hname] at htext
      refine .error htext ?_
      simp [rslValueEval, hsize, hname]
    | some name =>
      rw [hname, bind_some] at htext
      cases hvalue : table.denotes name with
      | none =>
        refine .error (htext.trans hvalue) ?_
        simp [rslValueEval, hsize, hname, h.lookup_eq, hvalue, ofOption_some]
      | some value =>
        refine .string value (htext.trans hvalue) ?_
        simp [rslValueEval, hsize, hname, h.lookup_eq, hvalue, ofOption_some]
  · rw [if_neg hsize] at htext
    refine .error htext ?_
    simp [rslValueEval, hsize]

/-- Two values one after the other, both of which have to be strings. -/
theorem run_strings {α : Type} {flag : Bool} {l r : RslValue} (hl : ∀ {table : RslTable}, table.WF → EvalCase flag l table)
    (hr : ∀ {table : RslTable}, table.WF → EvalCase flag r table) (h : table.WF)
    (k : List Char → List Char → RslTable → Partial Unit α) :
    (do
      let (left, _, table) ← rslValueEval flag l table
      let (right, _, table) ← rslValueEval flag r table
      match left, right with
      | some left, some right => k left right table
      | _, _ => throw () : Partial Unit α).run =
      match l.text table.denotes, r.text table.denotes with
      | some a, some b => (k a b table).run
      | _, _ => some (.error ()) := by
  cases hl h with
  | error hleft hrun =>
    rw [hleft]
    exact run_bind_error hrun
  | null node table' _ hleft hwf hrun =>
    obtain ⟨result, hresult, -⟩ := (hr hwf).returns hwf
    rw [hleft, run_bind_ok hrun]
    cases result with
    | error e => exact run_bind_error hresult
    | ok right => exact run_bind_ok hresult
  | string a hleft hrun =>
    rw [hleft, run_bind_ok hrun]
    cases hr h with
    | error hright hrun' =>
      rw [hright]
      exact run_bind_error hrun'
    | null node table' _ hright hwf hrun' =>
      rw [hright]
      exact run_bind_ok hrun'
    | string b hright hrun' =>
      rw [hright]
      exact run_bind_ok hrun'

theorem evalCase_concatenation {flag : Bool} {l r : RslValue} (hl : ∀ {table : RslTable}, table.WF → EvalCase flag l table)
    (hr : ∀ {table : RslTable}, table.WF → EvalCase flag r table) (h : table.WF) :
    EvalCase flag (.concatenation l r) table := by
  have hrun : (rslValueEval flag (.concatenation l r) table).run =
      match l.text table.denotes, r.text table.denotes with
      | some a, some b => some (.ok (some (a ++ b), .concatenation l r, table))
      | _, _ => some (.error ()) := by
    exact run_strings hl hr h fun a b table => pure (some (a ++ b), RslValue.concatenation l r, table)
  have htext : (RslValue.concatenation l r).text table.denotes =
      (l.text table.denotes).bind fun a => (r.text table.denotes).map fun b => a ++ b := by
    rw [RslValue.text, RslValue.meaning_concatenation]
    cases l.text table.denotes <;> cases r.text table.denotes <;> rfl
  cases hleft : l.text table.denotes with
  | none =>
    rw [hleft] at hrun htext
    exact .error htext hrun
  | some a =>
    rw [hleft] at hrun htext
    cases hright : r.text table.denotes with
    | none =>
      rw [hright] at hrun htext
      exact .error htext hrun
    | some b =>
      rw [hright] at hrun htext
      exact .string (a ++ b) htext hrun

/-- The table gets a binding. -/
def Binds (table : RslTable) (b : List Char × List Char) (r : Option (List Char) × RslValue × RslTable) : Prop :=
  ∃ table', table.insert b.1 b.2 = some table' ∧ table'.WF ∧ r = (none, bindingValue b, table')

theorem rslPairEval_pair {name value : RslValue} (hname : ∀ {table : RslTable}, table.WF → EvalCase true name table)
    (hvalue : ∀ {table : RslTable}, table.WF → EvalCase true value table) (h : table.WF) :
    Realizes (rslPairEval [name, value] table) (RslValue.binding table.denotes (.sequence [name, value])) (Binds table) := by
  have hrun := run_strings hname hvalue h fun n v table => do
    let table ← ofOption (table.insert n v)
    return ((none, bindingValue (n, v), table) : Option (List Char) × RslValue × RslTable)
  rw [RslValue.binding, rslPairEval]
  cases hn : name.text table.denotes with
  | none =>
    rw [hn] at hrun
    exact hrun
  | some n =>
    rw [hn] at hrun
    cases hv : value.text table.denotes with
    | none =>
      rw [hv] at hrun
      exact hrun
    | some v =>
      obtain ⟨table', hinsert, hwf⟩ := h.insert n v
      rw [hv] at hrun
      dsimp only at hrun
      rw [hinsert] at hrun
      exact ⟨_, hrun, table', hinsert, hwf, rfl⟩

theorem RslValue.meaning_eq_text (h : v.isSequence = false) :
    v.meaning env = (v.text env).map .literal := by
  cases v with
  | literal s => rfl
  | sequence vs => cases h
  | var seq =>
    rw [text, meaning_var]
    split
    · cases seq.variableGetName.bind env <;> rfl
    · rfl
  | concatenation l r =>
    rw [text, meaning_concatenation]
    cases l.text env <;> cases r.text env <;> rfl

theorem RslValue.exists_sequence (h : v.isSequence) : ∃ vs, v = .sequence vs := by
  cases v with
  | sequence vs => exact ⟨vs, rfl⟩
  | _ => cases h

theorem RslValue.text_sequence (vs : List RslValue) : (RslValue.sequence vs).text env = none := by
  rw [text, meaning]
  cases meaningList env vs <;> rfl

/-- The result where no names are bound. -/
def EvalsTo (v : RslValue) (table : RslTable) : Prop :=
  Realizes (rslValueEval false v table) (v.meaning table.denotes) fun v' r =>
    r = (v'.literalGetString, if v.isSequence then v' else v, table)

theorem EvalCase.evalsTo (h : EvalCase false v table) (hseq : v.isSequence = false) : EvalsTo v table := by
  unfold EvalsTo
  rw [RslValue.meaning_eq_text hseq, hseq]
  cases h with
  | string s htext hrun =>
    rw [htext]
    exact ⟨_, hrun, rfl⟩
  | error htext hrun =>
    rw [htext]
    exact hrun
  | null node table' hseq' _ _ _ => rw [hseq] at hseq'; cases hseq'

theorem EvalsTo.evalCase (h : EvalsTo v table) (hwf : table.WF) : EvalCase false v table := by
  unfold EvalsTo at h
  cases hseq : v.isSequence with
  | false =>
    rw [RslValue.meaning_eq_text hseq, hseq] at h
    cases htext : v.text table.denotes with
    | none =>
      rw [htext] at h
      exact .error htext h
    | some s =>
      rw [htext] at h
      obtain ⟨_, hrun, rfl⟩ := h
      exact .string s htext hrun
  | true =>
    obtain ⟨vs, rfl⟩ := RslValue.exists_sequence hseq
    have htext : (RslValue.sequence vs).text table.denotes = none := RslValue.text_sequence vs
    rw [RslValue.meaning] at h
    cases hmeaning : RslValue.meaningList table.denotes vs with
    | none =>
      rw [hmeaning] at h
      exact .error htext h
    | some vs' =>
      rw [hmeaning] at h
      obtain ⟨_, hrun, rfl⟩ := h
      exact .null (.sequence vs') table rfl htext hwf hrun

/-- The values are replaced by their meanings, and the table stays. -/
def ValuesTo (x : Partial Unit (List RslValue × RslTable)) (vs : List RslValue) (table : RslTable) : Prop :=
  Realizes x (RslValue.meaningList table.denotes vs) fun vs' r => r = (vs', table)

/-- A round of a loop over values: what follows the first value does not see another table. -/
theorem valuesTo_cons {vs : List RslValue} {rest : RslTable → Partial Unit (List RslValue × RslTable)}
    (node : Option (List Char) → RslValue → RslValue) (hvalue : EvalsTo v table) (hrest : ValuesTo (rest table) vs table)
    (hnode : ∀ v', (v.isSequence = false → ∃ s, v' = .literal s) →
      node v'.literalGetString (if v.isSequence then v' else v) = v') :
    ValuesTo (do
      let (string, v', table) ← rslValueEval false v table
      let (vs, table) ← rest table
      return (node string v' :: vs, table)) (v :: vs) table := by
  unfold ValuesTo
  rw [RslValue.meaningList]
  refine bind hvalue ?_
  rintro v' _ hmeaning rfl
  have hliteral : v.isSequence = false → ∃ s, v' = .literal s := fun hseq => by
    rw [RslValue.meaning_eq_text hseq] at hmeaning
    obtain ⟨s, -, hs⟩ := map_eq_some_iff.1 hmeaning
    exact ⟨s, hs.symm⟩
  refine bind hrest ?_
  rintro vs' _ - rfl
  exact .pure (by rw [hnode v' hliteral])

mutual

theorem evalsTo : ∀ (v : RslValue) {table : RslTable}, table.WF → EvalsTo v table
  | .literal s, table, _ => by
    unfold EvalsTo
    rw [rslValueEval]
    exact .pure rfl
  | .var seq, table, h => (evalCase_var false seq h).evalsTo rfl
  | .concatenation l r, table, h =>
    (evalCase_concatenation (fun h => (evalsTo l h).evalCase h) (fun h => (evalsTo r h).evalCase h) h).evalsTo rfl
  | .sequence vs, table, h => by
    unfold EvalsTo
    rw [rslValueEval, if_neg (by decide), RslValue.meaning]
    refine (rslValuesEval_valuesTo vs h).map ?_
    rintro vs' _ rfl
    rfl

theorem rslValuesEval_valuesTo : ∀ (vs : List RslValue) {table : RslTable}, table.WF →
    ValuesTo (rslValuesEval vs table) vs table
  | [], table, _ => by
    rw [rslValuesEval]
    exact .pure rfl
  | v :: vs, table, h => by
    rw [rslValuesEval]
    refine valuesTo_cons (fun string v' => if v.isSequence then v' else .literal (string.getD [])) (evalsTo v h)
      (rslValuesEval_valuesTo vs h) fun v' hliteral => ?_
    cases hseq : v.isSequence with
    | true => rfl
    | false =>
      obtain ⟨s, rfl⟩ := hliteral hseq
      rfl

end

mutual

theorem evalCase_true : ∀ (v : RslValue) {table : RslTable}, table.WF → EvalCase true v table
  | .literal s, table, _ => .string s rfl (by rw [rslValueEval]; rfl)
  | .var seq, table, h => evalCase_var true seq h
  | .concatenation l r, table, h => evalCase_concatenation (fun h => evalCase_true l h) (fun h => evalCase_true r h) h
  | .sequence vs, table, h => by
    have hpair := rslValueEval_pair vs h
    unfold Realizes at hpair
    split at hpair
    · obtain ⟨_, hrun, table', -, hwf, rfl⟩ := hpair
      exact .null _ table' rfl (RslValue.text_sequence vs) hwf hrun
    · exact .error (RslValue.text_sequence vs) hpair

theorem rslValueEval_pair : ∀ (vs : List RslValue) {table : RslTable}, table.WF →
    Realizes (rslValueEval true (.sequence vs) table) (RslValue.binding table.denotes (.sequence vs)) (Binds table)
  | [name, value], _, h => by
    rw [rslValueEval, if_pos rfl]
    exact rslPairEval_pair (fun h => evalCase_true name h) (fun h => evalCase_true value h) h
  | [], _, _ => rfl
  | [_], _, _ => rfl
  | _ :: _ :: _ :: _, _, _ => rfl

end

end Values

/-! ## Relations and booleans -/

section Trees

variable {mem : Nat → HashEntry (List Char) (List Char)} {outer table : RslTable}
  {made : List (List Char × List Char)}

/-- The environment in a scope. -/
def scopeEnv (outer : RslTable) (made : List (List Char × List Char)) : RslEnv := ⟨outer.keyeqFunc, outer.denotes, made⟩

theorem scopeEnv_denotes (h : outer.Scoped made table) (houter : outer.WF) :
    (scopeEnv outer made).denotes = table.denotes :=
  funext fun name => (h.denotes houter name).symm

theorem scopeEnv_enter (h : outer.Scoped made table) (houter : outer.WF) :
    (scopeEnv outer made).enter = scopeEnv table [] := by
  rw [RslEnv.enter, scopeEnv_denotes h houter, scopeEnv, scopeEnv, h.keyeqFunc]

theorem flag_eq (op : RslRelOp) (attr : List Char) (seq : RslValue) :
    (isRelationAttributeEqual "rsl_substitution".toList (.relation op attr seq) ||
      isRelationAttributeEqual "rslsubstitution".toList (.relation op attr seq)) = isSubstitution attr := by
  have hlower : "rsl_substitution".toList.map Char.toLower = "rsl_substitution".toList := by decide
  have hlower' : "rslsubstitution".toList.map Char.toLower = "rslsubstitution".toList := by decide
  rw [isRelationAttributeEqual, isRelationAttributeEqual, hlower, hlower', isSubstitution]

theorem rslRelationEval_false (h : table.WF) : ∀ vs : List RslValue, ValuesTo (rslRelationEval false vs table) vs table
  | [] => .pure rfl
  | v :: vs => by
    refine valuesTo_cons (fun string v' => string.elim v' .literal) (evalsTo v h) (rslRelationEval_false h vs)
      fun v' hliteral => ?_
    cases hseq : v.isSequence with
    | true => cases v' <;> rfl
    | false =>
      obtain ⟨s, rfl⟩ := hliteral hseq
      rfl

theorem rslRelationEval_true (houter : outer.WF) : ∀ (vs : List RslValue) {made : List (List Char × List Char)}
    {table : RslTable}, outer.Scoped made table →
    Realizes (rslRelationEval true vs table) (RslValue.bindings (scopeEnv outer made) vs) fun bs r =>
      r.1 = bs.map bindingValue ∧ outer.Scoped (made ++ bs) r.2
  | [], made, table, h => .pure ⟨rfl, by rwa [append_nil]⟩
  | v :: vs, made, table, h => by
    rw [RslValue.bindings, rslRelationEval, scopeEnv_denotes h houter]
    by_cases hseq : v.isSequence
    · obtain ⟨us, rfl⟩ := RslValue.exists_sequence hseq
      rw [failIf_of_not (by simp [hseq]), pure_bind]
      refine bind (rslValueEval_pair us (h.wf houter)) ?_
      rintro b _ - ⟨table', hinsert, -, rfl⟩
      obtain ⟨table'', hinsert', hscoped⟩ := h.insert houter b.1 b.2
      obtain rfl : table' = table'' := Option.some.inj (hinsert.symm.trans hinsert')
      refine bind (rslRelationEval_true houter vs hscoped) ?_
      rintro bs ⟨values, last⟩ - ⟨rfl, hlast⟩
      rw [append_assoc] at hlast
      exact .pure ⟨rfl, hlast⟩
    · have hbinding : v.binding table.denotes = none := by
        cases v with
        | sequence us => exact absurd rfl hseq
        | _ => rfl
      rw [hbinding]
      refine run_bind_error ?_
      rw [failIf, if_pos (by simp [hseq])]
      rfl

/-- What comes of a tree in a scope. -/
def EvalsIn (mem : Nat → HashEntry (List Char) (List Char)) (outer : RslTable) (made : List (List Char × List Char))
    (t : Rsl) (table : RslTable) : Prop :=
  Realizes (rslEval mem t table) (t.meaning (scopeEnv outer made)) fun m r =>
    r.1 = m.1 ∧ outer.Scoped (made ++ m.2) r.2

/-- What comes of the operands of a boolean. -/
def OperandsIn (mem : Nat → HashEntry (List Char) (List Char)) (outer : RslTable) (made : List (List Char × List Char))
    (ts : List Rsl) (table : RslTable) : Prop :=
  Realizes (rslOperandsEval mem ts table) (Rsl.meaningList (scopeEnv outer made) ts) fun ts' r =>
    r.1 = ts' ∧ ∃ made', outer.Scoped made' r.2

theorem evalsIn_relation (houter : outer.WF) (h : outer.Scoped made table) (op : RslRelOp) (attr : List Char)
    (seq : RslValue) : EvalsIn mem outer made (.relation op attr seq) table := by
  unfold EvalsIn
  rw [Rsl.meaning, rslEval, flag_eq]
  cases hattr : isSubstitution attr with
  | true =>
    rw [if_pos rfl]
    refine (rslRelationEval_true houter seq.sequenceGetValueList h).map ?_
    rintro bs ⟨values, table'⟩ ⟨rfl, hscoped⟩
    exact ⟨rfl, hscoped⟩
  | false =>
    rw [if_neg (by decide), scopeEnv_denotes h houter]
    refine (rslRelationEval_false (h.wf houter) seq.sequenceGetValueList).map ?_
    rintro vs _ rfl
    exact ⟨rfl, by rwa [append_nil]⟩

/-- A boolean evaluates its operands in a scope of its own, and leaves the table as it was. -/
theorem rslEval_boolean (op : RslBoolOp) {ts : List Rsl}
    (hts : ∀ {inner : RslTable}, table.Scoped [] inner → OperandsIn mem table [] ts inner) :
    Realizes (rslEval mem (.boolean op ts) table)
      ((Rsl.meaningList (scopeEnv table []) ts).map fun ts => (boolean op ts, ([] : List (List Char × List Char))))
      fun m r => r = (m.1, table) := by
  obtain ⟨inner, hcreate, hscoped⟩ := table.createScope_scoped mem
  rw [rslEval, hcreate, ofOption_some, pure_bind]
  refine (hts hscoped).map ?_
  rintro ts' ⟨_, inner'⟩ ⟨rfl, made', hscoped'⟩
  exact congrArg (Prod.mk _) hscoped'.removeScope

mutual

theorem evalsIn (mem : Nat → HashEntry (List Char) (List Char)) : ∀ (t : Rsl) {outer table : RslTable}
    {made : List (List Char × List Char)}, outer.WF → outer.Scoped made table → EvalsIn mem outer made t table
  | .relation op attr seq, outer, table, made, houter, h => evalsIn_relation houter h op attr seq
  | .boolean op ts, outer, table, made, houter, h => by
    have hboolean := rslEval_boolean op fun hinner => evalsIn_operands mem ts (h.wf houter) hinner
    unfold EvalsIn
    rw [Rsl.meaning, scopeEnv_enter h houter]
    cases hlist : Rsl.meaningList (scopeEnv table []) ts with
    | none =>
      rw [hlist] at hboolean
      exact hboolean
    | some ts' =>
      rw [hlist] at hboolean
      obtain ⟨_, hrun, rfl⟩ := hboolean
      exact ⟨_, hrun, rfl, by rwa [append_nil]⟩

theorem evalsIn_operands (mem : Nat → HashEntry (List Char) (List Char)) : ∀ (ts : List Rsl) {outer table : RslTable}
    {made : List (List Char × List Char)}, outer.WF → outer.Scoped made table → OperandsIn mem outer made ts table
  | [], outer, table, made, houter, h => by
    unfold OperandsIn
    rw [rslOperandsEval]
    exact .pure ⟨rfl, made, h⟩
  | t :: ts, outer, table, made, houter, h => by
    unfold OperandsIn
    rw [Rsl.meaningList, rslOperandsEval]
    refine bind (evalsIn mem t houter h) ?_
    rintro ⟨t', bs⟩ ⟨_, table'⟩ - ⟨rfl, hscoped⟩
    refine bind (evalsIn_operands mem ts houter hscoped) ?_
    rintro ts' ⟨_, last⟩ - ⟨rfl, hlast⟩
    exact .pure ⟨rfl, hlast⟩

end

end Trees

/-! ## The result -/

mutual

/-- A value with an empty literal for everything that is no sequence. -/
def RslValue.skeleton : RslValue → RslValue
  | .sequence vs => .sequence (skeletonList vs)
  | _ => .literal []

def RslValue.skeletonList : List RslValue → List RslValue
  | [] => []
  | v :: vs => v.skeleton :: skeletonList vs

end

mutual

/-- The operators, the attributes and the shape of a tree. -/
def Rsl.skeleton : Rsl → Rsl
  | .boolean op ts => .boolean op (skeletonList ts)
  | .relation op attr seq => .relation op attr seq.skeleton

def Rsl.skeletonList : List Rsl → List Rsl
  | [] => []
  | t :: ts => t.skeleton :: skeletonList ts

end

mutual

/-- Some value of the tree has a variable or a concatenation. -/
def Rsl.hasReference : Rsl → Bool
  | .boolean _ ts => anyReference ts
  | .relation _ _ seq => seq.hasReference

def Rsl.anyReference : List Rsl → Bool
  | [] => false
  | t :: ts => t.hasReference || anyReference ts

end

mutual

/-- The values of every relation are a sequence. -/
def Rsl.Sequences : Rsl → Prop
  | .boolean _ ts => SequencesList ts
  | .relation _ _ seq => seq.isSequence

def Rsl.SequencesList : List Rsl → Prop
  | [] => True
  | t :: ts => t.Sequences ∧ SequencesList ts

end

section Result

variable {env : List Char → Option (List Char)}

mutual

/-- A meaning has no references, and the shape of its value. -/
theorem RslValue.meaning_spec : ∀ (v : RslValue) {v' : RslValue}, v.meaning env = some v' →
    v'.hasReference = false ∧ v'.skeleton = v.skeleton
  | .sequence vs, v', h => by
    rw [meaning] at h
    obtain ⟨vs', hvs, rfl⟩ := map_eq_some_iff.1 h
    obtain ⟨href, hskel⟩ := meaningList_spec vs hvs
    exact ⟨href, congrArg RslValue.sequence hskel⟩
  | .literal s, v', h => by
    cases h
    exact ⟨rfl, rfl⟩
  | .var seq, v', h => by
    rw [meaning_eq_text rfl] at h
    obtain ⟨s, -, rfl⟩ := map_eq_some_iff.1 h
    exact ⟨rfl, rfl⟩
  | .concatenation l r, v', h => by
    rw [meaning_eq_text rfl] at h
    obtain ⟨s, -, rfl⟩ := map_eq_some_iff.1 h
    exact ⟨rfl, rfl⟩

theorem RslValue.meaningList_spec : ∀ (vs : List RslValue) {vs' : List RslValue}, meaningList env vs = some vs' →
    anyReference vs' = false ∧ skeletonList vs' = skeletonList vs
  | [], vs', h => by
    cases h
    exact ⟨rfl, rfl⟩
  | v :: vs, vs', h => by
    simp only [meaningList, bind_eq_bind, bind_eq_some_iff] at h
    obtain ⟨u, hu, us, hus, heq⟩ := h
    cases heq
    obtain ⟨href, hskel⟩ := meaning_spec v hu
    obtain ⟨href', hskel'⟩ := meaningList_spec vs hus
    exact ⟨by rw [anyReference, href, href']; rfl, by rw [skeletonList, skeletonList, hskel, hskel']⟩

end

theorem RslValue.skeleton_of_text {v : RslValue} {s : List Char} (h : v.text env = some s) : v.skeleton = .literal [] :=
  ((meaning_spec v (text_eq_some h)).2).symm

theorem RslValue.binding_spec {v : RslValue} {b : List Char × List Char} (h : v.binding env = some b) :
    (bindingValue b).skeleton = v.skeleton := by
  unfold binding at h
  split at h
  · simp only [bind_eq_bind, bind_eq_some_iff] at h
    obtain ⟨n, hn, w, hw, heq⟩ := h
    cases heq
    simp only [bindingValue, skeleton, skeletonList, skeleton_of_text hn, skeleton_of_text hw]
  · cases h

theorem RslValue.bindings_spec : ∀ (vs : List RslValue) {env : RslEnv} {bs : List (List Char × List Char)},
    bindings env vs = some bs →
    anyReference (bs.map bindingValue) = false ∧ skeletonList (bs.map bindingValue) = skeletonList vs
  | [], env, bs, h => by
    cases h
    exact ⟨rfl, rfl⟩
  | v :: vs, env, bs, h => by
    simp only [bindings, bind_eq_bind, bind_eq_some_iff] at h
    obtain ⟨b, hb, bs', hbs, heq⟩ := h
    cases heq
    obtain ⟨href, hskel⟩ := bindings_spec vs hbs
    refine ⟨?_, ?_⟩
    · rw [map_cons, anyReference, href]
      rfl
    · rw [map_cons, skeletonList, skeletonList, binding_spec hb, hskel]

/-- The values of a relation in place of others of the same shape. -/
theorem RslValue.setValueList_spec {seq : RslValue} (hseq : seq.isSequence) {vs : List RslValue}
    (href : anyReference vs = false) (hskel : skeletonList vs = skeletonList seq.sequenceGetValueList) :
    (seq.setValueList vs).hasReference = false ∧ (seq.setValueList vs).skeleton = seq.skeleton := by
  obtain ⟨us, rfl⟩ := exists_sequence hseq
  exact ⟨href, congrArg RslValue.sequence hskel⟩

mutual

theorem Rsl.meaning_spec : ∀ (t : Rsl) {env : RslEnv} {t' : Rsl} {bs : List (List Char × List Char)}, t.Sequences →
    t.meaning env = some (t', bs) → t'.hasReference = false ∧ t'.skeleton = t.skeleton
  | .relation op attr seq, env, t', bs, hseq, h => by
    rw [meaning] at h
    have hvalues : ∃ vs, t' = .relation op attr (seq.setValueList vs) ∧ RslValue.anyReference vs = false ∧
        RslValue.skeletonList vs = RslValue.skeletonList seq.sequenceGetValueList := by
      split at h
      · obtain ⟨bs', hbs, heq⟩ := map_eq_some_iff.1 h
        cases heq
        exact ⟨_, rfl, RslValue.bindings_spec _ hbs⟩
      · obtain ⟨vs, hvs, heq⟩ := map_eq_some_iff.1 h
        cases heq
        exact ⟨_, rfl, RslValue.meaningList_spec _ hvs⟩
    obtain ⟨vs, rfl, href, hskel⟩ := hvalues
    obtain ⟨href, hskel⟩ := RslValue.setValueList_spec hseq href hskel
    exact ⟨href, congrArg (relation op attr) hskel⟩
  | .boolean op ts, env, t', bs, hseq, h => by
    rw [meaning] at h
    obtain ⟨ts', hts, heq⟩ := map_eq_some_iff.1 h
    cases heq
    obtain ⟨href, hskel⟩ := meaningList_spec ts hseq hts
    exact ⟨href, congrArg (boolean op) hskel⟩

theorem Rsl.meaningList_spec : ∀ (ts : List Rsl) {env : RslEnv} {ts' : List Rsl}, SequencesList ts →
    meaningList env ts = some ts' → anyReference ts' = false ∧ skeletonList ts' = skeletonList ts
  | [], env, ts', _, h => by
    cases h
    exact ⟨rfl, rfl⟩
  | t :: ts, env, ts', hseq, h => by
    simp only [meaningList, bind_eq_bind, bind_eq_some_iff] at h
    obtain ⟨⟨u, bs⟩, hu, us, hus, heq⟩ := h
    cases heq
    obtain ⟨href, hskel⟩ := meaning_spec t hseq.1 hu
    obtain ⟨href', hskel'⟩ := meaningList_spec ts hseq.2 hus
    exact ⟨by rw [anyReference, href, href']; rfl, by rw [skeletonList, skeletonList, hskel, hskel']⟩

end

end Result

/-! ## Names without a binding -/

mutual

/-- The names that a value refers to. -/
def RslValue.names : RslValue → List (List Char)
  | .literal _ => []
  | .sequence vs => namesList vs
  | .var (.sequence [.literal name]) => [name]
  | .var _ => []
  | .concatenation l r => l.names ++ r.names

def RslValue.namesList : List RslValue → List (List Char)
  | [] => []
  | v :: vs => v.names ++ namesList vs

end

/-- The value refers to a name that stands for nothing. -/
def RslValue.Unbound (env : List Char → Option (List Char)) (v : RslValue) : Prop := ∃ n ∈ v.names, env n = none

/-- A value of a substitution relation refers to a name that stands for nothing when it is reached. -/
def RslValue.UnboundPairs (env : RslEnv) : List RslValue → Prop
  | [] => False
  | v :: vs => v.Unbound env.denotes ∨ ∃ b, v.binding env.denotes = some b ∧ UnboundPairs (env.bind [b]) vs

mutual

/-- The evaluation of the tree reaches a reference to a name that stands for nothing. -/
def Rsl.Unbound (env : RslEnv) : Rsl → Prop
  | .boolean _ ts => UnboundList env.enter ts
  | .relation _ attr seq =>
    if isSubstitution attr then RslValue.UnboundPairs env seq.sequenceGetValueList
    else ∃ v ∈ seq.sequenceGetValueList, v.Unbound env.denotes

def Rsl.UnboundList (env : RslEnv) : List Rsl → Prop
  | [] => False
  | t :: ts => t.Unbound env ∨ ∃ t' bs, t.meaning env = some (t', bs) ∧ UnboundList (env.bind bs) ts

end

section Unbound

variable {env : List Char → Option (List Char)}

mutual

theorem RslValue.bound_of_meaning : ∀ (v : RslValue) {v' : RslValue}, v.meaning env = some v' →
    ∀ n ∈ v.names, env n ≠ none
  | .literal _, _, _, n, hn => by cases hn
  | .sequence vs, v', h, n, hn => by
    rw [meaning] at h
    obtain ⟨vs', hvs, -⟩ := map_eq_some_iff.1 h
    exact bound_of_meaningList vs hvs n hn
  | .var seq, v', h, n, hn => by
    unfold names at hn
    split at hn
    all_goals cases ‹RslValue.var seq = _›
    · obtain rfl := mem_singleton.1 hn
      obtain ⟨s, hs, -⟩ := map_eq_some_iff.1 h
      rw [hs]
      exact some_ne_none s
    · cases hn
  | .concatenation l r, v', h, n, hn => by
    rw [meaning_concatenation] at h
    obtain ⟨a, ha, h⟩ := bind_eq_some_iff.1 h
    obtain ⟨b, hb, -⟩ := map_eq_some_iff.1 h
    rw [names] at hn
    rcases mem_append.1 hn with hn | hn
    · exact bound_of_meaning l (text_eq_some ha) n hn
    · exact bound_of_meaning r (text_eq_some hb) n hn

theorem RslValue.bound_of_meaningList : ∀ (vs : List RslValue) {vs' : List RslValue}, meaningList env vs = some vs' →
    ∀ n ∈ namesList vs, env n ≠ none
  | [], _, _, n, hn => by cases hn
  | v :: vs, vs', h, n, hn => by
    simp only [meaningList, bind_eq_bind, bind_eq_some_iff] at h
    obtain ⟨u, hu, us, hus, -⟩ := h
    rw [namesList] at hn
    rcases mem_append.1 hn with hn | hn
    · exact bound_of_meaning v hu n hn
    · exact bound_of_meaningList vs hus n hn

end

theorem RslValue.bound_of_binding {v : RslValue} {b : List Char × List Char} (h : v.binding env = some b) :
    ¬ v.Unbound env := by
  rintro ⟨n, hn, hnone⟩
  unfold binding at h
  split at h
  · next name value =>
    simp only [bind_eq_bind, bind_eq_some_iff] at h
    obtain ⟨a, ha, w, hw, -⟩ := h
    have hnames : n ∈ name.names ∨ n ∈ value.names := by simpa [names, namesList] using hn
    rcases hnames with hn | hn
    · exact bound_of_meaning name (text_eq_some ha) n hn hnone
    · exact bound_of_meaning value (text_eq_some hw) n hn hnone
  · cases h

theorem RslValue.bindings_eq_none : ∀ (vs : List RslValue) {env : RslEnv}, UnboundPairs env vs → bindings env vs = none
  | v :: vs, env, h => by
    rw [bindings]
    cases hb : v.binding env.denotes with
    | none => rfl
    | some b =>
      rcases h with h | ⟨b', hb', h⟩
      · exact absurd h (bound_of_binding hb)
      · obtain rfl : b = b' := Option.some.inj (hb.symm.trans hb')
        rw [bind_eq_bind, bind_some, bindings_eq_none vs h]
        rfl

theorem RslValue.mem_namesList {v : RslValue} {n : List Char} : ∀ {vs : List RslValue}, v ∈ vs → n ∈ v.names →
    n ∈ namesList vs
  | u :: us, hv, hn => by
    rcases mem_cons.1 hv with rfl | hv
    · exact mem_append_left _ hn
    · exact mem_append_right _ (mem_namesList hv hn)

mutual

theorem Rsl.meaning_eq_none : ∀ (t : Rsl) {env : RslEnv}, t.Unbound env → t.meaning env = none
  | .boolean op ts, env, h => by
    rw [meaning, meaningList_eq_none ts h]
    rfl
  | .relation op attr seq, env, h => by
    rw [Unbound] at h
    rw [meaning]
    split
    · next hattr =>
      rw [if_pos hattr] at h
      rw [RslValue.bindings_eq_none _ h]
      rfl
    · next hattr =>
      rw [if_neg hattr] at h
      obtain ⟨v, hv, n, hn, hnone⟩ := h
      cases hlist : RslValue.meaningList env.denotes seq.sequenceGetValueList with
      | none => rfl
      | some vs => exact absurd hnone (RslValue.bound_of_meaningList _ hlist n (RslValue.mem_namesList hv hn))

theorem Rsl.meaningList_eq_none : ∀ (ts : List Rsl) {env : RslEnv}, UnboundList env ts → meaningList env ts = none
  | t :: ts, env, h => by
    rw [meaningList]
    rcases h with h | ⟨t', bs, ht, h⟩
    · rw [meaning_eq_none t h]
      rfl
    · rw [ht, bind_eq_bind, bind_some]
      dsimp only
      rw [meaningList_eq_none ts h]
      rfl

end

end Unbound

/-- Evaluating a boolean returns. If it succeeds, the tree has become its meaning: it has no references left, the same
shape, operators and attributes, and the table is as it was. It fails if it reaches a name that stands for nothing. -/
theorem rslEval_meaning (mem : Nat → HashEntry (List Char) (List Char)) {table : RslTable} (hwf : table.WF)
    (op : RslBoolOp) (ts : List Rsl) (hseq : (boolean op ts).Sequences) :
    (rslEval mem (.boolean op ts) table).run ≠ none ∧
    (∀ t' table', (rslEval mem (.boolean op ts) table).run = some (.ok (t', table')) →
      t'.hasReference = false ∧ t'.skeleton = (boolean op ts).skeleton ∧
      (boolean op ts).meaning (scopeEnv table []) = some (t', []) ∧
      ∀ name, table'.lookup name = table.lookup name) ∧
    ((boolean op ts).Unbound (scopeEnv table []) →
      (rslEval mem (.boolean op ts) table).run = some (.error ())) := by
  have hrun : Realizes (rslEval mem (.boolean op ts) table) ((boolean op ts).meaning (scopeEnv table []))
      fun m r => r = (m.1, table) := by
    rw [Rsl.meaning]
    exact rslEval_boolean op fun hinner => evalsIn_operands mem ts hwf hinner
  cases hmeaning : (boolean op ts).meaning (scopeEnv table []) with
  | none =>
    rw [hmeaning] at hrun
    have herror : (rslEval mem (.boolean op ts) table).run = some (.error ()) := hrun
    rw [herror]
    exact ⟨some_ne_none _, nofun, fun _ => rfl⟩
  | some m =>
    rw [hmeaning] at hrun
    obtain ⟨_, hok, rfl⟩ := hrun
    rw [hok]
    refine ⟨some_ne_none _, fun t' table' h => ?_, fun h => ?_⟩
    · cases h
      obtain ⟨href, hskel⟩ := Rsl.meaning_spec _ hseq hmeaning
      obtain ⟨ts', -, rfl⟩ := map_eq_some_iff.1 hmeaning
      exact ⟨href, hskel, rfl, fun _ => rfl⟩
    · rw [Rsl.meaning_eq_none _ h] at hmeaning
      cases hmeaning

/-- `&(rsl_substitution = (A b))(x = $(A))`. -/
def substitutionRsl : List Rsl :=
  [.relation .eq "rsl_substitution".toList (.sequence [.sequence [.literal ['A'], .literal ['b']]]),
    .relation .eq ['x'] (.sequence [.var (.sequence [.literal ['A']])])]

/-- A table without scopes. -/
def emptyTable : RslTable := ⟨[], hashtableStringHash, hashtableStringKeyeq⟩

theorem rslEval_meaning_substitution :
    (boolean .and substitutionRsl).meaning (scopeEnv emptyTable []) = some (.boolean .and
      [.relation .eq "rsl_substitution".toList (.sequence [.sequence [.literal ['A'], .literal ['b']]]),
        .relation .eq ['x'] (.sequence [.literal ['b']])], []) ∧
    (rslEval (fun _ => ⟨[], [], none, none⟩) (.boolean .and substitutionRsl) emptyTable).run ≠ none := by
  have hwf : SymbolTable.WF emptyTable := ⟨stringFuncs_ok (by decide), by simp [emptyTable]⟩
  exact ⟨rfl, (rslEval_meaning _ hwf .and substitutionRsl ⟨rfl, rfl, trivial⟩).1⟩

end Globus
