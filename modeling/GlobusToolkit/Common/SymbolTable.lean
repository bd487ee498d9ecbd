/-
Symbol tables (common/source/library/globus_symboltable.c): a list of scopes, each a hash table of 16 buckets, the
innermost one in front. A symbol is looked up in the scopes from the innermost one outwards, and inserted into the
innermost one, where its first datum stays.
-/
import GlobusToolkit.Common.HashTableRun

namespace Globus

open Lib List Option

/-! ## The functions -/

/-- `globus_symboltable_s`. -/
structure SymbolTable (K D : Type*) where
  scopes : List (HashTable K D)
  hashFunc : K → Nat → Nat
  keyeqFunc : K → K → Bool

section Functions

variable {K D : Type*}

/-- The loop of `globus_symboltable_lookup`. A search takes no more steps than its table has entries. -/
def lookupScopes (hash : K → Nat → Nat) (keyeq : K → K → Bool) (symbol : K) : List (HashTable K D) → Option (Option D)
  | [] => some none
  | scope :: scopes =>
    match scope.lookup hash keyeq scope.load symbol with
    | none => none
    | some (some datum) => some (some datum)
    | some none => lookupScopes hash keyeq symbol scopes

/-- `globus_symboltable_lookup`. -/
def SymbolTable.lookup (table : SymbolTable K D) (symbol : K) : Option (Option D) :=
  lookupScopes table.hashFunc table.keyeqFunc symbol table.scopes

/-- `globus_symboltable_insert`, without its result, which the caller does not look at. -/
def SymbolTable.insert (table : SymbolTable K D) (symbol : K) (datum : D) : Option (SymbolTable K D) :=
  match table.scopes with
  | [] => some table
  | scope :: scopes =>
    (scope.insert table.hashFunc table.keyeqFunc scope.load symbol datum).map fun r =>
      { table with scopes := r.2 :: scopes }

/-- `globus_symboltable_create_scope`, with what is in memory. -/
def SymbolTable.createScope (table : SymbolTable K D) (mem : Nat → HashEntry K D) : Option (SymbolTable K D) :=
  (hashtableInit mem 16).map fun scope => { table with scopes := scope :: table.scopes }

/-- `globus_symboltable_remove_scope`. -/
def SymbolTable.removeScope (table : SymbolTable K D) : SymbolTable K D := { table with scopes := table.scopes.tail }

end Functions

/-! ## The bindings of a table -/

section Bindings

variable {K D : Type*} {table : SymbolTable K D} {mem : Nat → HashEntry K D} {made : List (K × D)}

/-- The functions of the caller are as they have to be, and the scopes are tables. -/
structure SymbolTable.WF (table : SymbolTable K D) : Prop where
  ok : HashFuncsOk table.hashFunc table.keyeqFunc 16
  scopes : ∀ s ∈ table.scopes, ∃ m, s.Rep table.hashFunc table.keyeqFunc 16 m

/-- What a symbol is bound to. -/
def SymbolTable.denotes (table : SymbolTable K D) (symbol : K) : Option D := (table.lookup symbol).join

theorem exists_lookupScopes {hash : K → Nat → Nat} {keyeq : K → K → Bool} (ok : HashFuncsOk hash keyeq 16) (symbol : K) :
    ∀ {scopes : List (HashTable K D)}, (∀ s ∈ scopes, ∃ m, s.Rep hash keyeq 16 m) →
      ∃ d, lookupScopes hash keyeq symbol scopes = some d
  | [], _ => ⟨none, rfl⟩
  | s :: scopes, h => by
    obtain ⟨m, hm⟩ := h s mem_cons_self
    obtain ⟨d, hd⟩ := exists_lookupScopes ok symbol (forall_mem_cons.1 h).2
    rw [lookupScopes, hm.lookup ok symbol le_rfl]
    cases (m symbol).map Prod.snd with
    | none => exact ⟨d, hd⟩
    | some datum => exact ⟨_, rfl⟩

theorem SymbolTable.WF.lookup_eq (h : table.WF) (symbol : K) : table.lookup symbol = some (table.denotes symbol) := by
  obtain ⟨d, hd⟩ := exists_lookupScopes h.ok symbol h.scopes
  rw [denotes, lookup, hd, join_some]

/-- The first of the bindings that a symbol has among these. -/
def firstBinding (keyeq : K → K → Bool) (made : List (K × D)) (symbol : K) : Option (K × D) :=
  made.find? fun b => keyeq b.1 symbol

theorem mapInsert_firstBinding {hash : K → Nat → Nat} {keyeq : K → K → Bool} (ok : HashFuncsOk hash keyeq 16)
    (made : List (K × D)) (symbol : K) (datum : D) :
    mapInsert keyeq (firstBinding keyeq made) symbol datum = firstBinding keyeq (made ++ [(symbol, datum)]) := by
  funext k
  have happend : firstBinding keyeq (made ++ [(symbol, datum)]) k =
      (firstBinding keyeq made k).or (if keyeq symbol k then some (symbol, datum) else none) := by
    rw [firstBinding, find?_append, firstBinding, find?_singleton]
  -- equal symbols have the same binding
  have hcongr : keyeq symbol k → firstBinding keyeq made k = firstBinding keyeq made symbol := by
    intro hk
    refine congrArg (fun p => made.find? p) (funext fun b => ?_)
    rw [ok.comm b.1 k, ok.comm b.1 symbol, ok.congr hk]
  rw [happend, mapInsert]
  cases hbound : firstBinding keyeq made symbol with
  | none =>
    rw [isNone_none, if_pos rfl, mapSet]
    by_cases hk : keyeq symbol k
    · rw [if_pos hk, if_pos hk, hcongr hk, hbound, none_or]
    · rw [if_neg hk, if_neg hk, or_none]
  | some b =>
    rw [isNone_some, if_neg (by simp)]
    by_cases hk : keyeq symbol k
    · rw [hcongr hk, hbound, some_or]
    · rw [if_neg hk, or_none]

/-- `table` is `outer` with one more scope, in which the bindings `made` were made, in this order. -/
structure SymbolTable.Scoped (outer : SymbolTable K D) (made : List (K × D)) (table : SymbolTable K D) : Prop where
  hashFunc : table.hashFunc = outer.hashFunc
  keyeqFunc : table.keyeqFunc = outer.keyeqFunc
  scopes : ∃ s, table.scopes = s :: outer.scopes ∧
    s.Rep outer.hashFunc outer.keyeqFunc 16 (firstBinding outer.keyeqFunc made)

variable {outer : SymbolTable K D}

theorem SymbolTable.createScope_scoped (outer : SymbolTable K D) (mem : Nat → HashEntry K D) :
    ∃ table, outer.createScope mem = some table ∧ outer.Scoped [] table := by
  obtain ⟨s, hs⟩ : ∃ s, hashtableInit mem 16 = some s := ⟨_, if_neg (by decide)⟩
  refine ⟨{ outer with scopes := s :: outer.scopes }, ?_, rfl, rfl, s, rfl, (HashTable.Rep.init hs).1⟩
  rw [SymbolTable.createScope, hs]
  rfl

variable (h : outer.Scoped made table)
include h

namespace SymbolTable

theorem Scoped.removeScope : table.removeScope = outer := by
  obtain ⟨hhash, hkeyeq, s, hs, -⟩ := h
  obtain ⟨scopes, hash, keyeq⟩ := table
  subst hhash hkeyeq hs
  rfl

theorem Scoped.wf (houter : outer.WF) : table.WF := by
  obtain ⟨hhash, hkeyeq, s, hs, hrep⟩ := h
  refine ⟨by rw [hhash, hkeyeq]; exact houter.ok, fun s' hs' => ?_⟩
  rw [hhash, hkeyeq]
  rw [hs] at hs'
  rcases mem_cons.1 hs' with rfl | hs'
  · exact ⟨_, hrep⟩
  · exact houter.scopes s' hs'

/-- A symbol means its first binding in the scope, or what it means outside. -/
theorem Scoped.denotes (houter : outer.WF) (symbol : K) :
    table.denotes symbol = ((firstBinding outer.keyeqFunc made symbol).map Prod.snd).or (outer.denotes symbol) := by
  obtain ⟨hhash, hkeyeq, s, hs, hrep⟩ := h
  have hinner : s.lookup outer.hashFunc outer.keyeqFunc s.load symbol =
      some ((firstBinding outer.keyeqFunc made symbol).map Prod.snd) := hrep.lookup houter.ok symbol le_rfl
  rw [SymbolTable.denotes, lookup, hhash, hkeyeq, hs, lookupScopes, hinner]
  cases (firstBinding outer.keyeqFunc made symbol).map Prod.snd with
  | none => rfl
  | some datum => rfl

theorem Scoped.insert (houter : outer.WF) (symbol : K) (datum : D) :
    ∃ table', table.insert symbol datum = some table' ∧ outer.Scoped (made ++ [(symbol, datum)]) table' := by
  obtain ⟨hhash, hkeyeq, s, hs, hrep⟩ := h
  obtain ⟨s', hinsert, hrep', -⟩ := hrep.insert houter.ok symbol datum le_rfl
  rw [mapInsert_firstBinding houter.ok] at hrep'
  refine ⟨{ table with scopes := s' :: outer.scopes }, ?_, hhash, hkeyeq, s', rfl, hrep'⟩
  rw [SymbolTable.insert, hs, hhash, hkeyeq]
  simp [hinsert]

end SymbolTable

omit h

theorem SymbolTable.WF.insert (h : table.WF) (symbol : K) (datum : D) :
    ∃ table', table.insert symbol datum = some table' ∧ table'.WF := by
  unfold SymbolTable.insert
  cases hscopes : table.scopes with
  | nil => exact ⟨table, rfl, h⟩
  | cons s scopes =>
    obtain ⟨m, hm⟩ := h.scopes s (by rw [hscopes]; exact mem_cons_self)
    obtain ⟨s', hinsert, hrep, -⟩ := hm.insert h.ok symbol datum le_rfl
    refine ⟨{ table with scopes := s' :: scopes }, by simp [hinsert], h.ok, fun s'' hs'' => ?_⟩
    rcases mem_cons.1 hs'' with rfl | hs''
    · exact ⟨_, hrep⟩
    · exact h.scopes s'' (by rw [hscopes]; exact mem_cons_of_mem _ hs'')

end Bindings

end Globus
