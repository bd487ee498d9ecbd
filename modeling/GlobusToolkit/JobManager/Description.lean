/-
The job description that the job manager writes for the scripts of a scheduler
(gram/jobmanager/source/globus_gram_job_manager_script.c). It is Perl: two variables of the environment, and a hash with
the relations of the job's RSL and with attributes of the request. Some strings are escaped, others are pasted.
-/
import GlobusToolkit.Lib.Perl
import GlobusToolkit.Rsl.Syntax

namespace Globus

open Lib List Option PerlValue

/-! ## Writing the description -/

/-- `GLOBUS_GRAM_PROTOCOL_ERROR_BAD_RSL`. -/
def errorBadRsl : Int := 48

/-- `globus_l_gram_job_manager_script_prepare_param`. -/
def prepareParam (param : List Char) : List Char :=
  param.flatMap fun c => if c = '\\' then ['\\', '\\'] else if c = '\'' then ['\\', '\''] else [c]

mutual

/-- `globus_l_gram_enqueue_rsl_value`: the text that is queued, and the result. -/
def enqueueRslValue : RslValue → MarkedText × Int
  | .literal s => (quote (arg (prepareParam s)), 0)
  | .sequence vs => (lit "[" ++ enqueueValues vs ++ lit "] ", 0)
  | .var _ => ([], errorBadRsl)
  | .concatenation _ _ => ([], errorBadRsl)

/-- The loop over the values of a sequence. Their results are not looked at. -/
def enqueueValues : List RslValue → MarkedText
  | [] => []
  | v :: vs => (enqueueRslValue v).1 ++ if vs.isEmpty then [] else lit "," ++ enqueueValues vs

end

/-- The attributes that the todo lists override. -/
def isStaging (attr : List Char) : Bool :=
  attr = "filestagein".toList || attr = "filestageinshared".toList || attr = "filestageout".toList ||
    attr = "filestreamout".toList

mutual

/-- `globus_l_gram_enqueue_rsl`. -/
def enqueueRsl : Rsl → MarkedText × Int
  | .boolean _ ts => enqueueOperands ts
  | .relation _ attr seq =>
    if isStaging attr then ([], 0)
    else (lit "    " ++ quote (arg attr) ++ lit " => " ++ (enqueueRslValue seq).1, (enqueueRslValue seq).2)

/-- The loop over the operands of a boolean. Only the result of the last one is looked at. -/
def enqueueOperands : List Rsl → MarkedText × Int
  | [] => ([], 0)
  | t :: ts =>
    if ts.isEmpty then enqueueRsl t
    else ((enqueueRsl t).1 ++ lit ",\n" ++ (enqueueOperands ts).1, (enqueueOperands ts).2)

end

/-- `globus_gram_job_manager_staging_info_t`. -/
structure StagingInfo where
  evaledFrom : List Char
  evaledTo : List Char

/-- The fields of a request, and of its configuration, that are written. -/
structure DescriptionRequest where
  x509UserProxy : List Char
  jobContact : List Char
  rsl : Rsl
  uniqId : Option (List Char)
  jobIdString : Option (List Char)
  cacheTag : Option (List Char)
  condorOs : Option (List Char)
  condorArch : Option (List Char)
  jobDir : Option (List Char)
  streamingDisabled : Bool
  streamingRequested : Bool
  jobStateFile : List Char
  stageInTodo : List StagingInfo
  stageInSharedTodo : List StagingInfo
  stageOutTodo : List StagingInfo
  stageStreamTodo : List StagingInfo

/-- A further attribute of the caller, of the format `s`, or `i` or `d`. -/
inductive DescriptionArg where
  | string (attr : List Char) (value : Option (List Char))
  | int (attr : List Char) (value : Int)

/-- The format `",\n    '%s' => [ %s ]"`. -/
def enqueuePair (attr : List Char) (value : MarkedText) : MarkedText :=
  lit ",\n    " ++ quote (arg attr) ++ lit " => [ " ++ value ++ lit " ]"

/-- The format `",\n    '%s' => [ '%s' ]"`. -/
def enqueueStringPair (attr value : List Char) : MarkedText := enqueuePair attr (quote (arg value))

def DescriptionArg.enqueue : DescriptionArg → MarkedText
  | .string _ none => []
  | .string attr (some value) => enqueueStringPair attr (prepareParam value)
  | .int attr value => enqueueStringPair attr (printInt value)

/-- The loop of `globus_l_gram_enqueue_staging_list`. -/
def enqueueStagingInfos : List StagingInfo → MarkedText
  | [] => []
  | info :: infos =>
    lit " [" ++ quote (arg (prepareParam info.evaledFrom)) ++ lit ", " ++ quote (arg (prepareParam info.evaledTo)) ++
      lit "]" ++
      (if infos.isEmpty then lit "\n" else lit ",\n") ++ enqueueStagingInfos infos

/-- `globus_l_gram_enqueue_staging_list`. -/
def enqueueStagingList (attr : List Char) (todo : List StagingInfo) : MarkedText :=
  lit ",\n    " ++ quote (arg attr) ++ lit " => [" ++ enqueueStagingInfos todo ++ lit " ]"

/-- A pair for a string that is there. -/
def enqueueOption (attr : List Char) : Option (List Char) → MarkedText
  | none => []
  | some value => enqueueStringPair attr value

def printBool (b : Bool) : MarkedText := if b then lit "1" else lit "0"

/-- The attributes behind those of the RSL. -/
def enqueueAttributes (request : DescriptionRequest) (args : List DescriptionArg) : MarkedText :=
  args.flatMap DescriptionArg.enqueue ++
  enqueueOption "uniqid".toList request.uniqId ++
  enqueueOption "jobid".toList request.jobIdString ++
  enqueueOption "cachetag".toList request.cacheTag ++
  enqueueOption "condoros".toList request.condorOs ++
  enqueueOption "condorarch".toList request.condorArch ++
  enqueueOption "jobdir".toList request.jobDir ++
  enqueuePair "streamingdisabled".toList (printBool request.streamingDisabled) ++
  enqueuePair "streamingrequested".toList (printBool request.streamingRequested) ++
  enqueueStringPair "statefile".toList request.jobStateFile ++
  enqueueStagingList "filestagein".toList request.stageInTodo ++
  enqueueStagingList "filestageinshared".toList request.stageInSharedTodo ++
  enqueueStagingList "filestageout".toList request.stageOutTodo ++
  enqueueStagingList "filestreamout".toList request.stageStreamTodo

/-- `globus_l_gram_enqueue_description`. -/
def enqueueDescription (request : DescriptionRequest) (args : List DescriptionArg) : MarkedText :=
  lit "$ENV\x7bX509_USER_PROXY\x7d = " ++ quote (arg request.x509UserProxy) ++ lit ";\n" ++
  lit "$ENV\x7bGLOBUS_GRAM_JOB_CONTACT\x7d = " ++ quote (arg request.jobContact) ++ lit ";\n" ++
  lit "$description =\n\x7b\n" ++
  (enqueueRsl request.rsl).1 ++
  enqueueAttributes request args ++
  lit "\n\x7d;\n"

/-! ## What the description means -/

/-- The value is a variable or a concatenation itself. -/
def RslValue.isReference : RslValue → Bool
  | .var _ => true
  | .concatenation _ _ => true
  | _ => false

mutual

/-- The nested lists of a value. -/
def RslValue.perl : RslValue → PerlValue
  | .literal s => .str s
  | .sequence vs => .arr (perlList vs)
  | .var _ => .arr []
  | .concatenation _ _ => .arr []

def RslValue.perlList : List RslValue → List PerlValue
  | [] => []
  | v :: vs => v.perl :: perlList vs

end

mutual

/-- The relations of a tree, from left to right. -/
def Rsl.relations : Rsl → List (List Char × RslValue)
  | .boolean _ ts => operandRelations ts
  | .relation _ attr seq => [(attr, seq)]

def Rsl.operandRelations : List Rsl → List (List Char × RslValue)
  | [] => []
  | t :: ts => t.relations ++ operandRelations ts

end

/-- The leftmost leaf of the tree is a relation that is written. -/
def Rsl.leads : Rsl → Bool
  | .boolean _ [] => false
  | .boolean _ (t :: _) => t.leads
  | .relation _ attr _ => !isStaging attr

/-- The attributes are made of letters, and the values of sequences and literals. -/
def Rsl.Plain (t : Rsl) : Prop := ∀ r ∈ t.relations, (∀ c ∈ r.1, c.isAlpha) ∧ r.2.hasReference = false

instance (t : Rsl) : Decidable t.Plain := inferInstanceAs (Decidable (∀ r ∈ t.relations, _))

/-- A pair of a hash. -/
abbrev PerlPair := List Char × PerlValue

/-- The keys and values of a hash, in a row. -/
def hashItems (pairs : List PerlPair) : List PerlValue := pairs.flatMap fun p => [.str p.1, p.2]

def writtenPairs (relations : List (List Char × RslValue)) : List PerlPair :=
  (relations.filter (!isStaging ·.1)).map fun r => (r.1, r.2.perl)

/-- The pairs for the relations that are not for staging. -/
def Rsl.pairs (t : Rsl) : List PerlPair := writtenPairs t.relations

def DescriptionArg.pairs : DescriptionArg → List PerlPair
  | .string _ none => []
  | .string attr (some value) => [(attr, .arr [.str value])]
  | .int attr value => [(attr, .arr [.str (printInt value)])]

def DescriptionArg.attr : DescriptionArg → List Char
  | .string attr _ => attr
  | .int attr _ => attr

def optionPairs (attr : List Char) (value : Option (List Char)) : List PerlPair :=
  value.toList.map fun s => (attr, .arr [.str s])

def stagingPair (attr : List Char) (todo : List StagingInfo) : PerlPair :=
  (attr, .arr (todo.map fun info => .arr [.str info.evaledFrom, .str info.evaledTo]))

namespace DescriptionRequest

/-- The pairs of the request. -/
def pairs (request : DescriptionRequest) (args : List DescriptionArg) : List PerlPair :=
  args.flatMap DescriptionArg.pairs ++
  optionPairs "uniqid".toList request.uniqId ++
  optionPairs "jobid".toList request.jobIdString ++
  optionPairs "cachetag".toList request.cacheTag ++
  optionPairs "condoros".toList request.condorOs ++
  optionPairs "condorarch".toList request.condorArch ++
  optionPairs "jobdir".toList request.jobDir ++
  [("streamingdisabled".toList, .arr [.num request.streamingDisabled.toNat])] ++
  [("streamingrequested".toList, .arr [.num request.streamingRequested.toNat])] ++
  [("statefile".toList, .arr [.str request.jobStateFile])] ++
  [stagingPair "filestagein".toList request.stageInTodo] ++
  [stagingPair "filestageinshared".toList request.stageInSharedTodo] ++
  [stagingPair "filestageout".toList request.stageOutTodo] ++
  [stagingPair "filestreamout".toList request.stageStreamTodo]

/-- The assignments that the description is to be read as. Of two pairs with one key the later one counts. -/
def meaning (request : DescriptionRequest) (args : List DescriptionArg) :
    List (PerlTarget × PerlValue) :=
  [(⟨"ENV".toList, some "X509_USER_PROXY".toList⟩, .str request.x509UserProxy),
    (⟨"ENV".toList, some "GLOBUS_GRAM_JOB_CONTACT".toList⟩, .str request.jobContact),
    (⟨"description".toList, none⟩, .hash (hashItems (request.rsl.pairs ++ request.pairs args)))]

/-- The strings that are pasted into the attributes. -/
def pastedAttributes (request : DescriptionRequest) : List (List Char) :=
  request.uniqId.toList ++ request.jobIdString.toList ++ request.cacheTag.toList ++ request.condorOs.toList ++
    request.condorArch.toList ++ request.jobDir.toList ++ [request.jobStateFile]

/-- The strings that are pasted. -/
def pastedStrings (request : DescriptionRequest) : List (List Char) :=
  [request.x509UserProxy, request.jobContact] ++ request.pastedAttributes

/-! ## The tokens of the description -/

end DescriptionRequest

theorem lexRun_prepareParam : ∀ s acc : List Char,
    lexRun (.quoted acc) (prepareParam s) = some ([], .quoted (acc ++ s))
  | [], acc => by simp [prepareParam, lexRun]
  | c :: s, acc => by
    have ih := lexRun_prepareParam s (acc ++ [c])
    rw [append_assoc, singleton_append] at ih
    simp only [prepareParam, flatMap_cons] at ih ⊢
    split_ifs with hback hquote
    · subst hback
      rw [← ih]
      exact lexRun_escape (.inr rfl) _
    · subst hquote
      rw [← ih]
      exact lexRun_escape (.inl rfl) _
    · rw [← ih]
      exact lexRun_char hquote hback _

theorem lexes_prepareParam (s : List Char) : Lexes (quote (arg (prepareParam s))) [.str s] := by
  refine lexes_quoted ?_
  rw [MarkedText.chars_arg]
  exact lexRun_prepareParam s []

theorem pasteable_of_isAlpha {s : List Char} (h : ∀ c ∈ s, c.isAlpha) : Pasteable s := by
  refine pasteable_of_forall_ne fun c hc => ⟨?_, ?_⟩ <;> rintro rfl <;> exact absurd (h _ hc) (by decide)

theorem pasteable_printInt (v : Int) : Pasteable (printInt v) := by
  refine pasteable_of_forall_ne fun c hc => ⟨?_, ?_⟩ <;> rintro rfl
  · exact not_mem_printInt (by decide) (by decide) v hc
  · exact not_mem_printInt (by decide) (by decide) v hc

mutual

theorem lexes_rslValue : ∀ v : RslValue, v.hasReference = false → Lexes (enqueueRslValue v).1 v.perl.tokens
  | .literal s, _ => lexes_prepareParam s
  | .sequence vs, h => by
    have hopen : Lexes (lit "[") [.openList false] := by decide
    have hclose : Lexes (lit "] ") [.closeList false] := by decide
    exact (hopen.append (lexes_rslValues vs h)).append hclose
  | .var _, h => by cases h
  | .concatenation _ _, h => by cases h

theorem lexes_rslValues : ∀ vs : List RslValue, RslValue.anyReference vs = false →
    Lexes (enqueueValues vs) (joinTokens (RslValue.perlList vs))
  | [], _ => .nil
  | v :: vs, h => by
    obtain ⟨hv, hvs⟩ := Bool.or_eq_false_iff.1 h
    have hcomma : Lexes (lit ",") [.comma] := by decide
    cases vs with
    | nil => exact (lexes_rslValue v hv).append .nil
    | cons w ws => exact (lexes_rslValue v hv).append (hcomma.append (lexes_rslValues (w :: ws) hvs))

end

/-- The tokens of a pair, without the comma in front of it. -/
def pairTokens (p : PerlPair) : List PerlToken := .str p.1 :: .comma :: p.2.tokens

/-- The tokens of a pair behind another one. -/
def nextPairTokens (p : PerlPair) : List PerlToken := .comma :: pairTokens p

mutual

/-- The tokens of a tree. Relations for staging leave their commas. -/
def Rsl.perlTokens : Rsl → List PerlToken
  | .boolean _ ts => operandTokens ts
  | .relation _ attr seq => if isStaging attr then [] else pairTokens (attr, seq.perl)

def Rsl.operandTokens : List Rsl → List PerlToken
  | [] => []
  | t :: ts => t.perlTokens ++ if ts.isEmpty then [] else .comma :: operandTokens ts

end

mutual

theorem lexes_rsl : ∀ t : Rsl, t.Plain → Lexes (enqueueRsl t).1 t.perlTokens
  | .boolean _ ts, h => lexes_operands ts h
  | .relation op attr seq, h => by
    obtain ⟨hattr, hseq⟩ := h (attr, seq) (by simp [Rsl.relations])
    rw [enqueueRsl, Rsl.perlTokens]
    split
    · exact .nil
    · have hindent : Lexes (lit "    ") [] := by decide
      have harrow : Lexes (lit " => ") [.comma] := by decide
      have hkey := (hindent.append (lexes_pasteable (pasteable_of_isAlpha hattr))).append harrow
      exact hkey.append (lexes_rslValue seq hseq)

theorem lexes_operands : ∀ ts : List Rsl,
    (∀ r ∈ Rsl.operandRelations ts, (∀ c ∈ r.1, c.isAlpha) ∧ r.2.hasReference = false) →
    Lexes (enqueueOperands ts).1 (Rsl.operandTokens ts)
  | [], _ => .nil
  | t :: ts, h => by
    have ht := lexes_rsl t fun r hr => h r (by rw [Rsl.operandRelations]; exact mem_append_left _ hr)
    have hts := lexes_operands ts fun r hr => h r (by rw [Rsl.operandRelations]; exact mem_append_right _ hr)
    have hcomma : Lexes (lit ",\n") [.comma] := by decide
    cases ts with
    | nil =>
      rw [Rsl.operandTokens, isEmpty_nil, if_pos rfl, append_nil]
      exact ht
    | cons u us =>
      have h := (ht.append hcomma).append hts
      rw [append_assoc t.perlTokens] at h
      exact h

end

section Pairs

variable {attr : List Char} (hattr : ∀ c ∈ attr, c.isAlpha)
include hattr

theorem lexes_nextKey {arrow : MarkedText} (harrow : Lexes arrow [.comma, .openList false]) :
    Lexes (lit ",\n    " ++ quote (arg attr) ++ arrow) [.comma, .str attr, .comma, .openList false] := by
  have hfront : Lexes (lit ",\n    ") [.comma] := by decide
  exact (hfront.append (lexes_pasteable (pasteable_of_isAlpha hattr))).append harrow

theorem lexes_enqueuePair {value : MarkedText} {v : PerlValue}
    (hvalue : Lexes (value ++ lit " ]") (v.tokens ++ [.closeList false])) :
    Lexes (enqueuePair attr value) (nextPairTokens (attr, .arr [v])) := by
  have harrow : Lexes (lit " => [ ") [.comma, .openList false] := by decide
  have h := (lexes_nextKey hattr harrow).append hvalue
  rw [← append_assoc] at h
  have htokens : nextPairTokens (attr, .arr [v]) =
      [.comma, .str attr, .comma, .openList false] ++ (v.tokens ++ [.closeList false]) := by
    simp [nextPairTokens, pairTokens, PerlValue.tokens, joinTokens]
  exact htokens ▸ h

theorem lexes_enqueueStringPair {value s : List Char} (hvalue : Lexes (quote (arg value)) [.str s]) :
    Lexes (enqueueStringPair attr value) (nextPairTokens (attr, .arr [.str s])) :=
  lexes_enqueuePair hattr (hvalue.append (by decide))

variable (attr) in
theorem lexes_enqueueBool (b : Bool) :
    Lexes (enqueuePair attr (printBool b)) (nextPairTokens (attr, .arr [.num b.toNat])) := by
  refine lexes_enqueuePair hattr ?_
  cases b <;> decide

omit hattr

theorem lexes_arg (a : DescriptionArg) (hattr : ∀ c ∈ a.attr, c.isAlpha) :
    Lexes a.enqueue (a.pairs.flatMap nextPairTokens) := by
  cases a with
  | string attr value =>
    cases value with
    | none => exact .nil
    | some s =>
      exact lexes_enqueueStringPair hattr (lexes_prepareParam s)
  | int attr v =>
    exact lexes_enqueueStringPair hattr (lexes_pasteable (pasteable_printInt v))

theorem lexes_args : ∀ {args : List DescriptionArg}, (∀ a ∈ args, ∀ c ∈ a.attr, c.isAlpha) →
    Lexes (args.flatMap DescriptionArg.enqueue) ((args.flatMap DescriptionArg.pairs).flatMap nextPairTokens)
  | [], _ => .nil
  | a :: args, h => by
    rw [flatMap_cons, flatMap_cons, flatMap_append]
    exact (lexes_arg a (h a mem_cons_self)).append (lexes_args (forall_mem_cons.1 h).2)

theorem lexes_stagingInfos : ∀ infos : List StagingInfo, Lexes (enqueueStagingInfos infos)
    (joinTokens (infos.map fun info => .arr [.str info.evaledFrom, .str info.evaledTo]))
  | [] => .nil
  | info :: infos => by
    have hopen : Lexes (lit " [") [.openList false] := by decide
    have hcomma : Lexes (lit ", ") [.comma] := by decide
    have hclose : Lexes (lit "]") [.closeList false] := by decide
    have hinfo := (((hopen.append (lexes_prepareParam info.evaledFrom)).append hcomma).append
      (lexes_prepareParam info.evaledTo)).append hclose
    have hrest := lexes_stagingInfos infos
    cases infos with
    | nil =>
      have hend : Lexes (lit "\n") [] := by decide
      exact (hinfo.append hend).append hrest
    | cons i is =>
      have hsep : Lexes (lit ",\n") [.comma] := by decide
      exact (hinfo.append hsep).append hrest

theorem lexes_stagingList (attr : List Char) (hattr : ∀ c ∈ attr, c.isAlpha) (todo : List StagingInfo) :
    Lexes (enqueueStagingList attr todo) (nextPairTokens (stagingPair attr todo)) := by
  have harrow : Lexes (lit " => [") [.comma, .openList false] := by decide
  have hclose : Lexes (lit " ]") [.closeList false] := by decide
  exact ((lexes_nextKey hattr harrow).append (lexes_stagingInfos todo)).append hclose

end Pairs

/-! ## The tokens of the whole -/

/-- The text is meant to be read as these pairs, each with a comma in front. -/
def SpellsPairs (text : MarkedText) (pairs : List PerlPair) (pasted : List (List Char)) : Prop :=
  Spells text (pairs.flatMap nextPairTokens) pasted

section SpellsPairs

variable {text text' : MarkedText} {pairs pairs' : List PerlPair} {pasted pasted' : List (List Char)}

theorem SpellsPairs.append (h : SpellsPairs text pairs pasted) (h' : SpellsPairs text' pairs' pasted') :
    SpellsPairs (text ++ text') (pairs ++ pairs') (pasted ++ pasted') := by
  unfold SpellsPairs
  rw [flatMap_append]
  exact Spells.append h h'

theorem SpellsPairs.append_code {p : PerlPair} (h : SpellsPairs text pairs pasted)
    (h' : Lexes text' (nextPairTokens p)) : SpellsPairs (text ++ text') (pairs ++ [p]) pasted := by
  unfold SpellsPairs
  rw [flatMap_append, flatMap_singleton]
  exact Spells.append_code h h'

theorem spellsPairs_string (attr : List Char) (hattr : ∀ c ∈ attr, c.isAlpha) (s : List Char) :
    SpellsPairs (enqueueStringPair attr s) [(attr, .arr [.str s])] [s] := by
  have harrow : Lexes (lit " => [ ") [.comma, .openList false] := by decide
  have hclose : Lexes (lit " ]") [.closeList false] := by decide
  exact ((lexes_nextKey hattr harrow).spells.append (.quote s)).append_code hclose

theorem spellsPairs_option (attr : List Char) (hattr : ∀ c ∈ attr, c.isAlpha) (value : Option (List Char)) :
    SpellsPairs (enqueueOption attr value) (optionPairs attr value) value.toList := by
  cases value with
  | none => exact ⟨[], rfl, rfl, by simp⟩
  | some s => exact spellsPairs_string attr hattr s

end SpellsPairs

section Description

variable {request : DescriptionRequest} {args : List DescriptionArg}

theorem spellsPairs_attributes (request : DescriptionRequest) (hargs : ∀ a ∈ args, ∀ c ∈ a.attr, c.isAlpha) :
    SpellsPairs (enqueueAttributes request args) (request.pairs args) request.pastedAttributes := by
  have h : SpellsPairs _ _ _ := (lexes_args hargs).spells
  have h := h.append (spellsPairs_option "uniqid".toList (by decide) request.uniqId)
  have h := h.append (spellsPairs_option "jobid".toList (by decide) request.jobIdString)
  have h := h.append (spellsPairs_option "cachetag".toList (by decide) request.cacheTag)
  have h := h.append (spellsPairs_option "condoros".toList (by decide) request.condorOs)
  have h := h.append (spellsPairs_option "condorarch".toList (by decide) request.condorArch)
  have h := h.append (spellsPairs_option "jobdir".toList (by decide) request.jobDir)
  have h := h.append_code (lexes_enqueueBool "streamingdisabled".toList (by decide) request.streamingDisabled)
  have h := h.append_code
    (lexes_enqueueBool "streamingrequested".toList (by decide) request.streamingRequested)
  have h := h.append (spellsPairs_string "statefile".toList (by decide) request.jobStateFile)
  have h := h.append_code (lexes_stagingList "filestagein".toList (by decide) request.stageInTodo)
  have h := h.append_code (lexes_stagingList "filestageinshared".toList (by decide) request.stageInSharedTodo)
  have h := h.append_code (lexes_stagingList "filestageout".toList (by decide) request.stageOutTodo)
  have h := h.append_code (lexes_stagingList "filestreamout".toList (by decide) request.stageStreamTodo)
  exact h

/-- The tokens in front of the tree. -/
def DescriptionRequest.headTokens (request : DescriptionRequest) : List PerlToken :=
  [.var "ENV".toList, .openList true, .word "X509_USER_PROXY".toList, .closeList true, .equals,
    .str request.x509UserProxy, .semicolon, .var "ENV".toList, .openList true, .word "GLOBUS_GRAM_JOB_CONTACT".toList,
    .closeList true, .equals, .str request.jobContact, .semicolon, .var "description".toList, .equals, .openList true]

/-- The tokens of the description. -/
def DescriptionRequest.tokens (request : DescriptionRequest) (args : List DescriptionArg) : List PerlToken :=
  request.headTokens ++ request.rsl.perlTokens ++ (request.pairs args).flatMap nextPairTokens ++
    [.closeList true, .semicolon]

theorem spells_head (request : DescriptionRequest) :
    Spells (lit "$ENV\x7bX509_USER_PROXY\x7d = " ++ quote (arg request.x509UserProxy) ++ lit ";\n" ++
      lit "$ENV\x7bGLOBUS_GRAM_JOB_CONTACT\x7d = " ++ quote (arg request.jobContact) ++ lit ";\n" ++
      lit "$description =\n\x7b\n") request.headTokens [request.x509UserProxy, request.jobContact] := by
  have hproxy : Lexes (lit "$ENV\x7bX509_USER_PROXY\x7d = ")
      [.var "ENV".toList, .openList true, .word "X509_USER_PROXY".toList, .closeList true, .equals] := by decide
  have hcontact : Lexes (lit "$ENV\x7bGLOBUS_GRAM_JOB_CONTACT\x7d = ")
      [.var "ENV".toList, .openList true, .word "GLOBUS_GRAM_JOB_CONTACT".toList, .closeList true, .equals] := by decide
  have hend : Lexes (lit ";\n") [.semicolon] := by decide
  have hdescription : Lexes (lit "$description =\n\x7b\n") [.var "description".toList, .equals, .openList true] := by decide
  have h := (hproxy.spells.append (.quote request.x509UserProxy)).append_code hend
  exact ((((h.append_code hcontact).append (.quote request.jobContact)).append_code hend).append_code hdescription)

theorem spells_description (hrsl : request.rsl.Plain) (hargs : ∀ a ∈ args, ∀ c ∈ a.attr, c.isAlpha) :
    Spells (enqueueDescription request args) (request.tokens args) request.pastedStrings := by
  have hend : Lexes (lit "\n\x7d;\n") [.closeList true, .semicolon] := by decide
  have h := ((spells_head request).append_code (lexes_rsl request.rsl hrsl)).append (spellsPairs_attributes request hargs)
  exact h.append_code hend

end Description

/-! ## Reading the hash -/

theorem hashItems_append (ps qs : List PerlPair) : hashItems (ps ++ qs) = hashItems ps ++ hashItems qs :=
  flatMap_append

theorem writtenPairs_append (rs qs : List (List Char × RslValue)) :
    writtenPairs (rs ++ qs) = writtenPairs rs ++ writtenPairs qs := by
  simp [writtenPairs]

section ReadHash

variable {as : List (PerlTarget × PerlValue)} {t : PerlTarget}

theorem foldlM_pairTokens (p : PerlPair) (top : PerlFrame) (rest : List PerlFrame) (h : top.phase ≠ .item) :
    (pairTokens p).foldlM parseStep ⟨as, .nested t top rest⟩ =
      some ⟨as, .nested t ⟨top.brace, top.items ++ hashItems [p], .item⟩ rest⟩ := by
  have hkey : parseStep ⟨as, .nested t top rest⟩ (.str p.1) = some ⟨as, .nested t (top.push (.str p.1)) rest⟩ := by
    simp [parseStep, StatementPhase.pushValue, h]
  rw [pairTokens, foldlM_cons, hkey, bind_eq_bind, bind_some, foldlM_cons,
    parseStep_comma (by simp [PerlFrame.push]), bind_eq_bind, bind_some, foldlM_tokens p.2 _ _ (by simp)]
  simp [PerlFrame.push, hashItems]

theorem foldlM_nextPairTokens : ∀ (ps : List PerlPair) (top : PerlFrame) (rest : List PerlFrame), top.phase ≠ .start →
    ∃ phase, (ps.flatMap nextPairTokens).foldlM parseStep ⟨as, .nested t top rest⟩ =
      some ⟨as, .nested t ⟨top.brace, top.items ++ hashItems ps, phase⟩ rest⟩
  | [], top, rest, h => ⟨top.phase, by simp [hashItems]⟩
  | p :: ps, top, rest, h => by
    obtain ⟨phase, hps⟩ :=
      foldlM_nextPairTokens ps ⟨top.brace, top.items ++ hashItems [p], .item⟩ rest (by simp)
    refine ⟨phase, ?_⟩
    rw [flatMap_cons, nextPairTokens, cons_append, foldlM_cons, parseStep_comma h, bind_eq_bind,
      bind_some, foldlM_append, foldlM_pairTokens p _ _ (by simp), bind_eq_bind, bind_some, hps,
      append_assoc, ← hashItems_append]
    rfl

/-- The list has the pairs of the relations at its end, and a comma may follow. -/
def ReadsPairs (as : List (PerlTarget × PerlValue)) (t : PerlTarget) (tokens : List PerlToken) (top : PerlFrame)
    (rest : List PerlFrame) (relations : List (List Char × RslValue)) : Prop :=
  ∃ phase, phase ≠ .start ∧ tokens.foldlM parseStep ⟨as, .nested t top rest⟩ =
    some ⟨as, .nested t ⟨top.brace, top.items ++ hashItems (writtenPairs relations), phase⟩ rest⟩

theorem readsPairs_nil {top : PerlFrame} {rest : List PerlFrame} {relations : List (List Char × RslValue)}
    (h : top.phase = .comma) (hpairs : writtenPairs relations = []) : ReadsPairs as t [] top rest relations := by
  refine ⟨top.phase, by simp [h], ?_⟩
  rw [hpairs]
  simp [hashItems]

theorem ReadsPairs.append {ts us : List PerlToken} {top : PerlFrame} {rest : List PerlFrame}
    {rs qs : List (List Char × RslValue)} (hts : ReadsPairs as t ts top rest rs)
    (hus : ∀ top : PerlFrame, top.phase = .comma → ReadsPairs as t us top rest qs) :
    ReadsPairs as t (ts ++ .comma :: us) top rest (rs ++ qs) := by
  obtain ⟨phase, hphase, hts⟩ := hts
  obtain ⟨phase', hphase', hus⟩ := hus ⟨top.brace, top.items ++ hashItems (writtenPairs rs), .comma⟩ rfl
  refine ⟨phase', hphase', ?_⟩
  rw [foldlM_append, hts, bind_eq_bind, bind_some, foldlM_cons, parseStep_comma hphase,
    bind_eq_bind, bind_some, hus, append_assoc, ← hashItems_append, ← writtenPairs_append]

mutual

/-- A tree is read as its pairs if it begins with one, or stands behind a comma. -/
theorem readsPairs_rsl : ∀ (r : Rsl) (top : PerlFrame) (rest : List PerlFrame),
    top.phase = .comma ∨ top.phase = .start ∧ r.leads → ReadsPairs as t r.perlTokens top rest r.relations
  | .relation op attr seq, top, rest, h => by
    rw [Rsl.perlTokens, Rsl.relations]
    by_cases hstaging : isStaging attr
    · have hcomma : top.phase = .comma := h.resolve_right fun hleads => by simp [Rsl.leads, hstaging] at hleads
      rw [if_pos hstaging]
      exact readsPairs_nil hcomma (by simp [writtenPairs, hstaging])
    · have hphase : top.phase ≠ .item := by rcases h with h | h <;> simp [h]
      have hpairs : writtenPairs [(attr, seq)] = [(attr, seq.perl)] := by simp [writtenPairs, hstaging]
      refine ⟨.item, by simp, ?_⟩
      rw [if_neg hstaging, hpairs]
      exact foldlM_pairTokens (attr, seq.perl) top rest hphase
  | .boolean op [], top, rest, h =>
    readsPairs_nil (h.resolve_right fun hleads => by simp [Rsl.leads] at hleads) rfl
  | .boolean op (r :: rs), top, rest, h => readsPairs_operands (r :: rs) top rest (by simpa [Rsl.leads] using h)

theorem readsPairs_operands : ∀ (rs : List Rsl) (top : PerlFrame) (rest : List PerlFrame),
    top.phase = .comma ∨ top.phase = .start ∧ (∃ r ∈ rs.head?, r.leads) →
    ReadsPairs as t (Rsl.operandTokens rs) top rest (Rsl.operandRelations rs)
  | [], top, rest, h => readsPairs_nil (h.resolve_right (by simp)) rfl
  | r :: rs, top, rest, h => by
    have hr := readsPairs_rsl r top rest (by simpa using h)
    rw [Rsl.operandTokens, Rsl.operandRelations]
    split
    · next hnil =>
      obtain rfl := isEmpty_iff.1 hnil
      rw [append_nil, Rsl.operandRelations, append_nil]
      exact hr
    · exact hr.append fun top htop => readsPairs_operands rs top rest (.inl htop)

end

end ReadHash

/-! ## The strings of the tokens -/

theorem tokenStrings_pairTokens (p : PerlPair) :
    tokenStrings (pairTokens p) = (hashItems [p]).flatMap strings := by
  simp [hashItems]
  rfl

theorem tokenStrings_nextPairTokens : ∀ ps : List PerlPair,
    tokenStrings (ps.flatMap nextPairTokens) = (hashItems ps).flatMap strings
  | [] => rfl
  | p :: ps => by
    have hcons : hashItems (p :: ps) = hashItems [p] ++ hashItems ps := hashItems_append [p] ps
    rw [flatMap_cons, tokenStrings_append, tokenStrings_nextPairTokens ps, hcons, flatMap_append,
      ← tokenStrings_pairTokens]
    rfl

mutual

theorem tokenStrings_rsl : ∀ r : Rsl,
    tokenStrings r.perlTokens = (hashItems (writtenPairs r.relations)).flatMap strings
  | .boolean op rs => tokenStrings_operands rs
  | .relation op attr seq => by
    rw [Rsl.perlTokens, Rsl.relations]
    by_cases hstaging : isStaging attr
    · simp [hstaging, writtenPairs, hashItems, tokenStrings]
    · have hpairs : writtenPairs [(attr, seq)] = [(attr, seq.perl)] := by simp [writtenPairs, hstaging]
      rw [if_neg hstaging, hpairs, tokenStrings_pairTokens]

theorem tokenStrings_operands : ∀ rs : List Rsl, tokenStrings (Rsl.operandTokens rs) =
    (hashItems (writtenPairs (Rsl.operandRelations rs))).flatMap strings
  | [] => rfl
  | r :: rs => by
    rw [Rsl.operandTokens, Rsl.operandRelations, writtenPairs_append, hashItems_append, flatMap_append,
      tokenStrings_append, tokenStrings_rsl r, ← tokenStrings_operands rs]
    cases rs <;> rfl

end

theorem tokenStrings_description (request : DescriptionRequest) (args : List DescriptionArg) :
    tokenStrings (request.tokens args) = assignmentStrings (request.meaning args) := by
  have hhead : tokenStrings request.headTokens = [request.x509UserProxy, request.jobContact] := rfl
  have hend : tokenStrings [.closeList true, .semicolon] = [] := rfl
  have hhash (items : List PerlValue) : (hash items).strings = items.flatMap strings :=
    PerlFrame.strings_value ⟨true, items, .item⟩
  rw [DescriptionRequest.tokens, tokenStrings_append, tokenStrings_append, tokenStrings_append, hhead, hend,
    tokenStrings_rsl, tokenStrings_nextPairTokens, append_nil]
  simp only [DescriptionRequest.meaning, assignmentStrings, flatMap_cons, flatMap_nil, hhash, hashItems_append,
    flatMap_append, append_nil]
  rfl

/-! ## Reading the description -/

section Read

variable {request : DescriptionRequest} {args : List DescriptionArg}

theorem DescriptionRequest.pairs_ne_nil (request : DescriptionRequest) (args : List DescriptionArg) :
    request.pairs args ≠ [] := by
  exact append_ne_nil_of_right_ne_nil _ (cons_ne_nil _ _)

theorem Rsl.perlTokens_of_not_leads : ∀ {r : Rsl}, r.leads = false →
    r.perlTokens = [] ∨ ∃ ts, r.perlTokens = .comma :: ts
  | .relation op attr seq, h => by
    have hstaging : isStaging attr = true := by simpa [leads] using h
    exact .inl (by simp [perlTokens, hstaging])
  | .boolean op [], _ => .inl rfl
  | .boolean op (r :: rs), h => by
    rw [perlTokens, operandTokens]
    rcases perlTokens_of_not_leads (r := r) h with hnil | ⟨ts, hts⟩
    · rw [hnil]
      split
      · exact .inl rfl
      · exact .inr ⟨_, rfl⟩
    · rw [hts]
      exact .inr ⟨_, rfl⟩

/-- The state of the parser in the hash. -/
def DescriptionRequest.hashState (request : DescriptionRequest) (items : List PerlValue) (phase : ListPhase) : ParseState :=
  ⟨[(⟨"ENV".toList, some "X509_USER_PROXY".toList⟩, .str request.x509UserProxy),
    (⟨"ENV".toList, some "GLOBUS_GRAM_JOB_CONTACT".toList⟩, .str request.jobContact)],
    .nested ⟨"description".toList, none⟩ ⟨true, items, phase⟩ []⟩

theorem foldlM_headTokens : request.headTokens.foldlM parseStep ⟨[], .start⟩ = some (request.hashState [] .start) := rfl

theorem parsePerl_description (hleads : request.rsl.leads) :
    parsePerl (request.tokens args) = some (request.meaning args) := by
  obtain ⟨phase, hphase, hrsl⟩ : ∃ phase, phase ≠ ListPhase.start ∧ request.rsl.perlTokens.foldlM parseStep
      (request.hashState [] .start) = some (request.hashState (hashItems request.rsl.pairs) phase) :=
    readsPairs_rsl request.rsl ⟨true, [], .start⟩ [] (.inr ⟨rfl, hleads⟩)
  obtain ⟨phase', hpairs⟩ : ∃ phase', ((request.pairs args).flatMap nextPairTokens).foldlM parseStep
      (request.hashState (hashItems request.rsl.pairs) phase) =
      some (request.hashState (hashItems request.rsl.pairs ++ hashItems (request.pairs args)) phase') :=
    foldlM_nextPairTokens (request.pairs args) ⟨true, hashItems request.rsl.pairs, phase⟩ [] hphase
  have hend : [PerlToken.closeList true, .semicolon].foldlM parseStep
      (request.hashState (hashItems request.rsl.pairs ++ hashItems (request.pairs args)) phase') =
      some ⟨request.meaning args, .start⟩ := by
    rw [← hashItems_append]
    rfl
  have hrun : (request.tokens args).foldlM parseStep ⟨[], .start⟩ = some ⟨request.meaning args, .start⟩ := by
    simp only [DescriptionRequest.tokens, foldlM_append, foldlM_headTokens, bind_eq_bind, bind_some,
      hrsl, hpairs, hend]
  rw [parsePerl, hrun]

theorem parsePerl_eq_none (hleads : request.rsl.leads = false) : parsePerl (request.tokens args) = none := by
  have hcomma : ∃ ts, request.rsl.perlTokens ++ (request.pairs args).flatMap nextPairTokens = .comma :: ts := by
    rcases Rsl.perlTokens_of_not_leads hleads with hnil | ⟨ts, hts⟩
    · obtain ⟨p, ps, hps⟩ := exists_cons_of_ne_nil (request.pairs_ne_nil args)
      exact ⟨_, by rw [hnil, hps]; rfl⟩
    · exact ⟨_, by rw [hts]; rfl⟩
  obtain ⟨ts, hts⟩ := hcomma
  have hstep : parseStep (request.hashState [] .start) .comma = none := rfl
  have hrun : (request.tokens args).foldlM parseStep ⟨[], .start⟩ = none := by
    rw [DescriptionRequest.tokens, append_assoc request.headTokens, hts]
    simp only [foldlM_append, foldlM_headTokens, bind_eq_bind, bind_some, foldlM_cons, hstep,
      bind_none]
  rw [parsePerl, hrun]

/-- The description is read as it is meant, with every inserted string between its quotes, if and only if no string that
is pasted breaks out of its quotes and the tree begins with a relation that is written. A value that has a variable or a
concatenation fails only if it is one itself. -/
theorem description_reads_iff (request : DescriptionRequest) (args : List DescriptionArg) (v : RslValue)
    (hrsl : request.rsl.Plain) (hargs : ∀ a ∈ args, ∀ c ∈ a.attr, c.isAlpha) :
    (readPerl (enqueueDescription request args).chars = some (request.meaning args) ∧
        dataInside .code (enqueueDescription request args) ↔
      (∀ s ∈ request.pastedStrings, Pasteable s) ∧ request.rsl.leads) ∧
    ((v.hasReference → (enqueueRslValue v).2 ≠ 0) ↔ (v.hasReference → v.isReference)) := by
  have hspells := spells_description hrsl hargs
  refine ⟨⟨fun ⟨hread, _⟩ => ?_, fun ⟨hpasted, hleads⟩ => ?_⟩, ?_⟩
  · obtain ⟨tokens, hlex, hparse⟩ := bind_eq_some_iff.1 hread
    have hpasted := hspells.pasteable hlex
      ((parsePerl_strings hparse).symm.trans (tokenStrings_description request args).symm)
    rw [(hspells.lexes hpasted).lexPerl_eq] at hlex
    cases hlex
    refine ⟨hpasted, ?_⟩
    by_contra hleads
    rw [parsePerl_eq_none (Bool.eq_false_of_not_eq_true hleads)] at hparse
    cases hparse
  · have hlexes := hspells.lexes hpasted
    refine ⟨?_, hlexes.2⟩
    rw [readPerl, hlexes.lexPerl_eq, bind_some, parsePerl_description hleads]
  · cases v <;> simp [enqueueRslValue, RslValue.hasReference, RslValue.isReference, errorBadRsl]

end Read

/-- A request with a job directory and no other strings. -/
def smallRequest (rsl : Rsl) (jobDir : List Char) : DescriptionRequest where
  x509UserProxy := []
  jobContact := []
  rsl
  uniqId := none
  jobIdString := none
  cacheTag := none
  condorOs := none
  condorArch := none
  jobDir := some jobDir
  streamingDisabled := false
  streamingRequested := false
  jobStateFile := []
  stageInTodo := []
  stageInSharedTodo := []
  stageOutTodo := []
  stageStreamTodo := []

/-- The specification `&(count=1)`. -/
def countRsl : Rsl := .boolean .and [.relation .eq "count".toList (.sequence [.literal ['1']])]

/-- The specification `&(filestagein=)(count=1)`. -/
def stagingRsl : Rsl :=
  .boolean .and [.relation .eq "filestagein".toList (.sequence []), .relation .eq "count".toList (.sequence [.literal ['1']])]

theorem description_reads_count :
    readPerl (enqueueDescription (smallRequest countRsl ['d']) []).chars =
        some ((smallRequest countRsl ['d']).meaning []) ∧
      dataInside .code (enqueueDescription (smallRequest countRsl ['d']) []) :=
  (description_reads_iff (smallRequest countRsl ['d']) [] (.literal []) (by decide) (by simp)).1.2
    (by decide)

/-- The comma behind a staging relation stands at the front of the hash. A quote in the job directory ends its string. A
variable in a sequence is passed over. -/
theorem description_not_read :
    readPerl (enqueueDescription (smallRequest stagingRsl ['d']) []).chars = none ∧
    dataInside .code (enqueueDescription (smallRequest countRsl ['\'', 'd']) []) = false ∧
    RslValue.hasReference (.sequence [.var (.sequence [.literal ['H']])]) = true ∧
    (enqueueRslValue (.sequence [.var (.sequence [.literal ['H']])])).2 = 0 := by
  have hlexes : Lexes (enqueueDescription (smallRequest stagingRsl ['d']) [])
      ((smallRequest stagingRsl ['d']).tokens []) :=
    (spells_description (by decide) (by simp)).lexes (by decide)
  have hleads : (smallRequest stagingRsl ['d']).rsl.leads = false := by decide
  refine ⟨?_, by decide +kernel, rfl, rfl⟩
  rw [readPerl, hlexes.lexPerl_eq, bind_some, parsePerl_eq_none hleads]

end Globus
