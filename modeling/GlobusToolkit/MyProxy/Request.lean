/-
The requests of the MyProxy protocol (myproxy/source/myproxy.c): what the client writes for a request, and what the server
reads from it. Strings are free of null characters, memory is never short, and the request that is read into is zeroed.
-/
import GlobusToolkit.Lib.Words
import GlobusToolkit.MyProxy.Message

namespace Globus.MyProxy

open Lib List Option

/-! ## The functions -/

/-- The fields of a request, in the order in which they are written. -/
inductive Key where
  | version
  | command
  | username
  | passphrase
  | newPassphrase
  | lifetime
  | retriever
  | renewer
  | credName
  | credDesc
  | keyRetriever
  | trustedRetriever
  | trustedCerts
  | voname
  | vomses
  deriving DecidableEq

namespace Key

def all : List Key :=
  [version, command, username, passphrase, newPassphrase, lifetime, retriever, renewer, credName, credDesc, keyRetriever,
    trustedRetriever, trustedCerts, voname, vomses]

/-- The name of a field without its `=`. -/
def word : Key → List Char
  | version => "VERSION".toList
  | command => "COMMAND".toList
  | username => "USERNAME".toList
  | passphrase => "PASSPHRASE".toList
  | newPassphrase => "NEW_PHRASE".toList
  | lifetime => "LIFETIME".toList
  | retriever => "RETRIEVER".toList
  | renewer => "RENEWER".toList
  | credName => "CRED_NAME".toList
  | credDesc => "CRED_DESC".toList
  | keyRetriever => "KEYRETRIEVERS".toList
  | trustedRetriever => "RETRIEVER_TRUSTED".toList
  | trustedCerts => "TRUSTED_CERTS".toList
  | voname => "VONAME".toList
  | vomses => "VOMSES".toList

def text (key : Key) : List Char := key.word ++ ['=']

end Key

/-- `myproxy_request_t`. -/
structure Request where
  version : Option (List Char)
  username : Option (List Char)
  passphrase : List Char
  newPassphrase : List Char
  commandType : Int32
  proxyLifetime : Int32
  retrievers : Option (List Char)
  renewers : Option (List Char)
  credname : Option (List Char)
  creddesc : Option (List Char)
  authzcreds : Option (List Char)
  keyretrieve : Option (List Char)
  trustedRetrievers : Option (List Char)
  wantTrustedCerts : Int32
  voname : Option (List Char)
  vomses : Option (List Char)
  certreq : Option (List Char)
  deriving DecidableEq

def maxPassLen : Nat := 1024

/-- `encode_command`. -/
def encodeCommand (commandValue : Int32) : Option (List Char) :=
  match commandValue.toInt with
  | 0 => some "0".toList
  | 1 => some "1".toList
  | 2 => some "2".toList
  | 3 => some "3".toList
  | 4 => some "4".toList
  | 5 => some "5".toList
  | 6 => some "6".toList
  | 7 => some "7".toList
  | _ => none

/-- `my_append`, which ends at the first null pointer. -/
def myAppend (dest : List Char) : List (Option (List Char)) → List Char
  | some src :: srcs => myAppend (dest ++ src) srcs
  | _ => dest

def appendField (data : List Char) (key : Key) (value : Option (List Char)) : List Char :=
  myAppend data [some key.text, value, some ['\n']]

/-- A field that is left out if it is a null pointer. -/
def appendPresent (data : List Char) (key : Key) (value : Option (List Char)) : List Char :=
  if value.isSome then appendField data key value else data

/-- A field that is written for each of its lines (`strtok`). -/
def appendEach (data : List Char) (key : Key) (value : Option (List Char)) : List Char :=
  (words (· == '\n') (value.getD [])).foldl (fun data tok => appendField data key (some tok)) data

/-- `strip_char` with a newline. -/
def stripNewline (s : List Char) : List Char := s.filter (· ≠ '\n')

/-- `myproxy_serialize_request_ex`. -/
def serializeRequest (request : Request) : Option (List Char) := do
  let data := appendField [] .version request.version
  let command ← encodeCommand request.commandType
  let data := appendField data .command (some command)
  let data := appendField data .username request.username
  let data := appendField data .passphrase (some request.passphrase)
  let data := if request.newPassphrase ≠ [] then appendField data .newPassphrase (some request.newPassphrase) else data
  let data := appendField data .lifetime (some (encodeInteger request.proxyLifetime))
  let data := appendPresent data .retriever request.retrievers
  let data := appendPresent data .renewer request.renewers
  let data := appendPresent data .credName (request.credname.map stripNewline)
  let data := appendPresent data .credDesc (request.creddesc.map stripNewline)
  let data := appendPresent data .keyRetriever request.keyretrieve
  let data := appendPresent data .trustedRetriever request.trustedRetrievers
  let data := if request.wantTrustedCerts ≠ 0 then appendField data .trustedCerts (some "1".toList) else data
  let data := appendEach data .voname request.voname
  return appendEach data .vomses request.vomses

/-- A field that must be there. -/
def Converted.required : Converted → Option (List Char)
  | .found line => some line
  | _ => none

/-- A field that may be missing. -/
def Converted.optional : Converted → Option (Option (List Char))
  | .found line => some (some line)
  | .notFound => some none
  | .error => none

/-- `myproxy_deserialize_request`. -/
def deserializeRequest (data : List Char) : Option Request := do
  let version ← (convertMessage false data Key.version.text).required
  let command ← (convertMessage false data Key.command.text).required
  let commandType ← stringToInt command
  let username ← (convertMessage false data Key.username.text).required
  let passphrase ← (convertMessage false data Key.passphrase.text).required
  let newPassphrase ← (convertMessage false data Key.newPassphrase.text).optional
  let lifetime ← (convertMessage false data Key.lifetime.text).required
  let proxyLifetime ← stringToInt lifetime
  let retrievers ← (convertMessage false data Key.retriever.text).optional
  let renewers ← (convertMessage false data Key.renewer.text).optional
  let credname ← (convertMessage false data Key.credName.text).optional
  let creddesc ← (convertMessage false data Key.credDesc.text).optional
  let keyretrieve ← (convertMessage false data Key.keyRetriever.text).optional
  let trustedRetrievers ← (convertMessage false data Key.trustedRetriever.text).optional
  let trustedCerts ← (convertMessage false data Key.trustedCerts.text).optional
  let wantTrustedCerts ← (trustedCerts.map stringToInt).getD (some 0)
  let voname ← (convertMessage true data Key.voname.text).optional
  let vomses ← (convertMessage true data Key.vomses.text).optional
  return {
    version := some version
    username := some username
    passphrase := passphrase.take maxPassLen
    newPassphrase := (newPassphrase.getD []).take maxPassLen
    commandType, proxyLifetime, retrievers, renewers, credname, creddesc
    authzcreds := none
    keyretrieve, trustedRetrievers, wantTrustedCerts, voname, vomses
    certreq := none }

/-! ## The lines of a request -/

/-- The value of a field, if it is written. -/
def Request.value (r : Request) : Key → Option (List Char)
  | .version => r.version
  | .command => some (encodeInteger r.commandType)
  | .username => r.username
  | .passphrase => some r.passphrase
  | .newPassphrase => if r.newPassphrase = [] then none else some r.newPassphrase
  | .lifetime => some (encodeInteger r.proxyLifetime)
  | .retriever => r.retrievers
  | .renewer => r.renewers
  | .credName => r.credname
  | .credDesc => r.creddesc
  | .keyRetriever => r.keyretrieve
  | .trustedRetriever => r.trustedRetrievers
  | .trustedCerts => if r.wantTrustedCerts = 0 then none else some "1".toList
  | .voname => r.voname
  | .vomses => r.vomses

/-- The line of a field, if it is written. -/
def Request.line (r : Request) (key : Key) : Option (List Char) := (r.value key).map (key.text ++ ·)

/-- The lines that are written. -/
def Request.lines (r : Request) : List (List Char) := Key.all.filterMap r.line

/-- A request whose strings have no newline and no null and fit into their buffers. -/
structure CleanRequest extends Request where
  newline_not_mem : ∀ key, ∀ v ∈ toRequest.value key, '\n' ∉ v
  nul_not_mem : ∀ key, ∀ v ∈ toRequest.value key, '\x00' ∉ v
  passphrase_le : passphrase.length ≤ maxPassLen
  newPassphrase_le : newPassphrase.length ≤ maxPassLen
  voname_eq : voname = none
  vomses_eq : vomses = none

theorem appendField_eq (data : List Char) (r : Request) (key : Key) {v : List Char} (h : r.value key = some v) :
    appendField data key (some v) = data ++ textOf (r.line key).toList := by
  simp [appendField, myAppend, textOf, Request.line, h]

theorem appendPresent_eq (data : List Char) (r : Request) (key : Key) :
    appendPresent data key (r.value key) = data ++ textOf (r.line key).toList := by
  cases h : r.value key with
  | none => simp [appendPresent, textOf, Request.line, h]
  | some v => exact appendField_eq data r key h

theorem encodeCommand_eq (c : Int32) :
    encodeCommand c = if 0 ≤ c.toInt ∧ c.toInt ≤ 7 then some (encodeInteger c) else none := by
  unfold encodeCommand encodeInteger
  generalize c.toInt = v
  by_cases h : 0 ≤ v ∧ v ≤ 7
  · obtain ⟨hlo, hhi⟩ := h
    interval_cases v <;> rfl
  · rw [if_neg h]
    split <;> first | rfl | exact absurd (by decide) h

theorem stripNewline_eq_self {s : List Char} (h : '\n' ∉ s) : stripNewline s = s :=
  filter_eq_self.2 fun c hc => by
    have : c ≠ '\n' := fun heq => h (heq ▸ hc)
    simpa using this

theorem map_stripNewline {o : Option (List Char)} (h : ∀ v ∈ o, '\n' ∉ v) : o.map stripNewline = o := by
  cases o with
  | none => rfl
  | some v => rw [map_some, stripNewline_eq_self (h v rfl)]

theorem serializeRequest_eq (r : CleanRequest) {version username : List Char} (hversion : r.version = some version)
    (husername : r.username = some username) :
    serializeRequest r.toRequest = (encodeCommand r.commandType).map fun _ => textOf r.lines := by
  have hname : r.credname.map stripNewline = r.credname := map_stripNewline (r.newline_not_mem .credName)
  have hdesc : r.creddesc.map stripNewline = r.creddesc := map_stripNewline (r.newline_not_mem .credDesc)
  have hlines : r.lines = Key.all.flatMap fun key => (r.line key).toList := filterMap_eq_flatMap_toList _ _
  have hnew : ∀ data, (if r.newPassphrase ≠ [] then appendField data .newPassphrase (some r.newPassphrase) else data) =
      data ++ textOf (r.line .newPassphrase).toList := fun data => by
    rw [← appendPresent_eq]
    by_cases h : r.newPassphrase = [] <;> simp [h, Request.value, appendPresent]
  have hcerts : ∀ data, (if r.wantTrustedCerts ≠ 0 then appendField data .trustedCerts (some "1".toList) else data) =
      data ++ textOf (r.line .trustedCerts).toList := fun data => by
    rw [← appendPresent_eq]
    by_cases h : r.wantTrustedCerts = 0 <;> simp [h, Request.value, appendPresent]
  have hvo : ∀ data key, appendEach data key none = data := fun _ _ => rfl
  have hvoname : r.line .voname = none := by rw [Request.line, Request.value, r.voname_eq]; rfl
  have hvomses : r.line .vomses = none := by rw [Request.line, Request.value, r.vomses_eq]; rfl
  unfold serializeRequest
  rw [encodeCommand_eq, hname, hdesc, hversion, husername, r.voname_eq, r.vomses_eq]
  split
  · simp only [bind_eq_bind, bind_some, map_some, hnew, hcerts, hvo]
    rw [appendField_eq [] r.toRequest .version hversion, appendField_eq _ r.toRequest .command rfl,
      appendField_eq _ r.toRequest .username husername,
      appendField_eq _ r.toRequest .passphrase rfl, appendField_eq _ r.toRequest .lifetime rfl,
      show r.retrievers = r.value .retriever from rfl, show r.renewers = r.value .renewer from rfl,
      show r.credname = r.value .credName from rfl, show r.creddesc = r.value .credDesc from rfl,
      show r.keyretrieve = r.value .keyRetriever from rfl, show r.trustedRetrievers = r.value .trustedRetriever from rfl]
    simp only [appendPresent_eq, hlines, Key.all, flatMap_cons, flatMap_nil, textOf_append, hvoname, hvomses,
      toList_none, append_assoc, nil_append, append_nil]
    rfl
  · rfl

/-! ## Names in values -/

namespace Key

theorem mem_all (key : Key) : key ∈ all := by cases key <;> decide

theorem nodup_all : all.Nodup := by decide

theorem word_facts : ∀ key : Key, '=' ∉ key.word ∧ '\n' ∉ key.text ∧ key.text ≠ [] := by
  intro key
  cases key <;> decide

theorem eq_of_suffix {key key' : Key} (h : key.text <:+ key'.text) : key = key' := by
  have hall : ∀ k ∈ all, ∀ k' ∈ all, k.text <:+ k'.text → k = k' := by decide +kernel
  exact hall key (mem_all key) key' (mem_all key') h

end Key

namespace Request

variable (r : Request)

/-- What a search for a name finds in the value of another field. -/
def stray (key key' : Key) : Option (List Char) := (r.value key').bind fun v => (strstr key.text v).map Prod.snd

/-- All that is found in the values of other fields. -/
def strays (key : Key) : List (List Char) := (Key.all.filter (· ≠ key)).filterMap (r.stray key)

variable {r}

theorem strstr_line {key key' : Key} : (r.line key').bind (fun line => (strstr key.text line).map Prod.snd) =
    if key' = key then r.value key else r.stray key key' := by
  unfold line
  cases hv : r.value key' with
  | none =>
    split
    · next h => rw [← h, hv]; rfl
    · simp [stray, hv]
  | some v =>
    rw [map_some, bind_some]
    split
    · next h =>
      rw [← h, strstr_of_prefix (prefix_append _ _), hv]
      simp
    · next h =>
      have hname := strstr_name_append (s := v) (Key.word_facts key).1 (Key.word_facts key').1
        fun hsuffix => h (Key.eq_of_suffix hsuffix).symm
      rw [show strstr key.text (key'.text ++ v) = _ from hname, Option.map_map]
      simp only [stray, hv, bind_some]
      rfl

/-- The values that are found for a name: its own among the strays. -/
theorem exists_found (key : Key) : ∃ before after, r.strays key = before ++ after ∧
    r.lines.filterMap (fun line => (strstr key.text line).map Prod.snd) = before ++ (r.value key).toList ++ after := by
  obtain ⟨pre, post, hall⟩ := append_of_mem (Key.mem_all key)
  have hnodup : (pre ++ key :: post).Nodup := hall ▸ Key.nodup_all
  have hpre : ∀ k ∈ pre, k ≠ key := fun k hk heq => (nodup_append.1 hnodup).2.2 k hk key (by simp) heq
  have hpost : ∀ k ∈ post, k ≠ key := fun k hk heq =>
    (nodup_cons.1 (nodup_append.1 hnodup).2.1).1 (heq ▸ hk)
  have hstrays : ∀ ks : List Key, (∀ k ∈ ks, k ≠ key) →
      ks.filterMap (fun k => if k = key then r.value key else r.stray key k) = ks.filterMap (r.stray key) := fun ks hks =>
    filterMap_congr fun k hk => if_neg (hks k hk)
  refine ⟨pre.filterMap (r.stray key), post.filterMap (r.stray key), ?_, ?_⟩
  · have h1 : pre.filter (· ≠ key) = pre := filter_eq_self.2 fun k hk => by simpa using hpre k hk
    have h2 : post.filter (· ≠ key) = post := filter_eq_self.2 fun k hk => by simpa using hpost k hk
    rw [strays, hall, filter_append, filter_cons_of_neg (by simp), h1, h2, filterMap_append]
  · rw [lines, filterMap_filterMap]
    simp only [strstr_line]
    rw [hall, filterMap_append, filterMap_cons, if_pos rfl, hstrays pre hpre, hstrays post hpost]
    cases r.value key <;> simp

end Request

/-! ## Reading a request -/

/-- The fields of the request that are as they are read. -/
def Key.plain : List Key :=
  [.retriever, .renewer, .credName, .credDesc, .keyRetriever, .trustedRetriever, .voname, .vomses]

/-- What is read for a field; only those of virtual organizations may be there more than once. -/
def readField (data : List Char) (key : Key) : Converted :=
  convertMessage (key = .voname ∨ key = .vomses) data key.text

theorem deserializeRequest_eq_some {data : List Char} {r : Request} : deserializeRequest data = some r ↔
    (∃ v, (readField data .version).required = some v ∧ r.version = some v) ∧
    (∃ c, (readField data .command).required = some c ∧ stringToInt c = some r.commandType) ∧
    (∃ u, (readField data .username).required = some u ∧ r.username = some u) ∧
    (∃ p, (readField data .passphrase).required = some p ∧ r.passphrase = p.take maxPassLen) ∧
    (∃ p, (readField data .newPassphrase).optional = some p ∧ r.newPassphrase = (p.getD []).take maxPassLen) ∧
    (∃ l, (readField data .lifetime).required = some l ∧ stringToInt l = some r.proxyLifetime) ∧
    (∀ key ∈ Key.plain, (readField data key).optional = some (r.value key)) ∧
    (∃ t, (readField data .trustedCerts).optional = some t ∧
      (t.map stringToInt).getD (some 0) = some r.wantTrustedCerts) ∧
    r.authzcreds = none ∧ r.certreq = none := by
  simp only [Key.plain, forall_mem_cons]
  constructor
  · intro h
    obtain ⟨version, hversion, h⟩ := bind_eq_some_iff.1 h
    obtain ⟨command, hcommand, h⟩ := bind_eq_some_iff.1 h
    obtain ⟨commandType, hcommandType, h⟩ := bind_eq_some_iff.1 h
    obtain ⟨username, husername, h⟩ := bind_eq_some_iff.1 h
    obtain ⟨passphrase, hpassphrase, h⟩ := bind_eq_some_iff.1 h
    obtain ⟨newPassphrase, hnew, h⟩ := bind_eq_some_iff.1 h
    obtain ⟨lifetime, hlifetime, h⟩ := bind_eq_some_iff.1 h
    obtain ⟨proxyLifetime, hproxy, h⟩ := bind_eq_some_iff.1 h
    obtain ⟨retrievers, hretrievers, h⟩ := bind_eq_some_iff.1 h
    obtain ⟨renewers, hrenewers, h⟩ := bind_eq_some_iff.1 h
    obtain ⟨credname, hcredname, h⟩ := bind_eq_some_iff.1 h
    obtain ⟨creddesc, hcreddesc, h⟩ := bind_eq_some_iff.1 h
    obtain ⟨keyretrieve, hkeyretrieve, h⟩ := bind_eq_some_iff.1 h
    obtain ⟨trustedRetrievers, htrusted, h⟩ := bind_eq_some_iff.1 h
    obtain ⟨trustedCerts, hcerts, h⟩ := bind_eq_some_iff.1 h
    obtain ⟨want, hwant, h⟩ := bind_eq_some_iff.1 h
    obtain ⟨voname, hvoname, h⟩ := bind_eq_some_iff.1 h
    obtain ⟨vomses, hvomses, h⟩ := bind_eq_some_iff.1 h
    cases h
    exact ⟨⟨_, hversion, rfl⟩, ⟨_, hcommand, hcommandType⟩, ⟨_, husername, rfl⟩, ⟨_, hpassphrase, rfl⟩, ⟨_, hnew, rfl⟩,
      ⟨_, hlifetime, hproxy⟩, ⟨hretrievers, hrenewers, hcredname, hcreddesc, hkeyretrieve, htrusted, hvoname, hvomses,
      by simp⟩, ⟨_, hcerts, hwant⟩, rfl, rfl⟩
  · rintro ⟨⟨_, hversion, hv⟩, ⟨_, hcommand, hcommandType⟩, ⟨_, husername, hu⟩, ⟨_, hpassphrase, hp⟩, ⟨_, hnew, hn⟩,
      ⟨_, hlifetime, hproxy⟩, ⟨hretrievers, hrenewers, hcredname, hcreddesc, hkeyretrieve, htrusted, hvoname, hvomses, -⟩,
      ⟨_, hcerts, hwant⟩, hauthz, hcert⟩
    cases r
    subst hv hu hp hn hauthz hcert
    simp only [readField, reduceCtorEq, or_false, or_true, decide_false, decide_true] at *
    simp only [deserializeRequest, hversion, hcommand, hcommandType, husername, hpassphrase, hnew, hlifetime, hproxy,
      hretrievers, hrenewers, hcredname, hcreddesc, hkeyretrieve, htrusted, hcerts, hwant, hvoname, hvomses,
      bind_eq_bind, bind_some]
    rfl

section

variable {r : CleanRequest} (key : Key)

theorem newline_not_mem_lines : ∀ line ∈ r.lines, '\n' ∉ line := by
  intro line hline
  obtain ⟨key, -, hkey⟩ := mem_filterMap.1 hline
  obtain ⟨v, hv, rfl⟩ := map_eq_some_iff.1 hkey
  rw [mem_append, not_or]
  exact ⟨(Key.word_facts key).2.1, r.newline_not_mem key v hv⟩

/-- A field that is written is read if its name is nowhere else; otherwise it is an error. -/
theorem readField_of_some {v : List Char} (hv : r.value key = some v) :
    readField (textOf r.lines) key = if r.strays key = [] then .found v else .error := by
  have hkey : ¬ (key = .voname ∨ key = .vomses) := by
    rintro (rfl | rfl)
    · exact absurd (r.voname_eq.symm.trans hv) (by simp)
    · exact absurd (r.vomses_eq.symm.trans hv) (by simp)
  obtain ⟨before, after, hstrays, hfound⟩ := r.toRequest.exists_found key
  rw [readField, decide_eq_false hkey, convertMessage_textOf (Key.word_facts key).2.1 (Key.word_facts key).2.2
    newline_not_mem_lines, hfound, hstrays, hv]
  cases before with
  | nil => cases after <;> rfl
  | cons x before => cases before <;> rfl

/-- A field that is not written is read from a value that has its name in it. -/
theorem readField_of_none (hv : r.value key = none) :
    readField (textOf r.lines) key = .ofValues (key = .voname ∨ key = .vomses) (r.strays key) := by
  obtain ⟨before, after, hstrays, hfound⟩ := r.toRequest.exists_found key
  rw [readField, convertMessage_textOf (Key.word_facts key).2.1 (Key.word_facts key).2.2 newline_not_mem_lines, hfound,
    hstrays, hv]
  simp

theorem required_iff {v : List Char} {P : List Char → Prop} (hv : r.value key = some v) :
    (∃ x, (readField (textOf r.lines) key).required = some x ∧ P x) ↔ r.strays key = [] ∧ P v := by
  rw [readField_of_some key hv]
  split
  · next h => simp [h, Converted.required]
  · next h => simp [h, Converted.required]

theorem optional_iff : (readField (textOf r.lines) key).optional = some (r.value key) ↔ r.strays key = [] := by
  cases hv : r.value key with
  | none =>
    rw [readField_of_none key hv]
    generalize decide (key = .voname ∨ key = .vomses) = allowMultiple
    rcases r.strays key with _ | ⟨x, _ | ⟨y, l⟩⟩
    · simp [Converted.ofValues, Converted.optional]
    · simp [Converted.ofValues, Converted.optional]
    · cases allowMultiple <;> simp [Converted.ofValues, Converted.optional]
  | some v =>
    rw [readField_of_some key hv]
    split
    · next h => simp [h, Converted.optional]
    · next h => simp [h, Converted.optional]

theorem newPassphrase_iff :
    (∃ p, (readField (textOf r.lines) .newPassphrase).optional = some p ∧
      r.newPassphrase = (p.getD []).take maxPassLen) ↔
    r.strays .newPassphrase = [] ∨ (r.newPassphrase = [] ∧ r.strays .newPassphrase = [[]]) := by
  by_cases hnew : r.newPassphrase = []
  · have hv : r.value .newPassphrase = none := if_pos hnew
    rw [readField_of_none _ hv]
    rcases r.strays .newPassphrase with _ | ⟨x, _ | ⟨y, l⟩⟩
    · simp [Converted.ofValues, Converted.optional, hnew]
    · have hlen : maxPassLen ≠ 0 := by decide
      simp [Converted.ofValues, Converted.optional, hnew, hlen]
    · simp [Converted.ofValues, Converted.optional]
  · have hv : r.value .newPassphrase = some r.newPassphrase := if_neg hnew
    rw [readField_of_some _ hv]
    split
    · next h => simp [h, Converted.optional, take_of_length_le r.newPassphrase_le]
    · next h => simp [h, Converted.optional, hnew]

theorem trustedCerts_iff :
    (∃ t, (readField (textOf r.lines) .trustedCerts).optional = some t ∧
      (t.map stringToInt).getD (some 0) = some r.wantTrustedCerts) ↔
    (r.wantTrustedCerts = 0 ∨ r.wantTrustedCerts = 1) ∧ (r.strays .trustedCerts = [] ∨
      (r.wantTrustedCerts = 0 ∧ ∃ t, r.strays .trustedCerts = [t] ∧ stringToInt t = some 0)) := by
  by_cases hwant : r.wantTrustedCerts = 0
  · have hv : r.value .trustedCerts = none := if_pos hwant
    rw [readField_of_none _ hv]
    rcases r.strays .trustedCerts with _ | ⟨x, _ | ⟨y, l⟩⟩
    · simp [Converted.ofValues, Converted.optional, hwant]
    · simp [Converted.ofValues, Converted.optional, hwant]
    · simp [Converted.ofValues, Converted.optional]
  · have hv : r.value .trustedCerts = some "1".toList := if_neg hwant
    have hone : stringToInt "1".toList = some 1 := stringToInt_encodeInteger 1
    rw [readField_of_some _ hv]
    split
    · next h =>
      simp only [h, Converted.optional, Option.some.injEq, exists_eq_left', map_some, hone, getD_some, true_or,
        and_true, hwant, false_or]
      exact eq_comm
    · next h => simp [h, Converted.optional, hwant]

end

/-! ## Round trips -/

/-- The request is written, and reading the text gives it back. -/
def RoundTrips (r : Request) : Prop := ∃ text, serializeRequest r = some text ∧ deserializeRequest text = some r

/-- The name of a field is in the value of no other field. A stray new passphrase does no harm if it is empty, and a stray wish
for certificates if it is the number zero. -/
def Request.Undisturbed (r : Request) (key : Key) : Prop :=
  r.strays key = [] ∨ (key = .newPassphrase ∧ r.newPassphrase = [] ∧ r.strays key = [[]]) ∨
    (key = .trustedCerts ∧ r.wantTrustedCerts = 0 ∧ ∃ t, r.strays key = [t] ∧ stringToInt t = some 0)

/-- The requests that can be sent. -/
structure Request.Sendable (r : Request) : Prop where
  version : r.version.isSome
  username : r.username.isSome
  command : 0 ≤ r.commandType.toInt ∧ r.commandType.toInt ≤ 7
  wantTrustedCerts : r.wantTrustedCerts = 0 ∨ r.wantTrustedCerts = 1
  authzcreds : r.authzcreds = none
  certreq : r.certreq = none
  undisturbed : ∀ key, r.Undisturbed key

theorem Request.undisturbed_iff {r : Request} {key : Key} (hnew : key ≠ .newPassphrase) (hcerts : key ≠ .trustedCerts) :
    r.Undisturbed key ↔ r.strays key = [] := by
  simp [Undisturbed, hnew, hcerts]

theorem deserializeRequest_lines_iff (r : CleanRequest) {version username : List Char} (hversion : r.version = some version)
    (husername : r.username = some username) : deserializeRequest (textOf r.lines) = some r.toRequest ↔
      (r.wantTrustedCerts = 0 ∨ r.wantTrustedCerts = 1) ∧ r.authzcreds = none ∧ r.certreq = none ∧
        ∀ key, r.Undisturbed key := by
  have hv : r.value .version = some version := hversion
  have hu : r.value .username = some username := husername
  have hpass : r.passphrase = r.passphrase.take maxPassLen := (take_of_length_le r.passphrase_le).symm
  rw [deserializeRequest_eq_some]
  constructor
  · rintro ⟨h1, h2, h3, h4, h5, h6, hplain, h13, hauthz, hcert⟩
    obtain ⟨hwant, hcerts⟩ := trustedCerts_iff.1 h13
    refine ⟨hwant, hauthz, hcert, fun key => ?_⟩
    cases key with
    | version => exact .inl ((required_iff _ hv).1 h1).1
    | command => exact .inl ((required_iff _ rfl).1 h2).1
    | username => exact .inl ((required_iff _ hu).1 h3).1
    | passphrase => exact .inl ((required_iff _ rfl).1 h4).1
    | newPassphrase => exact (newPassphrase_iff.1 h5).imp_right fun h => .inl ⟨rfl, h⟩
    | lifetime => exact .inl ((required_iff _ rfl).1 h6).1
    | trustedCerts => exact hcerts.imp_right fun h => .inr ⟨rfl, h⟩
    | _ => exact .inl ((optional_iff _).1 (hplain _ (by decide)))
  · rintro ⟨hwant, hauthz, hcert, h⟩
    have hstrays : ∀ key, key ≠ .newPassphrase ∧ key ≠ .trustedCerts → r.strays key = [] := fun key hkey =>
      (Request.undisturbed_iff hkey.1 hkey.2).1 (h key)
    have hnew : r.strays .newPassphrase = [] ∨ (r.newPassphrase = [] ∧ r.strays .newPassphrase = [[]]) := by
      simpa [Request.Undisturbed] using h .newPassphrase
    have hcerts : r.strays .trustedCerts = [] ∨
        (r.wantTrustedCerts = 0 ∧ ∃ t, r.strays .trustedCerts = [t] ∧ stringToInt t = some 0) := by
      simpa [Request.Undisturbed] using h .trustedCerts
    have hplain : ∀ key ∈ Key.plain, key ≠ .newPassphrase ∧ key ≠ .trustedCerts := by decide
    exact ⟨(required_iff _ hv).2 ⟨hstrays _ (by decide), hversion⟩,
      (required_iff _ rfl).2 ⟨hstrays _ (by decide), stringToInt_encodeInteger _⟩,
      (required_iff _ hu).2 ⟨hstrays _ (by decide), husername⟩,
      (required_iff _ rfl).2 ⟨hstrays _ (by decide), hpass⟩, newPassphrase_iff.2 hnew,
      (required_iff _ rfl).2 ⟨hstrays _ (by decide), stringToInt_encodeInteger _⟩,
      fun key hkey => (optional_iff key).2 (hstrays key (hplain key hkey)), trustedCerts_iff.2 ⟨hwant, hcerts⟩, hauthz, hcert⟩

/-- A clean request survives its journey exactly if it can be sent. -/
theorem request_round_trips_iff (r : CleanRequest) : RoundTrips r.toRequest ↔ r.Sendable := by
  constructor
  · rintro ⟨text, hwritten, hread⟩
    obtain ⟨⟨version, -, hversion⟩, -, ⟨username, -, husername⟩, -⟩ := deserializeRequest_eq_some.1 hread
    rw [serializeRequest_eq r hversion husername, encodeCommand_eq] at hwritten
    split at hwritten
    · next hcommand =>
      cases hwritten
      obtain ⟨hwant, hauthz, hcert, h⟩ := (deserializeRequest_lines_iff r hversion husername).1 hread
      exact ⟨by simp [hversion], by simp [husername], hcommand, hwant, hauthz, hcert, h⟩
    · cases hwritten
  · rintro ⟨hversion, husername, hcommand, hwant, hauthz, hcert, h⟩
    obtain ⟨version, hversion⟩ := isSome_iff_exists.1 hversion
    obtain ⟨username, husername⟩ := isSome_iff_exists.1 husername
    refine ⟨textOf r.lines, ?_, (deserializeRequest_lines_iff r hversion husername).2 ⟨hwant, hauthz, hcert, h⟩⟩
    rw [serializeRequest_eq r hversion husername, encodeCommand_eq, if_pos hcommand, map_some]

/-- A request to store a credential whose description looks like a line for retrievers. -/
def describedRequest : CleanRequest where
  version := some "MYPROXYv2".toList
  username := some "joe".toList
  passphrase := "secret".toList
  newPassphrase := []
  commandType := 1
  proxyLifetime := 43200
  retrievers := none
  renewers := none
  credname := none
  creddesc := some "RETRIEVER=*".toList
  authzcreds := none
  keyretrieve := none
  trustedRetrievers := none
  wantTrustedCerts := 0
  voname := none
  vomses := none
  certreq := none
  newline_not_mem := by
    intro key
    cases key <;> decide +kernel
  nul_not_mem := by
    intro key
    cases key <;> decide +kernel
  passphrase_le := by decide
  newPassphrase_le := by decide
  voname_eq := rfl
  vomses_eq := rfl

/-- The description lets anyone retrieve the credential. -/
theorem description_sets_retrievers : describedRequest.retrievers = none ∧
    ((serializeRequest describedRequest.toRequest).bind deserializeRequest).map Request.retrievers =
      some (some "*".toList) := by
  decide +kernel

end Globus.MyProxy
