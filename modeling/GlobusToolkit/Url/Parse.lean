/-
Parsing of URLs (common/source/library/globus_url.c, as it is built on systems other than Windows). A string is
the list of its bytes; `charAt s pos` is what stands at `stringp[pos]`, with the null character behind the last
byte. A pointer into the string is the rest of the string from there on. Allocation succeeds and no pointer
passed is null, so that the errors for these cases do not occur.

All scanning loops run on fuel. They are `while` loops over a class of characters, and loops over a field with
escapes that end when no character was passed.
-/
import GlobusToolkit.Lib.CString
import GlobusToolkit.Lib.Loop

namespace Globus

open Lib

/-! ## The data -/

/-- `globus_url_scheme_t`. -/
inductive UrlScheme where
  | ftp
  | gsiftp
  | http
  | https
  | ldap
  | file
  | xNexus
  | xGassCache
  | sshftp
  | unknown
  deriving DecidableEq

/-- The error codes `GLOBUS_URL_ERROR_…`. -/
inductive UrlError where
  | badScheme
  | badUser
  | badPassword
  | badHost
  | badPort
  | badPath
  | badDn
  | badAttributes
  | badScope
  | badFilter
  deriving DecidableEq

/-- `globus_url_t`, with `none` for null. -/
structure Url where
  scheme : List Char
  schemeType : UrlScheme
  user : Option (List Char) := none
  password : Option (List Char) := none
  host : Option (List Char) := none
  port : Nat := 0
  urlPath : Option (List Char) := none
  urlSpecificPart : Option (List Char) := none
  dn : Option (List Char) := none
  attributes : Option (List Char) := none
  scope : Option (List Char) := none
  filter : Option (List Char) := none
  deriving DecidableEq

/-! ## Characters -/

def charAt (s : List Char) (pos : Nat) : Char := s.getD pos '\x00'

def urlIssafe (c : Char) : Bool := c ∈ ['$', '-', '_', '.', '+']

def urlIsextra (c : Char) : Bool := c ∈ ['!', '*', '\'', '(', ')', ',']

def urlIsschemeSpecial (c : Char) : Bool := c ∈ [';', '/', '?', ':', '@', '=', '&']

def urlIsglob (c : Char) : Bool := c ∈ ['*', '?', '[', ']', '{', '}', '!', '?', '=', ',', ':', '-']

def isSchemeChar (c : Char) : Bool := c.isLower || c.isDigit || c ∈ ['+', '-', '.']

def isUserChar (c : Char) : Bool := c.isAlphanum || urlIssafe c || urlIsextra c || c ∈ [';', '?', '&', '=']

def isHostChar (c : Char) : Bool := c.isAlphanum || c ∈ ['-', '.']

def isIpv6Char (c : Char) : Bool := isxdigit c || c ∈ [':', '.']

def isLdapChar (c : Char) : Bool := c.isAlphanum || urlIsextra c || urlIssafe c || c = '='

def isPathChar (c : Char) : Bool :=
  c.isAlphanum || urlIssafe c || urlIsextra c || urlIsschemeSpecial c || c ∈ ['~', '/', ' ']

def isPathCharRfc1738 (c : Char) : Bool :=
  c.isAlphanum || urlIssafe c || urlIsextra c || urlIsschemeSpecial c || c ∈ ['~', ' ']

def isPathCharLoose (c : Char) : Bool :=
  c.isAlphanum || urlIssafe c || urlIsextra c || urlIsschemeSpecial c || urlIsglob c || c ∈ ['~', ' ']

/-! ## Scanning -/

/-- A parser: no result when the fuel is used up, else an error or a value. -/
abbrev Parse := Partial UrlError

/-- `while(class(s[pos])) pos++`. -/
def scanWhile (fuel : Nat) (isClass : Char → Bool) (s : List Char) (pos : Nat) : Parse Nat :=
  loopE (fun pos => pure (if isClass (charAt s pos) then .inl (pos + 1) else .inr pos)) fuel pos

/-- `if(class(s[pos])) pos++`. -/
def scanIf (isClass : Char → Bool) (s : List Char) (pos : Nat) : Parse Nat :=
  pure (if isClass (charAt s pos) then pos + 1 else pos)

/-- A percent sign has to be followed by two hexadecimal digits. -/
def scanEscape (err : UrlError) (s : List Char) (pos : Nat) : Parse Nat :=
  if charAt s pos = '%' then
    if isxdigit (charAt s (pos + 1)) then if isxdigit (charAt s (pos + 2)) then pure (pos + 3) else throw err
    else throw err
  else pure pos

/-- One time around a loop over a field: characters, perhaps the end of the string, an escape. The loop is left
at a character that `stop` has, or when `pos` did not change. -/
def scanField {β : Type} (skip : Nat → Parse Nat) (atNul : Option (Parse β)) (err : UrlError) (stop : Char → Bool)
    (done : Nat → β) (s : List Char) (pos : Nat) : Parse (Nat ⊕ β) := do
  let p ← skip pos
  match atNul, charAt s p == '\x00' with
  | some leave, true =>
    let r ← leave
    return .inr r
  | _, _ =>
    let q ← scanEscape err s p
    return if !stop (charAt s q) && q != pos then .inl q else .inr (done q)

/-- `globusl_url_get_substring`: the first `nulpos` characters, with escapes decoded. A decoded null character
ends the string. -/
def urlGetSubstring (src : List Char) (nulpos : Nat) : List Char := cstr (decode ((src ++ ['\x00']).take nulpos))
where
  decode : List Char → List Char
  | '%' :: a :: b :: s => if isxdigit a && isxdigit b then hexByte a b :: decode s else '%' :: decode (a :: b :: s)
  | c :: s => c :: decode s
  | [] => []

/-! ## The parts of a URL -/

section Parts

variable (fuel : Nat)

/-- `globusl_url_get_scheme`; the rest begins with the colon. -/
def urlGetScheme (s : List Char) : Parse (List Char × UrlScheme × List Char) := do
  let pos ← scanWhile fuel isSchemeChar s 0
  failIf (charAt s pos ≠ ':') .badScheme
  failIf (pos = 0) .badScheme
  let scheme := urlGetSubstring s pos
  return (scheme, schemeType scheme, s.drop pos)
where
  schemeType (scheme : List Char) : UrlScheme :=
    if scheme = "ftp".toList then .ftp
    else if scheme = "gsiftp".toList then .gsiftp
    else if scheme = "http".toList then .http
    else if scheme = "https".toList then .https
    else if scheme = "ldap".toList then .ldap
    else if scheme = "file".toList then .file
    else if scheme = "x-nexus".toList then .xNexus
    else if scheme = "x-gass-cache".toList then .xGassCache
    else if scheme = "sshftp".toList then .sshftp
    else .unknown

/-- What a part of the URL leaves: the rest of the string, with a user and a password if there are. -/
structure UserPassword where
  stringp : List Char
  user : Option (List Char)
  password : Option (List Char)

/-- The end of `globusl_url_get_user_password`, behind the colon. -/
def urlGetPassword (user : List Char) (s : List Char) : Parse UserPassword := do
  let pos ← loopE (scanField (scanIf isUserChar s) (some (throw .badPassword)) .badPassword (· == '@') id s) fuel 0
  failIf (pos = 0) .badPassword
  if charAt s pos = '@' then return ⟨s.drop (pos + 1), some user, some (urlGetSubstring s pos)⟩
  else return ⟨s, some user, none⟩

/-- The part of `globusl_url_get_user_password` that reads the user. -/
def urlGetUser (s : List Char) : Parse UserPassword := do
  let found ← loopE (scanField (scanWhile fuel isUserChar s) (some (pure none)) .badUser
    (fun c => c == '@' || c == ':') some s) fuel 0
  match found with
  | none => return ⟨s, none, none⟩
  | some pos =>
    failIf (pos = 0) .badUser
    if charAt s pos = '@' then return ⟨s.drop (pos + 1), some (urlGetSubstring s pos), none⟩
    else if charAt s pos = ':' then urlGetPassword fuel (urlGetSubstring s pos) (s.drop (pos + 1))
    else return ⟨s, none, none⟩

/-- `globusl_url_get_user_password`: the first loop looks for `@`. -/
def urlGetUserPassword (s : List Char) : Parse UserPassword := do
  let found ← loopE (scanField (scanWhile fuel (fun c => isUserChar c || c == ':') s) (some (pure none)) .badUser
    (· == '@') some s) fuel 0
  match found with
  | none => return ⟨s, none, none⟩
  | some pos => if charAt s pos ≠ '@' then return ⟨s, none, none⟩ else urlGetUser fuel s

/-- What `globusl_url_get_host_port` leaves, also when it fails. -/
structure HostPort where
  rc : Option UrlError
  stringp : List Char
  host : Option (List Char)
  port : Nat

/-- `atoi` of a string of digits, as `unsigned short`; a number that is too large is read as the largest `long`. -/
def portOf (digits : List Char) : Nat := min (Nat.ofDigitChars 10 digits 0) (2 ^ 63 - 1) % 2 ^ 16

/-- The port, if there is one. -/
def urlGetPort (host : List Char) (s : List Char) : Parse HostPort := do
  if charAt s 0 = ':' then
    let s := s.drop 1
    let pos ← scanWhile fuel Char.isDigit s 0
    if pos = 0 then return ⟨some .badPort, s, some host, 0⟩
    else return ⟨none, s.drop pos, some host, portOf (urlGetSubstring s pos)⟩
  else return ⟨none, s, some host, 0⟩

/-- `globusl_url_get_host_port`. -/
def urlGetHostPort (s : List Char) : Parse HostPort := do
  let bracket := charAt s 0 = '['
  let s := if bracket then s.drop 1 else s
  let pos ← scanWhile fuel (if bracket then isIpv6Char else isHostChar) s 0
  let next := if charAt s pos = ']' then pos + 1 else pos
  if pos = 0 then return ⟨some .badHost, s, none, 0⟩
  else if charAt s pos = ':' ∨ charAt s pos = '/' ∨
      (charAt s pos = ']' ∧ (charAt s (pos + 1) = ':' ∨ charAt s (pos + 1) = '/')) then
    urlGetPort fuel (urlGetSubstring s pos) (s.drop next)
  else if charAt s pos = '\x00' ∨ (charAt s pos = ']' ∧ charAt s (pos + 1) = '\x00') then
    return ⟨none, s.drop next, some (urlGetSubstring s pos), 0⟩
  else return ⟨some .badHost, s, none, 0⟩

/-- One field of `globusl_url_get_ldap_specific`: it ends with a question mark, the last one with the string. -/
def urlGetLdapField (err : UrlError) (stop : Char) (s : List Char) : Parse (List Char × List Char) := do
  let pos ← loopE (scanField (scanIf isLdapChar s) none err (· == '?') id s) fuel 0
  failIf (pos = 0) err
  failIf (charAt s pos ≠ stop) err
  return (urlGetSubstring s pos, s.drop (pos + 1))

/-- `globusl_url_get_ldap_specific`. -/
def urlGetLdapSpecific (s : List Char) : Parse (List Char × List Char × List Char × List Char) := do
  let (dn, s) ← urlGetLdapField fuel .badDn '?' s
  let (attributes, s) ← urlGetLdapField fuel .badAttributes '?' s
  let (scope, s) ← urlGetLdapField fuel .badScope '?' s
  let (filter, _) ← urlGetLdapField fuel .badFilter '\x00' s
  return (dn, attributes, scope, filter)

/-- `globusl_url_get_path` and `globusl_url_get_path_loose`, over the characters of a path. An empty path is none,
and the path of an FTP URL that begins with `/~` loses the slash. -/
def urlGetPathOf (isClass : Char → Bool) (scheme : UrlScheme) (s : List Char) : Parse (Option (List Char)) := do
  let pos ← loopE (scanField (scanIf isClass s) none .badPath (· == '\x00') id s) fuel 0
  if pos = 0 then return none
  else
    failIf (pos ≠ s.length) .badPath
    let s :=
      if (scheme = .ftp ∨ scheme = .gsiftp ∨ scheme = .sshftp) ∧ pos > 1 ∧ charAt s 0 = '/' ∧ charAt s 1 = '~' then
        s.drop 1
      else s
    return some (urlGetSubstring s pos)

def urlGetPath : UrlScheme → List Char → Parse (Option (List Char)) := urlGetPathOf fuel isPathChar

def urlGetPathLoose : UrlScheme → List Char → Parse (Option (List Char)) := urlGetPathOf fuel isPathCharLoose

/-- The loop over slashes in `globusl_url_get_path_rfc1738`: the first characters of the path and all slashes behind
a slash are left out of `tmpbuf`. -/
def skipSlashes (s : List Char) (at' : Nat × List Char) : Parse (Nat × List Char) :=
  loopE (fun (pos, tmpbuf) => pure (
    if charAt s pos = '/' then
      .inl (pos + 1, if pos > 0 ∧ charAt s pos ≠ charAt s (pos - 1) then tmpbuf ++ [charAt s pos] else tmpbuf)
    else .inr (pos, tmpbuf))) fuel at'

/-- A character of the path goes to `tmpbuf`. -/
def takeRfc1738 (s : List Char) (at' : Nat × List Char) : Nat × List Char :=
  if isPathCharRfc1738 (charAt s at'.1) then (at'.1 + 1, at'.2 ++ [charAt s at'.1]) else at'

/-- One time around the loop of `globusl_url_get_path_rfc1738`. -/
def scanRfc1738 (s : List Char) (at' : Nat × List Char) : Parse ((Nat × List Char) ⊕ (Nat × List Char)) := do
  let lastpos := at'.1
  let r ← skipSlashes fuel s at'
  let (pos, tmpbuf) := takeRfc1738 s r
  let next ← scanEscape .badPath s pos
  let tmpbuf := tmpbuf ++ (s.drop pos).take (next - pos)
  return if charAt s next ≠ '\x00' ∧ lastpos ≠ next then .inl (next, tmpbuf) else .inr (next, tmpbuf)

/-- `globusl_url_get_path_rfc1738`. -/
def urlGetPathRfc1738 (_scheme : UrlScheme) (s : List Char) : Parse (Option (List Char)) := do
  let (pos, tmpbuf) ← loopE (scanRfc1738 fuel s) fuel (0, [])
  if pos = 0 then return none
  else
    failIf (pos ≠ s.length) .badPath
    return some (urlGetSubstring tmpbuf tmpbuf.length)

/-- The part of `globusl_url_get_file_specific` behind the host: all slashes but the last are skipped. -/
def urlGetFilePath (getPath : UrlScheme → List Char → Parse (Option (List Char))) (host : Option (List Char))
    (pos : Nat) (s : List Char) : Parse (Option (List Char) × Option (List Char)) := do
  let pos ← scanWhile fuel (· == '/') s pos
  let s := if pos > 1 then s.drop (pos - 1) else s
  failIf (charAt s 0 ≠ '/') .badPath
  let path ← getPath .file s
  return (host, path)

/-- `globusl_url_get_file_specific`: the host and the path. -/
def urlGetFileSpecific (s : List Char) : Parse (Option (List Char) × Option (List Char)) := do
  let pos ← scanWhile fuel (· == '/') s 0
  failIf (pos = 0) .badPath
  if pos = 2 then
    let s := s.drop 2
    let pos ← scanWhile fuel isHostChar s 0
    if charAt s pos = '/' ∧ pos ≠ 0 then
      urlGetFilePath fuel (urlGetPath fuel) (some (urlGetSubstring s pos)) 0 (s.drop pos)
    else urlGetFilePath fuel (urlGetPath fuel) none 0 s
  else urlGetFilePath fuel (urlGetPath fuel) none pos s

/-- The loop over the host name in `globusl_url_get_file_specific_loose`. Its body is the statement behind it, which
takes the host, so that `pos` does not change. -/
def scanHostLoose (s : List Char) : Parse (List Char × Option (List Char)) :=
  loopE (fun (pos, s, host) => pure (
    if isHostChar (charAt s pos) then
      if charAt s pos = '/' ∧ pos ≠ 0 then .inl (pos, s.drop pos, some (urlGetSubstring s pos))
      else .inl (pos, s, host)
    else .inr (s, host))) fuel ((0, s, none) : Nat × List Char × Option (List Char))

/-- `globusl_url_get_file_specific_loose`. -/
def urlGetFileSpecificLoose (s : List Char) : Parse (Option (List Char) × Option (List Char)) := do
  let pos ← scanWhile fuel (· == '/') s 0
  failIf (pos = 0) .badPath
  if pos = 2 then
    let (s, host) ← scanHostLoose fuel (s.drop 2)
    urlGetFilePath fuel (urlGetPathLoose fuel) host 0 s
  else urlGetFilePath fuel (urlGetPathLoose fuel) none pos s

/-! ## Whole URLs -/

/-- A host, perhaps a port, and a path; any error of the host is one of the port. -/
def parseHostPath (getPath : UrlScheme → List Char → Parse (Option (List Char))) (url : Url) (s : List Char) :
    Parse Url := do
  let hp ← urlGetHostPort fuel s
  failIf (hp.rc ≠ none) .badPort
  let urlPath ← getPath url.schemeType hp.stringp
  return { url with host := hp.host, port := hp.port, urlPath }

/-- The scheme is not known: a host and a path if the string has this form. -/
def parseUnknown (url : Url) (s : List Char) : Parse Url := do
  let hp ← urlGetHostPort fuel s
  let url := { url with host := hp.host, port := hp.port }
  if hp.rc = none then
    match ← attempt (urlGetPath fuel url.schemeType hp.stringp) with
    | .ok urlPath => return { url with urlPath }
    | .error _ => return { url with urlSpecificPart := some (urlGetSubstring hp.stringp hp.stringp.length) }
  else return { url with urlSpecificPart := some (urlGetSubstring hp.stringp hp.stringp.length) }

/-- An LDAP URL. -/
def parseLdap (url : Url) (s : List Char) : Parse Url := do
  let hp ← urlGetHostPort fuel s
  match hp.rc with
  | some err => throw err
  | none =>
    failIf (charAt hp.stringp 0 ≠ '/') .badDn
    let (dn, attributes, scope, filter) ← urlGetLdapSpecific fuel (hp.stringp.drop 1)
    return { url with
      host := hp.host, port := hp.port, dn := some dn, attributes := some attributes, scope := some scope
      filter := some filter }

/-- The three parsers differ in the paths of FTP and HTTP URLs and in what is behind `file:`. -/
structure UrlVariant where
  ftpPath : UrlScheme → List Char → Parse (Option (List Char))
  httpPath : UrlScheme → List Char → Parse (Option (List Char))
  fileSpecific : List Char → Parse (Option (List Char) × Option (List Char))

/-- The part of the parsers behind the scheme. -/
def parseSpecific (v : UrlVariant) (url : Url) (s : List Char) : Parse Url := do
  match url.schemeType with
  | .ftp | .gsiftp | .sshftp =>
    let up ← urlGetUserPassword fuel s
    parseHostPath fuel v.ftpPath { url with user := up.user, password := up.password } up.stringp
  | .http | .https => parseHostPath fuel v.httpPath url s
  | .xNexus =>
    let hp ← urlGetHostPort fuel s
    match hp.rc with
    | some err => throw err
    | none =>
      failIf (hp.port = 0) .badPort
      return { url with host := hp.host, port := hp.port }
  | .ldap => parseLdap fuel url s
  | .file =>
    let (host, urlPath) ← v.fileSpecific s
    return { url with host, urlPath }
  | .xGassCache => return { url with urlSpecificPart := some (urlGetSubstring s s.length) }
  | .unknown => parseUnknown fuel url s

def urlParseOf (v : UrlVariant) (s : List Char) : Parse Url := do
  let (scheme, schemeType, s) ← urlGetScheme fuel s
  failIf (¬ "://".toList <+: s ∧ schemeType ≠ .file) .badScheme
  parseSpecific fuel v { scheme, schemeType } (if schemeType = .file then s.drop 1 else s.drop 3)

/-- `globus_url_parse`. -/
def urlParse : List Char → Parse Url :=
  urlParseOf fuel { ftpPath := urlGetPath fuel, httpPath := urlGetPath fuel, fileSpecific := urlGetFileSpecific fuel }

/-- `globus_url_parse_rfc1738`. -/
def urlParseRfc1738 : List Char → Parse Url :=
  urlParseOf fuel
    { ftpPath := urlGetPathRfc1738 fuel, httpPath := urlGetPath fuel, fileSpecific := urlGetFileSpecific fuel }

/-- `globus_url_parse_loose`. -/
def urlParseLoose : List Char → Parse Url :=
  urlParseOf fuel
    { ftpPath := urlGetPathLoose fuel, httpPath := urlGetPathLoose fuel, fileSpecific := urlGetFileSpecificLoose fuel }

end Parts

end Globus
