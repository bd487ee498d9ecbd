/-
The verification of a certificate chain with proxies (gsi/callback/source/library/globus_gsi_callback.c): OpenSSL calls
`globus_i_gsi_callback_cred_verify` once for every certificate, from the root to the leaf, and the callback data carry the
number of proxies, the limit on it and the last type along. A certificate is what these checks read of it: its type, its
basic constraints and its critical extensions. Revocation and signing policies, and the callback of the application for
other extensions, are parameters.
-/
import GlobusToolkit.Lib.CString

namespace Globus.Gsi

open List

/-! ## Certificates -/

inductive ProxyFormat where
  | gsi2
  | gsi3
  | rfc
  deriving DecidableEq, Repr

inductive ProxyKind where
  | impersonation
  | limited
  | restricted
  | independent
  deriving DecidableEq, Repr

/-- `globus_gsi_cert_utils_cert_type_t`, as `globus_gsi_cert_utils_get_cert_type` returns it. -/
inductive CertType where
  | eec
  | ca
  | proxy (format : ProxyFormat) (kind : ProxyKind)
  deriving DecidableEq, Repr

def ProxyFormat.bit : ProxyFormat → BitVec 32
  | .gsi2 => 1 <<< 2
  | .gsi3 => 1 <<< 3
  | .rfc => 1 <<< 4

def ProxyKind.bit : ProxyKind → BitVec 32
  | .impersonation => 1 <<< 5
  | .limited => 1 <<< 6
  | .restricted => 1 <<< 7
  | .independent => 1 <<< 8

namespace CertType

/-- The value of the enumeration. -/
def bits : CertType → BitVec 32
  | .eec => 1 <<< 0
  | .ca => 1 <<< 1
  | .proxy format kind => format.bit ||| kind.bit

def proxyMask : BitVec 32 :=
  ProxyKind.impersonation.bit ||| ProxyKind.limited.bit ||| ProxyKind.restricted.bit ||| ProxyKind.independent.bit

/-- `GLOBUS_GSI_CERT_UTILS_IS_PROXY`. -/
def isProxy (t : CertType) : Bool := t.bits &&& proxyMask != 0

/-- `GLOBUS_GSI_CERT_UTILS_IS_GSI_2_PROXY`, `_IS_GSI_3_PROXY` and `_IS_RFC_PROXY`. -/
def isProxyOf (format : ProxyFormat) (t : CertType) : Bool := t.isProxy && t.bits &&& format.bit != 0

/-- `GLOBUS_GSI_CERT_UTILS_IS_LIMITED_PROXY`. -/
def isLimitedProxy (t : CertType) : Bool := t.bits &&& ProxyKind.limited.bit != 0

/-- `GLOBUS_GSI_CERT_UTILS_IS_INDEPENDENT_PROXY`. -/
def isIndependentProxy (t : CertType) : Bool := t.bits &&& ProxyKind.independent.bit != 0

@[simp] theorem isProxyOf_proxy (f g : ProxyFormat) (k : ProxyKind) : (proxy f k).isProxyOf g = decide (f = g) := by
  cases f <;> cases g <;> cases k <;> rfl

@[simp] theorem isLimitedProxy_proxy (f : ProxyFormat) (k : ProxyKind) : (proxy f k).isLimitedProxy = decide (k = .limited) := by
  cases f <;> cases k <;> rfl

@[simp] theorem isIndependentProxy_proxy (f : ProxyFormat) (k : ProxyKind) :
    (proxy f k).isIndependentProxy = decide (k = .independent) := by
  cases f <;> cases k <;> rfl

end CertType

/-- The extensions that the check of critical extensions tells apart. -/
inductive Nid where
  | basicConstraints
  | keyUsage
  | extKeyUsage
  | netscapeCertType
  | subjectKeyIdentifier
  | authorityKeyIdentifier
  | proxyCertInfo
  | proxyCertInfoOld
  | other (n : Nat)
  deriving DecidableEq, Repr

/-- What is read of a `PROXY_CERT_INFO_EXTENSION`: the constraint, and whether there is a policy. -/
structure ProxyCertInfo where
  pcPathLengthConstraint : Option Nat
  policy : Bool
  constraint_lt : ∀ p ∈ pcPathLengthConstraint, p < 2 ^ 31

/-- A critical extension, and what `X509V3_EXT_d2i` makes of it. -/
structure Extension where
  nid : Nid
  proxycertinfo : Option ProxyCertInfo

/-- A certificate: `basicConstraints` is there if the extension is, with the path length if it has one. -/
structure Certificate where
  certType : CertType
  basicConstraints : Option (Option Nat)
  criticalExtensions : List Extension

/-- `X509_get_pathlen`. -/
def Certificate.pathlen (c : Certificate) : Int :=
  match c.basicConstraints with
  | some (some p) => p
  | _ => -1

/-! ## The checks -/

/-- The errors that the callback returns. -/
inductive VerifyError where
  | mixingDifferentProxyTypes
  | limitedProxy
  | proxyPathLengthExceeded
  | revoked
  | signingPolicy
  | verifyCred
  deriving DecidableEq, Repr

/-- The callback data. -/
structure CallbackData where
  proxyDepth : Int
  maxProxyDepth : Int
  certType : CertType
  deriving DecidableEq

/-- `globus_gsi_callback_data_init`. -/
def CallbackData.init : CallbackData := ⟨0, -1, .eec⟩

/-- The checks that are not modelled. -/
structure VerifyEnv where
  checkRevoked : Certificate → Bool
  checkSigningPolicy : Certificate → Bool
  extensionCb : Option (CallbackData → Extension → Bool)

/-- `globus_i_gsi_callback_check_proxy`. -/
def checkProxy (cert : Certificate) (data : CallbackData) : Except VerifyError CallbackData :=
  let certType := cert.certType
  if certType.isProxy then
    if data.certType.isProxyOf .gsi2 && !certType.isProxyOf .gsi2 ||
        data.certType.isProxyOf .gsi3 && !certType.isProxyOf .gsi3 ||
        data.certType.isProxyOf .rfc && !certType.isProxyOf .rfc then
      .error .mixingDifferentProxyTypes
    else if data.certType.isLimitedProxy && !(certType.isLimitedProxy || certType.isIndependentProxy) then
      .error .limitedProxy
    else
      let data := { data with proxyDepth := data.proxyDepth + 1 }
      if data.maxProxyDepth ≠ -1 ∧ data.maxProxyDepth < data.proxyDepth then .error .proxyPathLengthExceeded
      else .ok { data with certType }
  else .ok { data with certType }

/-- The path length constraint of an extension is taken over, if it is stricter; the sum is stored in an `int`. -/
def CallbackData.constrain (data : CallbackData) (info : ProxyCertInfo) : CallbackData :=
  match info.pcPathLengthConstraint with
  | none => data
  | some pathLength =>
    if (pathLength : Int) > -1 then
      if data.maxProxyDepth = -1 ∨ data.maxProxyDepth > data.proxyDepth + pathLength then
        { data with maxProxyDepth := Int.bmod (data.proxyDepth + pathLength) (2 ^ 32) }
      else data
    else data

/-- An extension that is not known here, or any one once a policy has been seen, is left to the application. -/
def VerifyEnv.accepts (env : VerifyEnv) (data : CallbackData) (policy : Bool) (extension : Extension) : Bool :=
  match extension.nid, policy with
  | .other _, _ | _, true =>
    match env.extensionCb with
    | some extensionCb => extensionCb data extension
    | none => false
  | _, false => true

/-- The loop of `globus_i_gsi_callback_check_critical_extensions`; `policy` stays set for the extensions that follow. -/
def checkCriticalExtensions (env : VerifyEnv) : Bool → List Extension → CallbackData → Except VerifyError CallbackData
  | _, [], data => .ok data
  | policy, extension :: rest, data =>
    if extension.nid = .proxyCertInfo ∨ extension.nid = .proxyCertInfoOld then
      match extension.proxycertinfo with
      | none => .error .verifyCred
      | some info =>
        let data := data.constrain info
        if env.accepts data info.policy extension then checkCriticalExtensions env info.policy rest data
        else .error .verifyCred
    else if env.accepts data policy extension then checkCriticalExtensions env policy rest data
    else .error .verifyCred

/-- A certificate at place `i` of the chain, counted from the leaf, that is too far up. -/
def tooFarUp (data : CallbackData) (cert : Certificate) (i : Nat) : Prop :=
  i - data.proxyDepth > 1 ∧ cert.pathlen ≠ -1 ∧ i - data.proxyDepth > cert.pathlen + 1 ∧ cert.basicConstraints.isSome

instance (data : CallbackData) (cert : Certificate) (i : Nat) : Decidable (tooFarUp data cert i) :=
  inferInstanceAs (Decidable (_ ∧ _))

/-- `globus_i_gsi_callback_check_path_length`, with the chain from the leaf on: nothing is checked in front of the leaf. -/
def checkPathLength (chain : List Certificate) (leaf : Bool) (data : CallbackData) : Except VerifyError CallbackData :=
  if leaf && chain.zipIdx.any fun (cert, i) => tooFarUp data cert i then .error .verifyCred else .ok data

/-- `globus_i_gsi_callback_cred_verify` with `preverify_ok`. -/
def credVerify (env : VerifyEnv) (chain : List Certificate) (leaf : Bool) (cert : Certificate) (data : CallbackData) :
    Except VerifyError CallbackData := do
  let data ← checkProxy cert data
  if data.certType = .eec ∨ data.certType = .ca then
    if !env.checkRevoked cert then throw .revoked
    if !env.checkSigningPolicy cert then throw .signingPolicy
  let data ← checkCriticalExtensions env false cert.criticalExtensions data
  checkPathLength chain leaf data

/-- The calls for the rest of a chain, root first; the last one is for the leaf. -/
def verifyFrom (env : VerifyEnv) (chain : List Certificate) : List Certificate → CallbackData → Except VerifyError CallbackData
  | [], data => .ok data
  | cert :: rest, data => do
    let data ← credVerify env chain rest.isEmpty cert data
    verifyFrom env chain rest data

/-- A chain, root first. The number of its certificates is an `int`. -/
structure CertChain where
  cas : List Certificate
  eec : Certificate
  proxies : List Certificate
  cas_type : ∀ c ∈ cas, c.certType = .ca
  eec_type : eec.certType = .eec
  proxies_type : ∀ c ∈ proxies, c.certType.isProxy
  length_lt : cas.length + 1 + proxies.length < 2 ^ 31

def CertChain.certs (chain : CertChain) : List Certificate := chain.cas ++ chain.eec :: chain.proxies

/-- All calls for a chain. -/
def CertChain.verify (env : VerifyEnv) (chain : CertChain) : Except VerifyError CallbackData :=
  verifyFrom env chain.certs.reverse chain.certs .init

/-! ## One call -/

/-- What may follow in a chain: a proxy of the same format behind a proxy, and a limited or an independent one behind a
limited one. -/
def Delegates : CertType → CertType → Prop
  | .proxy f k, .proxy g l => f = g ∧ (k = .limited → l = .limited ∨ l = .independent)
  | _, _ => True

variable {cert : Certificate} {data d : CallbackData}

theorem checkProxy_proxy (hproxy : cert.certType.isProxy)
    (h : checkProxy cert data = .ok d) : Delegates data.certType cert.certType ∧
      (data.maxProxyDepth ≠ -1 → data.proxyDepth + 1 ≤ data.maxProxyDepth) ∧
      d = ⟨data.proxyDepth + 1, data.maxProxyDepth, cert.certType⟩ := by
  simp only [checkProxy, if_pos hproxy] at h
  split at h
  · cases h
  · next hmix =>
    split at h
    · cases h
    · next hlimited =>
      split at h
      · cases h
      · next hmax =>
        refine ⟨?_, fun hne => by simp only [ne_eq, not_and, not_lt] at hmax; exact hmax hne, (Except.ok.inj h).symm⟩
        cases ht : cert.certType with
        | eec => simp [Delegates]
        | ca => simp [Delegates]
        | proxy g l =>
          cases hd : data.certType with
          | eec => trivial
          | ca => trivial
          | proxy f k =>
            rw [ht, hd] at hmix hlimited
            refine ⟨?_, fun hk => ?_⟩
            · cases f <;> cases g <;> first | rfl | simp at hmix
            · subst hk
              by_contra hl
              exact hlimited (by simpa [not_or] using hl)

theorem checkProxy_other (hproxy : cert.certType.isProxy = false)
    (h : checkProxy cert data = .ok d) : d = { data with certType := cert.certType } := by
  simp only [checkProxy, hproxy] at h
  exact (Except.ok.inj h).symm

/-- The depth and the type are the same, and the limit is not relaxed. -/
structure Tighter (d d' : CallbackData) : Prop where
  depth : d'.proxyDepth = d.proxyDepth
  type : d'.certType = d.certType
  max : d.maxProxyDepth ≠ -1 → d'.maxProxyDepth ≠ -1 ∧ d'.maxProxyDepth ≤ d.maxProxyDepth

theorem Tighter.refl (d : CallbackData) : Tighter d d := ⟨rfl, rfl, fun h => ⟨h, le_rfl⟩⟩

theorem Tighter.trans {d d' d'' : CallbackData} (h : Tighter d d') (h' : Tighter d' d'') : Tighter d d'' where
  depth := h'.depth.trans h.depth
  type := h'.type.trans h.type
  max hne := by
    obtain ⟨h1, h2⟩ := h.max hne
    obtain ⟨h3, h4⟩ := h'.max h1
    exact ⟨h3, h4.trans h2⟩

/-- A sum that is too large for an `int` becomes a negative limit, but not the one that stands for none. -/
theorem bmod_limit {d p : Int} (hd : 0 ≤ d) (hd' : d < 2 ^ 31) (hp : 0 ≤ p) (hp' : p < 2 ^ 31) :
    Int.bmod (d + p) (2 ^ 32) ≠ -1 ∧ Int.bmod (d + p) (2 ^ 32) ≤ d + p := by
  have hmod : (d + p) % ((2 ^ 32 : Nat) : Int) = d + p := Int.emod_eq_of_lt (by omega) (by norm_num at *; omega)
  rw [Int.bmod_def, hmod]
  split <;> omega

theorem constrain_spec {data : CallbackData} (hd : 0 ≤ data.proxyDepth) (hd' : data.proxyDepth < 2 ^ 31) (info : ProxyCertInfo) :
    Tighter data (data.constrain info) ∧ ∀ p ∈ info.pcPathLengthConstraint,
      (data.constrain info).maxProxyDepth ≠ -1 ∧ (data.constrain info).maxProxyDepth ≤ data.proxyDepth + p := by
  unfold CallbackData.constrain
  split
  · next hnone => exact ⟨.refl data, by simp [hnone]⟩
  · next p hp =>
    have hlt : (p : Int) < 2 ^ 31 := by exact_mod_cast info.constraint_lt p hp
    have hlimit := bmod_limit hd hd' (Int.natCast_nonneg p) hlt
    rw [if_pos (by omega)]
    split
    · next hmax =>
      refine ⟨⟨rfl, rfl, fun hne => ⟨hlimit.1, ?_⟩⟩, ?_⟩
      · show Int.bmod _ _ ≤ _
        rcases hmax with hmax | hmax
        · exact absurd hmax hne
        · omega
      · rw [hp]
        rintro q ⟨⟩
        exact hlimit
    · next hmax =>
      rw [not_or, not_lt] at hmax
      refine ⟨.refl data, ?_⟩
      rw [hp]
      rintro q ⟨⟩
      exact hmax

/-- The constraint of an extension, if it is one with proxy information. -/
def Extension.Constrains (e : Extension) (p : Nat) : Prop :=
  (e.nid = .proxyCertInfo ∨ e.nid = .proxyCertInfoOld) ∧ ∃ info, e.proxycertinfo = some info ∧ info.pcPathLengthConstraint = some p

theorem checkCriticalExtensions_spec {env : VerifyEnv} : ∀ {extensions : List Extension} {policy : Bool} {d d' : CallbackData},
    0 ≤ d.proxyDepth → d.proxyDepth < 2 ^ 31 → checkCriticalExtensions env policy extensions d = .ok d' →
    Tighter d d' ∧ ∀ e ∈ extensions, ∀ p, e.Constrains p → d'.maxProxyDepth ≠ -1 ∧ d'.maxProxyDepth ≤ d.proxyDepth + p
  | [], policy, d, d', _, _, h => by
    cases h
    exact ⟨.refl d, by simp⟩
  | e :: rest, policy, d, d', hd, hd', h => by
    rw [checkCriticalExtensions] at h
    split at h
    · next hpci =>
      split at h
      · cases h
      · next info hinfo =>
        dsimp only at h
        split at h
        · obtain ⟨htight, hbound⟩ := constrain_spec hd hd' info
          obtain ⟨htight', hrest⟩ := checkCriticalExtensions_spec (htight.depth ▸ hd) (htight.depth ▸ hd') h
          refine ⟨htight.trans htight', fun e' he' p hp => ?_⟩
          rcases mem_cons.1 he' with rfl | he'
          · obtain ⟨-, info', hinfo', hp⟩ := hp
            obtain rfl : info = info' := Option.some.inj (hinfo.symm.trans hinfo')
            obtain ⟨hne, hle⟩ := hbound p hp
            obtain ⟨hne', hle'⟩ := htight'.max hne
            exact ⟨hne', hle'.trans hle⟩
          · rw [← htight.depth]
            exact hrest e' he' p hp
        · cases h
    · next hpci =>
      split at h
      · obtain ⟨htight, hrest⟩ := checkCriticalExtensions_spec hd hd' h
        refine ⟨htight, fun e' he' p hp => ?_⟩
        rcases mem_cons.1 he' with rfl | he'
        · exact absurd hp.1 hpci
        · exact hrest e' he' p hp
      · cases h

theorem credVerify_ok {env : VerifyEnv} {chain : List Certificate} {leaf : Bool}
    (h : credVerify env chain leaf cert data = .ok d) : ∃ d₁, checkProxy cert data = .ok d₁ ∧
      checkCriticalExtensions env false cert.criticalExtensions d₁ = .ok d ∧
      (leaf → ∀ x ∈ chain.zipIdx, ¬ tooFarUp d x.1 x.2) := by
  have hlast : ∀ {d₁}, (checkCriticalExtensions env false cert.criticalExtensions d₁ >>= checkPathLength chain leaf) = .ok d →
      checkCriticalExtensions env false cert.criticalExtensions d₁ = .ok d ∧
        (leaf → ∀ x ∈ chain.zipIdx, ¬ tooFarUp d x.1 x.2) := by
    intro d₁ h
    cases hext : checkCriticalExtensions env false cert.criticalExtensions d₁ with
    | error e => rw [hext] at h; cases h
    | ok d₂ =>
      rw [hext] at h
      change checkPathLength chain leaf d₂ = .ok d at h
      unfold checkPathLength at h
      split at h
      · cases h
      · next hfar =>
        cases h
        refine ⟨rfl, fun hleaf x hx htoo => hfar ?_⟩
        rw [hleaf, Bool.true_and, any_eq_true]
        exact ⟨x, hx, by simpa using htoo⟩
  unfold credVerify at h
  cases hproxy : checkProxy cert data with
  | error e => rw [hproxy] at h; cases h
  | ok d₁ =>
    rw [hproxy] at h
    refine ⟨d₁, rfl, hlast ?_⟩
    simp only [bind, Except.bind] at h ⊢
    split at h
    · split at h
      · cases h
      · split at h
        · cases h
        · exact h
    · exact h

/-! ## The walk -/

variable {env : VerifyEnv} {chain : List Certificate}

variable {rest : List Certificate} {d d' : CallbackData}

theorem verifyFrom_cons
    (h : verifyFrom env chain (cert :: rest) d = .ok d') :
    ∃ d₁, credVerify env chain rest.isEmpty cert d = .ok d₁ ∧ verifyFrom env chain rest d₁ = .ok d' := by
  rw [verifyFrom] at h
  cases hcall : credVerify env chain rest.isEmpty cert d with
  | error e => rw [hcall] at h; cases h
  | ok d₁ =>
    rw [hcall] at h
    exact ⟨d₁, rfl, h⟩

theorem credVerify_proxy {leaf : Bool} (hproxy : cert.certType.isProxy)
    (hd : 0 ≤ d.proxyDepth) (hd' : d.proxyDepth + 1 < 2 ^ 31) (h : credVerify env chain leaf cert d = .ok d') :
    Delegates d.certType cert.certType ∧ d'.certType = cert.certType ∧ d'.proxyDepth = d.proxyDepth + 1 ∧
      (d.maxProxyDepth ≠ -1 → d.proxyDepth + 1 ≤ d.maxProxyDepth ∧ d'.maxProxyDepth ≠ -1 ∧
        d'.maxProxyDepth ≤ d.maxProxyDepth) ∧
      ∀ e ∈ cert.criticalExtensions, ∀ p, e.Constrains p → d'.maxProxyDepth ≠ -1 ∧ d'.maxProxyDepth ≤ d'.proxyDepth + p := by
  obtain ⟨d₁, hcheck, hext, -⟩ := credVerify_ok h
  obtain ⟨hdel, hmax, rfl⟩ := checkProxy_proxy hproxy hcheck
  obtain ⟨htight, hbound⟩ := checkCriticalExtensions_spec (show 0 ≤ d.proxyDepth + 1 by omega) hd' hext
  refine ⟨hdel, htight.type, htight.depth, fun hne => ⟨hmax hne, htight.max hne⟩, fun e he p hp => ?_⟩
  rw [htight.depth]
  exact hbound e he p hp

theorem credVerify_other {leaf : Bool} (hproxy : cert.certType.isProxy = false)
    (hd : 0 ≤ d.proxyDepth) (hd' : d.proxyDepth < 2 ^ 31) (h : credVerify env chain leaf cert d = .ok d') :
    d'.certType = cert.certType ∧ d'.proxyDepth = d.proxyDepth := by
  obtain ⟨d₁, hcheck, hext, -⟩ := credVerify_ok h
  obtain rfl := checkProxy_other hproxy hcheck
  obtain ⟨htight, -⟩ := checkCriticalExtensions_spec (by exact hd) (by exact hd') hext
  exact ⟨htight.type, htight.depth⟩

/-- The data behind the first certificates of a chain, if none of them is a proxy. -/
theorem verifyFrom_others {pre rest : List Certificate} (hpre : ∀ c ∈ pre, c.certType.isProxy = false) :
    ∀ {d d' : CallbackData}, 0 ≤ d.proxyDepth → d.proxyDepth < 2 ^ 31 → verifyFrom env chain (pre ++ rest) d = .ok d' →
    ∃ d₀, d₀.proxyDepth = d.proxyDepth ∧ verifyFrom env chain rest d₀ = .ok d' := by
  induction pre with
  | nil => intro d d' _ _ h; exact ⟨d, rfl, h⟩
  | cons c pre ih =>
    intro d d' hd hd' h
    obtain ⟨d₁, hcall, h⟩ := verifyFrom_cons h
    obtain ⟨-, hdepth⟩ := credVerify_other (hpre c (by simp)) hd hd' hcall
    obtain ⟨d₀, hd₀, h⟩ := ih (fun x hx => hpre x (by simp [hx])) (hdepth ▸ hd) (hdepth ▸ hd') h
    exact ⟨d₀, hd₀.trans hdepth, h⟩

theorem verifyFrom_proxies {pre rest : List Certificate} (hpre : ∀ c ∈ pre, c.certType.isProxy) :
    ∀ {d d' : CallbackData}, 0 ≤ d.proxyDepth → d.proxyDepth + pre.length < 2 ^ 31 →
    verifyFrom env chain (pre ++ rest) d = .ok d' →
    ∃ d₀, d₀.proxyDepth = d.proxyDepth + pre.length ∧ verifyFrom env chain rest d₀ = .ok d' := by
  induction pre with
  | nil => intro d d' _ _ h; exact ⟨d, by simp, h⟩
  | cons c pre ih =>
    intro d d' hd hd' h
    rw [length_cons] at hd' ⊢
    obtain ⟨d₁, hcall, h⟩ := verifyFrom_cons h
    obtain ⟨-, -, hdepth, -⟩ := credVerify_proxy (hpre c (by simp)) hd (by omega) hcall
    obtain ⟨d₀, hd₀, h⟩ := ih (fun x hx => hpre x (by simp [hx])) (by omega) (by omega) h
    exact ⟨d₀, by omega, h⟩

theorem length_le_of_verifyFrom (hrest : ∀ c ∈ rest, c.certType.isProxy) :
    ∀ {d d' : CallbackData}, 0 ≤ d.proxyDepth → d.proxyDepth + rest.length < 2 ^ 31 → d.maxProxyDepth ≠ -1 →
    verifyFrom env chain rest d = .ok d' → rest = [] ∨ d.proxyDepth + rest.length ≤ d.maxProxyDepth := by
  induction rest with
  | nil => intro d d' _ _ _ _; exact .inl rfl
  | cons c rest ih =>
    intro d d' hd hd' hmax h
    rw [length_cons] at hd' ⊢
    obtain ⟨d₁, hcall, h⟩ := verifyFrom_cons h
    obtain ⟨-, -, hdepth, hstep, -⟩ := credVerify_proxy (hrest c (by simp)) hd (by omega) hcall
    obtain ⟨hlimit, hmax', hle⟩ := hstep hmax
    right
    rcases ih (fun x hx => hrest x (by simp [hx])) (by omega) (by omega) hmax' h with rfl | hih
    · simpa using hlimit
    · omega

theorem isChain_of_verifyFrom (hrest : ∀ c ∈ rest, c.certType.isProxy) :
    ∀ {d d' : CallbackData}, 0 ≤ d.proxyDepth → d.proxyDepth + rest.length < 2 ^ 31 →
    verifyFrom env chain rest d = .ok d' → List.IsChain Delegates (d.certType :: rest.map Certificate.certType) := by
  induction rest with
  | nil => intro d d' _ _ _; exact .singleton _
  | cons c rest ih =>
    intro d d' hd hd' h
    rw [length_cons] at hd'
    obtain ⟨d₁, hcall, h⟩ := verifyFrom_cons h
    obtain ⟨hdel, htype, hdepth, -⟩ := credVerify_proxy (hrest c (by simp)) hd (by omega) hcall
    have hih := ih (fun x hx => hrest x (by simp [hx])) (by omega) (by omega) h
    rw [htype] at hih
    exact .cons_cons hdel hih

theorem not_tooFarUp_of_verifyFrom {rest : List Certificate} {d d' : CallbackData} (hrest : rest ≠ [])
    (h : verifyFrom env chain rest d = .ok d') : ∀ x ∈ chain.zipIdx, ¬ tooFarUp d' x.1 x.2 := by
  induction rest generalizing d with
  | nil => exact absurd rfl hrest
  | cons cert rest ih =>
    obtain ⟨d₁, hcall, h⟩ := verifyFrom_cons h
    cases rest with
    | nil =>
      cases h
      obtain ⟨-, -, -, hfar⟩ := credVerify_ok hcall
      exact hfar rfl
    | cons c rest => exact ih (by simp) h

/-! ## The rules of delegation -/

theorem certType_eq_proxy {t : CertType} (h : t.isProxy) : ∃ f k, t = .proxy f k := by
  cases t with
  | eec => cases h
  | ca => cases h
  | proxy f k => exact ⟨f, k, rfl⟩

theorem isProxyOf_of_isChain {f : ProxyFormat} : ∀ {ts : List CertType} {k : ProxyKind}, (∀ t ∈ ts, t.isProxy) →
    List.IsChain Delegates (.proxy f k :: ts) → ∀ t ∈ ts, t.isProxyOf f
  | [], _, _, _ => by simp
  | t :: ts, k, hts, h => by
    obtain ⟨g, l, rfl⟩ := certType_eq_proxy (hts t (by simp))
    obtain ⟨⟨rfl, -⟩, h⟩ := isChain_cons_cons.1 h
    intro u hu
    rcases mem_cons.1 hu with rfl | hu
    · simp
    · exact isProxyOf_of_isChain (fun x hx => hts x (by simp [hx])) h u hu

/-- Between a limited proxy and one that is neither limited nor independent there is an independent one. -/
theorem independent_of_isChain {f g : ProxyFormat} {l : ProxyKind} (hl : l ≠ .limited) (hl' : l ≠ .independent) :
    ∀ {mid : List CertType} {post : List CertType}, (∀ t ∈ mid, t.isProxy) →
    List.IsChain Delegates (.proxy f .limited :: (mid ++ .proxy g l :: post)) → ∃ t ∈ mid, t.isIndependentProxy
  | [], post, _, h => by
    obtain ⟨⟨-, h⟩, -⟩ := isChain_cons_cons.1 h
    rcases h rfl with h | h
    · exact absurd h hl
    · exact absurd h hl'
  | t :: mid, post, hmid, h => by
    obtain ⟨f', k', rfl⟩ := certType_eq_proxy (hmid t (by simp))
    obtain ⟨⟨-, hk⟩, h⟩ := isChain_cons_cons.1 h
    rcases hk rfl with rfl | rfl
    · obtain ⟨u, hu, hind⟩ := independent_of_isChain hl hl' (fun x hx => hmid x (by simp [hx])) h
      exact ⟨u, by simp [hu], hind⟩
    · exact ⟨.proxy f' .independent, by simp, by simp⟩

/-- The rules of delegation for a chain. -/
structure ObeysDelegation (chain : CertChain) : Prop where
  family : ∃ f, ∀ c ∈ chain.proxies, c.certType.isProxyOf f
  limited : ∀ pre l mid q post, chain.proxies = pre ++ l :: (mid ++ q :: post) → l.certType.isLimitedProxy →
    q.certType.isLimitedProxy = false → q.certType.isIndependentProxy = false → ∃ c ∈ mid, c.certType.isIndependentProxy
  proxyPathLength : ∀ pre c post, chain.proxies = pre ++ c :: post → ∀ e ∈ c.criticalExtensions, ∀ p, e.Constrains p →
    post.length ≤ p
  caPathLength : ∀ pre c post p, chain.cas = pre ++ c :: post → c.basicConstraints = some (some p) → post.length ≤ p

namespace CertChain

variable {env : VerifyEnv} {chain : CertChain} {d : CallbackData}

theorem verify_proxies (h : chain.verify env = .ok d) : ∃ d₀, d₀.proxyDepth = 0 ∧
    verifyFrom env chain.certs.reverse chain.proxies d₀ = .ok d := by
  have hothers : ∀ c ∈ chain.cas ++ [chain.eec], c.certType.isProxy = false := by
    intro c hc
    rcases mem_append.1 hc with hc | hc
    · rw [chain.cas_type c hc]; rfl
    · obtain rfl := mem_singleton.1 hc
      rw [chain.eec_type]; rfl
  have h' : verifyFrom env chain.certs.reverse (chain.cas ++ [chain.eec] ++ chain.proxies) .init = .ok d := by
    rwa [append_assoc, singleton_append]
  exact verifyFrom_others hothers (show 0 ≤ CallbackData.init.proxyDepth by decide) (by decide) h'

theorem depth_add_length_lt {d₀ : CallbackData} (hd₀ : d₀.proxyDepth = 0) : d₀.proxyDepth + chain.proxies.length < 2 ^ 31 := by
  have := chain.length_lt
  omega

theorem isChain_proxies (h : chain.verify env = .ok d) : List.IsChain Delegates (chain.proxies.map Certificate.certType) := by
  obtain ⟨d₀, hd₀, h⟩ := verify_proxies h
  exact (isChain_of_verifyFrom chain.proxies_type hd₀.ge (depth_add_length_lt hd₀) h).tail

theorem proxyDepth_verify (h : chain.verify env = .ok d) : d.proxyDepth = chain.proxies.length := by
  obtain ⟨d₀, hd₀, h⟩ := verify_proxies h
  rw [← append_nil chain.proxies] at h
  obtain ⟨d₁, hd₁, h⟩ := verifyFrom_proxies chain.proxies_type hd₀.ge (depth_add_length_lt hd₀) h
  cases h
  rw [hd₁, hd₀, Int.zero_add]

theorem mem_zipIdx_certs {pre post : List Certificate} {c : Certificate} (hcas : chain.cas = pre ++ c :: post) :
    (c, chain.proxies.length + 1 + post.length) ∈ chain.certs.reverse.zipIdx := by
  rw [mem_zipIdx_iff_getElem?, certs, hcas]
  have hsplit : (pre ++ c :: post ++ chain.eec :: chain.proxies).reverse =
      (chain.proxies.reverse ++ chain.eec :: post.reverse) ++ c :: pre.reverse := by simp
  have hlen : (chain.proxies.reverse ++ chain.eec :: post.reverse).length = chain.proxies.length + 1 + post.length := by
    simp; omega
  rw [hsplit, getElem?_append_right (by rw [hlen]), hlen, Nat.sub_self]
  rfl

end CertChain

/-- A chain for which all calls succeed obeys the rules of delegation. -/
theorem verify_obeysDelegation (env : VerifyEnv) (chain : CertChain) (d : CallbackData) (h : chain.verify env = .ok d) :
    ObeysDelegation chain := by
  have hchain := CertChain.isChain_proxies h
  refine ⟨?_, ?_, ?_, ?_⟩
  · -- The format of the first proxy is that of all.
    cases hproxies : chain.proxies with
    | nil => exact ⟨.rfc, by simp⟩
    | cons c rest =>
      have htypes := chain.proxies_type
      rw [hproxies] at hchain htypes
      obtain ⟨f, k, hc⟩ := certType_eq_proxy (htypes c (by simp))
      rw [map_cons, hc] at hchain
      have hrest := isProxyOf_of_isChain (fun t ht => by
        obtain ⟨x, hx, rfl⟩ := mem_map.1 ht
        exact htypes x (by simp [hx])) hchain
      refine ⟨f, fun x hx => ?_⟩
      rcases mem_cons.1 hx with rfl | hx
      · simp [hc]
      · exact hrest _ (mem_map_of_mem hx)
  · intro pre l mid q post hproxies hl hq hq'
    have htypes := chain.proxies_type
    rw [hproxies] at hchain htypes
    obtain ⟨f, k, hlt⟩ := certType_eq_proxy (htypes l (by simp))
    obtain ⟨g, m, hqt⟩ := certType_eq_proxy (htypes q (by simp))
    rw [hlt, CertType.isLimitedProxy_proxy, decide_eq_true_iff] at hl
    rw [hqt, CertType.isLimitedProxy_proxy, decide_eq_false_iff_not] at hq
    rw [hqt, CertType.isIndependentProxy_proxy, decide_eq_false_iff_not] at hq'
    rw [map_append, map_cons, map_append, map_cons, hlt, hqt, hl] at hchain
    obtain ⟨t, ht, hind⟩ := independent_of_isChain hq hq' (fun t ht => by
      obtain ⟨x, hx, rfl⟩ := mem_map.1 ht
      exact htypes x (by simp [hx])) hchain.right_of_append
    obtain ⟨x, hx, rfl⟩ := mem_map.1 ht
    exact ⟨x, hx, hind⟩
  · intro pre c post hproxies e he p hp
    obtain ⟨d₀, hd₀, h⟩ := CertChain.verify_proxies h
    have hlt := @CertChain.depth_add_length_lt chain _ hd₀
    have htypes := chain.proxies_type
    rw [hproxies] at h htypes hlt
    rw [length_append, length_cons] at hlt
    push_cast at hlt
    obtain ⟨d₁, hd₁, h⟩ := verifyFrom_proxies (fun x hx => htypes x (by simp [hx])) hd₀.ge (by omega) h
    obtain ⟨d₂, hcall, h⟩ := verifyFrom_cons h
    obtain ⟨-, -, hdepth, -, hbound⟩ := credVerify_proxy (htypes c (by simp)) (by omega) (by omega) hcall
    obtain ⟨hne, hle⟩ := hbound e he p hp
    rcases length_le_of_verifyFrom (fun x hx => htypes x (by simp [hx])) (by omega) (by omega) hne h with rfl | hpost
    · simp
    · omega
  · intro pre c post p hcas hp
    by_contra hlt
    have hpathlen : c.pathlen = p := by rw [Certificate.pathlen, hp]
    refine not_tooFarUp_of_verifyFrom (by simp [CertChain.certs]) h _ (CertChain.mem_zipIdx_certs hcas) ?_
    rw [tooFarUp, CertChain.proxyDepth_verify h, hpathlen, hp]
    push_cast
    exact ⟨by omega, by omega, by omega, rfl⟩

/-- A chain with two proxies, of which the first may be followed by one. -/
def twoProxies : CertChain where
  cas := [⟨.ca, some (some 0), []⟩]
  eec := ⟨.eec, none, []⟩
  proxies := [⟨.proxy .rfc .impersonation, none, [⟨.proxyCertInfo, some ⟨some 1, false, by decide⟩⟩]⟩,
    ⟨.proxy .rfc .limited, none, [⟨.proxyCertInfo, some ⟨none, false, by decide⟩⟩]⟩]
  cas_type := by decide
  eec_type := rfl
  proxies_type := by decide
  length_lt := by decide

theorem verify_obeysDelegation_two :
    twoProxies.verify ⟨fun _ => true, fun _ => true, none⟩ = .ok ⟨2, 2, .proxy .rfc .limited⟩ ∧ ObeysDelegation twoProxies :=
  have h : twoProxies.verify ⟨fun _ => true, fun _ => true, none⟩ = .ok ⟨2, 2, .proxy .rfc .limited⟩ := by rfl
  ⟨h, verify_obeysDelegation _ _ _ h⟩

end Globus.Gsi
