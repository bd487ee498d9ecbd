/-
The host and the port of a URL (common/source/library/globus_url.c, `globusl_url_get_host_port`) against their grammar: a name or
an address in brackets, and perhaps a port. The function reads every text of the grammar. It also reads a name with a bracket
behind it, an address whose bracket is not closed, and a port that is too large.
-/
import GlobusToolkit.Url.Scan

namespace Globus

open Lib List

/-! ## The grammar -/

/-- A host: a name, or an address in brackets. -/
inductive IsHost : List Char → Prop
  | name {host : List Char} (hne : host ≠ []) (hchars : ∀ c ∈ host, isHostChar c) : IsHost host
  | address {host : List Char} (hne : host ≠ []) (hchars : ∀ c ∈ host, isIpv6Char c) : IsHost ('[' :: (host ++ [']']))

/-- What may follow a host, with the number of the port: nothing, a path, or a port and anything behind its digits. -/
inductive PortText : List Char → Nat → Prop
  | nil : PortText [] 0
  | path (rest : List Char) : PortText ('/' :: rest) 0
  | port (n : Numeral) (rest : List Char) (hrest : ∀ c ∈ rest.head?, c.isDigit = false) :
      PortText (':' :: (n.digits ++ rest)) n.value

/-- A host, what may follow it, and a port that is one. -/
inductive HostPortText : List Char → Nat → Prop
  | mk {host rest : List Char} {port : Nat} (hhost : IsHost host) (hrest : PortText rest port) (hport : port ≤ 65535) :
      HostPortText (host ++ rest) port

/-- What is read although it is not in the grammar. -/
inductive HostPortLax : List Char → Nat → Prop
  | closing {host rest : List Char} {port : Nat} (hne : host ≠ []) (hchars : ∀ c ∈ host, isHostChar c)
      (hrest : PortText rest port) : HostPortLax (host ++ ']' :: rest) port
  | unclosed {host rest : List Char} (hne : host ≠ []) (hchars : ∀ c ∈ host, isIpv6Char c)
      (hrest : rest = [] ∨ rest.head? = some '/') : HostPortLax ('[' :: (host ++ rest)) 0
  | large {host rest : List Char} {port : Nat} (hhost : IsHost host) (hrest : PortText rest port) (hport : 65535 < port) :
      HostPortLax (host ++ rest) port

variable {rest : List Char} {port : Nat}

theorem PortText.head (h : PortText rest port) :
    ∀ c ∈ rest.head?, c = '/' ∨ c = ':' := by
  cases h with
  | nil => simp
  | path => simp
  | port => simp

theorem PortText.head_not_class (h : PortText rest port) {isClass : Char → Bool}
    (hslash : isClass '/' = false) (hcolon : isClass ':' = false) : ∀ c ∈ rest.head?, isClass c = false := by
  intro c hc
  rcases h.head c hc with rfl | rfl
  · exact hslash
  · exact hcolon

theorem PortText.unique {p q : Nat} (hp : PortText rest p) (hq : PortText rest q) : p = q := by
  cases hp with
  | nil => cases hq; rfl
  | path => cases hq; rfl
  | port n t ht =>
    generalize hrest : (':' :: (n.digits ++ t)) = rest at hq
    cases hq with
    | nil => cases hrest
    | path => cases hrest
    | port m t' ht' =>
      obtain ⟨hdigits, -⟩ := append_inj_of_class (List.cons.inj hrest).2 n.isDigit ht m.isDigit ht'
      rw [Numeral.value, hdigits, Numeral.value]

section Split

variable {u v : List Char} {port : Nat}

theorem ne_bracket_of_name (hu : ∀ c ∈ u, isHostChar c) (hne : u ≠ []) (v w : List Char) : u ++ v ≠ '[' :: w := by
  obtain ⟨c, u, rfl⟩ := exists_cons_of_ne_nil hne
  intro h
  rw [cons_append, List.cons.injEq] at h
  have hc := hu c (by simp)
  rw [h.1] at hc
  exact absurd hc (by decide)

theorem IsHost.eq_name {host rest : List Char} (h : IsHost host) (hs : u ++ v = host ++ rest) (hrest : PortText rest port)
    (hu : ∀ c ∈ u, isHostChar c) (hv : ∀ c ∈ v.head?, isHostChar c = false) (hbracket : ∀ w, u ++ v ≠ '[' :: w) :
    u ≠ [] ∧ v = rest := by
  cases h with
  | name hne hchars =>
    obtain ⟨rfl, rfl⟩ := append_inj_of_class hs hu hv hchars (hrest.head_not_class (by decide) (by decide))
    exact ⟨hne, rfl⟩
  | address => exact absurd hs (hbracket _)

theorem IsHost.eq_address {host rest : List Char} (h : IsHost host) (hs : '[' :: (u ++ v) = host ++ rest)
    (hu : ∀ c ∈ u, isIpv6Char c) (hv : ∀ c ∈ v.head?, isIpv6Char c = false) : u ≠ [] ∧ v = ']' :: rest := by
  cases h with
  | name hne hchars => exact absurd hs.symm (ne_bracket_of_name hchars hne _ _)
  | address hne hchars =>
    rw [cons_append, append_assoc, List.cons.injEq] at hs
    obtain ⟨rfl, rfl⟩ := append_inj_of_class hs.2 hu hv hchars (by simp; decide)
    exact ⟨hne, rfl⟩

theorem hostPortText_name (hu : ∀ c ∈ u, isHostChar c) (hv : ∀ c ∈ v.head?, isHostChar c = false)
    (hbracket : ∀ w, u ++ v ≠ '[' :: w) : HostPortText (u ++ v) port ↔ u ≠ [] ∧ PortText v port ∧ port ≤ 65535 := by
  constructor
  · intro h
    generalize hs : u ++ v = s at h
    cases h with
    | mk hhost hrest hport =>
      obtain ⟨hne, rfl⟩ := hhost.eq_name hs hrest hu hv hbracket
      exact ⟨hne, hrest, hport⟩
  · rintro ⟨hne, hrest, hport⟩
    exact .mk (.name hne hu) hrest hport

theorem hostPortLax_name (hu : ∀ c ∈ u, isHostChar c) (hv : ∀ c ∈ v.head?, isHostChar c = false)
    (hbracket : ∀ w, u ++ v ≠ '[' :: w) :
    HostPortLax (u ++ v) port ↔
      u ≠ [] ∧ ((∃ rest, v = ']' :: rest ∧ PortText rest port) ∨ PortText v port ∧ 65535 < port) := by
  constructor
  · intro h
    generalize hs : u ++ v = s at h
    cases h with
    | closing hne hchars hrest =>
      obtain ⟨rfl, rfl⟩ := append_inj_of_class hs hu hv hchars (by simp; decide)
      exact ⟨hne, .inl ⟨_, rfl, hrest⟩⟩
    | unclosed => exact absurd hs (hbracket _)
    | large hhost hrest hport =>
      obtain ⟨hne, rfl⟩ := hhost.eq_name hs hrest hu hv hbracket
      exact ⟨hne, .inr ⟨hrest, hport⟩⟩
  · rintro ⟨hne, ⟨rest, rfl, hrest⟩ | ⟨hrest, hport⟩⟩
    · exact .closing hne hu hrest
    · exact .large (.name hne hu) hrest hport

theorem hostPortText_address (hu : ∀ c ∈ u, isIpv6Char c) (hv : ∀ c ∈ v.head?, isIpv6Char c = false) :
    HostPortText ('[' :: (u ++ v)) port ↔ u ≠ [] ∧ ∃ rest, v = ']' :: rest ∧ PortText rest port ∧ port ≤ 65535 := by
  constructor
  · intro h
    generalize hs : '[' :: (u ++ v) = s at h
    cases h with
    | mk hhost hrest hport =>
      obtain ⟨hne, rfl⟩ := hhost.eq_address hs hu hv
      exact ⟨hne, _, rfl, hrest, hport⟩
  · rintro ⟨hne, rest, rfl, hrest, hport⟩
    have h := HostPortText.mk (.address hne hu) hrest hport
    rwa [cons_append, append_assoc] at h

theorem hostPortLax_address (hu : ∀ c ∈ u, isIpv6Char c) (hv : ∀ c ∈ v.head?, isIpv6Char c = false) :
    HostPortLax ('[' :: (u ++ v)) port ↔
      u ≠ [] ∧ ((v = [] ∨ v.head? = some '/') ∧ port = 0 ∨ ∃ rest, v = ']' :: rest ∧ PortText rest port ∧ 65535 < port) := by
  constructor
  · intro h
    generalize hs : '[' :: (u ++ v) = s at h
    cases h with
    | closing hne hchars => exact absurd hs.symm (ne_bracket_of_name hchars hne _ _)
    | @unclosed host rest hne hchars hrest =>
      have hhead : ∀ c ∈ rest.head?, isIpv6Char c = false := by
        rcases hrest with rfl | hrest
        · simp
        · rw [hrest]; simp; decide
      obtain ⟨rfl, rfl⟩ := append_inj_of_class (List.cons.inj hs).2 hu hv hchars hhead
      exact ⟨hne, .inl ⟨hrest, rfl⟩⟩
    | large hhost hrest hport =>
      obtain ⟨hne, rfl⟩ := hhost.eq_address hs hu hv
      exact ⟨hne, .inr ⟨_, rfl, hrest, hport⟩⟩
  · rintro ⟨hne, ⟨hrest, rfl⟩ | ⟨rest, rfl, hrest, hport⟩⟩
    · exact .unclosed hne hu hrest
    · have h := HostPortLax.large (.address hne hu) hrest hport
      rwa [cons_append, append_assoc] at h

end Split

variable {s : List Char}

theorem HostPortText.unique {p q : Nat} (hp : HostPortText s p) (hq : HostPortText s q) : p = q := by
  cases hp with
  | mk hhost hrest _ =>
    cases hhost with
    | name hne hu =>
      rw [hostPortText_name hu (hrest.head_not_class (by decide) (by decide)) (ne_bracket_of_name hu hne _)] at hq
      exact hrest.unique hq.2.1
    | address _ hu =>
      rw [cons_append, append_assoc, hostPortText_address hu (by simp; decide)] at hq
      obtain ⟨-, rest, heq, hrest', -⟩ := hq
      cases heq
      exact hrest.unique hrest'

theorem PortText.ne_bracket {rest rest' : List Char} (h : PortText rest port) : rest ≠ ']' :: rest' := by
  rintro rfl
  cases h

theorem HostPortText.not_lax {p q : Nat} (hp : HostPortText s p) : ¬ HostPortLax s q := by
  cases hp with
  | mk hhost hrest hport =>
    cases hhost with
    | name hne hu =>
      rw [hostPortLax_name hu (hrest.head_not_class (by decide) (by decide)) (ne_bracket_of_name hu hne _)]
      rintro ⟨-, ⟨rest, heq, -⟩ | ⟨hrest', hlarge⟩⟩
      · exact hrest.ne_bracket heq
      · have := hrest.unique hrest'; omega
    | address _ hu =>
      rw [cons_append, append_assoc, hostPortLax_address hu (by simp; decide)]
      rintro ⟨-, ⟨hend, -⟩ | ⟨rest, heq, hrest', hlarge⟩⟩
      · simp at hend
      · cases heq
        have := hrest.unique hrest'; omega

/-! ## What the function reads -/

/-- The number as the function stores it. -/
def portNumber (port : Nat) : Nat := min port (2 ^ 63 - 1) % 2 ^ 16

/-- The function succeeds with a port of `P`, or it fails and `P` has none. -/
def ReadsPort (x : Parse HostPort) (P : Nat → Prop) : Prop :=
  ∃ r, x = pure r ∧ ((r.rc = none ∧ ∃ port, P port ∧ r.port = portNumber port) ∨ (r.rc ≠ none ∧ ∀ port, ¬ P port))

theorem ReadsPort.congr {x : Parse HostPort} {P Q : Nat → Prop} (h : ReadsPort x P) (hpq : ∀ port, P port ↔ Q port) :
    ReadsPort x Q := by
  obtain rfl : P = Q := funext fun port => propext (hpq port)
  exact h

theorem ReadsPort.success {r : HostPort} {P : Nat → Prop} (hrc : r.rc = none) (hP : P port)
    (hport : r.port = portNumber port) : ReadsPort (pure r) P :=
  ⟨r, rfl, .inl ⟨hrc, port, hP, hport⟩⟩

theorem ReadsPort.failure {r : HostPort} {P : Nat → Prop} (hrc : r.rc ≠ none) (hP : ∀ port, ¬ P port) : ReadsPort (pure r) P :=
  ⟨r, rfl, .inr ⟨hrc, hP⟩⟩

section Reading

variable {fuel : Nat} {host v : List Char}

theorem urlGetPort_reads (hfuel : v.length < fuel) (hhead : v.head? = some ':' ∨ v.head? = some '/') :
    ReadsPort (urlGetPort fuel host v) (PortText v) := by
  obtain ⟨c, t, rfl⟩ : ∃ c t, v = c :: t := by
    cases v with
    | nil => simp at hhead
    | cons c t => exact ⟨c, t, rfl⟩
  rw [head?_cons, Option.some.injEq, Option.some.injEq] at hhead
  unfold urlGetPort
  rcases hhead with rfl | rfl
  · have hcolon : charAt (':' :: t) 0 = ':' := rfl
    rw [if_pos hcolon, drop_one, tail_cons]
    dsimp only
    obtain ⟨digits, rest, rfl, hdigits, hrest⟩ := exists_append_of_class Char.isDigit t
    simp only [length_cons, length_append] at hfuel
    rw [scanWhile_append (by decide) hdigits hrest (by omega), pure_bind]
    by_cases hne : digits = []
    · subst hne
      refine .failure (by simp) fun port h => ?_
      generalize hs : (':' :: ([] ++ rest)) = s at h
      cases h with
      | nil => cases hs
      | path => cases hs
      | port n rest' hrest' =>
        exact n.digits_ne_nil (append_inj_of_class (List.cons.inj hs).2 hdigits hrest n.isDigit hrest').1.symm
    · have hlen : digits.length ≠ 0 := fun h => hne (length_eq_zero_iff.1 h)
      rw [if_neg hlen, urlGetSubstring_append (not_mem_of_class hdigits (by decide)) (not_mem_of_class hdigits (by decide))]
      exact .success rfl (PortText.port ⟨digits, hne, hdigits⟩ rest hrest) rfl
  · have hslash : charAt ('/' :: t) 0 ≠ ':' := by simp [charAt]
    exact .success rfl (.path t) rfl

/-- What may follow the text of a host: a bracket may be in front of the port. -/
def EndText (v : List Char) (port : Nat) : Prop := PortText v port ∨ ∃ rest, v = ']' :: rest ∧ PortText rest port

theorem urlGetHostPort_reads {s u : List Char} {isClass : Char → Bool}
    (hs : (if charAt s 0 = '[' then s.drop 1 else s) = u ++ v)
    (hclass : (if charAt s 0 = '[' then isIpv6Char else isHostChar) = isClass) (hu : ∀ c ∈ u, isClass c)
    (hv : ∀ c ∈ v.head?, isClass c = false) (hnul : '\x00' ∉ v) (hfuel : (u ++ v).length < fuel) :
    ReadsPort (urlGetHostPort fuel s) fun port => u ≠ [] ∧ EndText v port := by
  have hnone : isClass '\x00' = false := by subst hclass; split <;> decide
  have hpercent : isClass '%' = false := by subst hclass; split <;> decide
  have hsub : urlGetSubstring (u ++ v) u.length = u :=
    urlGetSubstring_append (not_mem_of_class hu hpercent) (not_mem_of_class hu hnone) v
  rw [length_append] at hfuel
  unfold urlGetHostPort
  simp only [hs, hclass]
  rw [scanWhile_append hnone hu hv (by omega), pure_bind]
  by_cases hne : u = []
  · subst hne
    exact .failure (by simp) fun port h => h.1 rfl
  have hlen : u.length ≠ 0 := fun h => hne (length_eq_zero_iff.1 h)
  have hat0 : charAt (u ++ v) u.length = charAt v 0 := charAt_append u v 0
  rw [if_neg hlen, hat0, charAt_append, hsub]
  cases v with
  | nil =>
    exact .success rfl ⟨hne, .inl .nil⟩ rfl
  | cons c t =>
    have hc0 : charAt (c :: t) 0 = c := rfl
    have hc1 : charAt (c :: t) 1 = charAt t 0 := rfl
    simp only [hc0, hc1]
    simp only [mem_cons, not_or] at hnul
    simp only [length_cons] at hfuel
    by_cases hport : c = ':' ∨ c = '/'
    · have hbracket : c ≠ ']' := by rcases hport with rfl | rfl <;> decide
      rw [if_pos (by tauto), if_neg hbracket, drop_left]
      refine (urlGetPort_reads (by simp; omega) (by simpa using hport)).congr fun port => ?_
      exact ⟨fun h => ⟨hne, .inl h⟩, fun h => h.2.resolve_right fun ⟨_, heq, _⟩ => hbracket (List.cons.inj heq).1⟩
    by_cases hbracket : c = ']'
    · subst hbracket
      -- the bracket is passed, whatever the text of the host was
      have hdrop : (u ++ ']' :: t).drop (u.length + 1) = t := by
        rw [← drop_drop, drop_left]; rfl
      have hend : ∀ port, PortText t port ↔ u ≠ [] ∧ EndText (']' :: t) port := fun port =>
        ⟨fun h => ⟨hne, .inr ⟨t, rfl, h⟩⟩, fun h => h.2.elim (fun h' => absurd rfl h'.ne_bracket)
          fun ⟨_, heq, h'⟩ => (List.cons.inj heq).2 ▸ h'⟩
      simp only [hdrop, if_true, true_and]
      cases t with
      | nil =>
        rw [if_neg (by decide), if_pos (by decide)]
        exact .success rfl ((hend 0).1 .nil) rfl
      | cons d t =>
        have hd0 : charAt (d :: t) 0 = d := rfl
        have hdnul : d ≠ '\x00' := fun h => hnul.2 (by simp [h])
        simp only [hd0]
        by_cases hd : d = ':' ∨ d = '/'
        · rw [if_pos (.inr (.inr hd))]
          exact (urlGetPort_reads (by simp at hfuel ⊢; omega) (by simpa using hd)).congr hend
        · rw [if_neg (by simp [hd]), if_neg (by simp [hdnul])]
          refine .failure (by simp) fun port h => ?_
          have := ((hend port).2 h).head d (by simp)
          tauto
    · rw [if_neg (by tauto), if_neg (by simp only [hbracket, false_and, or_false]; exact fun h => hnul.1 h.symm)]
      refine .failure (by simp) fun port h => ?_
      rcases h.2 with h' | ⟨_, heq, _⟩
      · have := h'.head c (by simp)
        tauto
      · exact hbracket (List.cons.inj heq).1

end Reading

theorem urlGetHostPort_readsPort {fuel : Nat} (hnul : '\x00' ∉ s) (hfuel : s.length < fuel) :
    ReadsPort (urlGetHostPort fuel s) fun port => HostPortText s port ∨ HostPortLax s port := by
  by_cases hb : charAt s 0 = '['
  · obtain ⟨s, rfl⟩ : ∃ t, s = '[' :: t := by
      cases s with
      | nil => cases hb
      | cons c t => exact ⟨t, by rw [show c = '[' from hb]⟩
    obtain ⟨u, v, rfl, hu, hv⟩ := exists_append_of_class isIpv6Char s
    simp only [mem_cons, mem_append, not_or, length_cons, length_append] at hnul hfuel
    refine (urlGetHostPort_reads (u := u) (v := v) (by rw [if_pos hb]; rfl) (by rw [if_pos hb]) hu hv hnul.2.2
      (by rw [length_append]; omega)).congr fun port => ?_
    rw [hostPortText_address hu hv, hostPortLax_address hu hv, ← and_or_left]
    refine and_congr_right fun _ => ?_
    constructor
    · rintro (h | ⟨rest, rfl, h⟩)
      · cases h with
        | nil => exact .inr (.inl ⟨.inl rfl, rfl⟩)
        | path => exact .inr (.inl ⟨.inr rfl, rfl⟩)
        | port => exact absurd (hv ':' rfl) (by decide)
      · rcases Nat.lt_or_ge 65535 port with hlt | hle
        · exact .inr (.inr ⟨rest, rfl, h, hlt⟩)
        · exact .inl ⟨rest, rfl, h, hle⟩
    · rintro (⟨rest, rfl, h, -⟩ | ⟨hend | hend, rfl⟩ | ⟨rest, rfl, h, -⟩)
      · exact .inr ⟨rest, rfl, h⟩
      · exact .inl (hend ▸ .nil)
      · obtain ⟨t, rfl⟩ := head?_eq_some_iff.1 hend
        exact .inl (.path t)
      · exact .inr ⟨rest, rfl, h⟩
  · have hbracket : ∀ w, s ≠ '[' :: w := fun w h => hb (by rw [h]; rfl)
    obtain ⟨u, v, rfl, hu, hv⟩ := exists_append_of_class isHostChar s
    refine (urlGetHostPort_reads (u := u) (v := v) (by rw [if_neg hb]) (by rw [if_neg hb]) hu hv
      (fun h => hnul (mem_append_right u h)) hfuel).congr fun port => ?_
    rw [hostPortText_name hu hv hbracket, hostPortLax_name hu hv hbracket, ← and_or_left]
    refine and_congr_right fun _ => ?_
    constructor
    · rintro (h | h)
      · rcases Nat.lt_or_ge 65535 port with hlt | hle
        · exact .inr (.inr ⟨h, hlt⟩)
        · exact .inl ⟨h, hle⟩
      · exact .inr (.inl h)
    · rintro (⟨h, -⟩ | h | ⟨h, -⟩)
      · exact .inl h
      · exact .inr h
      · exact .inl h

/-- The function accepts the string exactly if it is in the grammar, and the port is the number that stands there. -/
def HostPortExact (s : List Char) : Prop :=
  ∀ fuel, s.length < fuel → ∃ r, urlGetHostPort fuel s = pure r ∧
    (r.rc = none ↔ ∃ port, HostPortText s port) ∧ ∀ port, HostPortText s port → r.port = port

theorem HostPortLax.not_exact (hlax : HostPortLax s port) (hnul : '\x00' ∉ s) :
    ¬ HostPortExact s := by
  intro hexact
  obtain ⟨r, hr, ⟨hrc, -⟩ | ⟨-, hnone⟩⟩ := urlGetHostPort_readsPort hnul (Nat.lt_succ_self s.length)
  · obtain ⟨r', hr', hiff, -⟩ := hexact _ (Nat.lt_succ_self s.length)
    obtain rfl : r' = r := by rw [hr] at hr'; cases hr'; rfl
    obtain ⟨port', htext⟩ := hiff.1 hrc
    exact htext.not_lax hlax
  · exact hnone port (.inr hlax)

/-- For every string, the function follows the grammar if and only if the string is not one of those that are read besides. -/
theorem urlGetHostPort_exact_iff (s : List Char) (hnul : '\x00' ∉ s) :
    HostPortExact s ↔ ¬ ∃ port, HostPortLax s port := by
  constructor
  · rintro hexact ⟨port, hlax⟩
    exact hlax.not_exact hnul hexact
  · intro hno fuel hfuel
    obtain ⟨r, hr, ⟨hrc, port, htext | hlax, hport⟩ | ⟨hrc, hnone⟩⟩ := urlGetHostPort_readsPort hnul hfuel
    · refine ⟨r, hr, ⟨fun _ => ⟨port, htext⟩, fun _ => hrc⟩, fun port' htext' => ?_⟩
      have hle : port ≤ 65535 := by cases htext; assumption
      rw [hport, htext'.unique htext, portNumber]
      omega
    · exact absurd ⟨port, hlax⟩ hno
    · exact ⟨r, hr, ⟨fun h => absurd h hrc, fun ⟨port, h⟩ => absurd (.inl h) (hnone port)⟩,
        fun port h => absurd (.inl h) (hnone port)⟩

/-- An address in brackets with a port. -/
theorem urlGetHostPort_exact_address : HostPortExact "[::1]:2811/tmp".toList := by
  refine (urlGetHostPort_exact_iff _ (by decide)).2 ?_
  rintro ⟨port, hlax⟩
  have htext : HostPortText ('[' :: ("::1".toList ++ [']']) ++ (':' :: ((Numeral.ofNat 2811).digits ++ "/tmp".toList))) 2811 := by
    have h := PortText.port (.ofNat 2811) "/tmp".toList (by simp)
    rw [Numeral.value_ofNat] at h
    exact .mk (.address (by decide) (by decide)) h (by decide)
  exact htext.not_lax hlax

/-- A bracket that is not opened, one that is not closed and a port that does not fit are all read; the port 65616 is read as
80. -/
theorem urlGetHostPort_lax :
    urlGetHostPort 20 "host]/tmp".toList = pure ⟨none, "/tmp".toList, some "host".toList, 0⟩ ∧
      urlGetHostPort 20 "[::1/tmp".toList = pure ⟨none, "/tmp".toList, some "::1".toList, 0⟩ ∧
      urlGetHostPort 20 "host:65616/tmp".toList = pure ⟨none, "/tmp".toList, some "host".toList, 80⟩ ∧
      ¬ HostPortExact "host]/tmp".toList ∧ ¬ HostPortExact "[::1/tmp".toList ∧ ¬ HostPortExact "host:65616/tmp".toList := by
  have hclosing : HostPortLax ("host".toList ++ ']' :: "/tmp".toList) 0 := .closing (by decide) (by decide) (.path _)
  have hunclosed : HostPortLax ('[' :: ("::1".toList ++ "/tmp".toList)) 0 := .unclosed (by decide) (by decide) (.inr rfl)
  have hlarge : HostPortLax ("host".toList ++ ':' :: ((Numeral.ofNat 65616).digits ++ "/tmp".toList)) 65616 := by
    have h := PortText.port (.ofNat 65616) "/tmp".toList (by simp)
    rw [Numeral.value_ofNat] at h
    exact .large (.name (by decide) (by decide)) h (by decide)
  exact ⟨rfl, rfl, rfl, hclosing.not_exact (by decide), hunclosed.not_exact (by decide), hlarge.not_exact (by decide)⟩

end Globus
