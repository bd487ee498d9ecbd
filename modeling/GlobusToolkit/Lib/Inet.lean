/-
Internet addresses as text. An IPv4 address is four decimal numbers with dots between them. An IPv6 address is eight groups of up to
four hexadecimal digits with colons between them; the last two groups may be written as an IPv4 address, and `::` stands once for one
or more groups of zeros. `inetPton4` and `inetPton6` read exactly these texts.
-/
import GlobusToolkit.Lib.CString

namespace Lib

open Option List

/-! ## Numbers -/

/-- The value of hexadecimal digits. -/
def hexValue (s : List Char) : Nat := s.foldl (fun v c => 16 * v + hexDigit c) 0

theorem hexValue_append (s t : List Char) : hexValue (s ++ t) = hexValue s * 16 ^ t.length + hexValue t := by
  have hfrom : ∀ (t : List Char) (v : Nat), t.foldl (fun v c => 16 * v + hexDigit c) v = v * 16 ^ t.length + hexValue t := by
    intro t
    induction t with
    | nil => intro v; simp [hexValue]
    | cons c t ih =>
      intro v
      rw [hexValue, foldl_cons, foldl_cons, ih, ih (16 * 0 + hexDigit c), length_cons]
      ring
  rw [hexValue, foldl_append, hfrom]
  rfl

/-- A group of 16 bits. -/
structure IsGroup (p : List Char) (g : Nat) : Prop where
  ne_nil : p ≠ []
  length_le : p.length ≤ 4
  digits : ∀ c ∈ p, isxdigit c
  value : hexValue p = g

/-- A byte in decimal. -/
structure IsOctet (p : List Char) (n : Nat) : Prop where
  ne_nil : p ≠ []
  length_le : p.length ≤ 3
  digits : ∀ c ∈ p, c.isDigit
  value : Nat.ofDigitChars 10 p 0 = n
  le : n ≤ 255

def group? (p : List Char) : Option Nat := if p ≠ [] ∧ p.length ≤ 4 ∧ ∀ c ∈ p, isxdigit c then some (hexValue p) else none

def octet? (p : List Char) : Option Nat :=
  if p ≠ [] ∧ p.length ≤ 3 ∧ (∀ c ∈ p, c.isDigit) ∧ Nat.ofDigitChars 10 p 0 ≤ 255 then some (Nat.ofDigitChars 10 p 0) else none

variable {p : List Char}

theorem group?_eq_some {g : Nat} : group? p = some g ↔ IsGroup p g := by
  unfold group?
  constructor
  · intro h
    split_ifs at h with hp
    exact ⟨hp.1, hp.2.1, hp.2.2, Option.some.inj h⟩
  · rintro ⟨h1, h2, h3, rfl⟩
    rw [if_pos ⟨h1, h2, h3⟩]

theorem octet?_eq_some {n : Nat} : octet? p = some n ↔ IsOctet p n := by
  unfold octet?
  constructor
  · intro h
    split_ifs at h with hp
    cases h
    exact ⟨hp.1, hp.2.1, hp.2.2.1, rfl, hp.2.2.2⟩
  · rintro ⟨h1, h2, h3, rfl, h4⟩
    rw [if_pos ⟨h1, h2, h3, h4⟩]

variable {c : Char}

theorem IsGroup.not_mem {g : Nat} (h : IsGroup p g) (hc : isxdigit c = false) : c ∉ p := fun hp => by
  rw [h.digits c hp] at hc; cases hc

theorem IsOctet.not_mem {n : Nat} (h : IsOctet p n) (hc : c.isDigit = false) : c ∉ p := fun hp => by
  rw [h.digits c hp] at hc; cases hc

/-! ## IPv4 -/

inductive Ipv4Text : List Char → List Nat → Prop
  | mk {a b c d : List Char} {w x y z : Nat} (ha : IsOctet a w) (hb : IsOctet b x) (hc : IsOctet c y) (hd : IsOctet d z) :
      Ipv4Text (['.'].intercalate [a, b, c, d]) [w, x, y, z]

/-- `inet_pton` for `AF_INET`. -/
def inetPton4 (s : List Char) : Option (List Nat) :=
  match s.splitOn '.' with
  | [a, b, c, d] => do return [← octet? a, ← octet? b, ← octet? c, ← octet? d]
  | _ => none

variable {s : List Char} {bytes : List Nat}

theorem inetPton4_eq_some : inetPton4 s = some bytes ↔ Ipv4Text s bytes := by
  constructor
  · intro h
    unfold inetPton4 at h
    split at h
    · next a b c d hs =>
      simp only [Option.pure_def, Option.bind_eq_bind, Option.bind_eq_some_iff, Option.some.injEq] at h
      obtain ⟨w, hw, x, hx, y, hy, z, hz, rfl⟩ := h
      have hback : ['.'].intercalate (s.splitOn '.') = s := intercalate_splitOn '.'
      rw [← hback, hs]
      exact .mk (octet?_eq_some.1 hw) (octet?_eq_some.1 hx) (octet?_eq_some.1 hy) (octet?_eq_some.1 hz)
    · cases h
  · rintro @⟨a, b, c, d, w, x, y, z, ha, hb, hc, hd⟩
    have hdots : ∀ p ∈ [a, b, c, d], '.' ∉ p := by
      simp only [mem_cons, not_mem_nil, or_false, forall_eq_or_imp, forall_eq]
      exact ⟨ha.not_mem (by decide), hb.not_mem (by decide), hc.not_mem (by decide), hd.not_mem (by decide)⟩
    unfold inetPton4
    rw [splitOn_intercalate '.' hdots (by simp)]
    simp [octet?_eq_some.2 ha, octet?_eq_some.2 hb, octet?_eq_some.2 hc, octet?_eq_some.2 hd]

theorem Ipv4Text.not_mem (h : Ipv4Text s bytes) (hc : c.isDigit = false)
    (hdot : c ≠ '.') : c ∉ s := by
  cases h with
  | mk ha hb hc' hd =>
    simp [intercalate_cons_cons, hdot, ha.not_mem hc, hb.not_mem hc, hc'.not_mem hc, hd.not_mem hc]

theorem Ipv4Text.dot_mem (h : Ipv4Text s bytes) : '.' ∈ s := by
  cases h with
  | mk => simp [intercalate_cons_cons]

/-! ## IPv6 -/

/-- The pieces between the colons, with the last two groups perhaps as an IPv4 address. -/
inductive TailPieces : List (List Char) → List Nat → Prop
  | group {p : List Char} {g : Nat} (h : IsGroup p g) : TailPieces [p] [g]
  | quad {p : List Char} {w x y z : Nat} (h : Ipv4Text p [w, x, y, z]) : TailPieces [p] [256 * w + x, 256 * y + z]
  | cons {p : List Char} {g : Nat} {ps : List (List Char)} {gs : List Nat} (h : IsGroup p g) (ht : TailPieces ps gs) :
      TailPieces (p :: ps) (g :: gs)

/-- The eight groups of an address. -/
inductive Ipv6Text : List Char → List Nat → Prop
  | full {ps : List (List Char)} {gs : List Nat} (h : TailPieces ps gs) (hlen : gs.length = 8) :
      Ipv6Text ([':'].intercalate ps) gs
  | compressed {ls rs : List (List Char)} {gl gr : List Nat} (hl : List.Forall₂ IsGroup ls gl)
      (hr : rs = [] ∧ gr = [] ∨ TailPieces rs gr) (hlen : gl.length + gr.length < 8) :
      Ipv6Text ([':'].intercalate ls ++ "::".toList ++ [':'].intercalate rs)
        (gl ++ List.replicate (8 - (gl.length + gr.length)) 0 ++ gr)

def tailPieces? : List (List Char) → Option (List Nat)
  | [] => none
  | [p] =>
    match group? p, inetPton4 p with
    | some g, _ => some [g]
    | none, some [w, x, y, z] => some [256 * w + x, 256 * y + z]
    | none, _ => none
  | p :: ps => do return (← group? p) :: (← tailPieces? ps)

/-- The pieces of a text; an empty one has none. -/
def piecesOf (s : List Char) : List (List Char) := if s = [] then [] else s.splitOn ':'

/-- The groups behind the double colon; there may be none. -/
def rightGroups (r : List Char) : Option (List Nat) := if r = [] then some [] else tailPieces? (piecesOf r)

/-- The groups that `inet_pton` reads for `AF_INET6`. -/
def inetGroups (s : List Char) : Option (List Nat) :=
  match strstr "::".toList s with
  | none => do
    let gs ← tailPieces? (piecesOf s)
    if gs.length = 8 then some gs else none
  | some (l, r) => do
    let gl ← (piecesOf l).mapM group?
    let gr ← rightGroups r
    if gl.length + gr.length < 8 then some (gl ++ List.replicate (8 - (gl.length + gr.length)) 0 ++ gr) else none

/-- Groups as bytes. -/
def groupBytes (gs : List Nat) : List Nat := gs.flatMap fun g => [g / 256, g % 256]

/-- `inet_pton` for `AF_INET6`. -/
def inetPton6 (s : List Char) : Option (List Nat) := (inetGroups s).map groupBytes

theorem tailPieces?_eq_some : ∀ {ps : List (List Char)} {gs : List Nat}, tailPieces? ps = some gs ↔ TailPieces ps gs
  | [], gs => ⟨by rintro ⟨⟩, by rintro ⟨⟩⟩
  | [p], gs => by
    constructor
    · intro h
      unfold tailPieces? at h
      split at h
      · next hg => cases h; exact .group (group?_eq_some.1 hg)
      · next hq => cases h; exact .quad (inetPton4_eq_some.1 hq)
      · cases h
    · intro h
      cases h with
      | group h => rw [tailPieces?, group?_eq_some.2 h]
      | quad h =>
        have hnone : group? p = none := by
          rw [Option.eq_none_iff_forall_ne_some]
          intro g hg
          exact (group?_eq_some.1 hg).not_mem (by decide) h.dot_mem
        rw [tailPieces?, hnone, inetPton4_eq_some.2 h]
      | cons _ ht => cases ht
  | p :: q :: ps, gs => by
    simp only [tailPieces?, Option.pure_def, Option.bind_eq_bind, Option.bind_eq_some_iff, Option.some.injEq]
    constructor
    · rintro ⟨g, hg, gs', hgs, rfl⟩
      exact .cons (group?_eq_some.1 hg) (tailPieces?_eq_some.1 hgs)
    · intro h
      cases h with
      | cons hg ht => exact ⟨_, group?_eq_some.2 hg, _, tailPieces?_eq_some.2 ht, rfl⟩

theorem mapM_group?_eq_some : ∀ {ls : List (List Char)} {gl : List Nat}, ls.mapM group? = some gl ↔ List.Forall₂ IsGroup ls gl
  | [], gl => by
    rw [mapM_nil, List.forall₂_nil_left_iff]
    exact ⟨fun h => (Option.some.inj h).symm, fun h => by rw [h]; rfl⟩
  | p :: ls, gl => by
    simp only [mapM_cons, Option.pure_def, Option.bind_eq_bind, Option.bind_eq_some_iff, Option.some.injEq]
    constructor
    · rintro ⟨g, hg, gl', hgl, rfl⟩
      exact .cons (group?_eq_some.1 hg) (mapM_group?_eq_some.1 hgl)
    · intro h
      cases h with
      | cons hg ht => exact ⟨_, group?_eq_some.2 hg, _, mapM_group?_eq_some.2 ht, rfl⟩

/-! ## Where the double colon stands -/

/-- Pieces that are texts without a colon. -/
def Pieces (ps : List (List Char)) : Prop := ∀ p ∈ ps, p ≠ [] ∧ ':' ∉ p

variable {ps : List (List Char)} {gs : List Nat}

theorem TailPieces.ne_nil (h : TailPieces ps gs) : ps ≠ [] := by
  cases h <;> simp

/-- One side of a double colon: nothing, or pieces. -/
def Side (ps : List (List Char)) (gs : List Nat) : Prop := ps = [] ∧ gs = [] ∨ TailPieces ps gs

theorem side_of_forall₂ (h : List.Forall₂ IsGroup ps gs) : Side ps gs := by
  induction h with
  | nil => exact .inl ⟨rfl, rfl⟩
  | cons hg _ ih =>
    rcases ih with ⟨rfl, rfl⟩ | ih
    · exact .inr (.group hg)
    · exact .inr (.cons hg ih)

theorem Side.mem (h : Side ps gs) : ∀ p ∈ ps, (∃ g, IsGroup p g) ∨ ∃ bytes, Ipv4Text p bytes := by
  rcases h with ⟨rfl, -⟩ | h
  · simp
  · induction h with
    | group h => simpa using .inl ⟨_, h⟩
    | quad h => simpa using .inr ⟨_, h⟩
    | cons h _ ih => exact forall_mem_cons.2 ⟨.inl ⟨_, h⟩, ih⟩

theorem isDigit_isxdigit (h : isxdigit c = false) : c.isDigit = false := by
  simp only [isxdigit, Bool.or_eq_false_iff] at h
  exact h.1.1

theorem Side.not_mem (h : Side ps gs) (hc : isxdigit c = false) (hdot : c ≠ '.') : ∀ p ∈ ps, c ∉ p := by
  intro p hp
  rcases h.mem p hp with ⟨g, hg⟩ | ⟨bytes, hb⟩
  · exact hg.not_mem hc
  · exact hb.not_mem (isDigit_isxdigit hc) hdot

theorem Side.pieces (h : Side ps gs) : Pieces ps := by
  refine fun p hp => ⟨?_, h.not_mem (by decide) (by decide) p hp⟩
  rcases h.mem p hp with ⟨g, hg⟩ | ⟨bytes, hb⟩
  · exact hg.ne_nil
  · exact ne_nil_of_mem hb.dot_mem

theorem exists_append_of_not_mem {p t a b : List Char} (hp : ':' ∉ p) (h : p ++ t = a ++ ':' :: b) :
    ∃ a', a = p ++ a' ∧ t = a' ++ ':' :: b := by
  rcases append_eq_append_iff.1 h with ⟨a', rfl, ht⟩ | ⟨c, rfl, hc⟩
  · exact ⟨a', rfl, ht⟩
  · cases c with
    | nil => exact ⟨[], by simp, hc.symm⟩
    | cons d c =>
      rw [cons_append, List.cons.injEq] at hc
      exact absurd (by simp [← hc.1]) hp

theorem Pieces.head (h : Pieces ps) (t : List Char) : ∀ q qs, ps = q :: qs →
    ([':'].intercalate ps ++ t).head? ≠ some ':' := by
  rintro q qs rfl
  obtain ⟨hne, hcolon⟩ := h q (by simp)
  obtain ⟨c, q, rfl⟩ := exists_cons_of_ne_nil hne
  rw [intercalate_cons]
  simp only [cons_append, head?_cons, ne_eq, Option.some.injEq]
  rintro rfl
  exact hcolon (by simp)

/-- No double colon begins in pieces with colons between them. -/
theorem Pieces.double_append {t b : List Char} : ∀ {ps : List (List Char)}, Pieces ps → ∀ {a : List Char},
    [':'].intercalate ps ++ t = a ++ ':' :: ':' :: b → ∃ a', a = [':'].intercalate ps ++ a' ∧ t = a' ++ ':' :: ':' :: b
  | [], _, a, h => ⟨a, rfl, h⟩
  | [p], hps, a, h => by
    rw [intercalate_singleton] at h ⊢
    exact exists_append_of_not_mem (hps p (by simp)).2 h
  | p :: q :: ps, hps, a, h => by
    have hqs : Pieces (q :: ps) := (forall_mem_cons.1 hps).2
    rw [intercalate_cons_cons, append_assoc, append_assoc] at h
    obtain ⟨a', rfl, hrest⟩ := exists_append_of_not_mem (hps p (by simp)).2 h
    rcases cons_eq_append_iff.1 hrest with ⟨rfl, hcons⟩ | ⟨a'', rfl, hcons⟩
    · have hhead := hqs.head t q ps rfl
      have htail : ':' :: b = [':'].intercalate (q :: ps) ++ t := (List.cons.inj hcons).2
      rw [← htail] at hhead
      exact absurd rfl hhead
    · obtain ⟨a', rfl, ht⟩ := hqs.double_append hcons
      exact ⟨a', by simp [intercalate_cons_cons], ht⟩

theorem Pieces.no_double (h : Pieces ps) (a b : List Char) : [':'].intercalate ps ≠ a ++ ':' :: ':' :: b := by
  intro heq
  obtain ⟨a', -, hnil⟩ := @double_append [] b ps h a (by rw [append_nil, heq])
  simp at hnil

theorem Pieces.double_unique {ls rs : List (List Char)} (hr : Pieces rs) (hl : Pieces ls) {a b : List Char}
    (h : [':'].intercalate ls ++ "::".toList ++ [':'].intercalate rs = a ++ ':' :: ':' :: b) : a = [':'].intercalate ls := by
  rw [append_assoc] at h
  obtain ⟨a', rfl, hrest⟩ := hl.double_append h
  -- behind the double colon, no other one begins
  rcases a' with - | ⟨c, - | ⟨d, a'⟩⟩
  · rw [append_nil]
  · have hcolon : [':'].intercalate rs = ':' :: b := (List.cons.inj (List.cons.inj hrest).2).2
    cases rs with
    | nil => simp at hcolon
    | cons q qs => exact absurd (by simp [hcolon]) (hr.head [] q qs rfl)
  · exact absurd (List.cons.inj (List.cons.inj hrest).2).2 (hr.no_double a' b)

/-! ## The reader reads the texts of addresses -/

theorem piecesOf_intercalate (h : Pieces ps) : piecesOf ([':'].intercalate ps) = ps := by
  cases ps with
  | nil => rfl
  | cons p ps =>
    have hne : [':'].intercalate (p :: ps) ≠ [] := by
      rw [intercalate_cons]
      exact append_ne_nil_of_left_ne_nil (h p (by simp)).1 _
    rw [piecesOf, if_neg hne, splitOn_intercalate ':' (fun q hq => (h q hq).2) (by simp)]

theorem intercalate_piecesOf (s : List Char) : [':'].intercalate (piecesOf s) = s := by
  unfold piecesOf
  split
  · next h => rw [h]; rfl
  · exact intercalate_splitOn ':'

theorem strstr_double {ls rs : List (List Char)} (hl : Pieces ls) (hr : Pieces rs) :
    strstr "::".toList ([':'].intercalate ls ++ "::".toList ++ [':'].intercalate rs) =
      some ([':'].intercalate ls, [':'].intercalate rs) := by
  cases h : strstr "::".toList ([':'].intercalate ls ++ "::".toList ++ [':'].intercalate rs) with
  | none => exact absurd ⟨_, _, rfl⟩ (not_infix_of_strstr h)
  | some r =>
    obtain ⟨u, v⟩ := r
    have heq := eq_of_strstr h
    have hu : u = [':'].intercalate ls := hr.double_unique hl (b := v) (by rw [heq, append_assoc]; rfl)
    rw [hu] at heq ⊢
    rw [← append_cancel_left heq]

theorem inetGroups_eq_some : inetGroups s = some gs ↔ Ipv6Text s gs := by
  constructor
  · intro h
    unfold inetGroups at h
    split at h
    · simp only [bind_eq_bind, bind_eq_some_iff, ite_none_right_eq_some, Option.some.injEq] at h
      obtain ⟨gs', hgs, hlen, rfl⟩ := h
      rw [← intercalate_piecesOf s]
      exact .full (tailPieces?_eq_some.1 hgs) hlen
    · next l r hs =>
      simp only [bind_eq_bind, bind_eq_some_iff, ite_none_right_eq_some, Option.some.injEq] at h
      obtain ⟨gl, hgl, gr, hgr, hlen, rfl⟩ := h
      have hr : piecesOf r = [] ∧ gr = [] ∨ TailPieces (piecesOf r) gr := by
        unfold rightGroups at hgr
        split at hgr
        · next hr => cases hgr; exact .inl ⟨by rw [hr]; rfl, rfl⟩
        · exact .inr (tailPieces?_eq_some.1 hgr)
      rw [eq_of_strstr hs, ← intercalate_piecesOf l, ← intercalate_piecesOf r]
      exact .compressed (mapM_group?_eq_some.1 hgl) hr hlen
  · intro h
    cases h with
    | @full ps gs h hlen =>
      have hnone : strstr "::".toList ([':'].intercalate ps) = none := strstr_eq_none_iff.2 fun ⟨a, b, hab⟩ =>
        (Side.pieces (.inr h)).no_double a b (by rw [← hab, append_assoc]; rfl)
      simp only [inetGroups, hnone, piecesOf_intercalate (Side.pieces (.inr h)), tailPieces?_eq_some.2 h, bind_eq_bind, bind_some,
        if_pos hlen]
    | @compressed ls rs gl gr hl hr hlen =>
      have hrs := Side.pieces hr
      have hls := (side_of_forall₂ hl).pieces
      have hback := piecesOf_intercalate hrs
      have hgr : rightGroups ([':'].intercalate rs) = some gr := by
        unfold rightGroups
        rcases hr with ⟨rfl, rfl⟩ | hr
        · rfl
        · rw [hback, if_neg (fun hnil => hr.ne_nil (by rw [← hback, hnil]; rfl)), tailPieces?_eq_some.2 hr]
      simp only [inetGroups, strstr_double hls hrs, piecesOf_intercalate hls, mapM_group?_eq_some.2 hl, hgr,
        bind_eq_bind, bind_some, if_pos hlen]

theorem Ipv6Text.double_unique (h : Ipv6Text s gs) {a b a' b' : List Char}
    (ha : s = a ++ ':' :: ':' :: b) (ha' : s = a' ++ ':' :: ':' :: b') : a = a' := by
  cases h with
  | full h hlen => exact absurd ha ((Side.pieces (.inr h)).no_double a b)
  | @compressed ls rs gl gr hl hr hlen =>
    have hunique {a b : List Char} := @Pieces.double_unique ls rs (Side.pieces hr) (side_of_forall₂ hl).pieces a b
    rw [hunique ha, hunique ha']

/-! ## The shape of a text -/

theorem tailPieces_of_forall₂ (h : List.Forall₂ IsGroup ps gs) (hne : ps ≠ []) : TailPieces ps gs :=
  (side_of_forall₂ h).resolve_left fun hnil => hne hnil.1

theorem mem_intercalate {sep c : Char} (h : c ∈ [sep].intercalate ps) : c = sep ∨ ∃ p ∈ ps, c ∈ p := by
  cases ps with
  | nil => simp at h
  | cons p ps =>
    rw [intercalate_cons, mem_append, mem_flatMap] at h
    rcases h with h | ⟨q, hq, hc⟩
    · exact .inr ⟨p, by simp, h⟩
    · rcases mem_cons.1 hc with rfl | hc
      · exact .inl rfl
      · exact .inr ⟨q, by simp [hq], hc⟩

theorem Ipv6Text.not_mem (h : Ipv6Text s gs) (hc : isxdigit c = false) (hdot : c ≠ '.')
    (hcolon : c ≠ ':') : c ∉ s := by
  have hjoin : ∀ {ps : List (List Char)} {gs : List Nat}, Side ps gs → c ∉ [':'].intercalate ps := by
    intro ps gs hps hmem
    rcases mem_intercalate hmem with heq | ⟨p, hp, hcp⟩
    · exact hcolon heq
    · exact hps.not_mem hc hdot p hp hcp
  cases h with
  | full h _ => exact hjoin (.inr h)
  | compressed hl hr _ =>
    simp only [mem_append, not_or]
    exact ⟨⟨hjoin (side_of_forall₂ hl), by simpa using hcolon⟩, hjoin hr⟩

theorem Ipv4Text.length_le (h : Ipv4Text s bytes) : s.length ≤ 15 := by
  cases h with
  | mk ha hb hc hd =>
    have := ha.length_le
    have := hb.length_le
    have := hc.length_le
    have := hd.length_le
    simp only [intercalate_cons_cons, intercalate_singleton, length_append, length_cons, length_nil]
    omega

theorem TailPieces.length_le (h : TailPieces ps gs) :
    ([':'].intercalate ps).length ≤ 8 * gs.length := by
  induction h with
  | group h =>
    have := h.length_le
    rw [intercalate_singleton, length_singleton]
    omega
  | quad h =>
    have := h.length_le
    rw [intercalate_singleton]
    simp only [length_cons, length_nil]
    omega
  | @cons p g ps gs h ht ih =>
    obtain ⟨q, qs, rfl⟩ := exists_cons_of_ne_nil ht.ne_nil
    have := h.length_le
    rw [intercalate_cons_cons]
    simp only [length_append, length_cons, length_nil]
    omega

theorem Side.length_le (h : Side ps gs) : ([':'].intercalate ps).length ≤ 8 * gs.length := by
  rcases h with ⟨rfl, rfl⟩ | h
  · simp
  · exact h.length_le

theorem Ipv6Text.length_le (h : Ipv6Text s gs) : s.length ≤ 64 := by
  cases h with
  | full h hlen =>
    have := h.length_le
    omega
  | compressed hl hr hlen =>
    have hleft := (side_of_forall₂ hl).length_le
    have hright := Side.length_le hr
    rw [length_append, length_append]
    have hcolons : "::".toList.length = 2 := rfl
    omega

theorem Ipv6Text.exists_colon (h : Ipv6Text s gs) : ∃ u v, s = u ++ ':' :: v ∧ ':' ∉ u ∧ '.' ∉ u := by
  have hfirst : ∀ {p v : List Char} {g : Nat}, IsGroup p g → s = p ++ ':' :: v → ∃ u v, s = u ++ ':' :: v ∧ ':' ∉ u ∧ '.' ∉ u :=
    fun hp hs => ⟨_, _, hs, hp.not_mem (by decide), hp.not_mem (by decide)⟩
  cases h with
  | full h hlen =>
    -- eight groups are more than one piece, and all but the last are groups
    cases h with
    | group => simp at hlen
    | quad => simp at hlen
    | cons hp ht =>
      obtain ⟨q, qs, rfl⟩ := exists_cons_of_ne_nil ht.ne_nil
      exact hfirst hp (by rw [intercalate_cons_cons, append_assoc]; rfl)
  | @compressed ls rs gl gr hl hr hlen =>
    cases hl with
    | nil => exact ⟨[], ':' :: [':'].intercalate rs, rfl, by simp, by simp⟩
    | @cons _ _ ls _ hp _ =>
      cases ls with
      | nil => exact hfirst hp (by rw [intercalate_singleton, append_assoc]; rfl)
      | cons q ls => exact hfirst hp (by simp only [intercalate_cons_cons, append_assoc]; rfl)

end Lib
