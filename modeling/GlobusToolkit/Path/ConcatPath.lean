/-
`globus_i_gsc_concat_path` (gridftp/server-lib/src/globus_gridftp_server_control.c): the path of a CWD
command is built from the working directory and rewritten in place: first every `//`, then every `/..`
with the component in front of it, then every `./`, at last a trailing slash. The rewriting searches for
substrings and does not look at where components end, so it resolves a path only if no name in it
looks like one of them.
-/
import GlobusToolkit.Lib.CString
import GlobusToolkit.Lib.Path

namespace Globus

open Lib List

/-! ## The function -/

/-- The directories of the server handle. -/
structure ServerDirs where
  cwd : List Char
  defaultCwd : List Char

/-- The path before it is rewritten. -/
def concatRaw (server : ServerDirs) (inPath : List Char) : List Char :=
  match inPath with
  | '/' :: _ => inPath
  | '~' :: _ =>
    match strchr '/' inPath with
    | some p => server.defaultCwd ++ p
    | none => server.defaultCwd
  | _ => server.cwd ++ '/' :: inPath

/-- `tmp_ptr2` walks back to the slash in front of the last component, or to the beginning of the
path. The argument holds the characters in front of `tmp_ptr` from last to first, the result those in
front of `tmp_ptr2`. -/
def walkBack : List Char → List Char
  | [] => []
  | c :: r => if r = [] ∨ c = '/' then r else walkBack r

theorem walkBack_length_le : ∀ r : List Char, (walkBack r).length ≤ r.length
  | [] => le_refl _
  | c :: r => by
    have := walkBack_length_le r
    rw [walkBack, length_cons]
    split_ifs <;> omega

/-- Remove all double slashes. -/
def removeDoubleSlashes : List Char → List Char :=
  strstrLoop ['/', '/'] (fun u v => u ++ '/' :: v) (by simp)

/-- Remove every `/..` with what stands in front of it, back to the last slash. -/
def removeDotDots : List Char → List Char :=
  strstrLoop ['/', '.', '.'] (fun u v => (walkBack u.reverse).reverse ++ v) fun u v => by
    have := walkBack_length_le u.reverse
    simp only [length_append, length_reverse, length_cons, length_nil] at this ⊢
    omega

/-- Remove all dot slashes. -/
def removeDotSlashes : List Char → List Char :=
  strstrLoop ['.', '/'] (fun u v => u ++ v) (by simp)

/-- Remove a trailing slash; an empty path is the root. -/
def removeTrailingSlash (path : List Char) : List Char :=
  if path.length > 1 ∧ path.getLast? = some '/' then path.dropLast
  else if path.length = 0 then ['/']
  else path

/-- `globus_i_gsc_concat_path`. -/
def gscConcatPath (server : ServerDirs) (inPath : List Char) : List Char :=
  removeTrailingSlash (removeDotSlashes (removeDotDots (removeDoubleSlashes (concatRaw server inPath))))

/-! ## Double slashes -/

/-- A slash at the end of a path. -/
def trailingSlash (t : Bool) : List Char := if t then ['/'] else []

/-- A word without the slashes that another one follows. -/
def squeeze : List Char → List Char
  | [] => []
  | c :: s => if c = '/' ∧ (squeeze s).head? = some '/' then squeeze s else c :: squeeze s

theorem squeeze_slash_head (s : List Char) : (squeeze ('/' :: s)).head? = some '/' := by
  simp only [squeeze, true_and]
  split_ifs with h
  · exact h
  · rfl

theorem squeeze_append_slash (v : List Char) : ∀ u : List Char,
    squeeze (u ++ '/' :: '/' :: v) = squeeze (u ++ '/' :: v)
  | [] => by
    show (if _ then _ else _) = _
    rw [if_pos ⟨rfl, squeeze_slash_head v⟩]; rfl
  | c :: u => by
    simp only [cons_append, squeeze, squeeze_append_slash v u]

theorem squeeze_eq_self : ∀ {s : List Char}, ¬ ['/', '/'] <:+: s → squeeze s = s
  | [], _ => rfl
  | c :: s, h => by
    rw [infix_cons_iff, not_or] at h
    rw [squeeze, squeeze_eq_self h.2, if_neg]
    rintro ⟨rfl, hs⟩
    cases s with
    | nil => cases hs
    | cons d s => cases hs; exact h.1 ⟨s, rfl⟩

theorem removeDoubleSlashes_eq (s : List Char) : removeDoubleSlashes s = squeeze s := by
  obtain ⟨h1, h2⟩ : squeeze (removeDoubleSlashes s) = squeeze s ∧ ¬ ['/', '/'] <:+: removeDoubleSlashes s := by
    refine strstrLoop_inv (fun s' => squeeze s' = squeeze s) _ (fun u v _ hs => ?_) s rfl
    rw [← hs, append_assoc]
    exact (squeeze_append_slash v u).symm
  rw [← squeeze_eq_self h2, h1]

theorem squeeze_append {k : List Char} (hk : '/' ∉ k) (s : List Char) : squeeze (k ++ s) = k ++ squeeze s := by
  induction k with
  | nil => rfl
  | cons c k ih =>
    simp only [mem_cons, not_or] at hk
    rw [cons_append, squeeze, if_neg (fun h => hk.1 h.1.symm), ih hk.2, cons_append]

/-- Without its double slashes a path is its components one after the other, with a slash at the end if
there was one. -/
theorem squeeze_joinPath : ∀ ks : List (List Char), (∀ k ∈ ks, '/' ∉ k) →
    squeeze (joinPath '/' ks) = joinPath '/' (ks.filter (· ≠ [])) ++ trailingSlash (ks.getLast? = some [])
  | [], _ => rfl
  | k :: ks, h => by
    have ih := squeeze_joinPath ks fun l hl => h l (by simp [hl])
    rw [joinPath_cons, squeeze, squeeze_append (h k (by simp))]
    cases k with
    | cons c k =>
      have hc : c ≠ '/' := fun hc => h (c :: k) (by simp) (by simp [hc])
      rw [if_neg (by simp [hc]), ih]
      cases ks with
      | nil => simp [trailingSlash]
      | cons l ks => simp
    | nil =>
      cases ks with
      | nil => simp [squeeze, trailingSlash]
      | cons l ks =>
        rw [nil_append, if_pos ⟨rfl, squeeze_slash_head _⟩, ih]
        simp

/-! ## Dot dots -/

theorem walkBack_append (w : List Char) : ∀ k : List Char, '/' ∉ k → walkBack (k ++ '/' :: w) = w
  | [], _ => by simp [walkBack]
  | c :: k, h => by
    simp only [mem_cons, not_or] at h
    rw [cons_append, walkBack, if_neg (by simp [Ne.symm h.1]), walkBack_append w k h.2]

theorem walkBack_joinPath {pre : List (List Char)} (h : ∀ c ∈ pre, '/' ∉ c) :
    (walkBack (joinPath '/' pre).reverse).reverse = joinPath '/' pre.dropLast := by
  rcases eq_nil_or_concat pre with rfl | ⟨pre, c, rfl⟩
  · rfl
  · rw [concat_eq_append] at *
    have hc : '/' ∉ c.reverse := by simpa using h c (by simp)
    rw [joinPath_append, joinPath_cons, joinPath_nil, append_nil, reverse_append, reverse_cons,
      append_assoc, singleton_append, walkBack_append _ _ hc, reverse_reverse, dropLast_concat]

theorem joinPath_head (cs : List (List Char)) (t : Bool) (x : Char)
    (hx : x ∈ (joinPath '/' cs ++ trailingSlash t).head?) : x = '/' := by
  cases cs with
  | nil =>
    cases t with
    | false => simp [trailingSlash] at hx
    | true => simpa [trailingSlash] using hx.symm
  | cons c cs => simpa using hx.symm

variable {t : Bool}

theorem exists_of_infix_dotDot {v : List Char} : ∀ (cs : List (List Char)) (u : List Char),
    (∀ c ∈ cs, IsComponent '/' c) → joinPath '/' cs ++ trailingSlash t = u ++ ['/', '.', '.'] ++ v →
    ∃ pre c post, cs = pre ++ c :: post ∧ u = joinPath '/' pre ∧ dotDot <+: c
  | [], u, _, heq => by
    have := congrArg List.length heq
    cases t <;> simp [trailingSlash] at this
    omega
  | c :: cs, u, h, heq => by
    have hc := h c (by simp)
    rw [joinPath_cons, cons_append, append_assoc] at heq
    cases u with
    | nil =>
      refine ⟨[], c, cs, rfl, rfl, ?_⟩
      simp only [nil_append, cons_append, List.cons.injEq, true_and] at heq
      obtain ⟨a, c, rfl⟩ := exists_cons_of_ne_nil hc.ne_nil
      simp only [cons_append, List.cons.injEq] at heq
      obtain ⟨rfl, heq⟩ := heq
      cases c with
      | nil => exact absurd (joinPath_head cs t '.' (by rw [nil_append] at heq; simp [heq])) (by decide)
      | cons b c =>
        simp only [cons_append, List.cons.injEq] at heq
        exact ⟨c, by rw [heq.1]; rfl⟩
    | cons a u =>
      simp only [cons_append, append_assoc, List.cons.injEq] at heq
      obtain ⟨rfl, heq⟩ := heq
      -- the slash that is found is not in `c`
      obtain ⟨u', rfl, heq'⟩ : ∃ u', u = c ++ u' ∧
          joinPath '/' cs ++ trailingSlash t = u' ++ ['/', '.', '.'] ++ v := by
        obtain ⟨u', hu, hx⟩ := exists_of_append_eq hc.sep_not_mem heq
        exact ⟨u', hu, by rw [hx]; simp⟩
      obtain ⟨pre, d, post, rfl, rfl, hd⟩ := exists_of_infix_dotDot cs u' (fun d hd => h d (by simp [hd])) heq'
      exact ⟨c :: pre, d, post, rfl, rfl, hd⟩

/-- No name in the path merely begins like `..`. -/
def PlainDotDots (cs : List (List Char)) : Prop := ∀ c ∈ cs, dotDot <+: c → c = dotDot

variable {cs : List (List Char)} {u v : List Char}

theorem removeDotDots_step (h : ∀ c ∈ cs, IsComponent '/' c)
    (hplain : PlainDotDots cs) (heq : joinPath '/' cs ++ trailingSlash t = u ++ ['/', '.', '.'] ++ v)
    (hfirst : strstr ['/', '.', '.'] (u ++ ['/', '.', '.'] ++ v) = some (u, v)) :
    ∃ pre post, cs = pre ++ dotDot :: post ∧ dotDot ∉ pre ∧
      (walkBack u.reverse).reverse ++ v = joinPath '/' (pre.dropLast ++ post) ++ trailingSlash t := by
  obtain ⟨pre, c, post, rfl, rfl, hc⟩ := exists_of_infix_dotDot cs u h heq
  obtain rfl := hplain c (by simp) hc
  refine ⟨pre, post, rfl, fun hmem => ?_, ?_⟩
  · -- an earlier `..` would have been found first
    obtain ⟨a, b, rfl⟩ := append_of_mem hmem
    have hocc : joinPath '/' (a ++ dotDot :: b) ++ ['/', '.', '.'] ++ v =
        joinPath '/' a ++ ['/', '.', '.'] ++ (joinPath '/' b ++ ['/', '.', '.'] ++ v) := by simp [joinPath_append]
    have hle := length_le_of_strstr hfirst hocc
    simp [joinPath_append] at hle
  · have hv : v = joinPath '/' post ++ trailingSlash t := by
      simpa [joinPath_append] using heq.symm
    rw [walkBack_joinPath fun c hc => (h c (by simp [hc])).sep_not_mem, joinPath_append, hv, append_assoc]

theorem removeDotDots_joinPath (h : ∀ c ∈ cs, IsComponent '/' c)
    (hplain : PlainDotDots cs) :
    removeDotDots (joinPath '/' cs ++ trailingSlash t) = joinPath '/' (resolve dotDot cs) ++ trailingSlash t := by
  obtain ⟨⟨ds, hds, hplain', heq, hres⟩, hno⟩ :
      (∃ ds : List (List Char), (∀ c ∈ ds, IsComponent '/' c) ∧ PlainDotDots ds ∧
        removeDotDots (joinPath '/' cs ++ trailingSlash t) = joinPath '/' ds ++ trailingSlash t ∧
        resolve dotDot ds = resolve dotDot cs) ∧
      ¬ ['/', '.', '.'] <:+: removeDotDots (joinPath '/' cs ++ trailingSlash t) := by
    refine strstrLoop_inv (fun s => ∃ ds : List (List Char), (∀ c ∈ ds, IsComponent '/' c) ∧ PlainDotDots ds ∧
      s = joinPath '/' ds ++ trailingSlash t ∧ resolve dotDot ds = resolve dotDot cs) _ (fun u v hfirst hs => ?_) _
      ⟨cs, h, hplain, rfl, rfl⟩
    obtain ⟨ds, hds, hplain', heq, hres⟩ := hs
    obtain ⟨pre, post, rfl, hpre, hedit⟩ := removeDotDots_step hds hplain' heq.symm hfirst
    have hsub : ∀ c ∈ pre.dropLast ++ post, c ∈ pre ++ dotDot :: post := by
      intro c hc
      rcases mem_append.1 hc with hc | hc
      · simp [dropLast_subset _ hc]
      · simp [hc]
    exact ⟨pre.dropLast ++ post, fun c hc => hds c (hsub c hc), fun c hc => hplain' c (hsub c hc), hedit,
      by rw [← hres, resolve_cancel hpre]⟩
  have hnot : dotDot ∉ ds := fun hmem => by
    obtain ⟨a, b, rfl⟩ := append_of_mem hmem
    rw [heq] at hno
    exact hno ⟨joinPath '/' a, joinPath '/' b ++ trailingSlash t, by simp [joinPath_append]⟩
  rw [heq, ← hres, resolve_eq_self hnot]

/-! ## Dot slashes -/

/-- A word without its dot slashes. -/
def undot : List Char → List Char
  | '.' :: '/' :: s => undot s
  | c :: s => c :: undot s
  | [] => []

theorem undot_cons {c : Char} {s : List Char} (h : c = '.' → s.head? ≠ some '/') : undot (c :: s) = c :: undot s := by
  rw [undot]
  rintro s' hc rfl; exact h hc rfl

theorem undot_append {v : List Char} (hv : v.head? ≠ some '/') : ∀ u : List Char,
    undot (u ++ '.' :: '/' :: v) = undot (u ++ v)
  | [] => rfl
  | [c] => by
    rw [singleton_append, singleton_append, undot_cons (by simp), undot_cons fun _ => hv]; rfl
  | c :: d :: u => by
    by_cases hcd : c = '.' ∧ d = '/'
    · obtain ⟨rfl, rfl⟩ := hcd
      exact undot_append hv u
    · have hne : ∀ w : List Char, c = '.' → (d :: u ++ w).head? ≠ some '/' := fun w hc hd =>
        hcd ⟨hc, by simpa using hd⟩
      have ih := undot_append hv (d :: u)
      show undot (c :: (d :: u ++ _)) = undot (c :: (d :: u ++ v))
      rw [undot_cons (hne _), ih, undot_cons (hne _)]

theorem undot_eq_self : ∀ {s : List Char}, ¬ ['.', '/'] <:+: s → undot s = s
  | [], _ => rfl
  | c :: s, h => by
    rw [infix_cons_iff, not_or] at h
    rw [undot_cons, undot_eq_self h.2]
    rintro rfl hs
    cases s with
    | nil => cases hs
    | cons d s => cases hs; exact h.1 ⟨s, rfl⟩

/-- A replacement makes no double slash. -/
theorem not_infix_double_slash (h : ¬ ['/', '/'] <:+: u ++ ['.', '/'] ++ v) :
    v.head? ≠ some '/' ∧ ¬ ['/', '/'] <:+: u ++ v := by
  have hv : v.head? ≠ some '/' := by
    intro hv
    cases v with
    | nil => cases hv
    | cons c v => cases hv; exact h ⟨u ++ ['.'], v, by simp⟩
  refine ⟨hv, fun hin => ?_⟩
  rcases infix_append_iff_ne_nil.1 hin with hu | hv' | ⟨l₁, l₂, h1, h2, heq, -, hpre⟩
  · exact h (hu.trans ⟨[], ['.', '/'] ++ v, by simp⟩)
  · exact h (hv'.trans ⟨u ++ ['.', '/'], [], by simp⟩)
  · -- the second slash would be the first of `v`
    have hl : l₂ = ['/'] := by
      rcases l₁ with _ | ⟨a, _ | ⟨b, l₁⟩⟩
      · exact absurd rfl h1
      · simp only [cons_append, nil_append, List.cons.injEq] at heq; exact heq.2.symm
      · simp only [cons_append, List.cons.injEq, nil_eq, append_eq_nil_iff] at heq
        exact absurd heq.2.2.2 h2
    obtain ⟨w, rfl⟩ := hpre
    exact hv (by simp [hl])

theorem removeDotSlashes_eq {s : List Char} (h : ¬ ['/', '/'] <:+: s) : removeDotSlashes s = undot s := by
  obtain ⟨⟨-, heq⟩, hno⟩ : (¬ ['/', '/'] <:+: removeDotSlashes s ∧ undot (removeDotSlashes s) = undot s) ∧
      ¬ ['.', '/'] <:+: removeDotSlashes s := by
    refine strstrLoop_inv (fun s' => ¬ ['/', '/'] <:+: s' ∧ undot s' = undot s) _ (fun u v _ hs => ?_) s ⟨h, rfl⟩
    obtain ⟨hv, hno⟩ := not_infix_double_slash hs.1
    refine ⟨hno, ?_⟩
    rw [← hs.2, append_assoc]
    exact (undot_append hv u).symm
  rw [← heq, undot_eq_self hno]

/-- What is left behind the first slash of joined components without their dot slashes: a component that
ends in a dot and is followed by a slash loses both. -/
def glued (t : Bool) : List (List Char) → List Char
  | [] => []
  | c :: cs =>
    if cs = [] ∧ t = false then c
    else if c.getLast? = some '.' then c.dropLast ++ glued t cs
    else c ++ '/' :: glued t cs

theorem undot_append_of_not_mem {c w : List Char} (hc : '/' ∉ c) (hw : w.head? = some '/' → c.getLast? ≠ some '.') :
    undot (c ++ w) = c ++ undot w := by
  induction c with
  | nil => rfl
  | cons a c ih =>
    simp only [mem_cons, not_or] at hc
    rw [cons_append, undot_cons, ih hc.2, cons_append]
    · intro hw' hlast
      cases c with
      | nil => cases hlast
      | cons b c => exact hw hw' (by simpa using hlast)
    · rintro rfl hhead
      cases c with
      | nil => exact hw (by simpa using hhead) rfl
      | cons b c => exact hc.2 (by simp at hhead; simp [hhead])

variable {c : List Char}

theorem undot_append_slash (hc : '/' ∉ c) (more : List Char) :
    undot (c ++ '/' :: more) =
      if c.getLast? = some '.' then c.dropLast ++ undot more else c ++ '/' :: undot more := by
  split_ifs with hlast
  · obtain ⟨c, rfl⟩ := getLast?_eq_some_iff.1 hlast
    simp only [mem_append, not_or] at hc
    rw [append_assoc, undot_append_of_not_mem hc.1 (by simp), dropLast_concat]
    rfl
  · rw [undot_append_of_not_mem hc fun _ => hlast, undot_cons (by simp)]

theorem undot_joinPath {t : Bool} : ∀ (c : List Char) (cs : List (List Char)), (∀ d ∈ c :: cs, '/' ∉ d) →
    undot (c ++ (joinPath '/' cs ++ trailingSlash t)) = glued t (c :: cs)
  | c, [], h => by
    have hc := h c (by simp)
    cases t with
    | false =>
      have := undot_append_of_not_mem hc (w := []) (by simp)
      simpa [trailingSlash, glued, undot] using this
    | true =>
      have := undot_append_slash hc []
      simpa [trailingSlash, glued, undot] using this
  | c, d :: cs, h => by
    have ih := undot_joinPath (t := t) d cs (forall_mem_cons.1 h).2
    rw [joinPath_cons, cons_append, append_assoc, undot_append_slash (h c (by simp)), ih]
    conv_rhs => rw [glued, if_neg (by simp)]

theorem not_infix_joinPath {t : Bool} : ∀ (cs : List (List Char)), (∀ c ∈ cs, IsComponent '/' c) →
    ¬ ['/', '/'] <:+: joinPath '/' cs ++ trailingSlash t
  | [], _ => fun hin => by
    have := hin.length_le
    cases t <;> simp [trailingSlash] at this
  | c :: cs, h => by
    have hc := h c (by simp)
    have ih := not_infix_joinPath (t := t) cs fun d hd => h d (by simp [hd])
    rw [joinPath_cons, cons_append, append_assoc, infix_cons_iff, infix_append_iff_ne_nil]
    rintro (⟨w, hw⟩ | hin | hin | ⟨l₁, l₂, h1, -, heq, hsuf, -⟩)
    · obtain ⟨a, c', rfl⟩ := exists_cons_of_ne_nil hc.ne_nil
      simp only [cons_append, List.cons.injEq, true_and] at hw
      exact hc.sep_not_mem (by rw [← hw.1]; simp)
    · exact hc.sep_not_mem (hin.subset (by simp))
    · exact ih hin
    · obtain ⟨a, l₁, rfl⟩ := exists_cons_of_ne_nil h1
      simp only [cons_append, List.cons.injEq] at heq
      exact hc.sep_not_mem (hsuf.subset (by simp [← heq.1]))

/-- A word without a slash at its end. -/
def chopSlash (w : List Char) : List Char := if w.getLast? = some '/' then w.dropLast else w

/-- The path without its dot slashes and its trailing slash. -/
theorem removeTrailingSlash_glued (h : ∀ c ∈ cs, IsComponent '/' c) :
    removeTrailingSlash (removeDotSlashes (joinPath '/' cs ++ trailingSlash t)) = '/' :: chopSlash (glued t cs) := by
  rw [removeDotSlashes_eq (not_infix_joinPath cs h)]
  cases cs with
  | nil => cases t <;> rfl
  | cons c cs =>
    rw [joinPath_cons, cons_append, append_assoc, undot_cons (by simp),
      undot_joinPath c cs fun d hd => (h d hd).sep_not_mem]
    generalize glued t (c :: cs) = g
    cases g with
    | nil => rfl
    | cons a g =>
      simp only [removeTrailingSlash, chopSlash, length_cons, getLast?_cons_cons]
      rw [if_neg (by omega : ¬ g.length + 1 + 1 = 0)]
      split_ifs with h1 h2 h3
      · rfl
      · exact absurd h1.2 h2
      · exact absurd ⟨by omega, h3⟩ h1
      · rfl

/-! ## When the path is resolved -/

/-- The components, in this order and with or without a slash behind the last, keep their names when the
dot slashes go: a component that ends in a dot is `.` itself and is followed by a slash, or is the
last, or only a `.` without a slash follows it. -/
def DotsSafe (t : Bool) : List (List Char) → Prop
  | [] => True
  | c :: cs =>
    if cs = [] then if c = dot then t = true else t = true → c.getLast? ≠ some '.'
    else if c = dot then DotsSafe t cs
    else if ∀ d ∈ cs, d = dot then (t = true ↔ c.getLast? ≠ some '.')
    else c.getLast? ≠ some '.' ∧ DotsSafe t cs

/-- A component that is left when every `..` is gone. -/
structure PlainName (c : List Char) : Prop extends IsComponent '/' c where
  not_dotDot : ¬ dotDot <+: c

theorem PlainName.exists_ne_dot (h : PlainName c) (hne : c ≠ dot) : ∃ x ∈ c, x ≠ '.' := by
  obtain ⟨a, c, rfl⟩ := exists_cons_of_ne_nil h.ne_nil
  by_contra hall
  push Not at hall
  obtain rfl := hall a (by simp)
  cases c with
  | nil => exact hne rfl
  | cons b c =>
    obtain rfl := hall b (by simp)
    exact h.not_dotDot ⟨c, rfl⟩

theorem not_prefix_dotSlash {c w : List Char} (hc : '/' ∉ c) (hne : c ≠ []) (hdot : c ≠ dot) :
    ¬ ['.', '/'] <+: c ++ w := by
  rintro ⟨r, hr⟩
  obtain ⟨a, c, rfl⟩ := exists_cons_of_ne_nil hne
  simp only [cons_append, nil_append, List.cons.injEq] at hr
  obtain ⟨rfl, hr⟩ := hr
  cases c with
  | nil => exact hdot rfl
  | cons b c =>
    simp only [cons_append, List.cons.injEq] at hr
    exact hc (by rw [hr.1]; simp)

theorem not_prefix_glued : ∀ cs : List (List Char), (∀ c ∈ cs, PlainName c) → ¬ ['.', '/'] <+: glued t cs
  | [], _ => by simp [glued]
  | c :: cs, h => by
    have hc := h c (by simp)
    rw [glued]
    split_ifs with h1 h2
    · exact fun hpre => hc.sep_not_mem (hpre.subset (by simp))
    · obtain ⟨c, rfl⟩ := getLast?_eq_some_iff.1 h2
      rw [dropLast_concat]
      by_cases hnil : c = []
      · subst hnil
        exact not_prefix_glued cs fun d hd => h d (by simp [hd])
      · refine not_prefix_dotSlash (fun hm => hc.sep_not_mem (by simp [hm])) hnil ?_
        rintro rfl
        exact hc.not_dotDot ⟨[], rfl⟩
    · exact not_prefix_dotSlash hc.sep_not_mem hc.ne_nil fun hdot => h2 (by rw [hdot]; rfl)

theorem glued_ne_nil : ∀ cs : List (List Char), (∀ c ∈ cs, c ≠ []) → (∃ c ∈ cs, c ≠ dot) → glued t cs ≠ []
  | [], _, h => by simp at h
  | c :: cs, hne, h => by
    have hc := hne c (by simp)
    rw [glued]
    split_ifs with h1 h2
    · exact hc
    · obtain ⟨c, rfl⟩ := getLast?_eq_some_iff.1 h2
      rw [dropLast_concat]
      by_cases hnil : c = []
      · subst hnil
        refine glued_ne_nil cs (fun d hd => hne d (by simp [hd])) ?_
        obtain ⟨d, hd, hdot⟩ := h
        rcases mem_cons.1 hd with rfl | hd
        · exact absurd rfl hdot
        · exact ⟨d, hd, hdot⟩
      · simp [hnil]
    · simp [hc]

theorem glued_dots : ∀ cs : List (List Char), cs ≠ [] → (∀ c ∈ cs, c = dot) →
    glued t cs = if t then [] else dot
  | [], h, _ => absurd rfl h
  | c :: cs, _, h => by
    obtain rfl := h c (by simp)
    rw [glued]
    by_cases hcs : cs = []
    · subst hcs
      cases t <;> simp [glued]
    · rw [if_neg (fun h => hcs h.1), glued_dots cs hcs fun d hd => h d (by simp [hd])]
      simp

theorem chopSlash_append {u w : List Char} (hw : w ≠ []) : chopSlash (u ++ w) = u ++ chopSlash w := by
  have hlast : (u ++ w).getLast? = w.getLast? := by
    obtain ⟨w, x, rfl⟩ := (eq_nil_or_concat w).resolve_left hw
    rw [concat_eq_append, ← append_assoc, getLast?_concat, getLast?_concat]
  unfold chopSlash
  rw [hlast]
  split_ifs with h
  · exact dropLast_append_of_ne_nil hw
  · rfl

theorem chopSlash_of_not_mem (hc : '/' ∉ c) : chopSlash c = c :=
  if_neg fun h => hc (mem_of_getLast? h)

theorem prefix_of_chopSlash (w : List Char) : chopSlash w <+: w := by
  unfold chopSlash
  split_ifs
  · exact dropLast_prefix w
  · exact prefix_rfl

section LastName

variable {t : Bool} {c : List Char}

theorem dropLast_ne_self (hc : c ≠ []) : c.dropLast ≠ c := fun h => by
  have := congrArg List.length h
  rw [length_dropLast] at this
  have := length_pos_of_ne_nil hc
  omega

theorem chopSlash_glued_last (hc : PlainName c) :
    chopSlash (glued t [c]) = ['/'].intercalate ([c].filter (· ≠ dot)) ↔ DotsSafe t [c] := by
  have hchop : ∀ w : List Char, '/' ∉ w → chopSlash w = w := fun w => chopSlash_of_not_mem
  by_cases hdot : c = dot
  · subst hdot
    cases t <;> simp [glued, DotsSafe, chopSlash]
  · have hfilter : [c].filter (· ≠ dot) = [c] := by simp [hdot]
    rw [hfilter, intercalate_singleton, glued, DotsSafe, if_pos rfl, if_neg hdot]
    cases t with
    | false => simp [hchop c hc.sep_not_mem]
    | true =>
      rw [if_neg (by simp), glued, append_nil]
      split_ifs with hlast
      · rw [hchop _ fun h => hc.sep_not_mem (dropLast_subset _ h)]
        simp [dropLast_ne_self hc.ne_nil, hlast]
      · simp [chopSlash, hlast]

theorem chopSlash_glued_dots (hc : PlainName c) (hdot : c ≠ dot) {cs : List (List Char)} (hcs : cs ≠ [])
    (hall : ∀ d ∈ cs, d = dot) : chopSlash (glued t (c :: cs)) = c ↔ (t = true ↔ c.getLast? ≠ some '.') := by
  rw [glued, if_neg (fun h => hcs h.1), glued_dots cs hcs hall]
  split_ifs with hlast ht ht
  · -- the last dot is lost
    rw [append_nil, chopSlash_of_not_mem fun h => hc.sep_not_mem (dropLast_subset _ h)]
    simp [dropLast_ne_self hc.ne_nil, hlast, ht]
  · -- the dot at the end makes up for the one that is lost
    obtain ⟨d, rfl⟩ := getLast?_eq_some_iff.1 hlast
    rw [dropLast_concat, chopSlash_of_not_mem hc.sep_not_mem]
    simp [ht]
  · simp [chopSlash, hlast, ht]
  · simp [chopSlash, hlast, ht]

end LastName

/-- What is glued is the join of the names, without the dots, exactly when the dots are safe. -/
theorem chopSlash_glued_iff {t : Bool} : ∀ cs : List (List Char), (∀ c ∈ cs, PlainName c) →
    (chopSlash (glued t cs) = ['/'].intercalate (cs.filter (· ≠ dot)) ↔ DotsSafe t cs)
  | [], _ => by simp [glued, chopSlash, DotsSafe]
  | c :: cs, h => by
    have hc := h c (by simp)
    have hcs : ∀ d ∈ cs, PlainName d := fun d hd => h d (by simp [hd])
    have ih := chopSlash_glued_iff (t := t) cs hcs
    by_cases hnil : cs = []
    · subst hnil; exact chopSlash_glued_last hc
    by_cases hdot : c = dot
    · subst hdot
      rw [DotsSafe, if_neg hnil, if_pos rfl, glued, if_neg (fun h => hnil h.1)]
      simpa using ih
    have hfilter : (c :: cs).filter (· ≠ dot) = c :: cs.filter (· ≠ dot) := by simp [hdot]
    rw [hfilter, DotsSafe, if_neg hnil, if_neg hdot]
    by_cases hall : ∀ d ∈ cs, d = dot
    · have hnone : cs.filter (· ≠ dot) = [] := by simpa using hall
      rw [hnone, intercalate_singleton, if_pos hall, chopSlash_glued_dots hc hdot hnil hall]
    have hsome : ∃ d ∈ cs, d ≠ dot := by push Not at hall; exact hall
    have hne := glued_ne_nil (t := t) cs (fun d hd => (hcs d hd).ne_nil) hsome
    obtain ⟨e, es, hes⟩ := exists_cons_of_ne_nil (l := cs.filter (· ≠ dot)) (by simpa using hsome)
    rw [if_neg hall, hes, intercalate_cons_cons, ← hes, glued, if_neg (fun h => hnil h.1)]
    split_ifs with hlast
    · -- the join would go on with the dot slash that is gone
      obtain ⟨d, rfl⟩ := getLast?_eq_some_iff.1 hlast
      rw [dropLast_concat, chopSlash_append hne, append_assoc, append_assoc]
      refine iff_of_false (fun heq => ?_) (fun hs => hs.1 hlast)
      have hdotSlash : ['.', '/'] <+: chopSlash (glued t cs) := ⟨_, (append_cancel_left heq).symm⟩
      exact not_prefix_glued cs hcs (hdotSlash.trans (prefix_of_chopSlash _))
    · rw [append_cons, chopSlash_append hne, append_cancel_left_eq, ih]
      simp [hlast]

/-! ## Counting names -/

/-- The characters of a word that are neither dots nor slashes. -/
def weight (w : List Char) : Nat := w.countP fun x => x ≠ '.' && x ≠ '/'

theorem weight_append (u w : List Char) : weight (u ++ w) = weight u + weight w := countP_append

theorem weight_dropLast {w : List Char} (h : w.getLast? = some '.' ∨ w.getLast? = some '/') :
    weight w.dropLast = weight w := by
  rcases h with h | h <;> obtain ⟨w, rfl⟩ := getLast?_eq_some_iff.1 h <;>
    simp [weight]

theorem weight_slash (w : List Char) : weight ('/' :: w) = weight w := by simp [weight]

theorem weight_glued {t : Bool} : ∀ cs : List (List Char), weight (glued t cs) = (cs.map weight).sum
  | [] => rfl
  | c :: cs => by
    have ih := weight_glued (t := t) cs
    rw [glued, map_cons, sum_cons]
    split_ifs with h1 h2
    · simp [h1.1]
    · rw [weight_append, weight_dropLast (.inl h2), ih]
    · rw [weight_append, weight_slash, ih]

theorem weight_chopSlash (w : List Char) : weight (chopSlash w) = weight w := by
  unfold chopSlash
  split_ifs with h
  · exact weight_dropLast (.inr h)
  · rfl

theorem weight_joinPath : ∀ cs : List (List Char), weight (joinPath '/' cs) = (cs.map weight).sum
  | [] => rfl
  | c :: cs => by
    rw [joinPath_cons, weight_slash, weight_append, weight_joinPath cs, map_cons, sum_cons]

theorem weight_pathOf (cs : List (List Char)) : weight (pathOf '/' cs) = (cs.map weight).sum := by
  unfold pathOf
  split_ifs with h
  · subst h; rfl
  · exact weight_joinPath cs

theorem weight_filter_dot (cs : List (List Char)) : ((cs.filter (· ≠ dot)).map weight).sum = (cs.map weight).sum := by
  induction cs with
  | nil => rfl
  | cons c cs ih =>
    by_cases hc : c = dot
    · subst hc; simpa [weight] using ih
    · simp [hc] at ih ⊢; exact ih

theorem PlainName.weight_pos (h : PlainName c) (hne : c ≠ dot) : 0 < weight c := by
  obtain ⟨x, hx, hdot⟩ := h.exists_ne_dot hne
  refine countP_pos_iff.2 ⟨x, hx, ?_⟩
  have : x ≠ '/' := by rintro rfl; exact h.sep_not_mem hx
  simp [hdot, this]

/-! ## No `/..` is left -/

theorem not_infix_removeDotDots (s : List Char) : ¬ ['/', '.', '.'] <:+: removeDotDots s :=
  (strstrLoop_inv (fun _ => True) _ (fun _ _ _ _ => trivial) s trivial).2

/-- Removing a dot slash makes no `/..`: it would have been there before. -/
theorem not_infix_slash_dotDot (h : ¬ ['/', '.', '.'] <:+: u ++ ['.', '/'] ++ v) :
    ¬ ['/', '.', '.'] <:+: u ++ v := by
  intro hin
  rcases infix_append_iff_ne_nil.1 hin with hu | hv | ⟨l₁, l₂, h1, h2, heq, hsuf, hpre⟩
  · exact h (hu.trans ⟨[], ['.', '/'] ++ v, by simp⟩)
  · exact h (hv.trans ⟨u ++ ['.', '/'], [], by simp⟩)
  · obtain ⟨a, rfl⟩ := hsuf
    obtain ⟨b, rfl⟩ := hpre
    rcases l₁ with _ | ⟨x, _ | ⟨y, _ | ⟨z, l₁⟩⟩⟩
    · exact absurd rfl h1
    · -- `/` and `..`
      cases heq
      exact h ⟨a ++ ['/', '.'], b, by simp⟩
    · -- `/.` and `.`
      cases heq
      exact h ⟨a, ['/', '.'] ++ b, by simp⟩
    · simp only [cons_append, List.cons.injEq, nil_eq, append_eq_nil_iff] at heq
      exact absurd heq.2.2.2.2 h2

theorem not_infix_gscConcatPath (server : ServerDirs) (inPath : List Char) :
    ¬ ['/', '.', '.'] <:+: gscConcatPath server inPath := by
  have hdots : ¬ ['/', '.', '.'] <:+: removeDotSlashes (removeDotDots (removeDoubleSlashes (concatRaw server inPath))) :=
    (strstrLoop_inv (fun s => ¬ ['/', '.', '.'] <:+: s) _ (fun u v _ hs => not_infix_slash_dotDot hs) _
      (not_infix_removeDotDots _)).1
  unfold gscConcatPath removeTrailingSlash
  split_ifs
  · exact fun hin => hdots (hin.trans ( dropLast_prefix _).isInfix)
  · decide
  · exact hdots

/-- A name that begins like `..` is in the path of its components. -/
theorem infix_pathOf (hc : c ∈ cs) (hdd : dotDot <+: c) :
    ['/', '.', '.'] <:+: pathOf '/' cs := by
  obtain ⟨a, b, rfl⟩ := append_of_mem hc
  obtain ⟨r, rfl⟩ := hdd
  rw [pathOf_of_ne_nil (by simp)]
  exact ⟨joinPath '/' a, r ++ joinPath '/' b, by simp [joinPath_append]⟩

/-! ## The whole function -/

/-- The components of the path that a command names: behind those of the working directory unless the
path is absolute. -/
def pathComponents (server : ServerDirs) (inPath : List Char) : List (List Char) :=
  if inPath.head? = some '/' then components '/' inPath
  else components '/' server.cwd ++ components '/' inPath

/-- A slash is behind the last component. -/
def endsInSlash (inPath : List Char) : Bool := inPath = [] || inPath.getLast? = some '/'

/-- The command gets the path that its components resolve to. -/
def Resolves (server : ServerDirs) (inPath : List Char) : Prop :=
  gscConcatPath server inPath = pathOf '/' (normalForm dot dotDot (pathComponents server inPath))

/-- No `..` follows a `.` that it removes in place of a name, and the dots in what is left are safe. -/
def NamesKept (t : Bool) (cs : List (List Char)) : Prop :=
  (resolve dotDot cs).filter (· ≠ dot) = normalForm dot dotDot cs ∧ DotsSafe t (resolve dotDot cs)

section Raw

variable (server : ServerDirs) {inPath : List Char} (htilde : inPath.head? ≠ some '~')
include htilde

theorem concatRaw_eq :
    concatRaw server inPath = if inPath.head? = some '/' then inPath else server.cwd ++ '/' :: inPath := by
  unfold concatRaw
  split
  · simp
  · exact absurd rfl htilde
  · next hslash _ =>
    rw [if_neg]
    intro h
    cases inPath with
    | nil => cases h
    | cons c r => cases h; exact hslash r rfl

theorem components_concatRaw :
    components '/' (concatRaw server inPath) = pathComponents server inPath := by
  rw [concatRaw_eq server htilde, pathComponents]
  split_ifs
  · rfl
  · exact components_append_sep _ _

theorem concatRaw_endsInSlash :
    (concatRaw server inPath).getLast? = some '/' ↔ endsInSlash inPath = true := by
  rw [concatRaw_eq server htilde]
  cases inPath with
  | nil => simp [endsInSlash]
  | cons c r => split_ifs <;> simp [endsInSlash, getLast?_append]

theorem concatRaw_head (hcwd : server.cwd.head? = some '/') : ∃ r, concatRaw server inPath = '/' :: r := by
  rw [concatRaw_eq server htilde]
  split_ifs with h
  · exact ⟨_, eq_cons_of_mem_head? h⟩
  · exact ⟨server.cwd.tail ++ '/' :: inPath, by rw [← cons_append, ← eq_cons_of_mem_head? hcwd]⟩

theorem removeDoubleSlashes_concatRaw (hcwd : server.cwd.head? = some '/') :
    removeDoubleSlashes (concatRaw server inPath) =
      joinPath '/' (pathComponents server inPath) ++ trailingSlash (endsInSlash inPath) := by
  have hcs := components_concatRaw server htilde
  have hlast := concatRaw_endsInSlash server htilde
  obtain ⟨r, hr⟩ := concatRaw_head server htilde hcwd
  obtain ⟨ks, hne, hks, heq⟩ := exists_joinPath '/' r
  rw [hr, heq] at hcs hlast ⊢
  rw [components_joinPath hks] at hcs
  rw [getLast?_joinPath hne hks] at hlast
  rw [removeDoubleSlashes_eq, squeeze_joinPath ks hks, hcs]
  congr 2
  exact Bool.eq_iff_iff.2 (by simpa using hlast)

end Raw

theorem isComponent_of_mem_pathComponents {server : ServerDirs} {inPath c : List Char}
    (hc : c ∈ pathComponents server inPath) : IsComponent '/' c := by
  unfold pathComponents at hc
  split_ifs at hc
  · exact isComponent_of_mem hc
  · rcases mem_append.1 hc with hc | hc <;> exact isComponent_of_mem hc

/-- The rewriting on components, none of which merely begins like `..`. -/
theorem removeTrailingSlash_resolves_iff (h : ∀ c ∈ cs, IsComponent '/' c)
    (hplain : PlainDotDots cs) :
    removeTrailingSlash (removeDotSlashes (removeDotDots (joinPath '/' cs ++ trailingSlash t))) =
      pathOf '/' (normalForm dot dotDot cs) ↔ NamesKept t cs := by
  have hnames : ∀ c ∈ resolve dotDot cs, PlainName c := fun c hc =>
    ⟨h c (mem_resolve hc).1, fun hpre => (mem_resolve hc).2 (hplain c (mem_resolve hc).1 hpre)⟩
  rw [removeDotDots_joinPath h hplain, removeTrailingSlash_glued fun c hc => (hnames c hc).toIsComponent]
  constructor
  · intro heq
    -- the two paths have the same names, so none was dropped that the other has
    have hweight := congrArg weight heq
    rw [weight_slash, weight_chopSlash, weight_glued, weight_pathOf, ← weight_filter_dot] at hweight
    have hsame : normalForm dot dotDot cs = (resolve dotDot cs).filter (· ≠ dot) := by
      refine eq_of_sublist_of_weight weight (normalForm_sublist (by decide) cs) (fun c hc => ?_) hweight.le
      obtain ⟨hc1, hc2⟩ := mem_filter.1 hc
      exact (hnames c hc1).weight_pos (by simpa using hc2)
    refine ⟨hsame.symm, (chopSlash_glued_iff _ hnames).1 ?_⟩
    rw [pathOf_eq, hsame] at heq
    exact tail_eq_of_cons_eq heq
  · rintro ⟨hsame, hsafe⟩
    rw [pathOf_eq, ← hsame, (chopSlash_glued_iff _ hnames).2 hsafe]

/-- Where no name merely begins like `..`, the function resolves the path if and only if it keeps the
names; where the resolved path has a name that begins like `..`, it does not. -/
theorem gscConcatPath_resolves_iff (server : ServerDirs) (inPath : List Char) (hcwd : server.cwd.head? = some '/')
    (htilde : inPath.head? ≠ some '~') :
    (PlainDotDots (pathComponents server inPath) →
      (Resolves server inPath ↔ NamesKept (endsInSlash inPath) (pathComponents server inPath))) ∧
    ((∃ c ∈ normalForm dot dotDot (pathComponents server inPath), dotDot <+: c) → ¬ Resolves server inPath) := by
  constructor
  · intro hplain
    rw [Resolves, gscConcatPath, removeDoubleSlashes_concatRaw server htilde hcwd]
    exact removeTrailingSlash_resolves_iff (fun c hc => isComponent_of_mem_pathComponents hc) hplain
  · rintro ⟨c, hc, hdd⟩ hres
    exact not_infix_gscConcatPath server inPath (hres ▸ infix_pathOf hc hdd)

/-- `b/../c` in `/a`. -/
theorem gscConcatPath_resolves_up : Resolves ⟨"/a".toList, "/".toList⟩ "b/../c".toList := by
  refine ((gscConcatPath_resolves_iff ⟨"/a".toList, "/".toList⟩ "b/../c".toList (by decide) (by decide)).1 ?_).2
    ⟨by decide, ?_⟩
  · unfold PlainDotDots; decide
  · have hres : resolve dotDot (pathComponents ⟨"/a".toList, "/".toList⟩ "b/../c".toList) = [['a'], ['c']] := by decide
    rw [hres]
    simp [DotsSafe, endsInSlash]

/-- `a./b` in `/` becomes `/ab`. -/
theorem gscConcatPath_glues :
    gscConcatPath ⟨"/".toList, "/".toList⟩ "a./b".toList = "/ab".toList ∧
      ¬ Resolves ⟨"/".toList, "/".toList⟩ "a./b".toList := by
  have hres : gscConcatPath ⟨"/".toList, "/".toList⟩ "a./b".toList = "/ab".toList := by decide +kernel
  refine ⟨hres, ?_⟩
  rw [Resolves, hres]
  decide

end Globus
