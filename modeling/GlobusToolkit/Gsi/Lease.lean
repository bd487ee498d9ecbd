/-
The leases of pool accounts (gsi/gss_assist/source/gridmap.c): `gridmapdir_userid` looks for the account that is linked to the
encoded name of a user, and makes a link to a free account if there is none. Any number of processes do so at the same time
on one directory. Their atomic steps are `stat`, `link` and `unlink`; what `readdir` returns may be anything, since the
directory changes meanwhile, so it comes with the event.
-/
import GlobusToolkit.Gsi.Gridmapdir
import GlobusToolkit.Lib.HardLinks
import GlobusToolkit.Lib.Machine

namespace Globus.Gsi.Lease

open Lib LinkDir

/-! ## Processes -/

abbrev Dir := LinkDir (List Char) Nat

/-- The names that `gridmapdir_newlease` does not pass over, whatever their prefix. -/
def isAccountName (name : List Char) : Bool :=
  name.head? ≠ some '%' && name ≠ "root".toList && name.head? ≠ some '.' && !name.contains '~'

/-- A proper subject name begins with a slash. -/
def isSubject (dn : List Octet) : Bool := dn.head? = some 0x2f#8

/-- Where a process is. `again` says that `gridmapdir_otherlink` is called after `gridmapdir_newlease`. -/
inductive Pc where
  | start
  | otherlink (again : Bool)
  | search (again : Bool) (firstinode : Nat)
  | newlease
  | link (user : List Char)
  | check
  | backOff
  | done (userid : Option (List Char))
  deriving DecidableEq

/-- The process has made a link and has not checked it, or has not removed it after the check failed. -/
def Pc.pending : Pc → Bool
  | .check => true
  | .backOff => true
  | _ => false

/-- A call of `gridmapdir_userid`. -/
structure Process where
  globusid : List Octet
  usernameprefix : List Char
  /-- `statbuf.st_nlink` of `gridmapdir_newlease`, which a `stat` that fails leaves as it is. -/
  nlink : Nat
  pc : Pc

def Process.encoded (p : Process) : List Char := encodedName p.globusid

/-- `gridmapdir_otherlink` has found nothing. -/
def Process.notFound (p : Process) (again : Bool) : Process := { p with pc := if again then .done none else .newlease }

/-- The number of links after a `stat`. -/
def Process.stat (p : Process) (d : Dir) (name : List Char) : Nat := ((d.stat name).map (·.2)).getD p.nlink

/-- The next step of a process, with what `readdir` returns. -/
def Process.step (d : Dir) (p : Process) (entry : Option (List Char)) : Option (Dir × Process) :=
  match p.pc with
  | .start => some (d, { p with pc := if isSubject p.globusid then .otherlink false else .done none })
  | .otherlink again =>
    match d.stat p.encoded with
    | some (inode, nlink) =>
      some (d, if nlink ≠ 2 then p.notFound again else { p with pc := .search again inode })
    | none => some (d, p.notFound again)
  | .search again inode =>
    match entry with
    | none => some (d, p.notFound again)
    | some name =>
      if name ≠ p.encoded ∧ d.file name = some inode then some (d, { p with pc := .done (some name) }) else some (d, p)
  | .newlease =>
    match entry with
    | none => some (d, { p with pc := .otherlink true })
    | some name =>
      if isAccountName name && p.usernameprefix.isPrefixOf name then
        some (d, { p with nlink := p.stat d name, pc := if p.stat d name = 1 then .link name else .newlease })
      else some (d, p)
  | .link user =>
    match d.link user p.encoded with
    | none => some (d, { p with pc := .otherlink true })
    | some d' => some (d', { p with pc := .check })
  | .check =>
    some (d, { p with nlink := p.stat d p.encoded, pc := if p.stat d p.encoded > 2 then .backOff else .otherlink true })
  | .backOff => some (d.unlink p.encoded, { p with pc := .newlease })
  | .done _ => none

/-- The directory and the processes. -/
structure State (ι : Type*) where
  dir : Dir
  process : ι → Process

variable {ι : Type*} [DecidableEq ι]

/-- One process takes a step. -/
def State.step (s : State ι) (e : ι × Option (List Char)) : Option (State ι) :=
  ((s.process e.1).step s.dir e.2).map fun r => ⟨r.1, Function.update s.process e.1 r.2⟩

/-! ## Exclusive leases -/

/-- The name of a lease: the encoded name of a subject. -/
def IsEncodedDn (e : List Char) : Prop := ∃ dn, isSubject dn ∧ encodedName dn = e

/-- No account is linked to two subjects, and no subject to two accounts. -/
structure Exclusive (d : Dir) : Prop where
  oneDn : ∀ {a e e' : List Char} {f : Nat}, isAccountName a → IsEncodedDn e → IsEncodedDn e' →
    d.file a = some f → d.file e = some f → d.file e' = some f → e = e'
  oneAccount : ∀ {e a a' : List Char} {f : Nat}, IsEncodedDn e → isAccountName a → isAccountName a' →
    d.file e = some f → d.file a = some f → d.file a' = some f → a = a'

theorem not_isAccountName_of_isEncodedDn {e : List Char} (h : IsEncodedDn e) : isAccountName e = false := by
  obtain ⟨dn, hdn, rfl⟩ := h
  obtain ⟨rest, rfl⟩ := List.head?_eq_some_iff.1 (of_decide_eq_true hdn)
  have hslash : (urlencodePiece 0x2f#8).shown = "%2f".toList := by decide +kernel
  simp [encodedName, hslash, isAccountName]

theorem ne_of_isAccountName {a e : List Char} (ha : isAccountName a) (he : IsEncodedDn e) : a ≠ e := by
  rintro rfl
  rw [not_isAccountName_of_isEncodedDn he] at ha
  cases ha

/-- The account is the only one of its file. -/
def Alone (d : Dir) (user : List Char) : Prop :=
  ∀ f a, d.file user = some f → isAccountName a → d.file a = some f → a = user

/-! ## What a step can do -/

/-- A step of a process, as far as leases go: it leaves the directory as it is and is between no link and its check; it makes a
link; the check passes; the check fails; or the link is removed. -/
inductive Move (d : Dir) (p : Process) : Dir → Process → Prop
  | quiet {p' : Process} : p.pc.pending = false → p'.pc.pending = false →
      (∀ user, p'.pc = .link user → isAccountName user ∧ Alone d user) → Move d p d p'
  | linked {p' : Process} {user : List Char} {f : Nat} : p.pc = .link user → d.file user = some f → d.file p.encoded = none →
      p'.pc = .check → Move d p { d with names := d.names.insert p.encoded f } p'
  | passed {p' : Process} {again : Bool} : p.pc = .check → p.stat d p.encoded ≤ 2 → p'.pc = .otherlink again → Move d p d p'
  | failed {p' : Process} : p.pc = .check → p'.pc = .backOff → Move d p d p'
  | removed {p' : Process} : p.pc = .backOff → p'.pc = .newlease → Move d p (d.unlink p.encoded) p'

theorem alone_of_nlink {d : Dir} {user : List Char} (h : ∀ f, d.file user = some f → d.nlink f = 1) : Alone d user := by
  intro f a huser ha hfile
  by_contra hne
  have hlen : [a, user].length ≤ d.nlink f := length_le_nlink (by simpa using hne) (by simp [huser, hfile])
  rw [h f huser] at hlen
  exact absurd hlen (by simp)

theorem step_move {d d' : Dir} {p p' : Process} {entry : Option (List Char)} (h : p.step d entry = some (d', p')) :
    p'.globusid = p.globusid ∧ Move d p d' p' := by
  have hquiet : ∀ {p' : Process}, p.pc.pending = false → p'.pc.pending = false → (∀ user, p'.pc ≠ .link user) → Move d p d p' :=
    fun h1 h2 h3 => .quiet h1 h2 fun user hu => absurd hu (h3 user)
  have hnotFound : ∀ again, p.pc.pending = false → Move d p d (p.notFound again) := fun again hp => by
    refine hquiet hp ?_ ?_ <;> cases again <;> simp [Process.notFound, Pc.pending]
  unfold Process.step at h
  cases hpc : p.pc with
  | start =>
    simp only [hpc] at h
    cases h
    refine ⟨rfl, hquiet (by rw [hpc]; rfl) ?_ ?_⟩
    · split <;> rfl
    · intro user
      split <;> simp
  | otherlink again =>
    have hp : p.pc.pending = false := by rw [hpc]; rfl
    simp only [hpc] at h
    split at h
    · next inode nlink hstat =>
      cases h
      split
      · exact ⟨rfl, hnotFound again hp⟩
      · exact ⟨rfl, hquiet hp rfl (by simp)⟩
    · cases h
      exact ⟨rfl, hnotFound again hp⟩
  | search again inode =>
    have hp : p.pc.pending = false := by rw [hpc]; rfl
    simp only [hpc] at h
    split at h
    · cases h
      exact ⟨rfl, hnotFound again hp⟩
    · split at h <;> cases h
      · exact ⟨rfl, hquiet hp rfl (by simp)⟩
      · exact ⟨rfl, hquiet hp hp (by simp [hpc])⟩
  | newlease =>
    have hp : p.pc.pending = false := by rw [hpc]; rfl
    simp only [hpc] at h
    split at h
    · cases h
      exact ⟨rfl, hquiet hp rfl (by simp)⟩
    · next name =>
      split at h <;> cases h
      · next hname =>
        refine ⟨rfl, .quiet hp ?_ fun user huser => ?_⟩
        · split <;> rfl
        · split at huser
          · next hone =>
            obtain rfl : name = user := Pc.link.inj huser
            refine ⟨(Bool.and_eq_true_iff.1 hname).1, alone_of_nlink fun f hf => ?_⟩
            -- The account is there, so the number of links is not an old one.
            simpa [Process.stat, stat, hf] using hone
          · cases huser
      · exact ⟨rfl, hquiet hp hp (by simp [hpc])⟩
  | link user =>
    simp only [hpc] at h
    split at h
    · cases h
      exact ⟨rfl, hquiet (by rw [hpc]; rfl) rfl (by simp)⟩
    · next d'' hlink =>
      cases h
      obtain ⟨f, hold, hnew, rfl⟩ := link_eq_some hlink
      exact ⟨rfl, .linked hpc hold hnew rfl⟩
  | check =>
    simp only [hpc] at h
    cases h
    refine ⟨rfl, ?_⟩
    by_cases hlinks : p.stat d p.encoded > 2
    · exact .failed hpc (if_pos hlinks)
    · exact .passed hpc (Nat.le_of_not_lt hlinks) (if_neg hlinks)
  | backOff =>
    simp only [hpc] at h
    cases h
    exact ⟨rfl, .removed hpc rfl⟩
  | done userid => simp [hpc] at h

/-- A process that has begun and is not done is about a subject. -/
def Process.Rooted (p : Process) : Prop := p.pc = .start ∨ (∃ userid, p.pc = .done userid) ∨ isSubject p.globusid

theorem step_rooted {d d' : Dir} {p p' : Process} {entry : Option (List Char)} (hp : p.Rooted)
    (h : p.step d entry = some (d', p')) : p'.Rooted := by
  rcases hp with hpc | ⟨userid, hpc⟩ | hsubject
  · simp only [Process.step, hpc] at h
    cases h
    by_cases hsubject : isSubject p.globusid
    · exact .inr (.inr hsubject)
    · exact .inr (.inl ⟨none, if_neg hsubject⟩)
  · simp [Process.step, hpc] at h
  · exact .inr (.inr ((step_move h).1 ▸ hsubject))

theorem Process.Rooted.isEncodedDn {p : Process} (h : p.Rooted) (hstart : p.pc ≠ .start) (hdone : ∀ userid, p.pc ≠ .done userid) :
    IsEncodedDn p.encoded := by
  rcases h with hpc | ⟨userid, hpc⟩ | hsubject
  · exact absurd hpc hstart
  · exact absurd hpc (hdone userid)
  · exact ⟨_, hsubject, rfl⟩

/-! ## The invariant -/

/-- A process is between making the link and its check, or its removal. -/
def State.Owned (s : State ι) (e : List Char) : Prop := ∃ i, (s.process i).pc.pending ∧ (s.process i).encoded = e

/-- The account that a process is about to link is the only one of its file. -/
def Linking (d : Dir) (p : Process) : Prop := ∀ user, p.pc = .link user → isAccountName user ∧ Alone d user

/-- The link that a process has made is still there, and so is the account. -/
def Holding (d : Dir) (p : Process) : Prop :=
  p.pc.pending → ∃ f user, d.file p.encoded = some f ∧ isAccountName user ∧ d.file user = some f

/-- What holds of every process. -/
structure ProcessInv (d : Dir) (p : Process) : Prop where
  rooted : p.Rooted
  linking : Linking d p
  pending : Holding d p

/-- What holds between any two steps. A link that no process has to check any more is the only such one of its account. -/
structure Inv (s : State ι) : Prop where
  process : ∀ i, ProcessInv s.dir (s.process i)
  owner : ∀ i j, (s.process i).pc.pending → (s.process j).pc.pending → (s.process i).encoded = (s.process j).encoded → i = j
  settled : ∀ {a e e' : List Char} {f : Nat}, isAccountName a → IsEncodedDn e → IsEncodedDn e' →
    s.dir.file a = some f → s.dir.file e = some f → s.dir.file e' = some f → ¬ s.Owned e → ¬ s.Owned e' → e = e'
  oneAccount : ∀ {e a a' : List Char} {f : Nat}, IsEncodedDn e → isAccountName a → isAccountName a' →
    s.dir.file e = some f → s.dir.file a = some f → s.dir.file a' = some f → a = a'

section Step

variable {s : State ι} {i : ι} {p' : Process}

namespace State

/-- The state after a step of a process. -/
def set (s : State ι) (i : ι) (d : Dir) (p' : Process) : State ι := ⟨d, Function.update s.process i p'⟩

@[simp] theorem set_dir (d : Dir) : (s.set i d p').dir = d := rfl

@[simp] theorem set_process_self (d : Dir) : (s.set i d p').process i = p' := Function.update_self ..

theorem set_process_of_ne (d : Dir) {j : ι} (h : j ≠ i) : (s.set i d p').process j = s.process j :=
  Function.update_of_ne h ..

/-- What is said of the process that made the step and of the others. -/
theorem forall_set {P : Process → Prop} (d : Dir) (hi : P p') (hj : ∀ j, j ≠ i → P (s.process j)) :
    ∀ j, P ((s.set i d p').process j) := by
  intro j
  by_cases h : j = i
  · subst h
    simpa using hi
  · rw [set_process_of_ne d h]
    exact hj j h

/-- The links that are owned are those of the others, and that of the process if it is between a link and its check. -/
theorem owned_set (d : Dir) {e : List Char} : (s.set i d p').Owned e ↔
    (p'.pc.pending ∧ p'.encoded = e) ∨ ∃ j, j ≠ i ∧ (s.process j).pc.pending ∧ (s.process j).encoded = e := by
  constructor
  · rintro ⟨j, hj⟩
    by_cases h : j = i
    · subst h
      exact .inl (by simpa using hj)
    · exact .inr ⟨j, h, by rwa [set_process_of_ne d h] at hj⟩
  · rintro (h | ⟨j, hne, hj⟩)
    · exact ⟨i, by simpa using h⟩
    · exact ⟨j, by rwa [set_process_of_ne d hne]⟩

/-- Links have one owner each if the process that made the step shares its link with no other. -/
theorem owner_set (d : Dir)
    (h : ∀ j k, (s.process j).pc.pending → (s.process k).pc.pending → (s.process j).encoded = (s.process k).encoded → j = k)
    (hi : p'.pc.pending → ∀ j, j ≠ i → (s.process j).pc.pending → (s.process j).encoded ≠ p'.encoded) :
    ∀ j k, ((s.set i d p').process j).pc.pending → ((s.set i d p').process k).pc.pending →
      ((s.set i d p').process j).encoded = ((s.set i d p').process k).encoded → j = k := by
  intro j k hj hk heq
  by_cases hji : j = i
  · by_cases hki : k = i
    · rw [hji, hki]
    · subst hji
      rw [set_process_self] at hj heq
      rw [set_process_of_ne d hki] at hk heq
      exact absurd heq.symm (hi hj k hki hk)
  · rw [set_process_of_ne d hji] at hj heq
    by_cases hki : k = i
    · subst hki
      rw [set_process_self] at hk heq
      exact absurd heq (hi hk j hji hj)
    · rw [set_process_of_ne d hki] at hk heq
      exact h j k hj hk heq

/-- A name that is owned by nobody after the step was owned before by the process that made it at most. -/
theorem not_owned_of_set {d : Dir} {e : List Char} (h : ¬ (s.set i d p').Owned e)
    (hi : (s.process i).pc.pending → (s.process i).encoded ≠ e) : ¬ s.Owned e := by
  rintro ⟨j, hj⟩
  by_cases hji : j = i
  · subst hji
    exact hi hj.1 hj.2
  · exact h ((owned_set d).2 (.inr ⟨j, hji, hj⟩))

end State

variable (h : Inv s) (hroot : p'.Rooted)
include h hroot

theorem Inv.quiet (hp : (s.process i).pc.pending = false) (hp' : p'.pc.pending = false) (hlink : Linking s.dir p') :
    Inv (s.set i s.dir p') where
  process := State.forall_set (P := ProcessInv s.dir) _ ⟨hroot, hlink, by simp [Holding, hp']⟩ fun j _ => h.process j
  owner := State.owner_set _ h.owner (by simp [hp'])
  settled ha he he' hfa hfe hfe' hown hown' := h.settled ha he he' hfa hfe hfe'
    (State.not_owned_of_set hown (by simp [hp])) (State.not_owned_of_set hown' (by simp [hp]))
  oneAccount := h.oneAccount

theorem Inv.linked {user : List Char} {f : Nat} (hid : p'.encoded = (s.process i).encoded)
    (hpc : (s.process i).pc = .link user) (huser : s.dir.file user = some f) (hnew : s.dir.file (s.process i).encoded = none)
    (hpc' : p'.pc = .check) :
    Inv (s.set i { s.dir with names := s.dir.names.insert (s.process i).encoded f } p') := by
  have hdn : IsEncodedDn (s.process i).encoded := (h.process i).rooted.isEncodedDn (by simp [hpc]) (by simp [hpc])
  have haccount : ∀ {a}, isAccountName a → a ≠ (s.process i).encoded := fun ha => ne_of_isAccountName ha hdn
  obtain ⟨hname, halone⟩ := (h.process i).linking user hpc
  have hother : ∀ j, (s.process j).pc.pending → (s.process j).encoded ≠ (s.process i).encoded := fun j hj heq => by
    obtain ⟨g, -, hfile, -⟩ := (h.process j).pending hj
    rw [heq, hnew] at hfile
    cases hfile
  constructor
  · refine State.forall_set (P := ProcessInv _) _ ⟨hroot, by simp [Linking, hpc'], fun _ => ⟨f, user, ?_, hname, ?_⟩⟩
      fun j _ => ⟨(h.process j).rooted, fun user' hu => ?_, fun hj => ?_⟩
    · simp [hid]
    · simp [haccount hname, huser]
    · obtain ⟨hname', halone'⟩ := (h.process j).linking user' hu
      refine ⟨hname', fun g a hg ha hfa => ?_⟩
      simp only [State.set_dir, file_insert, haccount hname', haccount ha, if_false] at hg hfa
      exact halone' g a hg ha hfa
    · obtain ⟨g, user', hfile, hname', huser'⟩ := (h.process j).pending hj
      exact ⟨g, user', by simp [hother j hj, hfile], hname', by simp [haccount hname', huser']⟩
  · exact State.owner_set _ h.owner fun _ j _ hj => by rw [hid]; exact hother j hj
  · intro a e e' g ha he he' hfa hfe hfe' hown hown'
    have hne : ∀ {x}, ¬ (s.set i { s.dir with names := s.dir.names.insert (s.process i).encoded f } p').Owned x →
        x ≠ (s.process i).encoded := fun hx hxe => hx ((State.owned_set _).2 (.inl ⟨by simp [hpc', Pc.pending], by rw [hid, hxe]⟩))
    simp only [State.set_dir, file_insert, haccount ha, hne hown, hne hown', if_false] at hfa hfe hfe'
    exact h.settled ha he he' hfa hfe hfe' (State.not_owned_of_set hown fun _ => Ne.symm (hne hown))
      (State.not_owned_of_set hown' fun _ => Ne.symm (hne hown'))
  · intro e a a' g he ha ha' hfe hfa hfa'
    simp only [State.set_dir, file_insert, haccount ha, haccount ha', if_false] at hfe hfa hfa'
    split at hfe
    · cases hfe
      rw [halone _ a huser ha hfa, halone _ a' huser ha' hfa']
    · exact h.oneAccount he ha ha' hfe hfa hfa'

/-- At a check that passes, the file has the account and the link of the process only, so the link is the only settled one. -/
theorem Inv.passed (hpc : (s.process i).pc = .check)
    (hlinks : (s.process i).stat s.dir (s.process i).encoded ≤ 2) (hp' : p'.pc.pending = false)
    (hlink : ∀ user, p'.pc ≠ .link user) : Inv (s.set i s.dir p') := by
  have hdn : IsEncodedDn (s.process i).encoded := (h.process i).rooted.isEncodedDn (by simp [hpc]) (by simp [hpc])
  obtain ⟨f, user, hfile, hname, huser⟩ := (h.process i).pending (by simp [hpc, Pc.pending])
  have hnlink : s.dir.nlink f ≤ 2 := by simpa [Process.stat, stat, hfile] using hlinks
  have honly : ∀ {e}, IsEncodedDn e → s.dir.file e = some f → e = (s.process i).encoded := fun {e} he hfe => by
    by_contra hne
    have hnot : ∀ {x}, IsEncodedDn x → x ≠ user := fun hx => (ne_of_isAccountName hname hx).symm
    have hlen : [e, (s.process i).encoded, user].length ≤ s.dir.nlink f :=
      length_le_nlink (by simp [hne, hnot he, hnot hdn]) (by simp [hfe, hfile, huser])
    exact absurd (hlen.trans hnlink) (by simp)
  exact {
    process := State.forall_set (P := ProcessInv s.dir) _
      ⟨hroot, fun user hu => absurd hu (hlink user), by simp [Holding, hp']⟩ fun j _ => h.process j
    owner := State.owner_set _ h.owner (by simp [hp'])
    settled := fun {a e e' g} ha he he' hfa hfe hfe' hown hown' => by
      by_cases hg : g = f
      · subst hg
        rw [honly he hfe, honly he' hfe']
      · -- In another file the link of the process is not met.
        have hne : ∀ {x}, s.dir.file x = some g → (s.process i).encoded ≠ x := fun hx hex => by
          rw [← hex, hfile] at hx
          exact hg (Option.some.inj hx).symm
        exact h.settled ha he he' hfa hfe hfe' (State.not_owned_of_set hown fun _ => hne hfe)
          (State.not_owned_of_set hown' fun _ => hne hfe')
    oneAccount := h.oneAccount }

theorem Inv.failed (hid : p'.encoded = (s.process i).encoded) (hpc : (s.process i).pc = .check)
    (hpc' : p'.pc = .backOff) : Inv (s.set i s.dir p') := by
  have hpending : (s.process i).pc.pending := by simp [hpc, Pc.pending]
  have howned : ∀ {e}, ¬ (s.set i s.dir p').Owned e → ¬ s.Owned e := fun {e} he =>
    State.not_owned_of_set he fun _ hie => he ((State.owned_set _).2 (.inl ⟨by simp [hpc', Pc.pending], by rw [hid, hie]⟩))
  exact {
    process := State.forall_set (P := ProcessInv s.dir) _
      ⟨hroot, by simp [Linking, hpc'], fun _ => by rw [hid]; exact (h.process i).pending hpending⟩ fun j _ => h.process j
    owner := State.owner_set _ h.owner fun _ j hji hj heq => hji (h.owner j i hj hpending (by rw [heq, hid]))
    settled := fun ha he he' hfa hfe hfe' hown hown' => h.settled ha he he' hfa hfe hfe' (howned hown) (howned hown')
    oneAccount := h.oneAccount }

theorem Inv.removed (hpc : (s.process i).pc = .backOff) (hpc' : p'.pc = .newlease) :
    Inv (s.set i (s.dir.unlink (s.process i).encoded) p') := by
  have hpending : (s.process i).pc.pending := by simp [hpc, Pc.pending]
  have hdn : IsEncodedDn (s.process i).encoded := (h.process i).rooted.isEncodedDn (by simp [hpc]) (by simp [hpc])
  have haccount : ∀ {a}, isAccountName a → a ≠ (s.process i).encoded := fun ha => ne_of_isAccountName ha hdn
  have hfile : ∀ {x g}, (s.dir.unlink (s.process i).encoded).file x = some g →
      x ≠ (s.process i).encoded ∧ s.dir.file x = some g := fun hx => by
    rw [file_unlink] at hx
    split at hx
    · cases hx
    · next hne => exact ⟨hne, hx⟩
  constructor
  · refine State.forall_set (P := ProcessInv _) _ ⟨hroot, by simp [Linking, hpc'], by simp [Holding, hpc', Pc.pending]⟩
      fun j hji => ⟨(h.process j).rooted, fun user' hu => ?_, fun hj => ?_⟩
    · obtain ⟨hname', halone'⟩ := (h.process j).linking user' hu
      exact ⟨hname', fun g a hg ha hfa => halone' g a (hfile hg).2 ha (hfile hfa).2⟩
    obtain ⟨g, user', hg, hname', huser'⟩ := (h.process j).pending hj
    have hne : (s.process j).encoded ≠ (s.process i).encoded := fun heq => hji (h.owner j i hj hpending heq)
    exact ⟨g, user', by simp [hne, hg], hname', by simp [haccount hname', huser']⟩
  · exact State.owner_set _ h.owner (by simp [hpc', Pc.pending])
  · intro a e e' g ha he he' hfa hfe hfe' hown hown'
    obtain ⟨hne, hfe⟩ := hfile hfe
    obtain ⟨hne', hfe'⟩ := hfile hfe'
    exact h.settled ha he he' (hfile hfa).2 hfe hfe' (State.not_owned_of_set hown fun _ => Ne.symm hne)
      (State.not_owned_of_set hown' fun _ => Ne.symm hne')
  · intro e a a' g he ha ha' hfe hfa hfa'
    exact h.oneAccount he ha ha' (hfile hfe).2 (hfile hfa).2 (hfile hfa').2

end Step

theorem Inv.step {s t : State ι} {e : ι × Option (List Char)} (h : Inv s) (hstep : s.step e = some t) : Inv t := by
  obtain ⟨i, entry⟩ := e
  obtain ⟨⟨d', p'⟩, hp, rfl⟩ := Option.map_eq_some_iff.1 hstep
  obtain ⟨hid, hmove⟩ := step_move hp
  have hroot : p'.Rooted := step_rooted (h.process i).rooted hp
  have hencoded : p'.encoded = (s.process i).encoded := congrArg encodedName hid
  change Inv (s.set i d' p')
  cases hmove with
  | quiet hpc hpc' hlink => exact h.quiet hroot hpc hpc' hlink
  | linked hpc huser hnew hpc' => exact h.linked hroot hencoded hpc huser hnew hpc'
  | passed hpc hlinks hpc' => exact h.passed hroot hpc hlinks (by rw [hpc']; rfl) (by simp [hpc'])
  | failed hpc hpc' => exact h.failed hroot hencoded hpc hpc'
  | removed hpc hpc' => exact h.removed hroot hpc hpc'

omit [DecidableEq ι] in
theorem inv_start {s : State ι} (hdir : Exclusive s.dir) (hstart : ∀ i, (s.process i).pc = .start) : Inv s where
  process i := ⟨.inl (hstart i), by simp [Linking, hstart i], by simp [Holding, hstart i, Pc.pending]⟩
  owner i j h := by simp [hstart i, Pc.pending] at h
  settled ha he he' hfa hfe hfe' _ _ := hdir.oneDn ha he he' hfa hfe hfe'
  oneAccount := hdir.oneAccount

/-- Leases are exclusive whenever no process is between a link and the check or removal that follows it. -/
theorem leases_exclusive (s t : State ι) (es : List (ι × Option (List Char))) (hdir : Exclusive s.dir)
    (hstart : ∀ i, (s.process i).pc = .start) (hrun : exec State.step s es = some t)
    (hquiet : ∀ i, (t.process i).pc.pending = false) : Exclusive t.dir := by
  have h : Inv t := exec_invariant (I := Inv) (fun _ _ _ => Inv.step) (inv_start hdir hstart) hrun
  have hfree : ∀ e, ¬ t.Owned e := by
    rintro e ⟨i, hi, -⟩
    rw [hquiet i] at hi
    cases hi
  exact ⟨fun ha he he' hfa hfe hfe' => h.settled ha he he' hfa hfe hfe' (hfree _) (hfree _), h.oneAccount⟩

/-- The only account of this directory is free. -/
def poolDir : Dir := ⟨AList.singleton "pool1".toList 7, fun _ => 0⟩

def poolState : State Bool :=
  ⟨poolDir, fun b => ⟨[0x2f#8, if b then 0x61#8 else 0x62#8], [], 0, .start⟩⟩

/-- Both processes see the free account and link it before either of them checks. -/
def poolRun : List (Bool × Option (List Char)) :=
  [(false, none), (false, none), (false, some "pool1".toList), (true, none), (true, none), (true, some "pool1".toList),
    (false, none), (true, none), (false, none), (false, none), (true, none)]

theorem exclusive_poolDir : Exclusive poolDir := by
  have hfile : ∀ {x f}, poolDir.file x = some f → x = "pool1".toList := fun {x f} hx => by
    have := List.mem_singleton.1 (AList.mem_lookup_iff.1 (Option.mem_def.2 hx))
    exact congrArg Sigma.fst this
  exact ⟨fun _ _ _ _ he he' => (hfile he).trans (hfile he').symm, fun _ _ _ _ ha ha' => (hfile ha).trans (hfile ha').symm⟩

theorem leases_exclusive_two : ∃ t, exec State.step poolState poolRun = some t ∧ (∀ i, (t.process i).pc.pending = false) ∧
    t.dir.file "%2fa".toList = t.dir.file "pool1".toList ∧ Exclusive t.dir := by
  have hend : (exec State.step poolState poolRun).map (fun t =>
      ((t.process false).pc.pending, (t.process true).pc.pending, t.dir.file "%2fa".toList, t.dir.file "pool1".toList)) =
      some (false, false, some 7, some 7) := by
    decide +kernel
  obtain ⟨t, hrun, ht⟩ := Option.map_eq_some_iff.1 hend
  simp only [Prod.mk.injEq] at ht
  have hquiet : ∀ i, (t.process i).pc.pending = false := fun i => by
    cases i
    · exact ht.1
    · exact ht.2.1
  exact ⟨t, hrun, hquiet, ht.2.2.1.trans ht.2.2.2.symm,
    leases_exclusive poolState t poolRun exclusive_poolDir (fun _ => rfl) hrun hquiet⟩

end Globus.Gsi.Lease
