/-
Loops that are not bounded by their data. The body of a loop takes a state to the next one or leaves the loop
with a result; it may also fault. A loop runs on fuel, one unit for each time around, and returns nothing when
the fuel is used up. A loop terminates if some fuel is enough.

`Partial ε` is for functions with such loops that may also fail with an error: `Returns x Q` says that `x` gives a
result, and that a result that is no error has the property `Q`.
-/
import Mathlib.Tactic

namespace Lib

section Loop

variable {σ β : Type*}

/-- Repeat `body` until it leaves with a result. -/
def loop (body : σ → Option (σ ⊕ β)) : Nat → σ → Option β
  | 0, _ => none
  | fuel + 1, s =>
    match body s with
    | none => none
    | some (.inl s') => loop body fuel s'
    | some (.inr b) => some b

variable {body : σ → Option (σ ⊕ β)} {s t : σ} {b : β} {fuel : Nat}

theorem loop_next (h : body s = some (.inl t)) : loop body (fuel + 1) s = loop body fuel t := by
  rw [loop, h]

theorem loop_done (h : body s = some (.inr b)) : loop body (fuel + 1) s = some b := by
  rw [loop, h]

theorem loop_mono : ∀ {fuel : Nat} {s : σ}, loop body fuel s = some b → ∀ more, loop body (fuel + more) s = some b
  | 0, _, h, _ => by cases h
  | fuel + 1, s, h, more => by
    rw [Nat.add_right_comm]
    cases hbody : body s with
    | none => rw [loop, hbody] at h; cases h
    | some r =>
      cases r with
      | inl t =>
        rw [loop_next hbody] at h ⊢
        exact loop_mono h more
      | inr b' =>
        rw [loop_done hbody] at h ⊢
        exact h

/-- A measure that the body decreases: the loop comes to a result. -/
theorem exists_loop_eq {I : σ → Prop} {Q : β → Prop} (μ : σ → Nat)
    (hbody : ∀ s, I s → ∃ r, body s = some r ∧ r.elim (fun s' => I s' ∧ μ s' < μ s) Q) :
    ∀ {fuel : Nat} {s : σ}, I s → μ s < fuel → ∃ b, loop body fuel s = some b ∧ Q b
  | 0, _, _, hfuel => by cases hfuel
  | fuel + 1, s, hs, hfuel => by
    obtain ⟨r, hr, hq⟩ := hbody s hs
    cases r with
    | inl s' =>
      rw [loop_next hr]
      exact exists_loop_eq μ hbody hq.1 (Nat.lt_of_lt_of_le hq.2 (Nat.le_of_lt_succ hfuel))
    | inr b =>
      rw [loop_done hr]
      exact ⟨b, rfl, hq⟩

/-- A loop that comes back to the same states has no result. -/
theorem loop_eq_none {I : σ → Prop} (hbody : ∀ s, I s → ∃ s', body s = some (.inl s') ∧ I s') :
    ∀ {fuel : Nat} {s : σ}, I s → loop body fuel s = none
  | 0, _, _ => rfl
  | fuel + 1, s, hs => by
    obtain ⟨s', hr, hs'⟩ := hbody s hs
    rw [loop_next hr]
    exact loop_eq_none hbody hs'

end Loop

/-! ## Functions that may fail -/

/-- Results that are errors, or none at all. -/
abbrev Partial (ε : Type) := ExceptT ε Option

section Partial

variable {ε α β σ : Type} {x : Partial ε α} {f : α → Partial ε β} {Q : α → Prop} {R : β → Prop}

/-- `x` gives a result; `Q` holds if it is not an error. -/
def Returns (x : Partial ε α) (Q : α → Prop) : Prop := ∃ r, x.run = some r ∧ ∀ a, r = .ok a → Q a

theorem Returns.pure {a : α} (h : Q a) : Returns (pure a : Partial ε α) Q :=
  ⟨.ok a, rfl, fun _ heq => Except.ok.inj heq ▸ h⟩

theorem Returns.throw (e : ε) : Returns (throw e : Partial ε α) Q := ⟨.error e, rfl, fun _ heq => by cases heq⟩

theorem Returns.mono {Q' : α → Prop} (h : Returns x Q) (himp : ∀ a, Q a → Q' a) : Returns x Q' := by
  obtain ⟨r, hr, hq⟩ := h
  exact ⟨r, hr, fun a ha => himp a (hq a ha)⟩

theorem Returns.ne_none (h : Returns x Q) : x.run ≠ none := by
  obtain ⟨r, hr, -⟩ := h
  rw [hr]
  exact Option.some_ne_none r

theorem Returns.bind (hx : Returns x Q) (hf : ∀ a, Q a → Returns (f a) R) : Returns (x >>= f) R := by
  obtain ⟨r, hr, hq⟩ := hx
  cases r with
  | error e => exact ⟨.error e, by rw [ExceptT.run_bind, hr]; rfl, fun _ heq => by cases heq⟩
  | ok a =>
    obtain ⟨r', hr', hq'⟩ := hf a (hq a rfl)
    exact ⟨r', by rw [ExceptT.run_bind, hr]; exact hr', hq'⟩

theorem run_bind_ok {a : α} (h : x.run = some (.ok a)) : (x >>= f).run = (f a).run := by
  rw [ExceptT.run_bind, h]
  rfl

theorem run_bind_error {e : ε} (h : x.run = some (.error e)) : (x >>= f).run = some (.error e) := by
  rw [ExceptT.run_bind, h]
  rfl

/-- `x` does what `o` says: it gives a value that goes with the one of `o`, and fails if there is none. -/
def Realizes (x : Partial Unit α) (o : Option β) (Q : β → α → Prop) : Prop :=
  match o with
  | some b => ∃ a, x.run = some (.ok a) ∧ Q b a
  | none => x.run = some (.error ())

section Realizes

variable {γ δ : Type} {x : Partial Unit α} {o : Option β} {Q : β → α → Prop} {R : δ → γ → Prop}

theorem Realizes.pure {b : β} {a : α} (h : Q b a) : Realizes (pure a) (some b) Q := ⟨a, rfl, h⟩

theorem Realizes.bind {f : α → Partial Unit γ} {g : β → Option δ} (hx : Realizes x o Q)
    (hf : ∀ b a, o = some b → Q b a → Realizes (f a) (g b) R) : Realizes (x >>= f) (o.bind g) R := by
  cases o with
  | none => exact run_bind_error hx
  | some b =>
    obtain ⟨a, ha, hq⟩ := hx
    have hfa := hf b a rfl hq
    unfold Realizes at hfa ⊢
    rw [run_bind_ok ha]
    exact hfa

theorem Realizes.map {f : α → γ} {g : β → δ} (hx : Realizes x o Q) (hf : ∀ b a, Q b a → R (g b) (f a)) :
    Realizes (do let a ← x; return f a) (o.map g) R := by
  rw [Option.map_eq_bind]
  exact hx.bind fun b a _ h => .pure (hf b a h)

end Realizes

/-- If `x` gives a value, `Q` holds of it. -/
def Yields (x : Partial ε α) (Q : α → Prop) : Prop := ∀ a, x.run = some (.ok a) → Q a

theorem Yields.pure {a : α} (h : Q a) : Yields (pure a : Partial ε α) Q := by
  intro b hb
  cases hb
  exact h

theorem Yields.throw (e : ε) : Yields (throw e : Partial ε α) Q := by
  intro b hb
  cases hb

theorem Yields.trivial : Yields x fun _ => True := fun _ _ => ⟨⟩

theorem Yields.bind (hx : Yields x Q) (hf : ∀ a, Q a → Yields (f a) R) : Yields (x >>= f) R := by
  intro b hb
  rw [ExceptT.run_bind] at hb
  cases hr : x.run with
  | none => rw [hr] at hb; cases hb
  | some r =>
    rw [hr] at hb
    cases r with
    | error e => cases hb
    | ok a => exact hf a (hx a hr) b hb

/-- No result. -/
def diverge : Partial ε α := ExceptT.mk none

theorem diverge_bind : (diverge >>= f : Partial ε β) = diverge := rfl

/-- The value, if there is one. -/
def ofOption (o : Option α) : Partial ε α := ExceptT.mk (o.map .ok)

theorem ofOption_some (a : α) : (ofOption (some a) : Partial ε α) = pure a := rfl

theorem Yields.diverge : Yields (diverge : Partial ε α) Q := by
  intro b hb
  cases hb

/-- Fail with `e` if `c` holds. -/
def failIf (c : Prop) [Decidable c] (e : ε) : Partial ε Unit := if c then throw e else pure ()

theorem Returns.failIf {c : Prop} [Decidable c] {e : ε} : Returns (failIf c e) fun _ => ¬ c := by
  unfold Lib.failIf
  split
  · exact .throw e
  · next hc => exact .pure hc

theorem Yields.failIf {c : Prop} [Decidable c] {e : ε} : Yields (failIf c e) fun _ => ¬ c := by
  unfold Lib.failIf
  split
  · exact .throw e
  · next hc => exact .pure hc

theorem failIf_of_not {c : Prop} [Decidable c] (hc : ¬ c) (e : ε) : failIf c e = pure () := if_neg hc

/-- The error of `x` as a value. -/
def attempt (x : Partial ε α) : Partial ε (Except ε α) := ExceptT.mk (x.run.map .ok)

theorem Returns.attempt (h : Returns x Q) : Returns (attempt x) fun r => ∀ a, r = .ok a → Q a := by
  obtain ⟨r, hr, hq⟩ := h
  exact ⟨.ok r, by simp [Lib.attempt, hr], fun _ heq => Except.ok.inj heq ▸ hq⟩

theorem Yields.attempt (h : Yields x Q) : Yields (attempt x) fun r => ∀ a, r = .ok a → Q a := by
  intro r hr a ha
  refine h a ?_
  cases hx : x.run with
  | none => simp [Lib.attempt, hx] at hr
  | some r' =>
    simp only [Lib.attempt, hx] at hr
    cases hr
    rw [ha]

/-- A loop whose body may fail. -/
def loopE (body : σ → Partial ε (σ ⊕ β)) (fuel : Nat) (s : σ) : Partial ε β :=
  ExceptT.mk (loop (fun s => (body s).run.map fun
    | .ok (.inl s') => .inl s'
    | .ok (.inr b) => .inr (.ok b)
    | .error e => .inr (.error e)) fuel s)

variable {body : σ → Partial ε (σ ⊕ β)} {s t : σ} {b : β} {fuel : Nat}

theorem loopE_next (h : body s = pure (.inl t)) : loopE body (fuel + 1) s = loopE body fuel t := by
  unfold loopE
  rw [loop_next (by rw [h]; rfl)]

theorem loopE_done (h : body s = pure (.inr b)) : loopE body (fuel + 1) s = pure b := by
  unfold loopE
  rw [loop_done (by rw [h]; rfl)]
  rfl

theorem loopE_throw {e : ε} (h : body s = throw e) : loopE body (fuel + 1) s = throw e := by
  unfold loopE
  rw [loop_done (b := .error e) (by rw [h]; rfl)]
  rfl

theorem loopE_diverge (h : body s = diverge) : loopE body (fuel + 1) s = diverge := by
  unfold loopE
  rw [loop, h]
  rfl

/-- The rule for loops that are never left: an invariant. -/
theorem loopE_eq_diverge (I : σ → Prop) (hbody : ∀ s, I s → ∃ s', body s = pure (.inl s') ∧ I s') (hs : I s) :
    loopE body fuel s = diverge := by
  refine loop_eq_none (I := I) (fun s hs => ?_) hs
  obtain ⟨s', hr, hs'⟩ := hbody s hs
  exact ⟨s', by rw [hr]; rfl, hs'⟩

/-- The rule for loops: an invariant and a measure. -/
theorem Returns.loopE (I : σ → Prop) (μ : σ → Nat)
    (hbody : ∀ s, I s → Returns (body s) fun r => r.elim (fun s' => I s' ∧ μ s' < μ s) R)
    (hs : I s) (hfuel : μ s < fuel) : Returns (loopE body fuel s) R := by
  refine exists_loop_eq (I := I) μ (fun s hs => ?_) hs hfuel
  obtain ⟨r, hr, hq⟩ := hbody s hs
  cases r with
  | error e => exact ⟨.inr (.error e), by simp [hr], by simp⟩
  | ok r =>
    cases r with
    | inl s' => exact ⟨.inl s', by simp [hr], hq _ rfl⟩
    | inr b => exact ⟨.inr (.ok b), by simp [hr], fun a ha => Except.ok.inj ha ▸ hq _ rfl⟩

end Partial

end Lib
