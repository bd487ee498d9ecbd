/-
Machines that take one event at a time: `step s e` is the state after the event `e`, and there is none if `e` cannot
happen in `s`. What every event keeps holds after every run; so does what is kept by the events that meet a condition, in
the runs in which all of them do.
-/
import Mathlib.Tactic

namespace Lib

variable {σ ε : Type*}

/-- The state after a run. -/
def exec (step : σ → ε → Option σ) (s : σ) (es : List ε) : Option σ := es.foldlM step s

/-- Every event of the run meets the condition, in the state in which it happens. -/
def Meets (step : σ → ε → Option σ) (P : σ → ε → Prop) : σ → List ε → Prop
  | _, [] => True
  | s, e :: es => P s e ∧ ∀ s', step s e = some s' → Meets step P s' es

instance Meets.decidable (step : σ → ε → Option σ) (P : σ → ε → Prop) [∀ s e, Decidable (P s e)] :
    ∀ (s : σ) (es : List ε), Decidable (Meets step P s es)
  | _, [] => .isTrue trivial
  | s, e :: es =>
    match h : step s e with
    | none => decidable_of_iff (P s e) ⟨fun hp => ⟨hp, fun _ hs => nomatch h.symm.trans hs⟩, fun hm => hm.1⟩
    | some s' =>
      have := Meets.decidable step P s' es
      decidable_of_iff (P s e ∧ Meets step P s' es)
        ⟨fun hm => ⟨hm.1, fun _ hs => Option.some.inj (h.symm.trans hs) ▸ hm.2⟩, fun hm => ⟨hm.1, hm.2 s' h⟩⟩

variable {step : σ → ε → Option σ} {P : σ → ε → Prop} {I : σ → Prop} {s t : σ}

theorem Meets.of_forall {C : ε → Prop} : ∀ {es : List ε} {s : σ}, (∀ e ∈ es, C e) → Meets step (fun _ e => C e) s es
  | [], _, _ => trivial
  | e :: _, _, h =>
    ⟨h e (List.mem_cons_self ..), fun _ _ => Meets.of_forall fun e' he' => h e' (List.mem_cons_of_mem e he')⟩

theorem exec_cons {e : ε} {es : List ε} (h : exec step s (e :: es) = some t) :
    ∃ s', step s e = some s' ∧ exec step s' es = some t := by
  exact Option.bind_eq_some_iff.1 h

/-- What the events that meet the condition keep. -/
theorem exec_invariant_of (hstep : ∀ s e s', I s → P s e → step s e = some s' → I s') :
    ∀ {es : List ε} {s : σ}, I s → Meets step P s es → exec step s es = some t → I t
  | [], s, hs, _, h => by
    cases h
    exact hs
  | e :: es, s, hs, hm, h => by
    obtain ⟨s', he, h⟩ := exec_cons h
    exact exec_invariant_of hstep (hstep s e s' hs hm.1 he) (hm.2 s' he) h

/-- What every event keeps. -/
theorem exec_invariant (hstep : ∀ s e s', I s → step s e = some s' → I s') :
    ∀ {es : List ε} {s : σ}, I s → exec step s es = some t → I t
  | [], s, hs, h => by
    cases h
    exact hs
  | e :: es, s, hs, h => by
    obtain ⟨s', he, h⟩ := exec_cons h
    exact exec_invariant hstep (hstep s e s' hs he) h

end Lib
