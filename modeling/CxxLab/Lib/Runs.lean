import Mathlib.Data.List.Basic
import Mathlib.Logic.Function.Basic

/-!
# Runs of a partial step function

A transition system given by a partial step function `step : σ → α → Option σ`: `none` says that
the action is not enabled. `exec` runs a list of actions, `Meets` says that every action of a run
meets a condition in the state before it, and `exec_invariant` is the induction over runs that the
developments of this project use: what the start has and each admitted step keeps, every state
reached has.
-/

namespace CxxLab.Runs

variable {σ α : Type*}

/-- The state after a list of actions, or `none` when one of them is not enabled. -/
def exec (step : σ → α → Option σ) : σ → List α → Option σ
  | s, [] => some s
  | s, a :: as => (step s a).bind fun s' => exec step s' as

/-- Every action of the run from `s` meets `ok` in the state before it. -/
def Meets (step : σ → α → Option σ) (ok : σ → α → Prop) : σ → List α → Prop
  | _, [] => True
  | s, a :: as => ok s a ∧ ∀ s', step s a = some s' → Meets step ok s' as

/-- Whether a run meets a decidable condition is found by running it. -/
instance decidableMeets {step : σ → α → Option σ} {ok : σ → α → Prop}
    [∀ s a, Decidable (ok s a)] : ∀ s as, Decidable (Meets step ok s as)
  | _, [] => isTrue trivial
  | s, a :: as =>
    match h : step s a with
    | none => decidable_of_iff (ok s a) (by simp [Meets, h])
    | some t =>
      have : Decidable (Meets step ok t as) := decidableMeets t as
      decidable_of_iff (ok s a ∧ Meets step ok t as) (by simp [Meets, h])

/-- A condition that always holds is met by every run. -/
theorem meets_of_forall {step : σ → α → Option σ} {ok : σ → α → Prop} (h : ∀ s a, ok s a) :
    ∀ s as, Meets step ok s as
  | _, [] => trivial
  | s, a :: as => ⟨h s a, fun s' _ => meets_of_forall h s' as⟩

/-- A run that meets a condition meets a weaker one. -/
theorem Meets.mono {step : σ → α → Option σ} {ok ok' : σ → α → Prop}
    (h : ∀ s a, ok s a → ok' s a) : ∀ {s as}, Meets step ok s as → Meets step ok' s as
  | _, [], _ => trivial
  | s, a :: _, hm => ⟨h s a hm.1, fun s' hs' => (hm.2 s' hs').mono h⟩

/-- A run that takes a first step is that step followed by a run. -/
theorem exec_cons {step : σ → α → Option σ} {s s' : σ} {a : α} {as : List α} :
    exec step s (a :: as) = some s' ↔
      ∃ t, step s a = some t ∧ exec step t as = some s' := by
  simp only [exec, Option.bind_eq_some_iff]

/-- A run over two lists of actions passes through the state between them. -/
theorem exec_append {step : σ → α → Option σ} {s s' : σ} {as bs : List α} :
    exec step s (as ++ bs) = some s' ↔
      ∃ t, exec step s as = some t ∧ exec step t bs = some s' := by
  induction as generalizing s with
  | nil => simp [exec]
  | cons a as ih =>
    rw [List.cons_append, exec_cons]
    constructor
    · rintro ⟨t, hst, h⟩
      obtain ⟨u, hu, hb⟩ := ih.mp h
      exact ⟨u, exec_cons.mpr ⟨t, hst, hu⟩, hb⟩
    · rintro ⟨u, hu, hb⟩
      obtain ⟨t, hst, h⟩ := exec_cons.mp hu
      exact ⟨t, hst, ih.mpr ⟨u, h, hb⟩⟩

/-- The simulation rule: a relation to an abstract machine that holds at the start, and that each
step that meets the condition keeps, holds in every state reached by a run whose steps all meet
the condition. -/
theorem exec_simulates {β : Type*} (abs : β → α → β) {step : σ → α → Option σ}
    {ok : σ → α → Prop} {R : σ → β → Prop}
    (hstep : ∀ s b a s', R s b → ok s a → step s a = some s' → R s' (abs b a)) :
    ∀ (as : List α) (s : σ) (b : β) (s' : σ), R s b → Meets step ok s as →
      exec step s as = some s' → R s' (as.foldl abs b)
  | [], s, b, s', hs, _, h => by
    simp only [exec, Option.some.injEq] at h
    exact h ▸ hs
  | a :: as, s, b, s', hs, hm, h => by
    obtain ⟨t, hst, hrun⟩ := exec_cons.mp h
    exact exec_simulates abs hstep as t (abs b a) s' (hstep s b a t hs hm.1 hst) (hm.2 t hst) hrun

/-- The invariant rule: what the start has, and each step that meets the condition keeps, holds
in every state reached by a run whose steps all meet the condition. -/
theorem exec_invariant {step : σ → α → Option σ} {ok : σ → α → Prop} {Inv : σ → Prop}
    (hstep : ∀ s a s', Inv s → ok s a → step s a = some s' → Inv s') (as : List α) (s s' : σ)
    (hs : Inv s) (hm : Meets step ok s as) (h : exec step s as = some s') : Inv s' :=
  exec_simulates (fun (_ : Unit) _ => ()) (R := fun s _ => Inv s) (fun s _ a s' => hstep s a s')
    as s () s' hs hm h

/-- The totality rule: when every step that meets the condition is enabled and keeps the
invariant, a run whose steps all meet the condition goes through. -/
theorem exec_total {step : σ → α → Option σ} {ok : σ → α → Prop} {Inv : σ → Prop}
    (hstep : ∀ s a, Inv s → ok s a → ∃ s', step s a = some s' ∧ Inv s') :
    ∀ (as : List α) (s : σ), Inv s → Meets step ok s as → ∃ s', exec step s as = some s' ∧ Inv s'
  | [], s, hs, _ => ⟨s, rfl, hs⟩
  | a :: as, s, hs, hm => by
    obtain ⟨t, hst, ht⟩ := hstep s a hs hm.1
    obtain ⟨s', hrun, hs'⟩ := exec_total hstep as t ht (hm.2 t hst)
    exact ⟨s', exec_cons.mpr ⟨t, hst, hrun⟩, hs'⟩

/-- The totality rule, with an abstract machine beside the run. -/
theorem exec_total_simulates {β : Type*} (abs : β → α → β) {step : σ → α → Option σ}
    {ok : σ → α → Prop} {R : σ → β → Prop}
    (hstep : ∀ s b a, R s b → ok s a → ∃ s', step s a = some s' ∧ R s' (abs b a)) :
    ∀ (as : List α) (s : σ) (b : β), R s b → Meets step ok s as →
      ∃ s', exec step s as = some s' ∧ R s' (as.foldl abs b)
  | [], s, b, hs, _ => ⟨s, rfl, hs⟩
  | a :: as, s, b, hs, hm => by
    obtain ⟨t, hst, ht⟩ := hstep s b a hs hm.1
    obtain ⟨s', hrun, hs'⟩ := exec_total_simulates abs hstep as t (abs b a) ht (hm.2 t hst)
    exact ⟨s', exec_cons.mpr ⟨t, hst, hrun⟩, hs'⟩

end CxxLab.Runs
