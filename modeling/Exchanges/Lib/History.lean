import Mathlib

/-!
What is observed of a state along a run.

A run folds a step function over a list of events. An observation may be absent
in some states, as a lookup may find nothing. `observed` lists what was
observed, in order. When a relation is transitive, it holds between any two
observations of a run, the earlier and the later one, exactly when every step
relates the last observation before it to the one after it. The last
observation may be older than the state before the step.
-/

namespace Exchanges.Lib

variable {σ ε β : Type}

/-- What `obs` shows in the states of a run, the first state included. -/
def observed (step : σ → ε → σ) (obs : σ → Option β) : σ → List ε → List β
  | s, [] => (obs s).toList
  | s, e :: events => (obs s).toList ++ observed step obs (step s e) events

/-- What `obs` showed last in a run. -/
def lastObserved (step : σ → ε → σ) (obs : σ → Option β) (s : σ) (events : List ε) : Option β :=
  (observed step obs s events).getLast?

variable {step : σ → ε → σ} {obs : σ → Option β}

theorem observed_concat (s : σ) (events : List ε) (e : ε) :
    observed step obs s (events ++ [e]) =
      observed step obs s events ++ (obs (step (events.foldl step s) e)).toList := by
  induction events generalizing s with
  | nil => rfl
  | cons e' events ih =>
    change (obs s).toList ++ observed step obs (step s e') (events ++ [e]) = _
    rw [ih, ← List.append_assoc]
    rfl

/-- What is observed now was observed last. -/
theorem lastObserved_of_obs {s : σ} {events : List ε} {x : β}
    (h : obs (events.foldl step s) = some x) : lastObserved step obs s events = some x := by
  induction events using List.reverseRecOn with
  | nil =>
    change (obs s).toList.getLast? = some x
    rw [show obs s = some x from h]
    rfl
  | append_singleton events e _ =>
    rw [List.foldl_concat] at h
    rw [lastObserved, observed_concat, h, Option.toList_some, List.getLast?_concat]

/-- Everything observed was observed in some state of the run. -/
theorem exists_of_mem_observed {s : σ} {events : List ε} {x : β}
    (h : x ∈ observed step obs s events) :
    ∃ pre, pre <+: events ∧ obs (pre.foldl step s) = some x := by
  induction events generalizing s with
  | nil => exact ⟨[], List.nil_prefix, Option.mem_toList.mp h⟩
  | cons e events ih =>
    rcases List.mem_append.mp h with h | h
    · exact ⟨[], List.nil_prefix, Option.mem_toList.mp h⟩
    · obtain ⟨pre, hpre, hx⟩ := ih h
      exact ⟨e :: pre, List.cons_prefix_cons.mpr ⟨rfl, hpre⟩, hx⟩

/-- The steps of a run are its first step and the steps of the rest. -/
theorem forall_step_cons {P : List ε → ε → Prop} {e : ε} {events : List ε} :
    (∀ pre e', pre ++ [e'] <+: e :: events → P pre e') ↔
      P [] e ∧ ∀ pre e', pre ++ [e'] <+: events → P (e :: pre) e' := by
  constructor
  · intro h
    exact ⟨h [] e (by simp), fun pre e' hpre => h (e :: pre) e' (by simpa using hpre)⟩
  · rintro ⟨hfirst, hrest⟩ pre e' hpre
    cases pre with
    | nil =>
      obtain ⟨rfl, -⟩ := List.cons_prefix_cons.mp hpre
      exact hfirst
    | cons e'' pre =>
      obtain ⟨rfl, htail⟩ := List.cons_prefix_cons.mp hpre
      exact hrest pre e' htail

theorem forall_step_nil {P : List ε → ε → Prop} :
    ∀ pre e, pre ++ [e] <+: [] → P pre e := by
  intro pre e hpre
  simp at hpre

/-- A transitive relation holds along a run when every step respects it. -/
theorem pairwise_observed_iff {r : β → β → Prop} [IsTrans β r] {s : σ} {events : List ε} :
    (observed step obs s events).Pairwise r ↔
      ∀ pre e, pre ++ [e] <+: events → ∀ x y, lastObserved step obs s pre = some x →
        obs (step (pre.foldl step s) e) = some y → r x y := by
  rw [← List.isChain_iff_pairwise]
  induction events using List.reverseRecOn with
  | nil =>
    constructor
    · intro _ pre e hpre
      simp at hpre
    · intro _
      change ((obs s).toList).IsChain r
      cases obs s <;> simp
  | append_singleton events e ih =>
    rw [observed_concat, List.isChain_append, ih]
    constructor
    · rintro ⟨hbefore, -, hlast⟩ pre e' hpre x y hx hy
      rcases List.prefix_concat_iff.mp hpre with heq | hpre
      · obtain ⟨rfl, hsame⟩ := List.append_inj' heq rfl
        cases hsame
        exact hlast x hx y (by rw [hy]; rfl)
      · exact hbefore pre e' hpre x y hx hy
    · intro hsteps
      refine ⟨fun pre e' hpre => hsteps pre e' (hpre.trans (List.prefix_append ..)), ?_, ?_⟩
      · cases obs (step (events.foldl step s) e) <;> simp
      · intro x hx y hy
        refine hsteps events e (List.prefix_refl _) x y hx ?_
        cases hobs : obs (step (events.foldl step s) e) with
        | none =>
          rw [hobs] at hy
          cases hy
        | some z =>
          rw [hobs] at hy
          exact hy

end Exchanges.Lib
