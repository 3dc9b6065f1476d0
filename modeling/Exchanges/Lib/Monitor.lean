import Mathlib.Data.List.Basic

/-!
Machines that announce what they do, and monitors of the announcements.

A machine takes inputs one after another, and each step makes some announcements. A
monitor is an automaton that reads announcements and may refuse one; what it accepts
is closed under initial parts. `foldlM_announcements` is the rule for it: if the
announcements of a step take the monitor from what it believes of the state to what
it believes of the next one, then it never refuses anything, and believes the right
thing in the end.
-/

namespace Exchanges.Lib

variable {σ ι κ β : Type}

/-- The announcements of a run. -/
def announcements (step : σ → ι → σ) (out : σ → ι → List κ) : σ → List ι → List κ
  | _, [] => []
  | s, input :: inputs => out s input ++ announcements step out (step s input) inputs

/-- Every input meets a condition in the state in which it is taken. -/
def MeetsEach (condition : σ → ι → Prop) (step : σ → ι → σ) : σ → List ι → Prop
  | _, [] => True
  | s, input :: inputs => condition s input ∧ MeetsEach condition step (step s input) inputs

section

variable {step : σ → ι → σ} {out : σ → ι → List κ} {I : σ → Prop} {J : ι → Prop}
  (hstep : ∀ s input, I s → J input → I (step s input))

include hstep

/-- Two conditions that amount to the same in every state that can be reached. -/
theorem meetsEach_congr {condition condition' : σ → ι → Prop}
    (h : ∀ s input, I s → J input → (condition s input ↔ condition' s input)) {s : σ} (hs : I s)
    {inputs : List ι} (hinputs : ∀ input ∈ inputs, J input) :
    MeetsEach condition step s inputs ↔ MeetsEach condition' step s inputs := by
  induction inputs generalizing s with
  | nil => exact Iff.rfl
  | cons input inputs ih =>
    obtain ⟨hinput, hrest⟩ := List.forall_mem_cons.mp hinputs
    exact and_congr (h s input hs hinput) (ih (hstep s input hs hinput) hrest)

/-- A monitor that follows each step follows the run. -/
theorem foldlM_announcements {condition : σ → ι → Prop} {monitor : β → κ → Option β}
    (belief : σ → β)
    (hfollows : ∀ s input, I s → J input → condition s input →
      (out s input).foldlM monitor (belief s) = some (belief (step s input)))
    {s : σ} (hs : I s) {inputs : List ι} (hinputs : ∀ input ∈ inputs, J input)
    (hmeets : MeetsEach condition step s inputs) :
    (announcements step out s inputs).foldlM monitor (belief s) =
      some (belief (inputs.foldl step s)) := by
  induction inputs generalizing s with
  | nil => rfl
  | cons input inputs ih =>
    obtain ⟨hinput, hrest⟩ := List.forall_mem_cons.mp hinputs
    obtain ⟨hcondition, hmeets⟩ := hmeets
    rw [announcements, List.foldlM_append, hfollows s input hs hinput hcondition]
    exact ih (hstep s input hs hinput) hrest hmeets

end

end Exchanges.Lib
