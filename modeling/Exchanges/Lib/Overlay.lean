import Mathlib

/-!
Functions that are kept up to date by lists of changes.

A change names a key and the value that the function has there from now on. The zero
function stands for "nothing known", so a list of changes laid over it is what the list
says on its own.
-/

namespace Exchanges.Lib

variable {κ ν : Type} [DecidableEq κ]

/-- Of two changes at one key the later one counts. -/
def overlay (f : κ → ν) (changes : List (κ × ν)) : κ → ν :=
  changes.foldl (fun f change => Function.update f change.1 change.2) f

def Names (changes : List (κ × ν)) (k : κ) : Prop := k ∈ changes.map Prod.fst

theorem overlay_cons (f : κ → ν) (change : κ × ν) (changes : List (κ × ν)) :
    overlay f (change :: changes) = overlay (Function.update f change.1 change.2) changes := rfl

theorem overlay_of_not_names {f : κ → ν} {changes : List (κ × ν)} {k : κ}
    (h : ¬ Names changes k) : overlay f changes k = f k := by
  induction changes generalizing f with
  | nil => rfl
  | cons change changes ih =>
    simp only [Names, List.map_cons, List.mem_cons, not_or] at h
    rw [overlay_cons, ih h.2, Function.update_of_ne h.1]

/-- What was there before does not matter at a key that is named. -/
theorem overlay_of_names {changes : List (κ × ν)} {k : κ} (h : Names changes k)
    (f g : κ → ν) : overlay f changes k = overlay g changes k := by
  induction changes generalizing f g with
  | nil => cases h
  | cons change changes ih =>
    by_cases hlater : Names changes k
    · exact ih hlater _ _
    · have hk : k = change.1 := by
        simp only [Names, List.map_cons, List.mem_cons] at h
        exact h.resolve_right hlater
      rw [overlay_cons, overlay_cons, overlay_of_not_names hlater,
        overlay_of_not_names hlater, hk, Function.update_self, Function.update_self]

/-- The changes alone are all there is just if they name every key with a value. -/
theorem overlay_zero_eq_iff [Zero ν] {f : κ → ν} {changes : List (κ × ν)} :
    overlay 0 changes = overlay f changes ↔ ∀ k, f k ≠ 0 → Names changes k := by
  constructor
  · intro h k hk
    by_contra hnot
    have hat := congrFun h k
    rw [overlay_of_not_names hnot, overlay_of_not_names hnot] at hat
    exact hk hat.symm
  · intro h
    funext k
    by_cases hk : Names changes k
    · exact overlay_of_names hk _ _
    · rw [overlay_of_not_names hk, overlay_of_not_names hk]
      exact (not_not.mp fun hne => hk (h k hne)).symm

/-- Nothing changes just if every key that is named has its value already. -/
theorem eq_overlay_iff [Zero ν] {f : κ → ν} {changes : List (κ × ν)} :
    f = overlay f changes ↔ ∀ k, Names changes k → overlay 0 changes k = f k := by
  constructor
  · intro h k hk
    rw [overlay_of_names hk 0 f, ← h]
  · intro h
    funext k
    by_cases hk : Names changes k
    · rw [overlay_of_names hk f 0, h k hk]
    · rw [overlay_of_not_names hk]

end Exchanges.Lib
