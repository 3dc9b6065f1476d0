import Mathlib.Tactic.Linarith

/-!
A budget of attempts.

Each round looks at something that may agree or differ. While it differs an
attempt is granted, up to a limit; an agreement starts the count anew. Between
two agreements the count is the number of attempts granted since, and so the
limit bounds both.
-/

namespace Exchanges.Lib.Budget

/-- What a round finds. -/
inductive Finding where
  | unseen
  | agrees
  | differs
  deriving DecidableEq, Repr

/-- The count after a round. -/
def spend (limit count : Nat) : Finding → Nat
  | .unseen => count
  | .agrees => 0
  | .differs => if count < limit then count + 1 else count

/-- The attempts that a round grants: one or none. -/
def grant (limit count : Nat) : Finding → Nat
  | .differs => if count < limit then 1 else 0
  | _ => 0

/-- The count after some rounds. -/
def spent (limit count : Nat) (findings : List Finding) : Nat :=
  findings.foldl (spend limit) count

/-- The attempts granted in some rounds. -/
def granted (limit : Nat) : Nat → List Finding → Nat
  | _, [] => 0
  | count, finding :: findings =>
    grant limit count finding + granted limit (spend limit count finding) findings

variable {limit count : Nat}

theorem spend_le (h : count ≤ limit) (finding : Finding) : spend limit count finding ≤ limit := by
  cases finding with
  | unseen => exact h
  | agrees => exact Nat.zero_le limit
  | differs =>
    rw [spend]
    split
    · next hlt => exact hlt
    · exact h

/-- The count never exceeds the limit. -/
theorem spent_le (findings : List Finding) (h : count ≤ limit) :
    spent limit count findings ≤ limit := by
  induction findings generalizing count with
  | nil => exact h
  | cons finding findings ih => exact ih (spend_le h finding)

theorem spend_eq_add_grant {finding : Finding} (h : finding ≠ .agrees) :
    spend limit count finding = count + grant limit count finding := by
  cases finding with
  | unseen => rfl
  | agrees => exact absurd rfl h
  | differs =>
    rw [spend, grant]
    split <;> rfl

/-- Without an agreement, the count grows by the attempts granted. -/
theorem spent_eq_add_granted {findings : List Finding} (h : ∀ f ∈ findings, f ≠ .agrees) :
    ∀ count, spent limit count findings = count + granted limit count findings := by
  induction findings with
  | nil => exact fun _ => rfl
  | cons finding findings ih =>
    intro count
    obtain ⟨hfirst, hrest⟩ := List.forall_mem_cons.1 h
    have hspent := ih hrest (spend limit count finding)
    rw [spent, List.foldl_cons, ← spent, hspent, granted, spend_eq_add_grant hfirst, add_assoc]

end Exchanges.Lib.Budget
