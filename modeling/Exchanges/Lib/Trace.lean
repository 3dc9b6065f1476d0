import Mathlib

/-!
Conditions along a list that grows at its end, such as the trace of a run.

`Along P l` says that every element of `l` satisfies `P` together with the list
of what comes before it, and `Throughout P l` that every initial part of `l`
satisfies `P`. Both are decided element by element as the list grows.
-/

namespace Exchanges.Lib

variable {α : Type}

/-- Every element satisfies `P`, given the elements before it. -/
def Along (P : List α → α → Prop) (l : List α) : Prop := ∀ pre a, pre ++ [a] <+: l → P pre a

/-- Every initial part satisfies `P`. -/
def Throughout (P : List α → Prop) (l : List α) : Prop := ∀ pre, pre <+: l → P pre

section Along

variable {P Q : List α → α → Prop} {l : List α} {a : α}

theorem along_nil : Along P [] := by
  intro pre a h
  simp at h

theorem along_concat : Along P (l ++ [a]) ↔ Along P l ∧ P l a := by
  constructor
  · intro h
    exact ⟨fun pre b hpre => h pre b (hpre.trans (List.prefix_append ..)),
      h l a (List.prefix_refl _)⟩
  · rintro ⟨hl, ha⟩ pre b hpre
    rcases List.prefix_concat_iff.mp hpre with heq | hold
    · obtain ⟨rfl, rfl⟩ := List.append_singleton_inj.mp heq
      exact ha
    · exact hl pre b hold

theorem Along.init (h : Along P l) {pre : List α} (hpre : pre <+: l) : Along P pre :=
  fun pre' a ha => h pre' a (ha.trans hpre)

instance [∀ pre, DecidablePred (P pre)] : Decidable (Along P l) :=
  decidable_of_iff (∀ i : Fin l.length, P (l.take i) (l.get i)) <| by
    constructor
    · rintro h pre a ⟨post, rfl⟩
      have hi := h ⟨pre.length, by simp⟩
      simpa using hi
    · intro h i
      refine h _ _ ?_
      have htake : l.take i ++ [l.get i] = l.take (i + 1) := by simp
      rw [htake]
      exact List.take_prefix ..

end Along

section Throughout

variable {P : List α → Prop} {l : List α} {a : α}

theorem throughout_nil : Throughout P [] ↔ P [] := by
  simp [Throughout]

theorem throughout_concat : Throughout P (l ++ [a]) ↔ Throughout P l ∧ P (l ++ [a]) := by
  constructor
  · intro h
    exact ⟨fun pre hpre => h pre (hpre.trans (List.prefix_append ..)),
      h _ (List.prefix_refl _)⟩
  · rintro ⟨hl, ha⟩ pre hpre
    rcases List.prefix_concat_iff.mp hpre with rfl | hold
    · exact ha
    · exact hl pre hold

end Throughout

end Exchanges.Lib
