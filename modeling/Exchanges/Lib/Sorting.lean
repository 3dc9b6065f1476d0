import Mathlib.Data.List.Sort
import Mathlib.Tactic.Linarith

/-!
Sorted lists.

The place of an element in a strictly sorted list is the number of elements
behind it. A stable sort by a key keeps the elements of each key in order, and
the sorted list can be cut at any key.
-/

namespace Exchanges.Lib

section Ranks

variable {α : Type} {lt : α → α → Prop} [DecidableRel lt]

/-- Of a strictly sorted list, the elements before the last `k` are those with
at least `k` greater ones. -/
theorem mem_take_sub_iff (hasymm : ∀ x y, lt x y → ¬ lt y x) {xs : List α}
    (h : xs.Pairwise lt) {x : α} (hx : x ∈ xs) (k : Nat) :
    x ∈ xs.take (xs.length - k) ↔ k ≤ xs.countP fun y => lt x y := by
  induction xs with
  | nil => cases hx
  | cons y rest ih =>
    obtain ⟨hleast, hrest⟩ := List.pairwise_cons.1 h
    have hlength : (y :: rest).length = rest.length + 1 := rfl
    by_cases hk : k ≤ rest.length
    · rw [hlength, Nat.succ_sub hk, List.take_succ_cons, List.mem_cons]
      rcases List.mem_cons.1 hx with rfl | hmem
      · have hall : rest.countP (fun y => lt x y) = rest.length :=
          List.countP_eq_length.2 fun y hy => by simpa using hleast y hy
        refine ⟨fun _ => ?_, fun _ => .inl rfl⟩
        rw [List.countP_cons, hall]
        omega
      · have hne : x ≠ y := fun heq => hasymm y x (hleast x hmem) (heq ▸ hleast x hmem)
        have hnot : ¬ lt x y := hasymm y x (hleast x hmem)
        rw [List.countP_cons_of_neg (by simpa using hnot), ← ih hrest hmem]
        exact or_iff_right hne
    · have hzero : (y :: rest).length - k = 0 := by omega
      rw [hzero, List.take_zero]
      refine ⟨fun hmem => absurd hmem List.not_mem_nil, fun hle => absurd hle ?_⟩
      have hself : ¬ lt x x := fun hlt => hasymm x x hlt hlt
      have hbound : (y :: rest).countP (fun y => lt x y) < (y :: rest).length := by
        refine lt_of_le_of_ne List.countP_le_length fun heq => hself ?_
        simpa using List.countP_eq_length.1 heq x hx
      omega

end Ranks

section Stable

variable {α β : Type} [LinearOrder β] {key : α → β}

/-- Sort by a key. Elements with one key stay in order. -/
def sortBy (key : α → β) (l : List α) : List α := l.insertionSort fun a b => key a ≤ key b

theorem pairwise_sortBy (key : α → β) (l : List α) :
    (sortBy key l).Pairwise fun a b => key a ≤ key b :=
  List.pairwise_insertionSort (fun a b => key a ≤ key b) l

theorem mem_sortBy {l : List α} {a : α} : a ∈ sortBy key l ↔ a ∈ l :=
  List.mem_insertionSort fun a b => key a ≤ key b

theorem filter_orderedInsert (key : α → β) (k : β) (a : α) (l : List α) :
    (l.orderedInsert (fun a b => key a ≤ key b) a).filter (fun b => key b = k) =
      (a :: l).filter fun b => key b = k := by
  induction l with
  | nil => rfl
  | cons b l ih =>
    rw [List.orderedInsert_cons]
    split_ifs with hle
    · rfl
    · -- the element passes `b` only if its key is greater
      have hne : ¬ (key b = k ∧ key a = k) := fun h => hle (h.2.trans h.1.symm).le
      rw [List.filter_cons, ih, List.filter_cons, List.filter_cons, List.filter_cons]
      by_cases hb : key b = k
      · have ha : key a ≠ k := fun ha => hne ⟨hb, ha⟩
        simp [hb, ha]
      · simp [hb]

theorem filter_sortBy (key : α → β) (k : β) (l : List α) :
    (sortBy key l).filter (fun a => key a = k) = l.filter fun a => key a = k := by
  induction l with
  | nil => rfl
  | cons a l ih =>
    have hsort : sortBy key (a :: l) =
        (sortBy key l).orderedInsert (fun a b => key a ≤ key b) a := rfl
    rw [hsort, filter_orderedInsert, List.filter_cons, List.filter_cons, ih]

/-- A sorted list can be cut at a key. -/
theorem filter_lt_append_filter_le {l : List α} (hl : l.Pairwise fun a b => key a ≤ key b)
    (k : β) : (l.filter fun a => key a < k) ++ (l.filter fun a => k ≤ key a) = l := by
  induction l with
  | nil => rfl
  | cons a l ih =>
    obtain ⟨hfirst, hl⟩ := List.pairwise_cons.mp hl
    by_cases ha : key a < k
    · rw [List.filter_cons_of_pos (by simpa using ha),
        List.filter_cons_of_neg (by simpa using ha), List.cons_append, ih hl]
    · have hrest : ∀ b ∈ l, k ≤ key b := fun b hb => (not_lt.mp ha).trans (hfirst b hb)
      rw [List.filter_cons_of_neg (by simpa using ha),
        List.filter_cons_of_pos (by simpa using ha),
        List.filter_eq_nil_iff.mpr fun b hb => by simpa using hrest b hb,
        List.filter_eq_self.mpr fun b hb => by simpa using hrest b hb, List.nil_append]

end Stable

end Exchanges.Lib
