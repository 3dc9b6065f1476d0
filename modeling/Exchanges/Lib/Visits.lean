import Exchanges.Lib.OrdMap

/-!
Collections that are visited in no fixed order.

A program that ranges over a map sees some permutation of its elements, and
another one each time. Three questions come up. When is the first match the same
in every order? When is a sum the same whatever order each of its terms has
seen? And when do two collections have the same sum?
-/

namespace Exchanges.Lib

variable {α β γ ι M : Type}

/-! ### The first match -/

/-- If all matches agree, the first match does not depend on the order. -/
theorem findSome?_perm {f : α → Option β} {xs l l' : List α}
    (h : ∀ x ∈ xs, ∀ y ∈ xs, ∀ a b, f x = some a → f y = some b → a = b) (hl : l.Perm xs)
    (hl' : l'.Perm xs) : l.findSome? f = l'.findSome? f := by
  cases hfound : l.findSome? f with
  | none =>
    refine (List.findSome?_eq_none_iff.mpr fun x hx => ?_).symm
    exact List.findSome?_eq_none_iff.mp hfound x (hl.mem_iff.mpr (hl'.mem_iff.mp hx))
  | some a =>
    obtain ⟨x, hx, ha⟩ := List.exists_of_findSome?_eq_some hfound
    cases hfound' : l'.findSome? f with
    | none =>
      have hnone := List.findSome?_eq_none_iff.mp hfound' x
        (hl'.mem_iff.mpr (hl.mem_iff.mp hx))
      cases ha.symm.trans hnone
    | some b =>
      obtain ⟨y, hy, hb⟩ := List.exists_of_findSome?_eq_some hfound'
      exact congrArg some (h x (hl.mem_iff.mp hx) y (hl'.mem_iff.mp hy) a b ha hb)

/-- What is made of the first match, if it tells two matches apart, does not depend
on the order exactly if all matches agree. -/
theorem findSome?_perm_iff {f : α → Option β} {g : Option β → γ}
    (hg : ∀ a b, g (some a) = g (some b) → a = b) {xs : List α} :
    (∀ l l' : List α, l.Perm xs → l'.Perm xs → g (l.findSome? f) = g (l'.findSome? f)) ↔
      ∀ x ∈ xs, ∀ y ∈ xs, ∀ a b, f x = some a → f y = some b → a = b := by
  constructor
  · intro h x hx y hy a b ha hb
    -- each of the two matches comes first in some order
    have hfirst {z : α} {c : β} (hz : z ∈ xs) (hc : f z = some c) :
        ∃ l : List α, l.Perm xs ∧ l.findSome? f = some c := by
      obtain ⟨s, t, rfl⟩ := List.append_of_mem hz
      refine ⟨z :: (s ++ t), List.perm_middle.symm, ?_⟩
      rw [List.findSome?_cons_of_isSome, hc]
      rw [hc]
      rfl
    obtain ⟨l, hl, hla⟩ := hfirst hx ha
    obtain ⟨l', hl', hlb⟩ := hfirst hy hb
    have hsame := h l l' hl hl'
    rw [hla, hlb] at hsame
    exact hg a b hsame
  · intro h l l' hl hl'
    exact congrArg g (findSome?_perm h hl hl')

/-! ### Sums -/

section Sums

variable [AddCommGroup M]

/-- Changing one term changes the sum by as much. -/
theorem sum_map_change {xs : List α} (hxs : xs.Nodup) {f g : α → M} {x : α} (hx : x ∈ xs)
    (h : ∀ y ∈ xs, y ≠ x → g y = f y) : (xs.map g).sum = (xs.map f).sum + (g x - f x) := by
  obtain ⟨before, rest, rfl⟩ := List.append_of_mem hx
  obtain ⟨-, hrest, hdisjoint⟩ := List.nodup_append.mp hxs
  have hbefore : before.map g = before.map f := List.map_congr_left fun y hy =>
    h y (List.mem_append_left _ hy) (hdisjoint y hy x List.mem_cons_self)
  have hafter : rest.map g = rest.map f := List.map_congr_left fun y hy =>
    h y (List.mem_append_right _ (List.mem_cons_of_mem x hy))
      (ne_of_mem_of_not_mem hy (List.nodup_cons.mp hrest).1)
  simp only [List.map_append, List.map_cons, List.sum_append, List.sum_cons, hbefore, hafter]
  abel

/-- A sum whose terms each depend on a choice is the same for all choices exactly
if each term is. -/
theorem sum_choice_iff [DecidableEq α] {xs : List α} (hxs : xs.Nodup) {allowed : ι → Prop}
    (f : ι → α → M) :
    (∀ c c' : α → ι, (∀ x, allowed (c x)) → (∀ x, allowed (c' x)) →
        (xs.map fun x => f (c x) x).sum = (xs.map fun x => f (c' x) x).sum) ↔
      ∀ x ∈ xs, ∀ i j, allowed i → allowed j → f i x = f j x := by
  constructor
  · intro h x hx i j hi hj
    have hsum := h (fun _ => i) (Function.update (fun _ => i) x j) (fun _ => hi) fun y => by
      by_cases hy : y = x
      · subst hy
        rw [Function.update_self]
        exact hj
      · rw [Function.update_of_ne hy]
        exact hi
    have hperm := List.perm_cons_erase hx
    -- the two choices differ at `x` only
    have hrest : (xs.erase x).map (fun y => f (Function.update (fun _ => i) x j y) y) =
        (xs.erase x).map fun y => f i y := by
      refine List.map_congr_left fun y hy => ?_
      rw [Function.update_of_ne (hxs.mem_erase_iff.mp hy).1]
    rw [(hperm.map _).sum_eq, (hperm.map _).sum_eq, List.map_cons, List.map_cons, List.sum_cons,
      List.sum_cons, hrest, Function.update_self] at hsum
    exact add_right_cancel hsum
  · intro h c c' hc hc'
    exact congrArg List.sum (List.map_congr_left fun x hx => h x hx _ _ (hc x) (hc' x))

/-- A loop that adds up values, and gives up where there is none, does not depend
on the order. -/
theorem foldlM_add_perm {f g : α → Option M} {l l' : List α} (h : l.Perm l')
    (hfg : ∀ x, f x = g x) (t : M) :
    l.foldlM (fun total x => (f x).map (total + ·)) t =
      l'.foldlM (fun total x => (g x).map (total + ·)) t := by
  obtain rfl : f = g := funext hfg
  induction h generalizing t with
  | nil => rfl
  | cons x _ ih =>
    rw [List.foldlM_cons, List.foldlM_cons]
    cases f x with
    | none => rfl
    | some a => exact ih (t + a)
  | swap x y l =>
    rw [List.foldlM_cons, List.foldlM_cons]
    cases hx : f x with
    | none => cases hy : f y <;> simp [hx, hy]
    | some a =>
      cases hy : f y with
      | none => simp [hx, hy]
      | some b => simp [hx, hy, add_right_comm]
  | trans _ _ ih ih' => exact (ih t).trans (ih' t)

/-- Such a loop that does not give up has found a value everywhere, and returns
their sum. -/
theorem foldlM_add_eq_some {f : α → Option M} {l : List α} : ∀ {t s : M},
    l.foldlM (fun total x => (f x).map (total + ·)) t = some s →
      (∀ x ∈ l, ∃ a, f x = some a) ∧ s = t + (l.map fun x => (f x).getD 0).sum := by
  induction l with
  | nil =>
    intro t s h
    obtain rfl : t = s := Option.some.inj h
    exact ⟨nofun, (add_zero t).symm⟩
  | cons x l ih =>
    intro t s h
    rw [List.foldlM_cons] at h
    cases hx : f x with
    | none => simp [hx] at h
    | some a =>
      rw [hx] at h
      obtain ⟨hall, rfl⟩ := ih (t := t + a) h
      refine ⟨List.forall_mem_cons.mpr ⟨⟨a, hx⟩, hall⟩, ?_⟩
      rw [List.map_cons, List.sum_cons, hx, Option.getD_some, add_assoc]

/-- A sum is over the elements that count. -/
theorem sum_map_eq_sum_filter {p : α → Prop} [DecidablePred p] {f g : α → M} {l : List α}
    (h : ∀ x ∈ l, f x = if p x then g x else 0) :
    (l.map f).sum = ((l.filter p).map g).sum := by
  induction l with
  | nil => rfl
  | cons x l ih =>
    obtain ⟨hx, hrest⟩ := List.forall_mem_cons.mp h
    rw [List.map_cons, List.sum_cons, hx, ih hrest]
    by_cases hp : p x
    · rw [if_pos hp, List.filter_cons_of_pos (by simpa using hp), List.map_cons, List.sum_cons]
    · rw [if_neg hp, List.filter_cons_of_neg (by simpa using hp), zero_add]

/-- Two collections have the same sum exactly if what each of them has alone
does. -/
theorem sum_eq_iff {xs ys : List α} [DecidablePred (· ∈ xs)] [DecidablePred (· ∈ ys)]
    (hxs : xs.Nodup) (hys : ys.Nodup) (f : α → M) :
    (xs.map f).sum = (ys.map f).sum ↔
      ((xs.filter (· ∉ ys)).map f).sum = ((ys.filter (· ∉ xs)).map f).sum := by
  have hsplit (l m : List α) [DecidablePred (· ∈ m)] : (l.map f).sum =
      ((l.filter (· ∈ m)).map f).sum + ((l.filter (· ∉ m)).map f).sum := by
    rw [← List.sum_append, ← List.map_append]
    refine ((List.filter_append_perm (fun x => decide (x ∈ m)) l).symm.map f).sum_eq.trans ?_
    simp only [decide_not]
  have hcommon : (xs.filter (· ∈ ys)).Perm (ys.filter (· ∈ xs)) := by
    refine (List.perm_ext_iff_of_nodup (hxs.filter _) (hys.filter _)).mpr fun x => ?_
    simp only [List.mem_filter, decide_eq_true_eq]
    exact and_comm
  rw [hsplit xs ys, hsplit ys xs, (hcommon.map f).sum_eq, add_right_inj]

end Sums

/-! ### Totals of a map -/

namespace OrdMap

variable {K : Type} [Ord K] [Std.TransOrd K] [Std.LawfulEqOrd K]

/-- The sum of the values of a map. -/
def total [Zero M] [Add M] (m : OrdMap K M) : M := (m.entries.map Prod.snd).sum

/-- Add to the value of a key. -/
def addTo [Zero M] [Add M] (m : OrdMap K M) (k : K) (v : M) : OrdMap K M :=
  m.put k ((m.get k).getD 0 + v)

section Total

variable [AddCommGroup M] [DecidableEq K] (m : OrdMap K M) (k : K) (v : M)

theorem total_put_new (h : m.get k = none) : (m.put k v).total = m.total + v := by
  rw [total, ((entries_put_perm h v).map Prod.snd).sum_eq, List.map_cons, List.sum_cons, add_comm]
  rfl

omit [AddCommGroup M] in
theorem put_delete : (m.delete k).put k v = m.put k v := by
  refine ext_get fun k' => ?_
  rw [get_put, get_put]
  split
  · rfl
  · next hne => exact get_delete_of_ne m hne

theorem total_addTo : (m.addTo k v).total = m.total + v := by
  unfold addTo
  cases hget : m.get k with
  | none => rw [Option.getD_none, zero_add, total_put_new m k v hget]
  | some w =>
    have hdeleted : (m.delete k).get k = none := get_delete_self m k
    have hold : m.total = (m.delete k).total + w := by
      rw [← total_put_new _ k w hdeleted, put_delete_eq_self hget]
    rw [Option.getD_some, ← put_delete, total_put_new _ k _ hdeleted, hold, add_assoc]

/-- A loop that adds each of its values to some key adds up the values. -/
theorem total_foldl_addTo (key : α → K) (value : α → Option M) (xs : List α) :
    ∀ m : OrdMap K M,
      (xs.foldl (fun m x => (value x).elim m (m.addTo (key x))) m).total =
        m.total + (xs.map fun x => (value x).getD 0).sum := by
  induction xs with
  | nil =>
    intro m
    simp
  | cons x xs ih =>
    intro m
    rw [List.foldl_cons, ih, List.map_cons, List.sum_cons]
    cases value x with
    | none => simp
    | some v => simp [total_addTo, add_assoc]

/-- A loop that enters each of its values under a key of its own, unless it is
zero, adds up the values. -/
theorem total_foldl_put [DecidableEq M] (key : α → K) (value : α → M) (xs : List α) :
    ∀ m : OrdMap K M, (xs.map key).Nodup → (∀ x ∈ xs, m.get (key x) = none) →
      (xs.foldl (fun m x => if value x ≠ 0 then m.put (key x) (value x) else m) m).total =
        m.total + (xs.map value).sum := by
  induction xs with
  | nil =>
    intro m _ _
    simp
  | cons x xs ih =>
    intro m hkeys hfresh
    rw [List.map_cons, List.nodup_cons] at hkeys
    rw [List.foldl_cons, List.map_cons, List.sum_cons, ← add_assoc]
    have hrest : ∀ y ∈ xs, m.get (key y) = none := fun y hy =>
      hfresh y (List.mem_cons_of_mem x hy)
    split
    · rw [ih _ hkeys.2, total_put_new _ _ _ (hfresh x List.mem_cons_self)]
      intro y hy
      have hne : key y ≠ key x := fun heq => hkeys.1 (heq ▸ List.mem_map_of_mem hy)
      rw [get_put_of_ne _ hne]
      exact hrest y hy
    · next hzero =>
        rw [ih _ hkeys.2 hrest, not_ne_iff.mp hzero, add_zero]

end Total

theorem total_empty [AddCommGroup M] : (∅ : OrdMap K M).total = 0 := by
  have hnil : (∅ : OrdMap K M).entries = [] := by
    refine List.eq_nil_iff_forall_not_mem.mpr fun e he => ?_
    cases (get_empty e.1).symm.trans (mem_entries.mp he)
  rw [total, hnil]
  rfl

end OrdMap

end Exchanges.Lib
