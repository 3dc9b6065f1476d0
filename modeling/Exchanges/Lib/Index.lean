import Exchanges.Lib.OrdMap

/-!
Indexes over a primary map.

Records of type `V` are stored by owner and id. A record has a key, and the key
`e` means that it has none. An index leads from an owner and a key back to the
ids: `IndexesOne` for a key that at most one record of an owner carries,
`IndexesAll` for a key that many may share. An index may also lead from a shared key
to one of its records only; it is then `IndexSound` if it leads to no other record and
`IndexComplete` if it leads from every key that is carried.

The records an index is about are given as a function, the *view*, and not as
the primary map itself. An update of several maps in turn passes through states
in which the primary map and its indexes disagree, and the view names the
records the indexes are right about in between.
-/

namespace Exchanges.Lib

open Std

set_option linter.unusedSectionVars false

variable {A I K V : Type} [Ord A] [TransOrd A] [LawfulEqOrd A] [DecidableEq A]
  [Ord I] [TransOrd I] [LawfulEqOrd I] [DecidableEq I]
  [Ord K] [TransOrd K] [LawfulEqOrd K] [DecidableEq K]

/-- Record `v` of owner `a` under id `i` is seen and has key `k`. -/
def Carries (view : A × I → Option V) (key : V → K) (a : A) (k : K) (i : I) : Prop :=
  ∃ v, view (a, i) = some v ∧ key v = k

/-- Every key other than `e` leads to the one record that carries it. -/
def IndexesOne (view : A × I → Option V) (key : V → K) (e : K) (ids : OrdMap (A × K) I) :
    Prop :=
  ∀ a k i, ids.get (a, k) = some i ↔ k ≠ e ∧ Carries view key a k i

/-- Every key other than `e` leads to all records that carry it. -/
def IndexesAll (view : A × I → Option V) (key : V → K) (e : K)
    (index : OrdMap ((A × K) × I) Unit) : Prop :=
  ∀ a k i, index.get ((a, k), i) = some () ↔ k ≠ e ∧ Carries view key a k i

section Carries

variable {view : A × I → Option V} {key : V → K} {a b : A} {k : K} {i j : I} {v : V}

/-- What is seen under an owner and an id has one key. -/
theorem Carries.key_eq (hc : Carries view key b k j) (hv : view (a, i) = some v)
    (heq : (b, j) = (a, i)) : k = key v := by
  obtain ⟨w, hw, hwk⟩ := hc
  rw [heq, hv] at hw
  rw [← hwk, ← Option.some.inj hw]

/-- A hidden record carries nothing. -/
theorem Carries.ne_of_hidden (hc : Carries view key b k j) (hnone : view (a, i) = none) :
    (b, j) ≠ (a, i) := by
  obtain ⟨w, hw, -⟩ := hc
  intro heq
  rw [heq, hnone] at hw
  cases hw

theorem carries_update_none :
    Carries (Function.update view (a, i) none) key b k j ↔
      (b, j) ≠ (a, i) ∧ Carries view key b k j := by
  unfold Carries
  by_cases h : (b, j) = (a, i)
  · rw [h, Function.update_self]
    simp
  · rw [Function.update_of_ne h]
    simp [h]

theorem carries_update_some :
    Carries (Function.update view (a, i) (some v)) key b k j ↔
      (b, j) = (a, i) ∧ key v = k ∨ (b, j) ≠ (a, i) ∧ Carries view key b k j := by
  unfold Carries
  by_cases h : (b, j) = (a, i)
  · rw [h, Function.update_self]
    simp
  · rw [Function.update_of_ne h]
    simp [h]

/-- Hiding a record changes nothing for the keys that it does not carry. -/
theorem carries_update_none_of_ne {e : K} (h : k ≠ e → Carries view key b k j → (b, j) ≠ (a, i)) :
    (k ≠ e ∧ Carries view key b k j ↔
      k ≠ e ∧ (b, j) ≠ (a, i) ∧ Carries view key b k j) :=
  and_congr_right fun hk => (and_iff_right_of_imp (h hk)).symm

/-- Nor does showing one. -/
theorem carries_update_some_of_ne {e : K} (hnone : view (a, i) = none)
    (h : k ≠ e → (b, j) = (a, i) → key v ≠ k) :
    (k ≠ e ∧ Carries view key b k j ↔
      k ≠ e ∧ ((b, j) = (a, i) ∧ key v = k ∨ (b, j) ≠ (a, i) ∧ Carries view key b k j)) := by
  refine and_congr_right fun hk => ⟨fun hc => .inr ⟨hc.ne_of_hidden hnone, hc⟩, ?_⟩
  rintro (⟨heq, hvk⟩ | ⟨-, hc⟩)
  · exact absurd hvk (h hk heq)
  · exact hc

end Carries

namespace IndexesOne

variable {view : A × I → Option V} {key : V → K} {e : K} {ids : OrdMap (A × K) I}

theorem empty : IndexesOne (fun _ => none : A × I → Option V) key e ∅ := by
  intro a k i
  simp [Carries]

/-- No two records of an owner carry the same key. -/
theorem unique (h : IndexesOne view key e ids) {a : A} {k : K} {i j : I} (hk : k ≠ e)
    (hi : Carries view key a k i) (hj : Carries view key a k j) : i = j := by
  have hgi := (h a k i).mpr ⟨hk, hi⟩
  have hgj := (h a k j).mpr ⟨hk, hj⟩
  rw [hgi] at hgj
  exact Option.some.inj hgj

/-- Hide a record and forget its key. -/
theorem remove (h : IndexesOne view key e ids) {a : A} {i : I} {v : V}
    (hv : view (a, i) = some v) :
    IndexesOne (Function.update view (a, i) none) key e
      (if key v = e then ids else ids.delete (a, key v)) := by
  intro b k j
  rw [carries_update_none]
  by_cases hkey : key v = e
  · rw [if_pos hkey, h b k j]
    exact carries_update_none_of_ne fun hk hc heq => hk ((hc.key_eq hv heq).trans hkey)
  · rw [if_neg hkey, OrdMap.get_delete]
    split
    · -- the deleted key: whoever else carried it would be the same record
      next heq =>
        obtain ⟨rfl, rfl⟩ := Prod.mk.inj heq
        refine ⟨fun hnone => by simp at hnone, ?_⟩
        rintro ⟨hk, hne, hc⟩
        have hij := h.unique hk hc ⟨v, hv, rfl⟩
        exact absurd (by rw [hij]) hne
    · next hne =>
        rw [h b k j]
        refine carries_update_none_of_ne fun _ hc heq => hne ?_
        rw [hc.key_eq hv heq, (Prod.mk.inj heq).1]

/-- Show a record whose key no other record carries. -/
theorem add (h : IndexesOne view key e ids) {a : A} {i : I} {v : V}
    (hnone : view (a, i) = none) (hfree : key v ≠ e → ids.get (a, key v) = none) :
    IndexesOne (Function.update view (a, i) (some v)) key e
      (if key v = e then ids else ids.put (a, key v) i) := by
  intro b k j
  rw [carries_update_some]
  by_cases hkey : key v = e
  · rw [if_pos hkey, h b k j]
    exact carries_update_some_of_ne hnone fun hk _ hvk => hk (hvk.symm.trans hkey)
  · rw [if_neg hkey, OrdMap.get_put]
    split
    · next heq =>
        obtain ⟨rfl, rfl⟩ := Prod.mk.inj heq
        constructor
        · intro hij
          exact ⟨hkey, .inl ⟨by rw [Option.some.inj hij], rfl⟩⟩
        · rintro ⟨-, ⟨hji, -⟩ | ⟨-, hc⟩⟩
          · rw [(Prod.mk.inj hji).2]
          · -- the key was free, so nobody else carries it
            have hget := (h b (key v) j).mpr ⟨hkey, hc⟩
            rw [hfree hkey] at hget
            cases hget
    · next hne =>
        rw [h b k j]
        refine carries_update_some_of_ne hnone fun _ hji hvk => hne ?_
        obtain ⟨rfl, rfl⟩ := Prod.mk.inj hji
        rw [hvk]

end IndexesOne

namespace IndexesAll

variable {view : A × I → Option V} {key : V → K} {e : K} {index : OrdMap ((A × K) × I) Unit}

theorem empty : IndexesAll (fun _ => none : A × I → Option V) key e ∅ := by
  intro a k i
  simp [Carries]

/-- Hide a record and take it out of the index. -/
theorem remove (h : IndexesAll view key e index) {a : A} {i : I} {v : V}
    (hv : view (a, i) = some v) :
    IndexesAll (Function.update view (a, i) none) key e
      (if key v = e then index else index.delete ((a, key v), i)) := by
  intro b k j
  rw [carries_update_none]
  by_cases hkey : key v = e
  · rw [if_pos hkey, h b k j]
    exact carries_update_none_of_ne fun hk hc heq => hk ((hc.key_eq hv heq).trans hkey)
  · rw [if_neg hkey, OrdMap.get_delete]
    split
    · next heq =>
        simp only [Prod.mk.injEq] at heq
        obtain ⟨⟨rfl, rfl⟩, rfl⟩ := heq
        simp
    · next hne =>
        rw [h b k j]
        refine carries_update_none_of_ne fun _ hc heq => hne ?_
        rw [hc.key_eq hv heq, (Prod.mk.inj heq).1, (Prod.mk.inj heq).2]

/-- Show a record and put it into the index. -/
theorem add (h : IndexesAll view key e index) {a : A} {i : I} {v : V}
    (hnone : view (a, i) = none) :
    IndexesAll (Function.update view (a, i) (some v)) key e
      (if key v = e then index else index.put ((a, key v), i) ()) := by
  intro b k j
  rw [carries_update_some]
  by_cases hkey : key v = e
  · rw [if_pos hkey, h b k j]
    exact carries_update_some_of_ne hnone fun hk _ hvk => hk (hvk.symm.trans hkey)
  · rw [if_neg hkey, OrdMap.get_put]
    split
    · next heq =>
        simp only [Prod.mk.injEq] at heq
        obtain ⟨⟨rfl, rfl⟩, rfl⟩ := heq
        simp [hkey]
    · next hne =>
        rw [h b k j]
        refine carries_update_some_of_ne hnone fun _ hji hvk => hne ?_
        obtain ⟨rfl, rfl⟩ := Prod.mk.inj hji
        rw [hvk]

end IndexesAll

/-! ### Leading to one of several records -/

/-- A key leads only to a record that carries it. Keys that are not `named` lead
nowhere. -/
def IndexSound (view : A × I → Option V) (key : V → K) (named : K → Prop)
    (ids : OrdMap (A × K) I) : Prop :=
  ∀ a k i, ids.get (a, k) = some i → named k ∧ Carries view key a k i

/-- Every named key that is carried leads somewhere. -/
def IndexComplete (view : A × I → Option V) (key : V → K) (named : K → Prop)
    (ids : OrdMap (A × K) I) : Prop :=
  ∀ a k i, named k → Carries view key a k i → ∃ j, ids.get (a, k) = some j

section Some

variable {view view' : A × I → Option V} {key : V → K} {named : K → Prop}
  {ids ids' : OrdMap (A × K) I} {a b : A} {i j : I} {k : K} {v : V}

/-- Show a record and let its key lead to it. The record that was seen before under
the same id leaves nothing behind only if its key led elsewhere. -/
theorem IndexSound.put_iff (h : IndexSound view key named ids) (hv : named (key v)) :
    IndexSound (Function.update view (a, i) (some v)) key named (ids.put (a, key v) i) ↔
      ∀ old, view (a, i) = some old → key old ≠ key v → ids.get (a, key old) ≠ some i := by
  constructor
  · intro hnew old hold hne hget
    have hkey : (a, key old) ≠ (a, key v) := fun heq => hne (Prod.mk.inj heq).2
    obtain ⟨-, w, hw, hwk⟩ := hnew a (key old) i (by rw [OrdMap.get_put_of_ne _ hkey, hget])
    rw [Function.update_self] at hw
    rw [← hwk, Option.some.inj hw] at hne
    exact hne rfl
  · intro hleft b k j hget
    rw [OrdMap.get_put] at hget
    split at hget
    · next heq =>
        obtain ⟨rfl, rfl⟩ := Prod.mk.inj heq
        rw [← Option.some.inj hget]
        exact ⟨hv, v, Function.update_self .., rfl⟩
    · next hne =>
        obtain ⟨hk, old, hold, rfl⟩ := h b k j hget
        have hother : (b, j) ≠ (a, i) := by
          rintro heq
          obtain ⟨rfl, rfl⟩ := Prod.mk.inj heq
          exact hleft old hold (fun heq => hne (by rw [heq])) hget
        exact ⟨hk, old, by rw [Function.update_of_ne hother]; exact hold, rfl⟩

theorem IndexComplete.put (h : IndexComplete view key named ids) :
    IndexComplete (Function.update view (a, i) (some v)) key named (ids.put (a, key v) i) := by
  intro b k j hk hcarries
  rw [OrdMap.get_put]
  split
  · exact ⟨i, rfl⟩
  · next hne =>
      rcases carries_update_some.mp hcarries with ⟨heq, hkey⟩ | ⟨-, hc⟩
      · rw [(Prod.mk.inj heq).1, hkey] at hne
        exact absurd rfl hne
      · exact h b k j hk hc

/-- Delete the key of the record that was seen under an id, unless the new record has
the same key; then let the new key lead to the id. -/
def replaceKey (named : K → Prop) [DecidablePred named] (ids : OrdMap (A × K) I) (a : A) (i : I)
    (old : Option K) (new : K) : OrdMap (A × K) I :=
  let kept := old.elim ids fun k => if named k ∧ k ≠ new then ids.delete (a, k) else ids
  if named new then kept.put (a, new) i else kept

section Replace

variable [DecidablePred named] {old : Option K} {new : K}

theorem get_replaceKey_new (h : named new) :
    (replaceKey named ids a i old new).get (a, new) = some i := by
  rw [replaceKey, if_pos h, OrdMap.get_put_self]

/-- A key that is given up leads nowhere, whoever else carries it. -/
theorem get_replaceKey_old (hold : old = some k) (h : named k) (hne : k ≠ new) :
    (replaceKey named ids a i old new).get (a, k) = none := by
  have hkey : (a, k) ≠ (a, new) := fun heq => hne (Prod.mk.inj heq).2
  have hkept : (old.elim ids fun k => if named k ∧ k ≠ new then ids.delete (a, k) else ids).get
      (a, k) = none := by
    rw [hold, Option.elim_some, if_pos ⟨h, hne⟩, OrdMap.get_delete_self]
  rw [replaceKey]
  split
  · rw [OrdMap.get_put_of_ne _ hkey, hkept]
  · exact hkept

theorem get_replaceKey_other (hnew : named new → (b, k) ≠ (a, new))
    (hold : ∀ o, old = some o → named o → o ≠ new → (b, k) ≠ (a, o)) :
    (replaceKey named ids a i old new).get (b, k) = ids.get (b, k) := by
  have hkept : (old.elim ids fun k => if named k ∧ k ≠ new then ids.delete (a, k) else ids).get
      (b, k) = ids.get (b, k) := by
    cases old with
    | none => rfl
    | some o =>
      rw [Option.elim_some]
      split
      · next h => exact OrdMap.get_delete_of_ne _ (hold o rfl h.1 h.2)
      · rfl
  rw [replaceKey]
  split
  · next h => rw [OrdMap.get_put_of_ne _ (hnew h), hkept]
  · exact hkept

theorem IndexSound.replace (h : IndexSound view key named ids) :
    IndexSound (Function.update view (a, i) (some v)) key named
      (replaceKey named ids a i ((view (a, i)).map key) (key v)) := by
  intro b k j hget
  by_cases hnew : named (key v) ∧ (b, k) = (a, key v)
  · obtain ⟨hnamed, heq⟩ := hnew
    obtain ⟨rfl, rfl⟩ := Prod.mk.inj heq
    rw [get_replaceKey_new hnamed] at hget
    rw [← Option.some.inj hget]
    exact ⟨hnamed, v, Function.update_self .., rfl⟩
  · by_cases hold : ∃ o, view (a, i) = some o ∧ named (key o) ∧ key o ≠ key v ∧ (b, k) = (a, key o)
    · obtain ⟨o, ho, hnamed, hne, heq⟩ := hold
      obtain ⟨rfl, rfl⟩ := Prod.mk.inj heq
      rw [get_replaceKey_old (by rw [ho, Option.map_some]) hnamed hne] at hget
      cases hget
    · have hsame : ids.get (b, k) = some j := by
        rw [← hget]
        refine (get_replaceKey_other (fun hnamed heq => hnew ⟨hnamed, heq⟩) ?_).symm
        rintro o ho hnamed hne heq
        obtain ⟨w, hw, rfl⟩ := Option.map_eq_some_iff.mp ho
        exact hold ⟨w, hw, hnamed, hne, heq⟩
      obtain ⟨hk, w, hw, rfl⟩ := h b k j hsame
      -- the record under the id itself has given up its key
      have hother : (b, j) ≠ (a, i) := by
        rintro heq
        obtain ⟨rfl, rfl⟩ := Prod.mk.inj heq
        by_cases hne : key w = key v
        · exact hnew ⟨hne ▸ hk, by rw [hne]⟩
        · exact hold ⟨w, hw, hk, hne, rfl⟩
      exact ⟨hk, w, by rw [Function.update_of_ne hother]; exact hw, rfl⟩

/-- The index stays complete exactly if nobody else carries the key that is given up. -/
theorem IndexComplete.replace_iff (h : IndexComplete view key named ids) :
    IndexComplete (Function.update view (a, i) (some v)) key named
        (replaceKey named ids a i ((view (a, i)).map key) (key v)) ↔
      ∀ old, view (a, i) = some old → named (key old) → key old ≠ key v →
        ∀ j, Carries view key a (key old) j → j = i := by
  constructor
  · intro hnew old hold hnamed hne j hcarries
    by_contra hji
    have hother : (a, j) ≠ (a, i) := fun heq => hji (Prod.mk.inj heq).2
    obtain ⟨j', hj'⟩ := hnew a (key old) j hnamed (carries_update_some.mpr (.inr ⟨hother, hcarries⟩))
    rw [get_replaceKey_old (by rw [hold, Option.map_some]) hnamed hne] at hj'
    cases hj'
  · intro hleft b k j hk hcarries
    by_cases hnew : named (key v) ∧ (b, k) = (a, key v)
    · obtain ⟨hnamed, heq⟩ := hnew
      rw [heq]
      exact ⟨i, get_replaceKey_new hnamed⟩
    · rcases carries_update_some.mp hcarries with ⟨heq, rfl⟩ | ⟨hother, hc⟩
      · exact absurd ⟨hk, by rw [(Prod.mk.inj heq).1]⟩ hnew
      · rw [get_replaceKey_other fun hnamed heq => hnew ⟨hnamed, heq⟩]
        · exact h b k j hk hc
        · rintro o ho hnamed hne heq
          obtain ⟨rfl, rfl⟩ := Prod.mk.inj heq
          obtain ⟨w, hw, rfl⟩ := Option.map_eq_some_iff.mp ho
          exact hother (by rw [hleft w hw hnamed hne j hc])

end Replace

/-- Forget a key if it leads to the record that is taken away. -/
def forgetKey (ids : OrdMap (A × K) I) (a : A) (k : K) (i : I) : OrdMap (A × K) I :=
  if ids.get (a, k) = some i then ids.delete (a, k) else ids

/-- What is left leads to the other records. -/
theorem IndexSound.get_forgetKey (h : IndexSound view key named ids)
    (hv : view (a, i) = some v) :
    (forgetKey ids a (key v) i).get (b, k) = some j ↔
      ids.get (b, k) = some j ∧ (b, j) ≠ (a, i) := by
  have hkeyed : ids.get (b, k) = some j → (b, j) = (a, i) → (b, k) = (a, key v) := by
    intro hget heq
    rw [(h b k j hget).2.key_eq hv heq, (Prod.mk.inj heq).1]
  rw [forgetKey]
  split
  · next hleads =>
      rw [OrdMap.get_delete]
      split
      · next heq =>
          obtain ⟨rfl, rfl⟩ := Prod.mk.inj heq
          refine ⟨fun hget => (by cases hget), ?_⟩
          rintro ⟨hget, hne⟩
          cases hleads.symm.trans hget
          exact absurd rfl hne
      · next hne => exact ⟨fun hget => ⟨hget, fun heq => hne (hkeyed hget heq)⟩, fun hget => hget.1⟩
  · next hnot =>
      refine ⟨fun hget => ⟨hget, fun heq => hnot ?_⟩, fun hget => hget.1⟩
      rw [← hkeyed hget heq, hget, (Prod.mk.inj heq).2]

theorem IndexSound.hide {hidden : A × I → Prop} (h : IndexSound view key named ids)
    (hseen : ∀ x, ¬ hidden x → view' x = view x)
    (hids : ∀ b k j, ids'.get (b, k) = some j → ids.get (b, k) = some j ∧ ¬ hidden (b, j)) :
    IndexSound view' key named ids' := by
  intro b k j hget
  obtain ⟨hget, hj⟩ := hids b k j hget
  obtain ⟨hk, v, hv, hkey⟩ := h b k j hget
  exact ⟨hk, v, by rw [hseen _ hj, hv], hkey⟩

/-- Records are taken away, and their keys are forgotten where they led to them. The
index stays complete exactly if a key that led to a record taken away is carried by no
record that is left. -/
theorem IndexComplete.hide_iff {hidden : A × I → Prop} (h : IndexComplete view key named ids)
    (hhidden : ∀ x, hidden x → view' x = none) (hseen : ∀ x, ¬ hidden x → view' x = view x)
    (hids : ∀ b k j, ids'.get (b, k) = some j ↔ ids.get (b, k) = some j ∧ ¬ hidden (b, j)) :
    IndexComplete view' key named ids' ↔
      ∀ b k i, named k → ids.get (b, k) = some i → hidden (b, i) →
        ∀ j, Carries view key b k j → hidden (b, j) := by
  have hcarries : ∀ b k j, Carries view' key b k j ↔ Carries view key b k j ∧ ¬ hidden (b, j) := by
    intro b k j
    by_cases hj : hidden (b, j)
    · simp [Carries, hhidden _ hj, hj]
    · simp [Carries, hseen _ hj, hj]
  constructor
  · intro hnew b k i hk hget hi j hc
    by_contra hj
    obtain ⟨j', hj'⟩ := hnew b k j hk ((hcarries b k j).mpr ⟨hc, hj⟩)
    obtain ⟨hget', hleft⟩ := (hids b k j').mp hj'
    cases hget.symm.trans hget'
    exact hleft hi
  · intro hall b k j hk hc
    obtain ⟨hc, hj⟩ := (hcarries b k j).mp hc
    obtain ⟨j', hj'⟩ := h b k j hk hc
    refine ⟨j', (hids b k j').mpr ⟨hj', fun hhidden => hj ?_⟩⟩
    exact hall b k j' hk hj' hhidden j hc

end Some

end Exchanges.Lib
