import Mathlib

/-!
Finite maps with ordered keys: lookup, update, and enumeration by row.

`Std.ExtTreeMap` has the extensional map and its lemmas. This module puts a
small interface over it and proves what the developments above it use: keys
are compared for equality rather than through `compare`, maps with the same
lookups are equal, and a map of maps is one map with pairs for keys. A *row*
lists what is stored under one first component, in the order of the second.
Nothing distinguishes a missing inner map from an empty one, which is why the
flattened form loses nothing.
-/

namespace Exchanges.Lib

open Std

/-- Pairs are ordered by their first component and then by their second. -/
instance instOrdProdLex {α β : Type} [Ord α] [Ord β] : Ord (α × β) := lexOrd

/-- Comparing through an injective key compares for equality. -/
theorem lawfulEqCmp_compareOn {α β : Type} [Ord β] [LawfulEqOrd β] {f : α → β}
    (hf : Function.Injective f) : LawfulEqCmp (compareOn f) where
  compare_self := ReflCmp.compare_self
  eq_of_compare h := hf (LawfulEqOrd.eq_of_compare h)

/-- A finite map with keys ordered by their `compare`. -/
structure OrdMap (K V : Type) [Ord K] where
  tree : ExtTreeMap K V compare

namespace OrdMap

section Operations

variable {K V : Type} [Ord K] [TransOrd K]

instance : EmptyCollection (OrdMap K V) := ⟨⟨∅⟩⟩

instance : Inhabited (OrdMap K V) := ⟨∅⟩

/-- The value stored under a key. -/
def get (m : OrdMap K V) (k : K) : Option V := m.tree[k]?

/-- Store a value under a key, replacing what was there. -/
def put (m : OrdMap K V) (k : K) (v : V) : OrdMap K V := ⟨m.tree.insert k v⟩

/-- Forget what is stored under a key. -/
def delete (m : OrdMap K V) (k : K) : OrdMap K V := ⟨m.tree.erase k⟩

/-- Everything stored, in the order of the keys. -/
def entries (m : OrdMap K V) : List (K × V) := m.tree.toList

@[simp] theorem get_empty (k : K) : (∅ : OrdMap K V).get k = none := by
  change (∅ : ExtTreeMap K V compare)[k]? = none
  simp

variable [LawfulEqOrd K]

theorem get_put [DecidableEq K] (m : OrdMap K V) (k a : K) (v : V) :
    (m.put k v).get a = if a = k then some v else m.get a := by
  simp only [get, put, ExtTreeMap.getElem?_insert, LawfulEqCmp.compare_eq_iff_eq]
  by_cases h : a = k
  · simp [h]
  · simp [h, Ne.symm h]

theorem get_delete [DecidableEq K] (m : OrdMap K V) (k a : K) :
    (m.delete k).get a = if a = k then none else m.get a := by
  simp only [get, delete, ExtTreeMap.getElem?_erase, LawfulEqCmp.compare_eq_iff_eq]
  by_cases h : a = k
  · simp [h]
  · simp [h, Ne.symm h]

@[simp] theorem get_put_self (m : OrdMap K V) (k : K) (v : V) :
    (m.put k v).get k = some v := by
  classical
  rw [get_put, if_pos rfl]

theorem get_put_of_ne (m : OrdMap K V) {k a : K} (h : a ≠ k) (v : V) :
    (m.put k v).get a = m.get a := by
  classical
  rw [get_put, if_neg h]

@[simp] theorem get_delete_self (m : OrdMap K V) (k : K) : (m.delete k).get k = none := by
  classical
  rw [get_delete, if_pos rfl]

theorem get_delete_of_ne (m : OrdMap K V) {k a : K} (h : a ≠ k) :
    (m.delete k).get a = m.get a := by
  classical
  rw [get_delete, if_neg h]

theorem get_of_get_delete {m : OrdMap K V} {k a : K} {v : V} (h : (m.delete k).get a = some v) :
    m.get a = some v := by
  classical
  rw [get_delete] at h
  split at h
  · cases h
  · exact h

/-- Maps with the same lookups are the same map. -/
theorem ext_get {m m' : OrdMap K V} (h : ∀ k, m.get k = m'.get k) : m = m' := by
  obtain ⟨t⟩ := m
  obtain ⟨t'⟩ := m'
  congr
  exact ExtTreeMap.ext_getElem? h

/-- A map after an optional update. -/
theorem get_elim_put [DecidableEq K] (m : OrdMap K V) (data : Option V) (key : V → K) (k : K) :
    (data.elim m fun v => m.put (key v) v).get k =
      (data.filter fun v => key v = k).or (m.get k) := by
  cases data with
  | none => rfl
  | some v =>
    rw [Option.elim_some, get_put, Option.filter_some]
    by_cases h : key v = k
    · simp [h]
    · simp [h, Ne.symm h]

variable {k : K} {m : OrdMap K V}

/-- Writing back what is already there changes nothing. -/
theorem put_eq_self {v : V} (h : m.get k = some v) :
    m.put k v = m := by
  classical
  apply ext_get
  intro a
  rw [get_put]
  split
  · next hak => rw [hak, h]
  · rfl

/-- Neither does forgetting it first. -/
theorem put_comm (m : OrdMap K V) {k k' : K} (h : k ≠ k') (v v' : V) :
    (m.put k v).put k' v' = (m.put k' v').put k v := by
  classical
  apply ext_get
  intro a
  simp only [get_put]
  split_ifs with h1 h2
  · exact absurd (h2.symm.trans h1) h
  · rfl
  · rfl
  · rfl

theorem put_delete_eq_self {v : V} (h : m.get k = some v) :
    (m.delete k).put k v = m := by
  apply ext_get
  intro a
  by_cases ha : a = k
  · rw [ha, get_put_self, h]
  · rw [get_put_of_ne _ ha, get_delete_of_ne _ ha]

theorem get_foldl_delete [DecidableEq K] (ks : List K) (m : OrdMap K V) (k : K) :
    (ks.foldl delete m).get k = if k ∈ ks then none else m.get k := by
  induction ks generalizing m with
  | nil => simp
  | cons k' ks ih =>
    rw [List.foldl_cons, ih, get_delete]
    by_cases hmem : k ∈ ks
    · simp [hmem]
    · simp [hmem]

/-! ### Writing a list -/

theorem mem_entries {v : V} :
    (k, v) ∈ m.entries ↔ m.get k = some v :=
  ExtTreeMap.mem_toList_iff_getElem?_eq_some

omit [LawfulEqOrd K] in
theorem entries_pairwise (m : OrdMap K V) :
    m.entries.Pairwise fun e e' => compare e.1 e'.1 = .lt :=
  ExtTreeMap.ordered_keys_toList

theorem entries_nodup (m : OrdMap K V) : m.entries.Nodup :=
  m.entries_pairwise.imp fun hlt heq => by
    rw [heq] at hlt
    simp at hlt

/-- A new key adds its entry. -/
theorem entries_put_perm [DecidableEq K] (hnew : m.get k = none)
    (v : V) : (m.put k v).entries.Perm ((k, v) :: m.entries) := by
  have hfresh : (k, v) ∉ m.entries := by
    rw [mem_entries, hnew]
    simp
  rw [List.perm_ext_iff_of_nodup (entries_nodup _)
    (List.nodup_cons.mpr ⟨hfresh, entries_nodup m⟩)]
  rintro ⟨k', v'⟩
  rw [mem_entries, get_put, List.mem_cons, mem_entries, Prod.mk.injEq]
  by_cases hk : k' = k
  · simp [hk, hnew, eq_comm]
  · simp [hk]

end Operations

section Rows

variable {A K V : Type} [Ord A] [TransOrd A] [LawfulEqOrd A] [DecidableEq A]
  [Ord K] [TransOrd K] [LawfulEqOrd K]

/-- The entries stored under first component `a`. -/
def rowEntries (m : OrdMap (A × K) V) (a : A) : List ((A × K) × V) :=
  m.entries.filter fun e => decide (e.1.1 = a)

/-- The values stored under first component `a`, in the order of the second. -/
def row (m : OrdMap (A × K) V) (a : A) : List V :=
  (m.rowEntries a).map Prod.snd

/-- The second components stored under first component `a`. -/
def rowKeys (m : OrdMap (A × K) V) (a : A) : List K :=
  (m.rowEntries a).map fun e => e.1.2

/-- Forget everything stored under first component `a`. -/
def deleteRow (m : OrdMap (A × K) V) (a : A) : OrdMap (A × K) V :=
  ⟨m.tree.filter fun k _ => decide (k.1 ≠ a)⟩

theorem get_deleteRow (m : OrdMap (A × K) V) (a b : A) (k : K) :
    (m.deleteRow a).get (b, k) = if b = a then none else m.get (b, k) := by
  simp only [get, deleteRow, ExtTreeMap.getElem?_filter']
  by_cases h : b = a
  · cases m.tree[(b, k)]? <;> simp [h, Option.filter]
  · cases m.tree[(b, k)]? <;> simp [h, Option.filter]

variable {a : A} {m : OrdMap (A × K) V}

theorem mem_rowEntries {e : (A × K) × V} :
    e ∈ m.rowEntries a ↔ e.1.1 = a ∧ m.get e.1 = some e.2 := by
  simp only [rowEntries, List.mem_filter, decide_eq_true_eq]
  rw [show e = (e.1, e.2) from rfl, mem_entries]
  exact and_comm

theorem mem_row {v : V} :
    v ∈ m.row a ↔ ∃ k, m.get (a, k) = some v := by
  simp only [row, List.mem_map, mem_rowEntries]
  constructor
  · rintro ⟨⟨⟨b, k⟩, w⟩, ⟨rfl, hget⟩, rfl⟩
    exact ⟨k, hget⟩
  · rintro ⟨k, hget⟩
    exact ⟨((a, k), v), ⟨rfl, hget⟩, rfl⟩

theorem deleteRow_eq_self (h : m.row a = []) :
    m.deleteRow a = m := by
  apply ext_get
  rintro ⟨b, k⟩
  rw [get_deleteRow]
  split
  · next hb =>
      cases hget : m.get (b, k) with
      | none => rfl
      | some v =>
        have hmem : v ∈ m.row a := mem_row.mpr ⟨k, hb ▸ hget⟩
        rw [h] at hmem
        cases hmem
  · rfl

theorem mem_rowKeys {k : K} :
    k ∈ m.rowKeys a ↔ ∃ v, m.get (a, k) = some v := by
  simp only [rowKeys, List.mem_map, mem_rowEntries]
  constructor
  · rintro ⟨⟨⟨b, k'⟩, w⟩, ⟨rfl, hget⟩, rfl⟩
    exact ⟨w, hget⟩
  · rintro ⟨v, hget⟩
    exact ⟨((a, k), v), ⟨rfl, hget⟩, rfl⟩

/-- A row is strictly increasing in its second components. -/
theorem rowEntries_pairwise (m : OrdMap (A × K) V) (a : A) :
    (m.rowEntries a).Pairwise fun e e' => compare e.1.2 e'.1.2 = .lt := by
  have hfilter := m.entries_pairwise.filter (fun e => decide (e.1.1 = a))
  refine hfilter.imp_of_mem ?_
  intro e e' he he' hlt
  have ha : e.1.1 = a := (mem_rowEntries.mp he).1
  have ha' : e'.1.1 = a := (mem_rowEntries.mp he').1
  -- equal first components leave the lexicographic comparison to the second
  have hfirst : compare e.1.1 e'.1.1 = .eq := by
    rw [ha, ha', LawfulEqCmp.compare_eq_iff_eq]
  have hlex : compare e.1 e'.1 = (compare e.1.1 e'.1.1).then (compare e.1.2 e'.1.2) := rfl
  rwa [hlex, hfirst] at hlt

/-- Two rows with the same lookups hold the same entries. -/
theorem rowEntries_congr {m m' : OrdMap (A × K) V}
    (h : ∀ k, m.get (a, k) = m'.get (a, k)) : m.rowEntries a = m'.rowEntries a := by
  -- both lists are strictly increasing, so equal membership makes them equal
  let lt : (A × K) × V → (A × K) × V → Prop := fun e e' => compare e.1.2 e'.1.2 = .lt
  have hirrefl : Std.Irrefl lt := ⟨fun e he => by simp [lt] at he⟩
  have hantisymm : Std.Antisymm lt :=
    ⟨fun e e' hlt hgt => absurd hgt (OrientedCmp.not_lt_of_lt hlt)⟩
  apply List.Pairwise.eq_of_mem_iff (m.rowEntries_pairwise a) (m'.rowEntries_pairwise a)
  intro e
  obtain ⟨⟨b, k⟩, v⟩ := e
  simp only [mem_rowEntries]
  constructor
  · rintro ⟨rfl, hget⟩
    exact ⟨rfl, by rw [← h, hget]⟩
  · rintro ⟨rfl, hget⟩
    exact ⟨rfl, by rw [h, hget]⟩

theorem row_congr {m m' : OrdMap (A × K) V}
    (h : ∀ k, m.get (a, k) = m'.get (a, k)) : m.row a = m'.row a := by
  rw [row, row, rowEntries_congr h]

theorem row_deleteRow_self (m : OrdMap (A × K) V) (a : A) : (m.deleteRow a).row a = [] := by
  refine List.eq_nil_iff_forall_not_mem.mpr fun v hv => ?_
  obtain ⟨k, hk⟩ := mem_row.mp hv
  rw [get_deleteRow, if_pos rfl] at hk
  cases hk

theorem rowEntries_nodup (m : OrdMap (A × K) V) (a : A) : (m.rowEntries a).Nodup :=
  (m.rowEntries_pairwise a).imp fun hlt heq => by
    rw [heq] at hlt
    simp at hlt

/-- A new key adds its value to the row. -/
theorem row_put_perm [DecidableEq K] {k : K}
    (hnew : m.get (a, k) = none) (v : V) : ((m.put (a, k) v).row a).Perm (v :: m.row a) := by
  have hfresh : ((a, k), v) ∉ m.rowEntries a := by
    intro hmem
    have hget := (mem_rowEntries.mp hmem).2
    simp [hnew] at hget
  have hperm : ((m.put (a, k) v).rowEntries a).Perm (((a, k), v) :: m.rowEntries a) := by
    rw [List.perm_ext_iff_of_nodup (rowEntries_nodup _ a)
      (List.nodup_cons.mpr ⟨hfresh, rowEntries_nodup m a⟩)]
    intro e
    obtain ⟨⟨b, j⟩, w⟩ := e
    simp only [mem_rowEntries, List.mem_cons, get_put, Prod.mk.injEq]
    by_cases hb : b = a
    · by_cases hj : j = k
      · simp [hb, hj, hnew, eq_comm]
      · simp [hb, hj]
    · simp [hb]
  exact hperm.map Prod.snd

theorem rowKeys_pairwise (m : OrdMap (A × K) V) (a : A) :
    (m.rowKeys a).Pairwise fun k k' => compare k k' = .lt := by
  rw [rowKeys, List.pairwise_map]
  exact m.rowEntries_pairwise a

end Rows

end OrdMap

end Exchanges.Lib
