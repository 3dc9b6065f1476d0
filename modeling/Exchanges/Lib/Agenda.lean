import Mathlib.Data.Finset.Basic
import Mathlib.Data.Prod.Lex
import Mathlib.Order.WellFounded
import Mathlib.Tactic

/-!
A loop that serves the earliest entry of an agenda.

An agenda has at most one time for each name. The loop serves the earliest entry,
and among those of one time the one with the smallest name. Whoever is served may
cancel entries and put entries in, but only for later times. Since times are
integers this cannot go on for ever before a deadline: finitely many entries
share the present time, and their number falls until the time moves on.
-/

namespace Exchanges.Lib

variable {σ N : Type} [LinearOrder N] {next : σ → N → Option ℤ} {deadline : ℤ} {s s' : σ}

/-- The entry of `n` at `t` is served, which leads from `s` to `s'`. -/
structure Serves (next : σ → N → Option ℤ) (s : σ) (t : ℤ) (n : N) (s' : σ) : Prop where
  entry : next s n = some t
  earliest : ∀ m u, next s m = some u → toLex (t, n) ≤ toLex (u, m)
  /-- What is on the agenda now was there before, or is later. -/
  after : ∀ m u, next s' m = some u → (next s m = some u ∧ (u, m) ≠ (t, n)) ∨ t < u

/-- Every entry comes after `key`. -/
def Beyond (next : σ → N → Option ℤ) (key : ℤ ×ₗ N) (s : σ) : Prop :=
  ∀ m u, next s m = some u → key < toLex (u, m)

section Serves

variable {t : ℤ} {n : N}

theorem Serves.le_after (h : Serves next s t n s') {m : N} {u : ℤ} (hm : next s' m = some u) :
    t ≤ u := by
  obtain ⟨hold, -⟩ | hlater := h.after m u hm
  · exact Prod.Lex.monotone_fst _ _ (h.earliest m u hold)
  · exact hlater.le

/-- What is served next comes after what was served. -/
theorem Serves.beyond (h : Serves next s t n s') : Beyond next (toLex (t, n)) s' := by
  intro m u hm
  obtain ⟨hold, hne⟩ | hlater := h.after m u hm
  · refine lt_of_le_of_ne (h.earliest m u hold) fun heq => hne ?_
    exact (toLex.injective heq).symm
  · exact Prod.Lex.toLex_lt_toLex.mpr (.inl hlater)

theorem Serves.keeps_beyond (h : Serves next s t n s') {key : ℤ ×ₗ N} (hs : Beyond next key s) :
    key < toLex (t, n) ∧ Beyond next key s' :=
  ⟨hs n t h.entry, fun m u hm => (hs n t h.entry).trans (h.beyond m u hm)⟩

end Serves

/-! ### Serving comes to an end -/

/-- Some entry that is due is served. -/
def ServesDue (next : σ → N → Option ℤ) (deadline : ℤ) (s' s : σ) : Prop :=
  ∃ t n, t ≤ deadline ∧ Serves next s t n s'

/-- From a state in which no entry is `d` or more before the deadline, serving
comes to an end. -/
theorem acc_servesDue (hfinite : ∀ s : σ, {m | (next s m).isSome}.Finite) (d : ℕ) :
    ∀ s : σ, (∀ m u, next s m = some u → deadline < u + d) →
      Acc (ServesDue next deadline) s := by
  induction d with
  | zero =>
    intro s hs
    refine ⟨s, fun s' hserve => ?_⟩
    obtain ⟨t, n, hdue, hserve⟩ := hserve
    have hlate := hs n t hserve.entry
    push_cast at hlate
    omega
  | succ d ih =>
    intro s hs
    -- the names that may have an entry at the earliest possible time
    have hinner : ∀ (F : Finset N) (s : σ), (∀ m u, next s m = some u → deadline < u + (d + 1)) →
        (∀ m, next s m = some (deadline - d) → m ∈ F) → Acc (ServesDue next deadline) s := by
      intro F
      induction F using Finset.strongInduction with
      | H F ihF =>
        intro s hs hF
        refine ⟨s, fun s' hserve => ?_⟩
        obtain ⟨t, n, hdue, hserve⟩ := hserve
        have ht := hs n t hserve.entry
        by_cases hnow : t = deadline - d
        · subst hnow
          have hn : n ∈ F := hF n hserve.entry
          refine ihF (F.erase n) (Finset.erase_ssubset hn) s' (fun m u hm => ?_)
            fun m hm => ?_
          · have := hserve.le_after hm
            omega
          · obtain ⟨hold, hne⟩ | hlater := hserve.after m _ hm
            · refine Finset.mem_erase.mpr ⟨fun heq => hne (by rw [heq]), hF m hold⟩
            · exact absurd hlater (lt_irrefl _)
        · refine ih s' fun m u hm => ?_
          have := hserve.le_after hm
          omega
    refine hinner (hfinite s).toFinset s (by exact_mod_cast hs) fun m hm => ?_
    simp [hm]

/-- Entries that are due are not served for ever. -/
theorem wellFounded_servesDue (hfinite : ∀ s : σ, {m | (next s m).isSome}.Finite) :
    WellFounded (ServesDue next deadline) := by
  refine ⟨fun s => ?_⟩
  -- finitely many entries have an earliest one
  obtain ⟨b, hb⟩ := ((hfinite s).image fun m => (next s m).getD 0).bddBelow
  refine acc_servesDue hfinite (deadline - b + 1).toNat s fun m u hm => ?_
  have hle : b ≤ u := hb ⟨m, by simp [hm], by simp [hm]⟩
  omega

/-! ### Regular times -/

/-- The times from `start` on, at regular intervals, up to and including the
deadline. -/
def upTo (start interval deadline : ℤ) : List ℤ :=
  (List.range ((deadline - start) / interval + 1).toNat).map fun i : ℕ => start + i * interval

theorem upTo_of_lt {start interval deadline : ℤ} (hpos : 0 < interval) (h : deadline < start) :
    upTo start interval deadline = [] := by
  have hneg : (deadline - start) / interval < 0 := Int.ediv_neg_of_neg_of_pos (by omega) hpos
  have hzero : ((deadline - start) / interval + 1).toNat = 0 := by omega
  rw [upTo, hzero, List.range_zero, List.map_nil]

theorem upTo_of_le {start interval deadline : ℤ} (hpos : 0 < interval) (h : start ≤ deadline) :
    upTo start interval deadline = start :: upTo (start + interval) interval deadline := by
  have hnonneg : 0 ≤ (deadline - start) / interval := Int.ediv_nonneg (by omega) hpos.le
  have hshift : (deadline - (start + interval)) / interval = (deadline - start) / interval - 1 := by
    have hsplit : deadline - (start + interval) = deadline - start + (-1) * interval := by ring
    rw [hsplit, Int.add_mul_ediv_right _ _ hpos.ne']
    ring
  have hcount : ((deadline - start) / interval + 1).toNat =
      ((deadline - (start + interval)) / interval + 1).toNat + 1 := by
    rw [hshift]
    omega
  rw [upTo, hcount, List.range_succ_eq_map, List.map_cons, List.map_map, upTo]
  congr 1
  · simp
  · refine List.map_congr_left fun i _ => ?_
    simp only [Function.comp_apply, Nat.succ_eq_add_one]
    push_cast
    ring

end Exchanges.Lib
