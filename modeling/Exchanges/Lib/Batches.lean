import Mathlib.Data.List.SplitBy
import Mathlib.Order.Defs.LinearOrder
import Mathlib.Tactic

/-!
Batches of a list: the longest stretches of elements with one key.

A machine that collects elements as long as the key stays the same, and starts
anew when it changes, goes through the batches of its input. If the keys never
decrease, every key has one batch at most, with all elements of that key.
-/

namespace Exchanges.Lib

variable {α β : Type} [LinearOrder β] {key : α → β} {l g : List α}

/-- Cut a list where the key changes. -/
def batches (key : α → β) (l : List α) : List (List α) :=
  l.splitBy fun a b => decide (key a = key b)

theorem flatten_batches (key : α → β) (l : List α) : (batches key l).flatten = l :=
  List.flatten_splitBy _ l

theorem mem_of_mem_batches (hg : g ∈ batches key l) {a : α} (ha : a ∈ g) : a ∈ l := by
  rw [← flatten_batches key l]
  exact List.mem_flatten.mpr ⟨g, hg, ha⟩

/-- A list with one key is one batch. -/
theorem batches_of_const {k : β} (hl : l ≠ []) (hkey : ∀ a ∈ l, key a = k) :
    batches key l = [l] := by
  refine List.splitBy_of_isChain hl (List.Pairwise.isChain ?_)
  refine List.pairwise_of_forall_mem_list fun a ha b hb => ?_
  rw [decide_eq_true_eq, hkey a ha, hkey b hb]

/-- An element with another key starts a new batch. -/
theorem batches_append_cons {k : β} {a : α} (m : List α) (hl : l ≠ [])
    (hkey : ∀ b ∈ l, key b = k) (ha : key a ≠ k) :
    batches key (l ++ a :: m) = l :: batches key (a :: m) := by
  have hcut : ∀ b ∈ l.getLast?, decide (key b = key a) = false := by
    intro b hb
    rw [decide_eq_false_iff_not, hkey b (List.mem_of_mem_getLast? hb)]
    exact ha.symm
  have happend : batches key (l ++ a :: m) = batches key l ++ batches key (a :: m) :=
    List.splitBy_append_cons m hcut
  rw [happend, batches_of_const hl hkey, List.singleton_append]

theorem key_eq_of_mem_batches (hg : g ∈ batches key l) {a b : α} (ha : a ∈ g) (hb : b ∈ g) :
    key a = key b := by
  have hchain := List.isChain_of_mem_splitBy hg
  simp only [decide_eq_true_eq] at hchain
  have : IsTrans α fun a b => key a = key b := ⟨fun _ _ _ => Eq.trans⟩
  have hpairwise := List.isChain_iff_pairwise.mp hchain
  have : Std.Symm fun a b => key a = key b := ⟨fun _ _ => Eq.symm⟩
  by_cases hne : a = b
  · rw [hne]
  · exact hpairwise.forall ha hb hne

/-! ### One result for each batch -/

section Results

variable {γ δ : Type} {R : γ → δ → Prop} {l : List γ} {l' : List δ}

theorem exists_right_of_forall₂ (h : List.Forall₂ R l l') : ∀ c ∈ l, ∃ d ∈ l', R c d := by
  induction h with
  | nil => simp
  | cons hr _ ih =>
    refine List.forall_mem_cons.mpr ⟨⟨_, List.mem_cons_self, hr⟩, fun c hc => ?_⟩
    obtain ⟨d, hd, hcd⟩ := ih c hc
    exact ⟨d, List.mem_cons_of_mem _ hd, hcd⟩

theorem exists_left_of_forall₂ (h : List.Forall₂ R l l') : ∀ d ∈ l', ∃ c ∈ l, R c d :=
  exists_right_of_forall₂ (List.Forall₂.flip (R := flip R) h)

theorem pairwise_of_forall₂ {S : γ → γ → Prop} {T : δ → δ → Prop} (h : List.Forall₂ R l l')
    (himp : ∀ {c c' d d'}, R c d → R c' d' → S c c' → T d d') (hl : l.Pairwise S) :
    l'.Pairwise T := by
  induction h with
  | nil => exact .nil
  | cons hr hrest ih =>
    obtain ⟨hfirst, hl⟩ := List.pairwise_cons.mp hl
    refine List.pairwise_cons.mpr ⟨fun d' hd' => ?_, ih hl⟩
    obtain ⟨c', hc', hr'⟩ := exists_left_of_forall₂ hrest d' hd'
    exact himp hr hr' (hfirst c' hc')

end Results

/-! ### Keys that never decrease -/

section Sorted

variable (hl : l.Pairwise fun a b => key a ≤ key b)

include hl

/-- The keys of the batches increase. -/
theorem batches_pairwise_lt :
    (batches key l).Pairwise fun g g' => ∀ a ∈ g, ∀ b ∈ g', key a < key b := by
  -- batches are not empty, so that to be below one another is transitive
  let Below (g g' : List α) : Prop := g' ≠ [] ∧ ∀ a ∈ g, ∀ b ∈ g', key a < key b
  have htrans : IsTrans (List α) Below := by
    refine ⟨fun g g' g'' hg hg' => ⟨hg'.1, fun a ha b hb => ?_⟩⟩
    obtain ⟨c, hc⟩ := List.exists_mem_of_ne_nil g' hg.1
    exact (hg.2 a ha c hc).trans (hg'.2 c hc b hb)
  have hle : (batches key l).Pairwise fun g g' => ∀ a ∈ g, ∀ b ∈ g', key a ≤ key b := by
    rw [← flatten_batches key l, List.pairwise_flatten] at hl
    exact hl.2
  have hchain : (batches key l).IsChain Below := by
    rw [List.isChain_iff_forall_rel_of_append_cons_cons]
    intro g g' pre post hsplit
    have hg : g ∈ batches key l := by simp [hsplit]
    have hg' : g' ∈ batches key l := by simp [hsplit]
    obtain ⟨hne, hne', hlast⟩ := List.isChain_iff_forall_rel_of_append_cons_cons.mp
      (List.isChain_getLast_head_splitBy (fun a b => decide (key a = key b)) l) hsplit
    have hle := List.isChain_iff_forall_rel_of_append_cons_cons.mp hle.isChain hsplit
    refine ⟨hne', fun a ha b hb => lt_of_le_of_ne (hle a ha b hb) fun heq => ?_⟩
    rw [decide_eq_false_iff_not] at hlast
    refine hlast ?_
    rw [key_eq_of_mem_batches hg (List.getLast_mem hne) ha, heq,
      key_eq_of_mem_batches hg' hb (List.head_mem hne')]
  exact (List.isChain_iff_pairwise.mp hchain).imp fun hbelow => hbelow.2

/-- A batch has all elements with its key. -/
theorem eq_filter_of_mem_batches (hg : g ∈ batches key l) {a : α} (ha : a ∈ g) :
    g = l.filter fun b => key b = key a := by
  obtain ⟨pre, post, hsplit⟩ := List.append_of_mem hg
  have hordered := batches_pairwise_lt hl
  rw [hsplit, List.pairwise_append, List.pairwise_cons] at hordered
  obtain ⟨-, ⟨hpost, -⟩, hpre⟩ := hordered
  have hfilter : ∀ gs : List (List α), (∀ g' ∈ gs, ∀ b ∈ g', key b ≠ key a) →
      gs.flatten.filter (fun b => key b = key a) = [] := by
    intro gs hgs
    refine List.filter_eq_nil_iff.mpr fun b hb => ?_
    obtain ⟨g', hg', hb⟩ := List.mem_flatten.mp hb
    simpa using hgs g' hg' b hb
  have hself : g.filter (fun b => key b = key a) = g :=
    List.filter_eq_self.mpr fun b hb => by simpa using key_eq_of_mem_batches hg hb ha
  rw [← flatten_batches key l, hsplit, List.flatten_append, List.flatten_cons,
    List.filter_append, List.filter_append, hself,
    hfilter pre fun g' hg' b hb => (hpre g' hg' g List.mem_cons_self b hb a ha).ne,
    hfilter post fun g' hg' b hb => (hpost g' hg' a ha b hb).ne', List.nil_append,
    List.append_nil]

end Sorted

end Exchanges.Lib
