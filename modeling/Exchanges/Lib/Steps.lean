import Exchanges.Lib.Program

/-!
What a program does to its state, as a sequence of steps.

An operation with callbacks changes the state in small steps, and between two of
them anything may happen that the callbacks are able to do. Its text therefore
says little about the state it ends in, but it does say which steps there can
be. `Follows R p s` says that running `p` from `s` is a sequence of `R`-steps.
What every step preserves then holds wherever the program is interrupted, and
however deep the calls are nested.

`Goes I R p` says so for every state with the invariant `I`, which is to be one
that the steps preserve: `Stable I R`. It has one rule per construct.
-/

namespace Exchanges.Lib

open Relation

/-- The steps preserve `I`. -/
def Stable {σ : Type} (I : σ → Prop) (R : σ → σ → Prop) : Prop := ∀ s s', R s s' → I s → I s'

theorem Stable.star {σ : Type} {I : σ → Prop} {R : σ → σ → Prop} (h : Stable I R) {s s' : σ}
    (hstar : ReflTransGen R s s') (hs : I s) : I s' := by
  induction hstar with
  | refl => exact hs
  | tail _ hstep ih => exact h _ _ hstep ih

theorem Stable.and {σ : Type} {I J : σ → Prop} {R : σ → σ → Prop} (hI : Stable I R)
    (hJ : Stable J R) : Stable (fun s => I s ∧ J s) R :=
  fun s s' hstep hs => ⟨hI s s' hstep hs.1, hJ s s' hstep hs.2⟩

namespace Prog

variable {σ ε α β : Type} {R : σ → σ → Prop} {I : σ → Prop}

/-- Running `p` from `s` is a sequence of steps. -/
def Follows (R : σ → σ → Prop) (p : Prog σ ε α) (s : σ) : Prop := ReflTransGen R s (p.run s).2

/-- Running `p` from any state with `I` is a sequence of steps. -/
def Goes (I : σ → Prop) (R : σ → σ → Prop) (p : Prog σ ε α) : Prop := ∀ s, I s → Follows R p s

section Follows

variable {s : σ}

theorem Follows.of_run {p : Prog σ ε α} {s' : σ} {x : Except ε α} (h : Follows R p s)
    (hrun : p.run s = (x, s')) : ReflTransGen R s s' := by
  have hstar : ReflTransGen R s (p.run s).2 := h
  rwa [hrun] at hstar

/-- A program that leaves the state as it is takes no step. -/
theorem Follows.of_eq {p : Prog σ ε α} (h : (p.run s).2 = s) : Follows R p s := by
  unfold Follows
  rw [h]

theorem Follows.single {p : Prog σ ε α} (h : R s (p.run s).2) : Follows R p s :=
  ReflTransGen.single h

theorem Follows.get_bind {f : σ → Prog σ ε β} (h : Follows R (f s) s) :
    Follows R (Prog.get >>= f) s := h

theorem Follows.bind {p : Prog σ ε α} {f : α → Prog σ ε β} (hp : Follows R p s)
    (hf : ∀ a s', p.run s = (.ok a, s') → ReflTransGen R s s' → Follows R (f a) s') :
    Follows R (p >>= f) s := by
  have hstar : ReflTransGen R s (p.run s).2 := hp
  unfold Follows
  rw [run_bind]
  match hrun : p.run s with
  | (.ok a, s') =>
    rw [hrun] at hstar
    exact hstar.trans (hf a s' hrun hstar)
  | (.error e, s') => rwa [hrun] at hstar

theorem Follows.attempt {p : Prog σ ε α} (hp : Follows R p s) : Follows R p.attempt s := hp

theorem Follows.mono {R' : σ → σ → Prop} (hsub : ∀ s s', R s s' → R' s s') {p : Prog σ ε α}
    (h : Follows R p s) : Follows R' p s :=
  ReflTransGen.mono hsub _ _ h

end Follows

section Goes

theorem Goes.pure (a : α) : Goes I R (pure a : Prog σ ε α) := fun _ _ => .refl

theorem Goes.fail (e : ε) : Goes I R (fail e : Prog σ ε α) := fun _ _ => .refl

theorem Goes.lift (x : Except ε α) : Goes I R (lift x : Prog σ ε α) := fun _ _ => .refl

theorem Goes.modify {f : σ → σ} (h : ∀ s, I s → R s (f s)) :
    Goes I R (modify f : Prog σ ε Unit) := fun s hs => .single (h s hs)

theorem Goes.attempt {p : Prog σ ε α} (hp : Goes I R p) : Goes I R p.attempt := hp

theorem Goes.get_bind {f : σ → Prog σ ε β} (h : ∀ s, I s → Follows R (f s) s) :
    Goes I R (Prog.get >>= f) := h

/-- A program that goes on with the state it finds, whatever that is. -/
theorem Goes.get_bind' {f : σ → Prog σ ε β} (h : ∀ s, Goes I R (f s)) :
    Goes I R (Prog.get >>= f) := fun s hs => h s s hs

variable (hI : Stable I R)

include hI

theorem Goes.follow {p : Prog σ ε α} (hp : Goes I R p) {s s' : σ} (hs : I s)
    (hstar : ReflTransGen R s s') : Follows R p s' := hp s' (hI.star hstar hs)

theorem Goes.bind {p : Prog σ ε α} {f : α → Prog σ ε β} (hp : Goes I R p)
    (hf : ∀ a, Goes I R (f a)) : Goes I R (p >>= f) := fun s hs =>
  (hp s hs).bind fun a _ _ hstar => (hf a).follow hI hs hstar

/-- A first part that starts in a known state. -/
theorem Goes.bind_at {p : Prog σ ε α} {f : α → Prog σ ε β} {s : σ} (hs : I s)
    (hp : Follows R p s) (hf : ∀ a, Goes I R (f a)) : Follows R (p >>= f) s :=
  hp.bind fun a _ _ hstar => (hf a).follow hI hs hstar

theorem Goes.forEach {f : α → Prog σ ε Unit} {xs : List α} (h : ∀ x ∈ xs, Goes I R (f x)) :
    Goes I R (forEach f xs) := by
  induction xs with
  | nil => exact .pure ()
  | cons x xs ih =>
    exact .bind hI (h x List.mem_cons_self) fun _ =>
      ih fun y hy => h y (List.mem_cons_of_mem x hy)

end Goes

/-! ### Two programs that do the same

`Agrees R P p q s` says that running `p` from `s` is a sequence of steps, and
that `q` does the same from there provided that `P` holds where `p` ends. If `P`
held before every step after which it holds, it holds all along such a run. -/

/-- `q` does what `p` does, if `P` holds at the end. -/
def Agrees (R : σ → σ → Prop) (P : σ → Prop) (p q : Prog σ ε α) (s : σ) : Prop :=
  Follows R p s ∧ (P (p.run s).2 → q.run s = p.run s)

section Agrees

variable {P : σ → Prop} {p q : Prog σ ε α} {s : σ}

theorem Agrees.refl (h : Follows R p s) : Agrees R P p p s := ⟨h, fun _ => rfl⟩

theorem Agrees.mono {R' : σ → σ → Prop} (hsub : ∀ s s', R s s' → R' s s')
    (h : Agrees R P p q s) : Agrees R' P p q s := ⟨h.1.mono hsub, h.2⟩

theorem Agrees.attempt (h : Agrees R P p q s) : Agrees R P p.attempt q.attempt s := by
  refine ⟨h.1.attempt, fun hend => ?_⟩
  rw [run_attempt, run_attempt, h.2 hend]

theorem reflects_star (hP : ∀ s s', R s s' → P s' → P s) {s s' : σ}
    (hstar : ReflTransGen R s s') (hs' : P s') : P s := by
  induction hstar with
  | refl => exact hs'
  | tail _ hstep ih => exact ih (hP _ _ hstep hs')

theorem Agrees.bind (hP : ∀ s s', R s s' → P s' → P s) {f g : α → Prog σ ε β}
    (hp : Agrees R P p q s)
    (hf : ∀ a s', p.run s = (.ok a, s') → ReflTransGen R s s' → Agrees R P (f a) (g a) s') :
    Agrees R P (p >>= f) (q >>= g) s := by
  refine ⟨hp.1.bind fun a s' hrun hstar => (hf a s' hrun hstar).1, fun hend => ?_⟩
  match hrun : p.run s with
  | (.error e, s') =>
    rw [run_bind_error hrun] at hend ⊢
    exact run_bind_error ((hp.2 (by rwa [hrun])).trans hrun)
  | (.ok a, s') =>
    rw [run_bind_ok hrun] at hend ⊢
    have hnext := hf a s' hrun (hp.1.of_run hrun)
    have hs' : P s' := reflects_star hP hnext.1 hend
    rw [run_bind_ok ((hp.2 (by rwa [hrun])).trans hrun)]
    exact hnext.2 hend

end Agrees

end Prog

end Exchanges.Lib
