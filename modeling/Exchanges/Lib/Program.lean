import Mathlib

/-!
Programs that read and write a state and may stop with an error.

`ExceptT ε (StateM σ)` is the same type; the reason for a structure of its own
is that a program is only ever run, never unfolded, and the lemmas below say
what running each construct does. A program that stops with an error keeps the
state changes it made before: there is no roll-back, as there is none in the
imperative code such programs are written for.

Three kinds of rule come with it. The `run_*` equations execute a program on a
state. `Keeps I p` says that `p` preserves `I` whether it succeeds or fails,
and has one rule per construct, so that an invariant of a large program is
proved by following its text. `Projects f p q` says that `q` does on the
projected state what `p` does on the whole one.
-/

namespace Exchanges.Lib

/-! ### Checks -/

/-- Fail with `e` if the condition holds. -/
def reject {ε : Type} (bad : Prop) [Decidable bad] (e : ε) : Except ε Unit :=
  if bad then .error e else .ok ()

@[simp] theorem reject_eq_ok {ε : Type} {bad : Prop} [Decidable bad] {e : ε} {u : Unit} :
    reject bad e = .ok u ↔ ¬ bad := by
  unfold reject
  split <;> simp_all

/-- A check that is made under a condition only. -/
def checkIf {ε : Type} (condition : Prop) [Decidable condition] (check : Except ε Unit) :
    Except ε Unit :=
  if condition then check else .ok ()

@[simp] theorem checkIf_eq_ok {ε : Type} {condition : Prop} [Decidable condition]
    {check : Except ε Unit} {u : Unit} :
    checkIf condition check = .ok u ↔ (condition → check = .ok u) := by
  unfold checkIf
  split <;> simp_all

theorem except_bind_eq_ok {ε α β : Type} {x : Except ε α} {f : α → Except ε β} {b : β} :
    x >>= f = .ok b ↔ ∃ a, x = .ok a ∧ f a = .ok b := by
  cases x with
  | error e => simp [bind, Except.bind]
  | ok a => simp [bind, Except.bind]

/-- A sequence of checks passes exactly when each of them does. -/
@[simp] theorem except_seq_eq_ok {ε β : Type} {x : Except ε Unit} {f : Unit → Except ε β}
    {b : β} : x >>= f = .ok b ↔ x = .ok () ∧ f () = .ok b := by
  rw [except_bind_eq_ok]
  constructor
  · rintro ⟨⟨⟩, hx, hf⟩
    exact ⟨hx, hf⟩
  · rintro ⟨hx, hf⟩
    exact ⟨(), hx, hf⟩

/-- Run a check on every element, in order, up to the first failure. -/
def checkAll {ε α : Type} (f : α → Except ε Unit) : List α → Except ε Unit
  | [] => .ok ()
  | x :: xs => do
    f x
    checkAll f xs

theorem checkAll_eq_ok {ε α : Type} {f : α → Except ε Unit} {xs : List α} :
    checkAll f xs = .ok () ↔ ∀ x ∈ xs, f x = .ok () := by
  induction xs with
  | nil => simp [checkAll]
  | cons x xs ih => simp [checkAll, ih]

/-! ### Programs -/

/-- A program over state `σ` that returns an `α` or stops with an `ε`. -/
structure Prog (σ ε α : Type) where
  run : σ → Except ε α × σ

namespace Prog

variable {σ ε α β : Type}

instance : Monad (Prog σ ε) where
  pure a := ⟨fun s => (.ok a, s)⟩
  bind p f := ⟨fun s =>
    match p.run s with
    | (.ok a, s') => (f a).run s'
    | (.error e, s') => (.error e, s')⟩

/-- The current state. -/
def get : Prog σ ε σ := ⟨fun s => (.ok s, s)⟩

/-- Replace the state by a function of it. -/
def modify (f : σ → σ) : Prog σ ε Unit := ⟨fun s => (.ok (), f s)⟩

/-- Stop with an error. -/
def fail (e : ε) : Prog σ ε α := ⟨fun s => (.error e, s)⟩

/-- A check or computation that does not touch the state. -/
def lift (x : Except ε α) : Prog σ ε α := ⟨fun s => (x, s)⟩

/-- An update that either fails and changes nothing, or succeeds. -/
def update (f : σ → Except ε σ) : Prog σ ε Unit := ⟨fun s =>
  match f s with
  | .ok s' => (.ok (), s')
  | .error e => (.error e, s)⟩

/-- A computation on the state that either fails and changes nothing, or
returns a value with the new state. -/
def step (f : σ → Except ε (α × σ)) : Prog σ ε α := ⟨fun s =>
  match f s with
  | .ok (a, s') => (.ok a, s')
  | .error e => (.error e, s)⟩

/-- Run a program and return its error, if any, as a value. -/
def attempt (p : Prog σ ε α) : Prog σ ε (Except ε α) :=
  ⟨fun s => (.ok (p.run s).1, (p.run s).2)⟩

/-- Replace the error that a program stops with. -/
def mapError {ε' : Type} (f : ε → ε') (p : Prog σ ε α) : Prog σ ε' α :=
  ⟨fun s => ((p.run s).1.mapError f, (p.run s).2)⟩

/-- Run a program on a part of the state. -/
def zoom {τ : Type} (part : σ → τ) (set : τ → σ → σ) (p : Prog τ ε α) : Prog σ ε α :=
  ⟨fun s => ((p.run (part s)).1, set (p.run (part s)).2 s)⟩

/-- Run a program on every element, in order, up to the first failure. -/
def forEach (f : α → Prog σ ε Unit) : List α → Prog σ ε Unit
  | [] => pure ()
  | x :: xs => do
    f x
    forEach f xs

@[simp] theorem run_pure (a : α) (s : σ) : (pure a : Prog σ ε α).run s = (.ok a, s) := rfl

@[simp] theorem run_get (s : σ) : (get : Prog σ ε σ).run s = (.ok s, s) := rfl

@[simp] theorem run_modify (f : σ → σ) (s : σ) :
    (modify f : Prog σ ε Unit).run s = (.ok (), f s) := rfl

@[simp] theorem run_fail (e : ε) (s : σ) : (fail e : Prog σ ε α).run s = (.error e, s) := rfl

@[simp] theorem run_lift (x : Except ε α) (s : σ) : (lift x : Prog σ ε α).run s = (x, s) := rfl

theorem run_bind (p : Prog σ ε α) (f : α → Prog σ ε β) (s : σ) :
    (p >>= f).run s = match p.run s with
      | (.ok a, s') => (f a).run s'
      | (.error e, s') => (.error e, s') := rfl

@[simp] theorem run_get_bind (f : σ → Prog σ ε β) (s : σ) :
    (get >>= f).run s = (f s).run s := rfl

@[simp] theorem run_attempt (p : Prog σ ε α) (s : σ) :
    (attempt p).run s = (.ok (p.run s).1, (p.run s).2) := rfl

theorem run_mapError_ok {ε' : Type} {f : ε → ε'} {p : Prog σ ε α} {s s' : σ} {a : α}
    (h : p.run s = (.ok a, s')) : (mapError f p).run s = (.ok a, s') := by
  change ((p.run s).1.mapError f, (p.run s).2) = _
  rw [h]
  rfl

theorem run_mapError_error {ε' : Type} {f : ε → ε'} {p : Prog σ ε α} {s s' : σ} {e : ε}
    (h : p.run s = (.error e, s')) : (mapError f p).run s = (.error (f e), s') := by
  change ((p.run s).1.mapError f, (p.run s).2) = _
  rw [h]
  rfl

theorem run_zoom {τ : Type} {part : σ → τ} {set : τ → σ → σ} {p : Prog τ ε α} {s : σ} {t : τ}
    {r : Except ε α} (h : p.run (part s) = (r, t)) :
    (zoom part set p).run s = (r, set t s) := by
  change ((p.run (part s)).1, set (p.run (part s)).2 s) = _
  rw [h]

theorem run_bind_ok {p : Prog σ ε α} {f : α → Prog σ ε β} {s s' : σ} {a : α}
    (h : p.run s = (.ok a, s')) : (p >>= f).run s = (f a).run s' := by
  rw [run_bind, h]

theorem run_bind_error {p : Prog σ ε α} {f : α → Prog σ ε β} {s s' : σ} {e : ε}
    (h : p.run s = (.error e, s')) : (p >>= f).run s = (.error e, s') := by
  rw [run_bind, h]

theorem run_update_ok {f : σ → Except ε σ} {s s' : σ} (h : f s = .ok s') :
    (update f).run s = (.ok (), s') := by
  simp [update, h]

theorem run_update_error {f : σ → Except ε σ} {s : σ} {e : ε} (h : f s = .error e) :
    (update f).run s = (.error e, s) := by
  simp [update, h]

theorem run_step_ok {f : σ → Except ε (α × σ)} {s s' : σ} {a : α} (h : f s = .ok (a, s')) :
    (step f).run s = (.ok a, s') := by
  simp [step, h]

theorem run_step_error {f : σ → Except ε (α × σ)} {s : σ} {e : ε} (h : f s = .error e) :
    (step f).run s = (.error e, s) := by
  simp [step, h]

@[simp] theorem forEach_nil (f : α → Prog σ ε Unit) : forEach f [] = pure () := rfl

theorem forEach_cons (f : α → Prog σ ε Unit) (x : α) (xs : List α) :
    forEach f (x :: xs) = f x >>= fun _ => forEach f xs := rfl

theorem run_forEach_concat (f : α → Prog σ ε Unit) (x : α) (xs : List α) :
    ∀ s : σ, (forEach f (xs ++ [x])).run s = (forEach f xs >>= fun _ => f x).run s := by
  induction xs with
  | nil =>
    intro s
    change (f x >>= fun _ => pure ()).run s = (f x).run s
    rw [run_bind]
    match (f x).run s with
    | (.ok (), s') => rfl
    | (.error e, s') => rfl
  | cons y xs ih =>
    intro s
    rw [List.cons_append, forEach_cons, forEach_cons, run_bind, run_bind, run_bind]
    match (f y).run s with
    | (.ok (), s') => exact ih s'
    | (.error e, s') => rfl

/-- A sequence succeeds when both of its parts do. -/
theorem run_bind_eq_ok {p : Prog σ ε α} {f : α → Prog σ ε β} {s s' : σ} {b : β} :
    (p >>= f).run s = (.ok b, s') ↔
      ∃ a s₁, p.run s = (.ok a, s₁) ∧ (f a).run s₁ = (.ok b, s') := by
  rw [run_bind]
  match hp : p.run s with
  | (.ok a, s₁) => simp
  | (.error e, s₁) => simp

/-- A loop whose body succeeds on every element folds the body's effect. -/
theorem run_forEach_foldl {f : α → Prog σ ε Unit} {g : σ → α → σ} (xs : List α) :
    ∀ {s : σ}, (∀ pre x post, xs = pre ++ x :: post →
      (f x).run (pre.foldl g s) = (.ok (), g (pre.foldl g s) x)) →
      (forEach f xs).run s = (.ok (), xs.foldl g s) := by
  induction xs with
  | nil => exact fun _ => rfl
  | cons x xs ih =>
    intro s h
    have hx : (f x).run s = (.ok (), g s x) := h [] x xs rfl
    rw [forEach_cons, run_bind_ok hx]
    exact ih fun pre y post heq => h (x :: pre) y post (by rw [heq]; rfl)

/-- When a loop succeeds, so did its body on each element, in the state that
the elements before it have led to. -/
theorem run_forEach_ok_of_prefix {f : α → Prog σ ε Unit} {xs : List α} :
    ∀ {s : σ} {pre : List α} {x : α}, ((forEach f xs).run s).1 = .ok () →
      pre ++ [x] <+: xs → ((f x).run (pre.foldl (fun s y => ((f y).run s).2) s)).1 = .ok () := by
  induction xs with
  | nil =>
    intro s pre x _ hpre
    simp at hpre
  | cons y xs ih =>
    intro s pre x hok hpre
    rw [forEach_cons, run_bind] at hok
    have hfirst : ((f y).run s).1 = .ok () := by
      match hrun : (f y).run s with
      | (.ok (), s') => rfl
      | (.error e, s') =>
        rw [hrun] at hok
        exact hok
    cases pre with
    | nil =>
      obtain ⟨rfl, -⟩ := List.cons_prefix_cons.mp hpre
      exact hfirst
    | cons z pre =>
      obtain ⟨rfl, hrest⟩ := List.cons_prefix_cons.mp hpre
      rw [show (f z).run s = (.ok (), ((f z).run s).2) from Prod.ext hfirst rfl] at hok
      exact @ih ((f z).run s).2 pre x hok hrest

/-! ### Invariants -/

/-- The program preserves `I`, whether it succeeds or fails. -/
def Keeps (I : σ → Prop) (p : Prog σ ε α) : Prop := ∀ s, I s → I (p.run s).2

section Keeps

variable {I : σ → Prop}

theorem Keeps.of_run {p : Prog σ ε α} (h : Keeps I p) {s s' : σ} {r : Except ε α}
    (hrun : p.run s = (r, s')) (hs : I s) : I s' := by
  have hkept := h s hs
  rwa [hrun] at hkept

theorem Keeps.pure (a : α) : Keeps I (pure a : Prog σ ε α) := fun _ hs => hs

theorem Keeps.get : Keeps I (get : Prog σ ε σ) := fun _ hs => hs

theorem Keeps.lift (x : Except ε α) : Keeps I (lift x : Prog σ ε α) := fun _ hs => hs

theorem Keeps.modify {f : σ → σ} (h : ∀ s, I s → I (f s)) :
    Keeps I (modify f : Prog σ ε Unit) := h

theorem Keeps.update {f : σ → Except ε σ} (h : ∀ s s', f s = .ok s' → I s → I s') :
    Keeps I (update f) := by
  intro s hs
  cases hf : f s with
  | ok s' =>
    rw [run_update_ok hf]
    exact h s s' hf hs
  | error e =>
    rw [run_update_error hf]
    exact hs

theorem Keeps.step {f : σ → Except ε (α × σ)} (h : ∀ s a s', f s = .ok (a, s') → I s → I s') :
    Keeps I (step f) := by
  intro s hs
  cases hf : f s with
  | ok r =>
    rw [run_step_ok hf]
    exact h s r.1 r.2 hf hs
  | error e =>
    rw [run_step_error hf]
    exact hs

theorem Keeps.bind {p : Prog σ ε α} {f : α → Prog σ ε β} (hp : Keeps I p)
    (hf : ∀ a, Keeps I (f a)) : Keeps I (p >>= f) := by
  intro s hs
  have h := hp s hs
  rw [run_bind]
  match hrun : p.run s with
  | (.ok a, s') => exact hf a s' (by rwa [hrun] at h)
  | (.error e, s') => rwa [hrun] at h

/-- A program on a part of the state keeps what it keeps of the part. -/
theorem Keeps.zoom {τ : Type} {part : σ → τ} {set : τ → σ → σ} {J : τ → Prop} {p : Prog τ ε α}
    (hset : ∀ t s, part (set t s) = t) (hp : Keeps J p) :
    Keeps (fun s => J (part s)) (zoom part set p) := by
  intro s hs
  change J (part (set (p.run (part s)).2 s))
  rw [hset]
  exact hp _ hs

theorem Keeps.forEach {f : α → Prog σ ε Unit} {xs : List α} (h : ∀ x ∈ xs, Keeps I (f x)) :
    Keeps I (forEach f xs) := by
  induction xs with
  | nil => exact fun _ hs => hs
  | cons x xs ih =>
    exact Keeps.bind (h x List.mem_cons_self) fun _ =>
      ih fun y hy => h y (List.mem_cons_of_mem x hy)

end Keeps

/-! ### Projections -/

/-- On the state that `f` shows, `q` does what `p` does, and answers alike. -/
def Projects {τ : Type} (f : σ → τ) (p : Prog σ ε α) (q : Prog τ ε α) : Prop :=
  ∀ s, q.run (f s) = ((p.run s).1, f (p.run s).2)

section Projects

variable {τ : Type} {f : σ → τ}

theorem Projects.zoom {set : τ → σ → σ} (hset : ∀ t s, f (set t s) = t) (q : Prog τ ε α) :
    Projects f (zoom f set q) q := by
  intro s
  change _ = ((q.run (f s)).1, f (set (q.run (f s)).2 s))
  rw [hset]

theorem Projects.pure (a : α) : Projects f (pure a : Prog σ ε α) (pure a) := fun _ => rfl

theorem Projects.bind {p : Prog σ ε α} {q : Prog τ ε α} {p' : α → Prog σ ε β}
    {q' : α → Prog τ ε β} (h : Projects f p q) (h' : ∀ a, Projects f (p' a) (q' a)) :
    Projects f (p >>= p') (q >>= q') := by
  intro s
  rw [run_bind, run_bind, h s]
  match p.run s with
  | (.ok a, s') => exact h' a s'
  | (.error e, s') => rfl

theorem Projects.forEach {p : α → Prog σ ε Unit} {q : α → Prog τ ε Unit}
    (h : ∀ a, Projects f (p a) (q a)) (xs : List α) :
    Projects f (forEach p xs) (forEach q xs) := by
  induction xs with
  | nil => exact Projects.pure ()
  | cons x xs ih => exact (h x).bind fun _ => ih

end Projects

end Prog

end Exchanges.Lib
