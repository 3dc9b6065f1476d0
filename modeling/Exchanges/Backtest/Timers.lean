import Exchanges.Backtest.Runs
import Exchanges.Lib.Agenda

/-!
What `DispatchTimersDue` delivers.

The callback of a timer may set and cancel timers, its own among them. A timer
that is set is due after the present, so the timers that are due form an agenda
in the sense of `Exchanges.Lib.Agenda`: the dispatch comes to an end, and what it
delivers is ordered by time and then by name. A timer that the callbacks leave
alone is moved on by its interval each time it fires, and by nothing else. An
error of a callback ends the dispatch at once.
-/

namespace Exchanges.Backtest

open Exchanges.Lib Exchanges.Lib.Prog Exchanges.Model Relation

set_option linter.unusedSectionVars false

/-! ### The next timer that is due -/

/-- Timers are served by time and then by name. -/
def TimerState.key (timer : TimerState) : ℤ ×ₗ String := toLex (timer.next, timer.name)

theorem earlierTimer_spec (deadline : Time) (best : Option TimerState) (timer : TimerState) :
    (∀ x ∈ earlierTimer deadline best timer, x ∈ best ∨ x = timer) ∧
      (∀ b ∈ best, ∃ x ∈ earlierTimer deadline best timer, x.key ≤ b.key) ∧
      (timer.next ≤ deadline → ∃ x ∈ earlierTimer deadline best timer, x.key ≤ timer.key) := by
  unfold earlierTimer
  split_ifs with hlate
  · exact ⟨fun x hx => .inl hx, fun b hb => ⟨b, hb, le_rfl⟩, fun hle => absurd hlate hle.not_gt⟩
  · cases best with
    | none => exact ⟨fun x hx => .inr (Option.some.inj hx).symm, nofun, fun _ => ⟨timer, rfl, le_rfl⟩⟩
    | some current =>
      have hkey : (timer.next < current.next ∨
          timer.next = current.next ∧ timer.name < current.name) ↔ timer.key < current.key := by
        rw [TimerState.key, TimerState.key, Prod.Lex.toLex_lt_toLex]
      dsimp only
      split_ifs with hearlier
      · refine ⟨fun x hx => .inr (Option.some.inj hx).symm, fun b hb => ⟨timer, rfl, ?_⟩,
          fun _ => ⟨timer, rfl, le_rfl⟩⟩
        cases hb
        exact (hkey.mp hearlier).le
      · refine ⟨fun x hx => .inl hx, fun b hb => ⟨b, hb, le_rfl⟩, fun _ => ⟨current, rfl, ?_⟩⟩
        exact not_lt.mp fun hlt => hearlier (hkey.mpr hlt)

theorem foldl_earlierTimer_spec (deadline : Time) (timers : List TimerState) :
    ∀ best : Option TimerState,
      (∀ x ∈ timers.foldl (earlierTimer deadline) best, x ∈ best ∨ x ∈ timers) ∧
        (∀ b ∈ best, ∃ x ∈ timers.foldl (earlierTimer deadline) best, x.key ≤ b.key) ∧
        ∀ timer ∈ timers, timer.next ≤ deadline →
          ∃ x ∈ timers.foldl (earlierTimer deadline) best, x.key ≤ timer.key := by
  induction timers with
  | nil => exact fun best => ⟨fun x hx => .inl hx, fun b hb => ⟨b, hb, le_rfl⟩, nofun⟩
  | cons timer timers ih =>
    intro best
    obtain ⟨hmem, hbest, htimer⟩ := earlierTimer_spec deadline best timer
    obtain ⟨ihmem, ihbest, ihtimers⟩ := ih (earlierTimer deadline best timer)
    have hchain : ∀ {k : ℤ ×ₗ String}, (∃ x ∈ earlierTimer deadline best timer, x.key ≤ k) →
        ∃ x ∈ timers.foldl (earlierTimer deadline) (earlierTimer deadline best timer),
          x.key ≤ k := by
      rintro k ⟨x, hx, hle⟩
      obtain ⟨y, hy, hle'⟩ := ihbest x hx
      exact ⟨y, hy, hle'.trans hle⟩
    refine ⟨fun x hx => ?_, fun b hb => hchain (hbest b hb), fun τ hτ hdue => ?_⟩
    · obtain hx | hx := ihmem x hx
      · refine (hmem x hx).imp_right ?_
        rintro rfl
        exact List.mem_cons_self
      · exact .inr (List.mem_cons_of_mem _ hx)
    · obtain rfl | hτ := List.mem_cons.mp hτ
      · exact hchain (htimer hdue)
      · exact ihtimers τ hτ hdue

section NextDueTimer

variable {r : Runtime} {deadline : Time} {timer : TimerState}

theorem mem_timers : timer ∈ r.timers.entries.map (·.2) ↔
    ∃ name, r.timers.get name = some timer := by
  simp only [List.mem_map, Prod.exists, exists_eq_right, OrdMap.mem_entries]

theorem nextDueTimer_stored (h : nextDueTimer r deadline = some timer) :
    ∃ name, r.timers.get name = some timer := by
  obtain hnone | hmem := (foldl_earlierTimer_spec deadline _ none).1 timer h
  · cases hnone
  · exact mem_timers.mp hmem

theorem nextDueTimer_first (h : nextDueTimer r deadline = some timer) {name : String}
    {other : TimerState} (hother : r.timers.get name = some other) : timer.key ≤ other.key := by
  by_cases hdue : other.next ≤ deadline
  · obtain ⟨x, hx, hle⟩ := (foldl_earlierTimer_spec deadline _ none).2.2 other
      (mem_timers.mpr ⟨name, hother⟩) hdue
    obtain rfl : timer = x := Option.some.inj (h.symm.trans hx)
    exact hle
  · exact (Prod.Lex.toLex_lt_toLex.mpr (.inl (lt_of_le_of_lt (nextDueTimer_le h)
      (not_le.mp hdue)))).le

theorem nextDueTimer_none (h : nextDueTimer r deadline = none) {name : String}
    (htimer : r.timers.get name = some timer) : deadline < timer.next := by
  refine not_le.mp fun hdue => ?_
  obtain ⟨x, hx, -⟩ := (foldl_earlierTimer_spec deadline _ none).2.2 timer
    (mem_timers.mpr ⟨name, htimer⟩) hdue
  cases h.symm.trans hx

end NextDueTimer

/-! ### Callbacks and the timers -/

/-- What holds of the runtime throughout a run. -/
structure Timed (r : Runtime) : Prop where
  consumed : Consumed r
  sound : SoundTimers r

/-- When the timers are due. -/
def agenda (r : Runtime) (name : String) : Option ℤ := (r.timers.get name).map (·.next)

theorem agenda_eq_some {r : Runtime} {name : String} {t : ℤ} :
    agenda r name = some t ↔ ∃ timer, r.timers.get name = some timer ∧ timer.next = t :=
  Option.map_eq_some_iff

theorem agenda_finite (r : Runtime) : {name | (agenda r name).isSome}.Finite := by
  refine (r.timers.entries.map (·.1)).finite_toSet.subset fun name hname => ?_
  obtain ⟨t, ht⟩ := Option.isSome_iff_exists.mp hname
  obtain ⟨timer, hget, -⟩ := agenda_eq_some.mp ht
  exact List.mem_map.mpr ⟨(name, timer), OrdMap.mem_entries.mpr hget, rfl⟩

section Callbacks

variable [DecimalPackage] {cfg : Config} {V : OrderStatusReport → Prop} {r r' r'' : Runtime}

theorem Plain.retimed (h : Plain cfg V r r') : Retimed r r' := by
  cases h with
  | internal same timed => exact timed
  | listed list =>
    obtain ⟨_, _, heq⟩ := indexOrderList_eq list r
    exact .of_eq (by rw [heq])
  | _ => exact .of_eq rfl

theorem Step.retimed {G : Runtime → Matched → Prop} (h : Step cfg V G r r') : Retimed r r' := by
  cases h with
  | plain step => exact step.retimed
  | @filled m drawn fits guard =>
    obtain ⟨pf, heq⟩ := booked_eq r m drawn
    exact .of_eq (by rw [heq])

theorem Retimed.trans (h : Retimed r r') (h' : Retimed r' r'')
    (hclock : r'.currentTime = r.currentTime) : Retimed r r'' where
  sound hr := h'.sound (h.sound hr)
  later hr hahead name timer hget := by
    have hahead' : Ahead r' := by
      intro name timer hget
      rw [hclock]
      exact (h.later hr hahead name timer hget).elim (hahead name timer) le_of_lt
    obtain hold | hlater := h'.later (h.sound hr) hahead' name timer hget
    · exact h.later hr hahead name timer hold
    · exact .inr (hclock ▸ hlater)

theorem retimed_star (h : ReflTransGen (AnyStep cfg V) r r') :
    Retimed r r' ∧ r'.currentTime = r.currentTime := by
  induction h with
  | refl => exact ⟨.of_eq rfl, rfl⟩
  | tail _ hstep ih =>
    obtain ⟨hretimed, hclock⟩ := ih
    exact ⟨hretimed.trans hstep.retimed hclock, hstep.currentTime.trans hclock⟩

/-- A callback leaves the clock alone and what it sets is due later. -/
theorem retimed_process (setup : Setup) (hr : Timed r) (env : Envelope) :
    Retimed r ((setup.nested.process env).run r).2 ∧
      ((setup.nested.process env).run r).2.currentTime = r.currentTime ∧
      Timed ((setup.nested.process env).run r).2 := by
  have hclosed := (ground_consumed setup.cfg fun _ _ => True).closed setup.strategies setup.depth
  have hstar := hclosed.process env r hr.consumed
  obtain ⟨hretimed, hclock⟩ := retimed_star hstar
  exact ⟨hretimed, hclock, hclosed.stable.star hstar hr.consumed, hretimed.sound hr.sound⟩

end Callbacks

theorem advanceTimer_consumed {r : Runtime} (timer : TimerState) (hr : Consumed r) :
    Consumed (advanceTimer timer r) := by
  unfold advanceTimer
  split
  · dsimp only
    split_ifs <;> exact hr
  · exact hr

theorem advanceTimer_timed {r : Runtime} (timer : TimerState) (hr : Timed r) :
    Timed (advanceTimer timer r) :=
  ⟨advanceTimer_consumed timer hr.consumed, (retimed_advance r timer).sound hr.sound⟩

theorem get_advanceTimer_of_ne (r : Runtime) {timer : TimerState} {name : String}
    (h : name ≠ timer.name) : (advanceTimer timer r).timers.get name = r.timers.get name := by
  unfold advanceTimer
  split
  · dsimp only
    split_ifs
    · exact OrdMap.get_put_of_ne _ h _
    · rfl
  · rfl

/-- A timer that is as it was when it fired moves on. -/
theorem get_advanceTimer_self {r : Runtime} {timer : TimerState}
    (h : r.timers.get timer.name = some timer) : (advanceTimer timer r).timers.get timer.name =
      some { timer with next := timer.next + timer.interval } := by
  unfold advanceTimer
  rw [h]
  dsimp only
  rw [if_pos rfl]
  exact OrdMap.get_put_self ..

/-- A timer that has fired is no longer due at that time. -/
theorem next_advanceTimer_ne {r : Runtime} (hr : SoundTimers r) {timer moved : TimerState}
    (h : (advanceTimer timer r).timers.get timer.name = some moved) : moved.next ≠ timer.next := by
  unfold advanceTimer at h
  split at h
  · next current hcurrent =>
      have hpos := (hr _ _ hcurrent).interval_pos
      dsimp only at h
      split_ifs at h with hnext
      · rw [OrdMap.get_put_self] at h
        cases h
        rw [← hnext]
        exact (lt_add_of_pos_right _ hpos).ne'
      · obtain rfl : current = moved := Option.some.inj (hcurrent.symm.trans h)
        exact hnext
  · next hnone => cases hnone.symm.trans h

/-! ### A dispatch -/

/-- One timer event: the timer that fired, and the runtime before and after the
strategies were told. -/
structure Delivery where
  timer : TimerState
  before : Runtime
  after : Runtime

/-- Tell the strategies of a timer that fires. -/
def Nested.fire (nested : Nested) (timer : TimerState) : Prog Runtime Err Unit :=
  nested.process ⟨.timer, .timer timer.name timer.next, timer.next⟩

/-- The dispatch from `r` delivers the events of `log` and ends with a result in
`r'`. There is no bound on the number of events. -/
inductive Dispatches (nested : Nested) (deadline : Time) :
    Runtime → List Delivery → Except Err Unit → Runtime → Prop where
  | idle {r : Runtime} (none : nextDueTimer r deadline = none) :
      Dispatches nested deadline r [] (.ok ()) r
  | failed {r r₁ : Runtime} {timer : TimerState} {err : Err}
      (due : nextDueTimer r deadline = some timer)
      (call : (nested.fire timer).run (r.atTime .timer timer.next) = (.error err, r₁)) :
      Dispatches nested deadline r [⟨timer, r.atTime .timer timer.next, r₁⟩] (.error err) r₁
  | fired {r r₁ r' : Runtime} {timer : TimerState} {log : List Delivery} {result : Except Err Unit}
      (due : nextDueTimer r deadline = some timer)
      (call : (nested.fire timer).run (r.atTime .timer timer.next) = (.ok (), r₁))
      (rest : Dispatches nested deadline (advanceTimer timer r₁) log result r') :
      Dispatches nested deadline r (⟨timer, r.atTime .timer timer.next, r₁⟩ :: log) result r'

/-- No callback of the dispatch changed the timer of this name. -/
def Untouched (name : String) (log : List Delivery) : Prop :=
  ∀ d ∈ log, d.after.timers.get name = d.before.timers.get name

/-- When the timer of this name fired. -/
def timesOf (name : String) (log : List Delivery) : List Time :=
  (log.filter fun d => d.timer.name = name).map (·.timer.next)

theorem run_dispatchTimersDue {nested : Nested} {deadline : Time} {r r' : Runtime}
    {log : List Delivery} {result : Except Err Unit}
    (h : Dispatches nested deadline r log result r') {room : Nat} (hroom : log.length < room) :
    (dispatchTimersDue nested room deadline).run r = (result, r') := by
  have hclock : ∀ (timer : TimerState) (r : Runtime), (setTime .timer timer.next).run r =
      (.ok (), r.atTime .timer timer.next) := fun _ _ => rfl
  induction h generalizing room with
  | @idle r hnone =>
    obtain ⟨room, rfl⟩ := Nat.exists_eq_add_one_of_ne_zero (Nat.ne_zero_of_lt hroom)
    rw [dispatchTimersDue, run_get_bind, hnone]
    rfl
  | @failed r r₁ timer err hdue hcall =>
    obtain ⟨room, rfl⟩ := Nat.exists_eq_add_one_of_ne_zero (Nat.ne_zero_of_lt hroom)
    rw [Nested.fire] at hcall
    rw [dispatchTimersDue, run_get_bind, hdue]
    dsimp only
    rw [run_bind_ok (hclock timer r), run_bind_error hcall]
  | @fired r r₁ r' timer log result hdue hcall hrest ih =>
    obtain ⟨room, rfl⟩ := Nat.exists_eq_add_one_of_ne_zero (Nat.ne_zero_of_lt hroom)
    rw [Nested.fire] at hcall
    rw [dispatchTimersDue, run_get_bind, hdue]
    dsimp only
    rw [run_bind_ok (hclock timer r), run_bind_ok hcall, run_bind_ok (run_modify _ _)]
    exact ih (Nat.lt_of_succ_lt_succ hroom)

section Dispatch

variable [DecimalPackage] {setup : Setup} {deadline : Time} {r r₁ r' : Runtime}
  {timer : TimerState} {log : List Delivery} {result : Except Err Unit} {x : Except Err Unit}

theorem Timed.due (hr : Timed r) (hdue : nextDueTimer r deadline = some timer) :
    r.timers.get timer.name = some timer ∧ 0 < timer.interval := by
  obtain ⟨name, hget⟩ := nextDueTimer_stored hdue
  obtain ⟨rfl, -, hpos⟩ := hr.sound name timer hget
  exact ⟨hget, hpos⟩

/-- A timer that fires is served from the agenda. -/
theorem serves_fire (hr : Timed r) (hdue : nextDueTimer r deadline = some timer)
    (hcall : (setup.nested.fire timer).run (r.atTime .timer timer.next) = (x, r₁)) :
    Serves agenda r timer.next timer.name (advanceTimer timer r₁) ∧
      Timed (advanceTimer timer r₁) := by
  have hset : Timed (r.atTime .timer timer.next) := ⟨hr.consumed, hr.sound⟩
  obtain ⟨hretimed, hclock, htimed⟩ := retimed_process setup hset
    ⟨.timer, .timer timer.name timer.next, timer.next⟩
  change Retimed _ ((setup.nested.fire timer).run _).2 at hretimed
  change ((setup.nested.fire timer).run _).2.currentTime = _ at hclock
  change Timed ((setup.nested.fire timer).run _).2 at htimed
  rw [hcall] at hretimed hclock htimed
  have hahead : Ahead (r.atTime .timer timer.next) := fun name other hget =>
    Prod.Lex.monotone_fst _ _ (nextDueTimer_first hdue hget)
  have hboth := hretimed.trans (retimed_advance r₁ timer) hclock
  refine ⟨⟨agenda_eq_some.mpr ⟨timer, (hr.due hdue).1, rfl⟩, fun name t hname => ?_,
    fun name t hname => ?_⟩, advanceTimer_timed timer htimed⟩
  · obtain ⟨other, hget, rfl⟩ := agenda_eq_some.mp hname
    have hfirst := nextDueTimer_first hdue hget
    rwa [TimerState.key, TimerState.key, (hr.sound name other hget).name_eq] at hfirst
  · obtain ⟨other, hget, rfl⟩ := agenda_eq_some.mp hname
    refine (hboth.later hset.sound hahead name other hget).imp_left fun hold =>
      ⟨agenda_eq_some.mpr ⟨other, hold, rfl⟩, fun heq => ?_⟩
    -- the timer that fired has moved on
    obtain ⟨hnext, rfl⟩ := Prod.mk.inj heq
    exact next_advanceTimer_ne htimed.sound hget hnext

/-- A dispatch comes to an end. -/
theorem exists_dispatches (setup : Setup) (deadline : Time) (hr : Timed r) :
    ∃ log result r', Dispatches setup.nested deadline r log result r' := by
  have hends : WellFounded (ServesDue agenda deadline) := wellFounded_servesDue agenda_finite
  induction r using hends.induction with
  | _ r ih =>
    cases hdue : nextDueTimer r deadline with
    | none => exact ⟨[], .ok (), r, .idle hdue⟩
    | some timer =>
      match hcall : (setup.nested.fire timer).run (r.atTime .timer timer.next) with
      | (.error err, r₁) => exact ⟨_, _, _, .failed hdue hcall⟩
      | (.ok (), r₁) =>
        obtain ⟨hserves, htimed⟩ := serves_fire hr hdue hcall
        obtain ⟨log, result, r', hrest⟩ := ih _ ⟨_, _, nextDueTimer_le hdue, hserves⟩ htimed
        exact ⟨_, _, _, .fired hdue hcall hrest⟩

theorem next_le_deadline (h : Dispatches setup.nested deadline r log result r') :
    ∀ d ∈ log, d.timer.next ≤ deadline := by
  induction h with
  | idle hnone => exact List.forall_mem_nil _
  | failed hdue hcall => exact List.forall_mem_singleton.mpr (nextDueTimer_le hdue)
  | fired hdue hcall hrest ih => exact List.forall_mem_cons.mpr ⟨nextDueTimer_le hdue, ih⟩

theorem beyond_log (h : Dispatches setup.nested deadline r log result r') (hr : Timed r)
    {key : ℤ ×ₗ String} (hkey : Beyond agenda key r) : ∀ d ∈ log, key < d.timer.key := by
  induction h with
  | idle hnone => exact List.forall_mem_nil _
  | failed hdue hcall =>
    exact List.forall_mem_singleton.mpr ((serves_fire hr hdue hcall).1.keeps_beyond hkey).1
  | fired hdue hcall hrest ih =>
    obtain ⟨hserves, htimed⟩ := serves_fire hr hdue hcall
    obtain ⟨hfirst, hnext⟩ := hserves.keeps_beyond hkey
    exact List.forall_mem_cons.mpr ⟨hfirst, ih htimed hnext⟩

/-- Events are delivered by time and then by name. -/
theorem log_ordered (h : Dispatches setup.nested deadline r log result r') (hr : Timed r) :
    log.Pairwise fun d e => d.timer.key < e.timer.key := by
  induction h with
  | idle hnone => exact .nil
  | failed hdue hcall => exact List.pairwise_singleton _ _
  | fired hdue hcall hrest ih =>
    obtain ⟨hserves, htimed⟩ := serves_fire hr hdue hcall
    exact List.pairwise_cons.mpr ⟨beyond_log hrest htimed hserves.beyond, ih htimed⟩

/-- A timer that is left alone fires at its time and then at its interval. -/
theorem timesOf_untouched (h : Dispatches setup.nested deadline r log result r') (hr : Timed r)
    (hok : result = .ok ()) {name : String} (hget : r.timers.get name = some timer)
    (halone : Untouched name log) :
    timesOf name log = upTo timer.next timer.interval deadline := by
  induction h generalizing timer with
  | idle hnone =>
    exact (upTo_of_lt (hr.sound name timer hget).interval_pos
      (nextDueTimer_none hnone hget)).symm
  | failed hdue hcall => cases hok
  | @fired r r₁ r' first log result hdue hcall hrest ih =>
    obtain ⟨hkept, halone⟩ := List.forall_mem_cons.mp halone
    have hget₁ : r₁.timers.get name = some timer := hkept.trans hget
    obtain ⟨-, htimed⟩ := serves_fire hr hdue hcall
    obtain ⟨hfirst, hpos⟩ := hr.due hdue
    by_cases hname : first.name = name
    · subst hname
      obtain rfl : first = timer := Option.some.inj (hfirst.symm.trans hget)
      have hrest := ih htimed hok (get_advanceTimer_self hget₁) halone
      rw [upTo_of_le hpos (nextDueTimer_le hdue), ← hrest]
      simp [timesOf]
    · have hother : (advanceTimer first r₁).timers.get name = some timer := by
        rw [get_advanceTimer_of_ne r₁ (Ne.symm hname), hget₁]
      rw [← ih htimed hok hother halone]
      simp [timesOf, hname]

/-- The dispatch ends, given room for the events it delivers. They come in the
order of time, none after the deadline, and those of one time in the order of
names. Unless a callback fails, each timer that the callbacks leave alone fires
at its time and then every interval up to and including the deadline. -/
theorem dispatchTimersDue_delivers (setup : Setup) (deadline : Time) (hr : Timed r) :
    ∃ log result r', Dispatches setup.nested deadline r log result r' ∧
      (∀ room, log.length < room →
        (dispatchTimersDue setup.nested room deadline).run r = (result, r')) ∧
      log.Pairwise (fun d e => d.timer.next ≤ e.timer.next) ∧
      (∀ d ∈ log, d.timer.next ≤ deadline) ∧
      (result = .ok () → ∀ name timer, r.timers.get name = some timer → Untouched name log →
        timesOf name log = upTo timer.next timer.interval deadline) ∧
      log.Pairwise (fun d e => d.timer.next = e.timer.next → d.timer.name < e.timer.name) := by
  obtain ⟨log, result, r', h⟩ := exists_dispatches setup deadline hr
  have hordered := log_ordered h hr
  refine ⟨log, result, r', h, fun room hroom => run_dispatchTimersDue h hroom,
    hordered.imp fun hlt => Prod.Lex.monotone_fst _ _ hlt.le, next_le_deadline h,
    fun hok name timer hget => timesOf_untouched h hr hok hget, hordered.imp ?_⟩
  intro d e hlt heq
  exact ((Prod.Lex.toLex_lt_toLex.mp hlt).resolve_left heq.not_lt).2

end Dispatch

/-! ### Two timers -/

/-- Two timers that are due together. -/
def twoTimers : Runtime :=
  { timers := (OrdMap.put ∅ "a" ⟨"a", 2, 1⟩).put "b" ⟨"b", 3, 1⟩ }

theorem timed_twoTimers : Timed twoTimers := by
  refine ⟨fun _ _ => le_rfl, fun name timer hget => ?_⟩
  have hget : ((OrdMap.put ∅ "a" ⟨"a", 2, 1⟩).put "b" ⟨"b", 3, 1⟩).get name = some timer := hget
  rw [OrdMap.get_put, OrdMap.get_put] at hget
  split_ifs at hget with hb ha
  · cases hget
    exact ⟨hb.symm, by simp [hb], by decide⟩
  · cases hget
    exact ⟨ha.symm, by simp [ha], by decide⟩
  · cases (OrdMap.get_empty name).symm.trans hget

/-- The error of a callback. -/
def refusal : Err := ⟨.plain, "refused", []⟩

/-- A setup with one strategy, which returns the same from every call. -/
def returning (result : Except Err Unit) : Setup where
  strategies := [⟨"strategy", fun _ => .done (.ok ()), fun _ _ => .done result,
    fun _ => .done (.ok ())⟩]
  depth := 1
  timers := 10

theorem dispatchTimersDue_delivers_two : Timed twoTimers ∧
    ∃ log result r', Dispatches (@Setup.nested exactDecimals (returning (.ok ()))) 5 twoTimers
        log result r' ∧
      (∀ room, log.length < room → (dispatchTimersDue
        (@Setup.nested exactDecimals (returning (.ok ()))) room 5).run twoTimers = (result, r')) ∧
      log.Pairwise (fun d e => d.timer.next ≤ e.timer.next) ∧
      (∀ d ∈ log, d.timer.next ≤ 5) ∧
      (result = .ok () → ∀ name timer, twoTimers.timers.get name = some timer →
        Untouched name log → timesOf name log = upTo timer.next timer.interval 5) ∧
      log.Pairwise (fun d e => d.timer.next = e.timer.next → d.timer.name < e.timer.name) :=
  ⟨timed_twoTimers, @dispatchTimersDue_delivers exactDecimals _ _ 5 timed_twoTimers⟩

/-- After the first callback fails, the second timer does not fire although it is
due and left alone. -/
theorem failed_callback_ends_dispatch : ∃ log r',
    twoTimers.timers.get "b" = some ⟨"b", 3, 1⟩ ∧
      (∀ room, log.length < room → (dispatchTimersDue
        (@Setup.nested exactDecimals (returning (.error refusal))) room 5).run twoTimers =
          (.error refusal, r')) ∧
      Dispatches (@Setup.nested exactDecimals (returning (.error refusal))) 5 twoTimers log
        (.error refusal) r' ∧
      Untouched "b" log ∧ timesOf "b" log = [] ∧ upTo 1 3 5 = [1, 4] := by
  let _ : DecimalPackage := exactDecimals
  have hdue : nextDueTimer twoTimers 5 = some ⟨"a", 2, 1⟩ := by decide +kernel
  have h := @Dispatches.failed (returning (.error refusal)).nested 5 _ _ _ _ hdue rfl
  refine ⟨_, _, by decide +kernel, fun room => run_dispatchTimersDue h, h, ?_, rfl, by decide⟩
  exact List.forall_mem_singleton.mpr rfl

end Exchanges.Backtest
