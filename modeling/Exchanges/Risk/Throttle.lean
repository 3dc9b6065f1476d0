import Exchanges.Lib.Trace
import Exchanges.Risk.Engine

/-!
The rate of commands.

A check adds its time to the window of recent commands and forgets the times that
have left the window. What it forgets can never count again as long as the clock
does not go back, so the window is the part of all admissions so far that is still
recent. From this it follows when a command is throttled, and how many commands can
be admitted in any interval.
-/

namespace Exchanges.Risk

open Exchanges.Lib Exchanges.Model

set_option linter.unusedSectionVars false

section

variable [DecimalPackage]

/-- One call of a check: what it is given, what the clock shows and what the cache
holds at the time. -/
structure Call where
  order : SubmitOrder := {}
  rejectDuplicateClientID : Bool := true
  existingOrder : Bool := false
  now : Time := 0
  cache : Cache := Cache.new
  visits : Visits := ⟨[], fun _ => [], [], []⟩

namespace Call

def run (call : Call) (e : Engine) : Except Err Unit × Engine :=
  (checkWith call.visits call.now call.order call.rejectDuplicateClientID
    call.existingOrder).run { e with cache := call.cache }

/-- The call gets as far as the clock. -/
def ReadsClock (call : Call) : Prop := call.order.validate = .ok ()

instance (call : Call) : Decidable call.ReadsClock := inferInstanceAs (Decidable (_ = _))

/-- The call is refused for the rate of commands. -/
def Throttled (call : Call) (e : Engine) : Prop :=
  call.ReadsClock ∧
    (checkCommandRate call.now e).1 = .error (riskRejected "command rate limit exceeded")

/-- The call is let through by the rate of commands, whatever else is checked then. -/
def Admitted (call : Call) (e : Engine) : Prop :=
  call.ReadsClock ∧ (checkCommandRate call.now e).1 = .ok ()

instance (call : Call) (e : Engine) : Decidable (call.Admitted e) :=
  inferInstanceAs (Decidable (_ ∧ _))

end Call

/-! ### A sequence of calls -/

def afterCalls (e : Engine) (calls : List Call) : Engine :=
  calls.foldl (fun e call => (call.run e).2) e

/-- The times of the calls that were admitted. -/
def admissions (e : Engine) : List Call → List Time
  | [] => []
  | call :: calls =>
    (if call.Admitted e then [call.now] else []) ++ admissions (call.run e).2 calls

/-- What the calls read from the clock. -/
def readings (calls : List Call) : List Time :=
  (calls.filter fun call => decide call.ReadsClock).map Call.now

/-- The interval of the given length that ends at `t`, without its start. -/
def within (width t : Time) (ts : Time) : Bool := decide (t - width < ts ∧ ts ≤ t)

theorem afterCalls_concat (e : Engine) (calls : List Call) (call : Call) :
    afterCalls e (calls ++ [call]) = (call.run (afterCalls e calls)).2 := by
  rw [afterCalls, List.foldl_concat, afterCalls]

theorem admissions_concat (e : Engine) (calls : List Call) (call : Call) :
    admissions e (calls ++ [call]) = admissions e calls ++
      if call.Admitted (afterCalls e calls) then [call.now] else [] := by
  induction calls generalizing e with
  | nil =>
    change (if call.Admitted e then [call.now] else []) ++ [] = _
    rw [List.append_nil]
    rfl
  | cons first calls ih =>
    rw [List.cons_append, admissions, admissions, ih, List.append_assoc]
    rfl

theorem readings_concat (calls : List Call) (call : Call) :
    readings (calls ++ [call]) = readings calls ++
      if call.ReadsClock then [call.now] else [] := by
  by_cases h : call.ReadsClock <;> simp [readings, h]

/-! ### One call -/

section Call

variable {e : Engine} {call : Call}

theorem run_of_not_readsClock (h : ¬ call.ReadsClock) :
    (call.run e).2 = { e with cache := call.cache } := by
  rw [Call.run, run_checkWith]
  cases hvalid : call.order.validate with
  | error err => rfl
  | ok u => exact absurd hvalid h

/-- What a call does to the engine is done where it is counted. -/
theorem run_of_readsClock (h : call.ReadsClock) :
    (call.run e).2 = (checkCommandRate call.now { e with cache := call.cache }).2 := by
  have hvalid : call.order.validate = .ok () := h
  rw [Call.run, run_checkWith, hvalid]
  match checkCommandRate call.now { e with cache := call.cache } with
  | (.error err, e') => rfl
  | (.ok u, e') => rfl

theorem cfg_run (call : Call) (e : Engine) : (call.run e).2.cfg = e.cfg := by
  by_cases h : call.ReadsClock
  · obtain ⟨window, hwindow⟩ := checkCommandRate_eq call.now { e with cache := call.cache }
    rw [run_of_readsClock h, hwindow]
  · rw [run_of_not_readsClock h]

/-- The window, cut to what is recent. -/
def recentCommands (e : Engine) (now : Time) : List Time :=
  e.cmdWindow.filter fun ts => decide (now - e.cfg.commandRateWindow < ts)

variable (hlimit : 0 < e.cfg.maxCommandsPerWindow) (hwidth : 0 < e.cfg.commandRateWindow)
include hlimit hwidth

theorem checkCommandRate_limited (now : Time) (c : Cache) :
    checkCommandRate now { e with cache := c } =
      if e.cfg.maxCommandsPerWindow ≤ (recentCommands e now).length then
        (.error (riskRejected "command rate limit exceeded"),
          { e with cache := c, cmdWindow := recentCommands e now })
      else (.ok (), { e with cache := c, cmdWindow := recentCommands e now ++ [now] }) := by
  rw [checkCommandRate, if_neg (not_le.mpr hlimit)]
  dsimp only
  rw [if_neg (not_le.mpr hwidth)]
  rfl

theorem throttled_iff (h : call.ReadsClock) : call.Throttled e ↔
    e.cfg.maxCommandsPerWindow ≤ (recentCommands e call.now).length := by
  rw [Call.Throttled, checkCommandRate_limited hlimit hwidth call.now e.cache]
  split
  · next hfull => exact iff_of_true ⟨h, rfl⟩ hfull
  · next hfree => exact iff_of_false (fun hthrottled => nomatch hthrottled.2) hfree

theorem admitted_iff (h : call.ReadsClock) : call.Admitted e ↔
    (recentCommands e call.now).length < e.cfg.maxCommandsPerWindow := by
  rw [Call.Admitted, checkCommandRate_limited hlimit hwidth call.now e.cache]
  split
  · next hfull =>
      exact iff_of_false (fun hadmitted => nomatch hadmitted.2) (not_lt.mpr hfull)
  · next hfree => exact iff_of_true ⟨h, rfl⟩ (not_le.mp hfree)

theorem cmdWindow_run (h : call.ReadsClock) : (call.run e).2.cmdWindow =
    recentCommands e call.now ++ if call.Admitted e then [call.now] else [] := by
  rw [run_of_readsClock h, checkCommandRate_limited hlimit hwidth]
  by_cases hfull : e.cfg.maxCommandsPerWindow ≤ (recentCommands e call.now).length
  · have hrefused : ¬ call.Admitted e := by
      rw [admitted_iff hlimit hwidth h]
      exact not_lt.mpr hfull
    rw [if_pos hfull, if_neg hrefused, List.append_nil]
  · have hadmitted : call.Admitted e := (admitted_iff hlimit hwidth h).mpr (not_le.mp hfull)
    rw [if_neg hfull, if_pos hadmitted]

end Call

/-! ### All calls -/

/-- The window agrees with the admissions from any moment on that is not before a
reading of the clock. -/
structure Counts (start : Engine) (calls : List Call) : Prop where
  cfg : (afterCalls start calls).cfg = start.cfg
  past : ∀ ts ∈ admissions start calls, ts ∈ readings calls
  window : ∀ now, (∀ ts ∈ readings calls, ts ≤ now) →
    recentCommands (afterCalls start calls) now =
      (admissions start calls).filter fun ts => decide (now - start.cfg.commandRateWindow < ts)

/-- Readings that do not go back, and one that comes after them. -/
theorem readings_le {calls : List Call} {call : Call} (h : call.ReadsClock)
    (hclock : (readings (calls ++ [call])).Pairwise (· ≤ ·)) :
    ∀ ts ∈ readings calls, ts ≤ call.now := by
  rw [readings_concat, if_pos h, List.pairwise_append] at hclock
  exact fun ts hts => hclock.2.2 ts hts call.now (List.mem_singleton_self _)

theorem pairwise_readings {calls : List Call} {call : Call}
    (hclock : (readings (calls ++ [call])).Pairwise (· ≤ ·)) :
    (readings calls).Pairwise (· ≤ ·) := by
  rw [readings_concat, List.pairwise_append] at hclock
  exact hclock.1

/-- What has left the window at one moment has left it at every later one. -/
theorem filter_recent_recent (times : List Time) {width now later : Time} (h : now ≤ later) :
    (times.filter fun ts => decide (now - width < ts)).filter
        (fun ts => decide (later - width < ts)) =
      times.filter fun ts => decide (later - width < ts) := by
  rw [List.filter_filter]
  refine List.filter_congr fun ts _ => ?_
  rw [← Bool.decide_and, decide_eq_decide]
  constructor
  · exact fun hts => hts.1
  · exact fun hts => ⟨hts, by linarith⟩

section Calls

variable {start : Engine} (hnew : start.cmdWindow = [])
  (hlimit : 0 < start.cfg.maxCommandsPerWindow) (hwidth : 0 < start.cfg.commandRateWindow)
include hlimit hwidth

theorem Counts.concat {calls : List Call} {call : Call} (h : Counts start calls)
    (hclock : (readings (calls ++ [call])).Pairwise (· ≤ ·)) :
    Counts start (calls ++ [call]) := by
  have hcfg : (afterCalls start (calls ++ [call])).cfg = start.cfg := by
    rw [afterCalls_concat, cfg_run, h.cfg]
  by_cases hreads : call.ReadsClock
  · have hlast := readings_le hreads hclock
    have hwindow := cmdWindow_run (h.cfg ▸ hlimit) (h.cfg ▸ hwidth) hreads
    refine ⟨hcfg, fun ts hts => ?_, fun now hnow => ?_⟩
    · rw [admissions_concat] at hts
      rw [readings_concat, if_pos hreads]
      rcases List.mem_append.mp hts with hold | hthis
      · exact List.mem_append_left _ (h.past ts hold)
      · split at hthis
        · exact List.mem_append_right _ hthis
        · cases hthis
    · have hle : call.now ≤ now := hnow call.now (by simp [readings_concat, hreads])
      rw [recentCommands, hcfg, afterCalls_concat, hwindow, h.window call.now hlast,
        admissions_concat, List.filter_append, List.filter_append, filter_recent_recent _ hle]
  · have hrefused : ¬ call.Admitted (afterCalls start calls) := fun hadmitted => hreads hadmitted.1
    have hreadings : readings (calls ++ [call]) = readings calls := by
      rw [readings_concat, if_neg hreads, List.append_nil]
    have hadmissions : admissions start (calls ++ [call]) = admissions start calls := by
      rw [admissions_concat, if_neg hrefused, List.append_nil]
    refine ⟨hcfg, ?_, fun now hnow => ?_⟩
    · rw [hadmissions, hreadings]
      exact h.past
    · rw [hreadings] at hnow
      rw [hadmissions, ← h.window now hnow, recentCommands, recentCommands, hcfg, h.cfg,
        afterCalls_concat, run_of_not_readsClock hreads]

include hnew

theorem counts_afterCalls {calls : List Call} (hclock : (readings calls).Pairwise (· ≤ ·)) :
    Counts start calls := by
  induction calls using List.reverseRecOn with
  | nil =>
    refine ⟨rfl, nofun, fun now _ => ?_⟩
    change start.cmdWindow.filter _ = _
    rw [hnew]
    rfl
  | append_singleton calls call ih =>
    exact (ih (pairwise_readings hclock)).concat hlimit hwidth hclock

/-- The recent commands are the admissions in the interval that ends now. -/
theorem length_recentCommands {calls : List Call} {call : Call} (hreads : call.ReadsClock)
    (hclock : (readings (calls ++ [call])).Pairwise (· ≤ ·)) :
    (recentCommands (afterCalls start calls) call.now).length =
      (admissions start calls).countP (within start.cfg.commandRateWindow call.now) := by
  have hcounts := counts_afterCalls hnew hlimit hwidth (pairwise_readings hclock)
  have hlast := readings_le hreads hclock
  rw [hcounts.window call.now hlast, List.countP_eq_length_filter]
  congr 1
  refine List.filter_congr fun ts hts => ?_
  have hle : ts ≤ call.now := hlast ts (hcounts.past ts hts)
  simp [within, hle]

/-- No interval has more admissions than the limit. -/
theorem countP_admissions_le {calls : List Call} (hclock : (readings calls).Pairwise (· ≤ ·))
    (t : Time) : ((admissions start calls).countP (within start.cfg.commandRateWindow t) : ℤ) ≤
      start.cfg.maxCommandsPerWindow := by
  induction calls using List.reverseRecOn with
  | nil => exact hlimit.le
  | append_singleton calls call ih =>
    have hbefore := pairwise_readings hclock
    have hcounts := counts_afterCalls hnew hlimit hwidth hbefore
    rw [admissions_concat]
    by_cases hadmitted : call.Admitted (afterCalls start calls)
    · rw [if_pos hadmitted, List.countP_append, List.countP_singleton]
      by_cases hin : within start.cfg.commandRateWindow t call.now = true
      · -- whatever else is in the interval is in the one that ends with this call
        have hreads := hadmitted.1
        have hroom := (admitted_iff (h := hreads) (hcounts.cfg ▸ hlimit)
          (hcounts.cfg ▸ hwidth)).mp hadmitted
        rw [hcounts.cfg, length_recentCommands hnew hlimit hwidth hreads hclock] at hroom
        have hsub : (admissions start calls).countP (within start.cfg.commandRateWindow t) ≤
            (admissions start calls).countP
              (within start.cfg.commandRateWindow call.now) := by
          refine List.countP_mono_left fun ts hts hts' => ?_
          have hle := readings_le hreads hclock ts (hcounts.past ts hts)
          simp only [within, decide_eq_true_eq] at hin hts' ⊢
          exact ⟨by linarith [hin.2, hts'.1], hle⟩
        rw [if_pos hin]
        push_cast
        omega
      · rw [if_neg hin, Nat.add_zero]
        exact ih hbefore
    · rw [if_neg hadmitted, List.append_nil]
      exact ih hbefore

end Calls

/-- Whatever the clock shows, also if it goes back, the window holds no more times than
the limit, or than it held at the start. -/
theorem cmdWindow_bounded (start : Engine) (calls : List Call) :
    (afterCalls start calls).cmdWindow.length ≤
      max (start.cmdWindow.length : ℤ) start.cfg.maxCommandsPerWindow := by
  refine (List.foldlRecOn (motive := fun e : Engine => e.cfg = start.cfg ∧
    e.cmdWindow.length ≤ max (start.cmdWindow.length : ℤ) start.cfg.maxCommandsPerWindow)
    calls _ ⟨rfl, le_max_left _ _⟩ ?_).2
  rintro e ⟨hcfg, hle⟩ call -
  refine ⟨(cfg_run call e).trans hcfg, ?_⟩
  by_cases hreads : call.ReadsClock
  · have hkept := fun p => List.length_filter_le p e.cmdWindow
    rw [run_of_readsClock hreads, checkCommandRate, hcfg]
    dsimp only
    -- a time is only added below the limit
    split_ifs <;> simp only [List.length_append, List.length_singleton] <;> grind
  · rw [run_of_not_readsClock hreads]
    exact hle

/-- A command is throttled exactly when as many commands as the limit allows were
admitted in the interval that ends with it, and no interval of this length ever has
more admissions than that. -/
theorem throttled_exactly_at_limit {start : Engine} (hnew : start.cmdWindow = [])
    (hlimit : 0 < start.cfg.maxCommandsPerWindow) (hwidth : 0 < start.cfg.commandRateWindow)
    {calls : List Call} (hclock : (readings calls).Pairwise (· ≤ ·)) :
    Along (fun done call => call.ReadsClock → (call.Throttled (afterCalls start done) ↔
      ((admissions start done).countP (within start.cfg.commandRateWindow call.now) : ℤ) =
        start.cfg.maxCommandsPerWindow)) calls ∧
    ∀ t, ((admissions start calls).countP (within start.cfg.commandRateWindow t) : ℤ) ≤
      start.cfg.maxCommandsPerWindow := by
  refine ⟨fun done call hdone hreads => ?_, countP_admissions_le hnew hlimit hwidth hclock⟩
  have hclock' : (readings (done ++ [call])).Pairwise (· ≤ ·) := by
    obtain ⟨rest, rfl⟩ := hdone
    rw [readings, List.filter_append, List.map_append, List.pairwise_append] at hclock
    exact hclock.1
  have hbefore := pairwise_readings hclock'
  have hcounts := counts_afterCalls hnew hlimit hwidth hbefore
  have hmost := countP_admissions_le hnew hlimit hwidth hbefore call.now
  rw [throttled_iff (hcounts.cfg ▸ hlimit) (hcounts.cfg ▸ hwidth) hreads, hcounts.cfg,
    length_recentCommands hnew hlimit hwidth hreads hclock']
  exact ⟨fun hfull => le_antisymm hmost hfull, fun hfull => hfull.ge⟩

end

/-- A market order at a time, of an engine that allows one command in ten. -/
def marketCall (now : Time) : Call where
  order := { accountID := "a", instrumentID := ⟨"X", "V"⟩, side := .buy, type := .market
             quantity := 1 }
  now := now

def oneInTen : Engine := { cfg := { maxCommandsPerWindow := 1, commandRateWindow := 10 } }

theorem throttled_exactly_at_limit_pair :
    (readings [marketCall 3, marketCall 12, marketCall 13]).Pairwise (· ≤ ·) ∧
      (marketCall 12).Throttled (@afterCalls exactDecimals oneInTen [marketCall 3]) := by
  have hclock : (readings [marketCall 3, marketCall 12, marketCall 13]).Pairwise (· ≤ ·) := by
    decide +kernel
  have hcounted := (@throttled_exactly_at_limit exactDecimals oneInTen rfl (by decide) (by decide)
    _ hclock).1 [marketCall 3] (marketCall 12) ⟨[marketCall 13], rfl⟩ (by decide +kernel)
  exact ⟨hclock, hcounted.mpr (by decide +kernel)⟩

end Exchanges.Risk
