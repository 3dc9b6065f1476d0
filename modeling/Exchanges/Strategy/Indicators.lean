import Exchanges.Lib.Averages
import Exchanges.Model.MarketData

/-!
The indicators that strategies read: the exponential moving average and the
average true range.

Both are recurrences. The moving average starts with its first input; the average
true range adds up true ranges until it has as many as its period, takes their mean,
and is a mixture from then on. The multiplier of the moving average is computed
from `period + 1`, a sum of machine integers.
-/

namespace Exchanges.Strategy

open Exchanges.Lib Exchanges.Model

set_option linter.unusedSectionVars false

def invalidPeriod : Err := ⟨.invalidIndicator, "period must be positive", []⟩

structure ExponentialMovingAverage where
  period : Int64
  count : ℕ := 0
  multiplier : Decimal := 0
  value : Decimal := 0
  initialized : Bool := false
  deriving DecidableEq

structure AverageTrueRange where
  period : Int64
  count : ℕ := 0
  value : Decimal := 0
  trSum : Decimal := 0
  prevClose : Decimal := 0
  hasPrevious : Bool := false
  initialized : Bool := false
  deriving DecidableEq

section

variable [DecimalPackage]

/-- `NewExponentialMovingAverage`. -/
def newExponentialMovingAverage (period : Int64) : Except Err ExponentialMovingAverage := do
  reject (period ≤ 0) invalidPeriod
  return { period := period, multiplier := DecimalPackage.div 2 (period + 1).toInt }

/-- `ExponentialMovingAverage.Update`. -/
def ExponentialMovingAverage.update (e : ExponentialMovingAverage) (value : Decimal) :
    Except Err ExponentialMovingAverage := do
  reject (e.period ≤ 0) ⟨.invalidIndicator, "", []⟩
  return { e with
    count := e.count + 1
    value := if e.count + 1 = 1 then value else (value - e.value) * e.multiplier + e.value
    initialized := decide (e.period.toInt ≤ e.count + 1) }

/-- `NewAverageTrueRange`. -/
def newAverageTrueRange (period : Int64) : Except Err AverageTrueRange := do
  reject (period ≤ 0) invalidPeriod
  return { period := period }

namespace AverageTrueRange

def trueRange (a : AverageTrueRange) (bar : Bar) : Decimal :=
  let highLow := |bar.high - bar.low|
  if ¬ a.hasPrevious then highLow
  else
    let highPrevClose := |bar.high - a.prevClose|
    let lowPrevClose := |bar.low - a.prevClose|
    let tr := if highLow < highPrevClose then highPrevClose else highLow
    if tr < lowPrevClose then lowPrevClose else tr

/-- The switch of `UpdateBar`: the sum and the value after a true range. -/
def average (a : AverageTrueRange) (tr : Decimal) : AverageTrueRange :=
  if (a.count + 1 : ℤ) < a.period.toInt then { a with trSum := a.trSum + tr }
  else if (a.count + 1 : ℤ) = a.period.toInt then
    { a with
      trSum := a.trSum + tr
      value := DecimalPackage.div (a.trSum + tr) a.period.toInt
      initialized := true }
  else { a with value := DecimalPackage.div (a.value * (a.period.toInt - 1) + tr) a.period.toInt }

/-- `UpdateBar`. -/
def updateBar (a : AverageTrueRange) (bar : Bar) : Except Err AverageTrueRange := do
  reject (a.period ≤ 0) ⟨.invalidIndicator, "", []⟩
  bar.validate
  return { a.average (a.trueRange bar) with
    count := a.count + 1
    prevClose := bar.close
    hasPrevious := true }

end AverageTrueRange

/-! ### The moving average -/

section Moving

variable [ExactDivision]

theorem toInt_pos {period : Int64} (h : ¬ period ≤ 0) : 0 < period.toInt := by
  rw [Int64.le_iff_toInt_le] at h
  exact not_le.mp h

theorem toInt_add_one {period : Int64} (hpos : 0 < period.toInt) (h : period ≠ Int64.maxValue) :
    (period + 1).toInt = period.toInt + 1 := by
  have hne : period.toInt ≠ Int64.maxValue.toInt := fun heq => h (Int64.toInt_inj.mp heq)
  have hmax : Int64.maxValue.toInt = 2 ^ 63 - 1 := by decide
  have hlt := period.toInt_lt
  rw [Int64.toInt_add]
  refine Int.bmod_eq_of_le ?_ ?_ <;> simp <;> omega

/-- The moving average has seen the inputs. -/
structure Follows (period : Int64) (inputs : List Decimal) (e : ExponentialMovingAverage) :
    Prop where
  same : e.period = period
  multiplier : e.multiplier = 2 / (period.toInt + 1)
  count : e.count = inputs.length
  between : inputs ≠ [] → Between inputs e.value

theorem Follows.update {period : Int64} {inputs : List Decimal} {e : ExponentialMovingAverage}
    (h : Follows period inputs e) (hperiod : ¬ period ≤ 0) (x : Decimal) :
    ∃ e', e.update x = .ok e' ∧ Follows period (inputs ++ [x]) e' := by
  have hpos : (1 : Decimal) ≤ period.toInt := by
    exact_mod_cast toInt_pos hperiod
  have hnot : ¬ e.period ≤ 0 := h.same ▸ hperiod
  unfold ExponentialMovingAverage.update
  rw [reject, if_neg hnot]
  refine ⟨_, rfl, h.same, h.multiplier, ?_, fun _ => ?_⟩
  · rw [List.length_append, h.count]
    rfl
  · dsimp only
    rw [h.count]
    split_ifs with hfirst
    · rw [List.length_eq_zero_iff.mp (Nat.succ.inj hfirst)]
      exact between_singleton x
    · have hne : inputs ≠ [] := fun hnil => hfirst (by rw [hnil]; rfl)
      rw [h.multiplier]
      refine (h.between hne).mix (by positivity) ?_
      rw [div_le_one (by linarith)]
      linarith

theorem Follows.updates {period : Int64} (hperiod : ¬ period ≤ 0) (inputs : List Decimal) :
    ∀ {seen : List Decimal} {e : ExponentialMovingAverage}, Follows period seen e →
      ∃ e', inputs.foldlM ExponentialMovingAverage.update e = .ok e' ∧
        Follows period (seen ++ inputs) e' := by
  induction inputs with
  | nil =>
    intro seen e h
    exact ⟨e, rfl, by rwa [List.append_nil]⟩
  | cons x inputs ih =>
    intro seen e h
    obtain ⟨e₁, hupdate, h₁⟩ := h.update hperiod x
    obtain ⟨e', hrest, h'⟩ := ih h₁
    refine ⟨e', ?_, by rwa [List.append_assoc] at h'⟩
    rw [List.foldlM_cons, hupdate]
    exact hrest

theorem follows_new {period : Int64} {e : ExponentialMovingAverage}
    (hmax : period ≠ Int64.maxValue) (h : newExponentialMovingAverage period = .ok e) :
    ¬ period ≤ 0 ∧ Follows period [] e := by
  unfold newExponentialMovingAverage at h
  obtain ⟨hperiod, h⟩ := except_seq_eq_ok.mp h
  have hperiod : ¬ period ≤ 0 := reject_eq_ok.mp hperiod
  obtain rfl := Except.ok.inj h
  refine ⟨hperiod, rfl, ?_, rfl, fun hne => absurd rfl hne⟩
  dsimp only
  rw [ExactDivision.div_eq, toInt_add_one (toInt_pos hperiod) hmax]
  push_cast
  rfl

end Moving

/-! ### The average true range -/

/-- The true range of a bar after a bar with the given close. -/
def trueRangeAfter (previous : Option Decimal) (bar : Bar) : Decimal :=
  match previous with
  | none => bar.high - bar.low
  | some close => max (bar.high - bar.low) (max |bar.high - close| |bar.low - close|)

/-- The true ranges of bars that come one after the other. -/
def trueRanges (previous : Option Decimal) : List Bar → List Decimal
  | [] => []
  | bar :: bars => trueRangeAfter previous bar :: trueRanges (some bar.close) bars

section Ranges

variable [ExactDivision]

theorem low_le_high {bar : Bar} (h : bar.validate = .ok ()) : bar.low ≤ bar.high := by
  simp only [Bar.validate, except_seq_eq_ok, reject_eq_ok, not_or, not_lt] at h
  exact h.2.2.2.1.2.1

theorem trueRangeAfter_nonneg {bar : Bar} (h : bar.validate = .ok ()) (previous : Option Decimal) :
    0 ≤ trueRangeAfter previous bar := by
  have hrange : 0 ≤ bar.high - bar.low := sub_nonneg.mpr (low_le_high h)
  cases previous with
  | none => exact hrange
  | some close => exact hrange.trans (le_max_left _ _)

theorem trueRanges_nonneg (bars : List Bar) : ∀ previous : Option Decimal,
    (∀ bar ∈ bars, bar.validate = .ok ()) → ∀ tr ∈ trueRanges previous bars, 0 ≤ tr := by
  induction bars with
  | nil => exact fun _ _ => List.forall_mem_nil _
  | cons bar bars ih =>
    intro previous hvalid
    rw [trueRanges, List.forall_mem_cons]
    exact ⟨trueRangeAfter_nonneg (hvalid bar List.mem_cons_self) previous,
      ih _ fun b hb => hvalid b (List.mem_cons_of_mem bar hb)⟩

namespace AverageTrueRange

/-- The close of the bar before. -/
def previous (a : AverageTrueRange) : Option Decimal :=
  if a.hasPrevious then some a.prevClose else none

theorem trueRange_eq (a : AverageTrueRange) {bar : Bar} (h : bar.validate = .ok ()) :
    a.trueRange bar = trueRangeAfter a.previous bar := by
  have habs : |bar.high - bar.low| = bar.high - bar.low :=
    abs_of_nonneg (sub_nonneg.mpr (low_le_high h))
  unfold trueRange previous
  cases a.hasPrevious with
  | false => exact habs
  | true =>
    have hmax : ∀ x y : Decimal, (if x < y then y else x) = max x y := fun x y =>
      (max_def_lt x y).symm
    simp only [not_true_eq_false, if_false, if_true, trueRangeAfter, habs, hmax, max_assoc]

/-- The indicator has seen the true ranges. -/
structure Summarizes (period : Int64) (ranges : List Decimal) (a : AverageTrueRange) : Prop where
  same : a.period = period
  count : a.count = ranges.length
  sum : (ranges.length : ℤ) < period.toInt → a.trSum = ranges.sum ∧ a.initialized = false
  between : period.toInt ≤ ranges.length → Between ranges a.value

theorem Summarizes.average {period : Int64} {ranges : List Decimal} {a : AverageTrueRange}
    (h : Summarizes period ranges a) (hperiod : ¬ period ≤ 0) (tr : Decimal) :
    Summarizes period (ranges ++ [tr]) { a.average tr with count := a.count + 1 } := by
  obtain ⟨rfl, hcount, hsum, hbetween⟩ := h
  have hpos := toInt_pos hperiod
  have hlength : ((ranges ++ [tr]).length : ℤ) = ranges.length + 1 := by simp
  have hcount' : a.count + 1 = (ranges ++ [tr]).length := by simp [hcount]
  unfold AverageTrueRange.average
  rw [hcount]
  split_ifs with hbefore hfull
  · -- still adding up
    obtain ⟨hsum, hnot⟩ := hsum (by omega)
    refine ⟨rfl, hcount ▸ hcount', fun _ => ⟨?_, hnot⟩, fun hle => by omega⟩
    rw [List.sum_append, List.sum_singleton, ← hsum]
  · -- the mean of the first true ranges
    obtain ⟨hsum, -⟩ := hsum (by omega)
    refine ⟨rfl, hcount ▸ hcount', fun hlt => by omega, fun _ => ?_⟩
    have hmean := between_mean (List.append_ne_nil_of_right_ne_nil ranges (List.cons_ne_nil tr []))
    have hcast : ((ranges ++ [tr]).length : Decimal) = a.period.toInt := by
      exact_mod_cast hlength.trans hfull
    rwa [List.sum_append, List.sum_singleton, ← hsum, hcast, ← ExactDivision.div_eq] at hmean
  · refine ⟨rfl, hcount ▸ hcount', fun hlt => by omega, fun _ => ?_⟩
    have hone : (1 : Decimal) ≤ a.period.toInt := by exact_mod_cast hpos
    have hmix := (hbetween (by omega)).mix (x := tr) (m := 1 / (a.period.toInt : Decimal))
      (by positivity) ((div_le_one (by linarith)).mpr hone)
    have heq : DecimalPackage.div (a.value * (a.period.toInt - 1) + tr) a.period.toInt =
        (tr - a.value) * (1 / (a.period.toInt : Decimal)) + a.value := by
      rw [ExactDivision.div_eq]
      field_simp
      ring
    rwa [← heq] at hmix

/-- The indicator has seen the bars. -/
structure Follows (period : Int64) (ranges : List Decimal) (previous : Option Decimal)
    (a : AverageTrueRange) : Prop where
  summarizes : Summarizes period ranges a
  previous : a.previous = previous

theorem Follows.updateBar {period : Int64} {ranges : List Decimal} {previous : Option Decimal}
    {a : AverageTrueRange} (h : Follows period ranges previous a) (hperiod : ¬ period ≤ 0)
    {bar : Bar} (hvalid : bar.validate = .ok ()) :
    ∃ a', a.updateBar bar = .ok a' ∧
      Follows period (ranges ++ [trueRangeAfter previous bar]) (some bar.close) a' := by
  have hnot : ¬ a.period ≤ 0 := h.summarizes.same ▸ hperiod
  have hnext := h.summarizes.average hperiod (a.trueRange bar)
  rw [a.trueRange_eq hvalid, h.previous] at hnext
  unfold AverageTrueRange.updateBar
  rw [reject, if_neg hnot, hvalid, a.trueRange_eq hvalid, h.previous]
  exact ⟨_, rfl, ⟨hnext.same, hnext.count, hnext.sum, hnext.between⟩, rfl⟩

theorem Follows.updateBars {period : Int64} (hperiod : ¬ period ≤ 0) (bars : List Bar) :
    ∀ {seen : List Decimal} {previous : Option Decimal} {a : AverageTrueRange},
      Follows period seen previous a → (∀ bar ∈ bars, bar.validate = .ok ()) →
      ∃ a', bars.foldlM AverageTrueRange.updateBar a = .ok a' ∧
        Summarizes period (seen ++ trueRanges previous bars) a' := by
  induction bars with
  | nil =>
    intro seen previous a h _
    exact ⟨a, rfl, by rw [trueRanges, List.append_nil]; exact h.summarizes⟩
  | cons bar bars ih =>
    intro seen previous a h hvalid
    obtain ⟨a₁, hupdate, h₁⟩ := h.updateBar hperiod (hvalid bar List.mem_cons_self)
    obtain ⟨a', hrest, h'⟩ := ih h₁ fun b hb => hvalid b (List.mem_cons_of_mem bar hb)
    refine ⟨a', ?_, by rwa [List.append_assoc] at h'⟩
    rw [List.foldlM_cons, hupdate]
    exact hrest

end AverageTrueRange

end Ranges

/-- With division taken exactly, the moving average lies between the least and the
greatest of its inputs, whatever they are, unless its period is the largest integer.
An average true range that is initialized lies between the least and the greatest
true range, and is not negative. There is no indicator without a positive period. -/
theorem averages_between [ExactDivision] (period : Int64) :
    (period ≤ 0 → newExponentialMovingAverage period = .error invalidPeriod ∧
      newAverageTrueRange period = .error invalidPeriod) ∧
    (¬ period ≤ 0 → period ≠ Int64.maxValue →
      ∃ e, newExponentialMovingAverage period = .ok e ∧
        ∀ inputs : List Decimal, inputs ≠ [] → ∃ e',
          inputs.foldlM ExponentialMovingAverage.update e = .ok e' ∧ Between inputs e'.value) ∧
    (¬ period ≤ 0 → ∃ a, newAverageTrueRange period = .ok a ∧
      ∀ bars : List Bar, (∀ bar ∈ bars, bar.validate = .ok ()) → ∃ a',
        bars.foldlM AverageTrueRange.updateBar a = .ok a' ∧
        (a'.initialized = true → Between (trueRanges none bars) a'.value ∧ 0 ≤ a'.value)) := by
  refine ⟨fun hle => ?_, fun hnot hmax => ?_, fun hnot => ?_⟩
  · unfold newExponentialMovingAverage newAverageTrueRange
    rw [reject, if_pos hle]
    exact ⟨rfl, rfl⟩
  · have hnew : ∃ e, newExponentialMovingAverage period = .ok e := by
      unfold newExponentialMovingAverage
      rw [reject, if_neg hnot]
      exact ⟨_, rfl⟩
    obtain ⟨e, hnew⟩ := hnew
    refine ⟨e, hnew, fun inputs hne => ?_⟩
    obtain ⟨e', hrun, h⟩ := (follows_new hmax hnew).2.updates hnot inputs
    exact ⟨e', hrun, h.between hne⟩
  · have hnew : newAverageTrueRange period = .ok { period := period } := by
      unfold newAverageTrueRange
      rw [reject, if_neg hnot]
      rfl
    refine ⟨_, hnew, fun bars hvalid => ?_⟩
    have hstart : AverageTrueRange.Follows period [] none { period := period } :=
      ⟨⟨rfl, rfl, fun _ => ⟨rfl, rfl⟩, fun hle => absurd (toInt_pos hnot) (not_lt.mpr hle)⟩, rfl⟩
    obtain ⟨a', hrun, h⟩ := hstart.updateBars hnot bars hvalid
    refine ⟨a', hrun, fun hinit => ?_⟩
    have hbetween := h.between (not_lt.mp fun hlt => by
      rw [(h.sum hlt).2] at hinit
      cases hinit)
    exact ⟨hbetween, hbetween.nonneg (trueRanges_nonneg bars none hvalid)⟩

end

/-- Two inputs of an average of period 3. -/
theorem averages_between_sample :
    ∃ e, @newExponentialMovingAverage exactDecimals 3 = .ok e ∧
      ∃ e', [10, 20].foldlM ExponentialMovingAverage.update e = .ok e' ∧
        Between [10, 20] e'.value := by
  obtain ⟨e, hnew, hall⟩ := (@averages_between exactDecimals exactDivision_exactDecimals 3).2.1
    (by decide) (by decide)
  exact ⟨e, hnew, hall [10, 20] (by decide)⟩

/-- With the largest integer as its period, the multiplier is negative: the average of
0 and 1 is below both. -/
theorem largest_period_leaves_range :
    ∃ e, @newExponentialMovingAverage exactDecimals Int64.maxValue = .ok e ∧
      ∃ e', [0, 1].foldlM ExponentialMovingAverage.update e = .ok e' ∧
        e'.value < 0 ∧ ¬ Between [0, 1] e'.value :=
  ⟨{ period := Int64.maxValue, multiplier := -1 / 2 ^ 62 }, by decide +kernel,
    { period := Int64.maxValue, count := 2, multiplier := -1 / 2 ^ 62, value := -1 / 2 ^ 62 },
    by decide +kernel, by decide +kernel, by decide +kernel⟩

end Exchanges.Strategy
