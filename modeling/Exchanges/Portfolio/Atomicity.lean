import Exchanges.Portfolio.Effects

/-!
Fills that fail half way.

A fill is marked as applied, and its commission and profit are entered, before
its position is stored and the balances are changed. The last two can fail. What
was entered stays, and the mark makes every later attempt a success that does
nothing. The only failure that leaves the ledgers alone is that of a fill which
is not valid.
-/

namespace Exchanges.Portfolio

open Exchanges.Lib Exchanges.Model

/-- The positions, the realized profit, the commissions, the balances and the
marks of applied fills are the same. -/
structure SameLedgers (p p' : Portfolio) : Prop where
  positions : p'.cache.positions = p.cache.positions
  positionInst : p'.cache.positionInst = p.cache.positionInst
  realized : p'.realized = p.realized
  commissions : p'.commissions = p.commissions
  accounts : p'.cache.accounts = p.cache.accounts
  applied : p'.appliedFills = p.appliedFills

theorem SameLedgers.refl (p : Portfolio) : SameLedgers p p := ⟨rfl, rfl, rfl, rfl, rfl, rfl⟩

/-- The portfolio with another snapshot of an account. -/
def withAccount (p : Portfolio) (account : AccountSnapshot) : Portfolio :=
  { p with cache := p.cache.putAccount account }

section Atomicity

variable [DecimalPackage] {p p' : Portfolio} {f : FillReport} {err : Err}

/-- Whatever the outcome, the fill has its effect on the ledgers when it is tried
again with another snapshot of an account. -/
def RetryHasEffect (f : FillReport) (p p' : Portfolio) : Prop :=
  ∀ account, SameLedgers ((applyFill f).run (p.withAccount account)).2
    ((applyFill f).run (p'.withAccount account)).2

theorem run_applyFill_invalid (hf : ¬ f.WellFormed) :
    ∃ err, (applyFill f).run p = (.error err, p) := by
  cases hvalid : f.validate with
  | ok u => exact absurd (FillReport.validate_eq_ok.mp hvalid) hf
  | error err =>
    refine ⟨err, ?_⟩
    rw [applyFill, hvalid, Prog.run_bind_error (Prog.run_lift ..)]

/-- After a valid fill its mark is there, whether the fill has failed or not. -/
theorem hasAppliedFill_after (hf : f.WellFormed) :
    ((applyFill f).run p).2.hasAppliedFill f = true := by
  cases hnew : p.hasAppliedFill f with
  | true =>
    rw [run_applyFill_applied hf hnew]
    exact hnew
  | false =>
    rw [run_applyFill hf]
    rw [← hasAppliedFill_withDefaultSide] at hnew
    obtain ⟨c, -, hrun⟩ := run_applyFillAccounting_new (withDefaultSide_wellFormed hf) hnew
      (p.cache.positionByInstrument (withDefaultSide f).accountID
        (withDefaultSide f).instrumentID) (nextPosition p.cache (withDefaultSide f))
    rw [hrun]
    -- neither the position nor the balances nor the prices touch the marks
    have hkeeps : Prog.Keeps (fun q : Portfolio => q.hasAppliedFill f = true) (do
        onCache (Prog.update (·.putPosition (nextPosition p.cache (withDefaultSide f))))
        onCache (applyFillBalanceDeltas (withDefaultSide f)
          ((realizedDelta (withDefaultSide f) (p.cache.positionByInstrument
            (withDefaultSide f).accountID (withDefaultSide f).instrumentID)).getD 0))
        Prog.modify (·.setMark (withDefaultSide f).accountID (withDefaultSide f).instrumentID
          (withDefaultSide f).price) : Prog Portfolio Err Unit) := by
      have honCache : ∀ q : Prog Cache Err Unit,
          Prog.Keeps (fun q : Portfolio => q.hasAppliedFill f = true) (onCache q) :=
        fun q r hr => hr
      exact (honCache _).bind fun _ => (honCache _).bind fun _ => .modify fun q hq => hq
    refine hkeeps _ ?_
    have hmarked := (entered_fields { p with cache := c } (withDefaultSide f)
      (p.cache.positionByInstrument (withDefaultSide f).accountID
        (withDefaultSide f).instrumentID)).1
    change hasAppliedFill _ f = true
    rw [hasAppliedFill, hmarked, (withDefaultSide_ids f).2.2.2, OrdMap.get_put_self]
    rfl

/-- Whatever came of a valid fill, to try it again succeeds and does nothing, even if
the account has changed. -/
theorem retry_does_nothing (hf : f.WellFormed) (account : AccountSnapshot) :
    (applyFill f).run (((applyFill f).run p).2.withAccount account) =
      (.ok (), ((applyFill f).run p).2.withAccount account) :=
  run_applyFill_applied hf (hasAppliedFill_after hf)

/-- A fill that fails leaves the ledgers as they were, and can be tried again,
exactly if it is not valid. -/
theorem failed_fill_undone_iff (hfails : (applyFill f).run p = (.error err, p')) :
    (SameLedgers p p' ∧ RetryHasEffect f p p') ↔ f.validate ≠ .ok () := by
  rw [Ne, FillReport.validate_eq_ok]
  constructor
  · rintro ⟨hsame, -⟩ hf
    have hafter := hasAppliedFill_after (p := p) hf
    have hbefore : p.hasAppliedFill f = true := by
      rw [hfails] at hafter
      rwa [hasAppliedFill, hsame.applied] at hafter
    rw [run_applyFill_applied hf hbefore] at hfails
    cases hfails
  · intro hf
    obtain ⟨err', hrun⟩ := run_applyFill_invalid (p := p) hf
    obtain ⟨-, rfl⟩ := Prod.mk.inj (hrun.symm.trans hfails)
    exact ⟨.refl p, fun account => .refl _⟩

end Atomicity

/-! ### A fee that the balance does not cover -/

def feeAccount (usdt : String) : AccountSnapshot :=
  { accountID := "acct", venue := "BINANCE", balances := [{ currency := "USDT", total := usdt }] }

def feePortfolio : Portfolio := (new Cache.new).withAccount (feeAccount "1")

/-- A buy with a fee of 5. -/
def feeFill : FillReport :=
  { accountID := "acct", instrumentID := ⟨"BTC-USDT-PERP", "BINANCE"⟩, orderID := "order-1"
    tradeID := "trade-1", side := .buy, price := 100, quantity := 2, fee := 5
    feeCurrency := "USDT", timestamp := 1 }

theorem failed_fill_undone_iff_negative :
    ∃ err, (@applyFill exactDecimals { feeFill with quantity := -1 }).run feePortfolio =
        (.error err, feePortfolio) ∧
      ((SameLedgers feePortfolio feePortfolio ∧
        @RetryHasEffect exactDecimals { feeFill with quantity := -1 } feePortfolio feePortfolio) ↔
        FillReport.validate { feeFill with quantity := -1 } ≠ .ok ()) := by
  have hinvalid : ¬ FillReport.WellFormed { feeFill with quantity := -1 } := by
    intro hf
    have hpos := hf.quantity_pos
    norm_num at hpos
  obtain ⟨err, hrun⟩ := @run_applyFill_invalid exactDecimals feePortfolio _ hinvalid
  exact ⟨err, hrun, @failed_fill_undone_iff exactDecimals _ _ _ err hrun⟩

/-- The portfolio after the fill has failed for want of 5. -/
def afterFailedFee : Portfolio := ((@applyFill exactDecimals feeFill).run feePortfolio).2

theorem retry_does_nothing_fee : (@applyFill exactDecimals feeFill).run
    (afterFailedFee.withAccount (feeAccount "50")) =
      (.ok (), afterFailedFee.withAccount (feeAccount "50")) :=
  @retry_does_nothing exactDecimals feePortfolio feeFill
    (FillReport.validate_eq_ok.mp (by decide +kernel)) (feeAccount "50")

/-- The balance that the account has, as it is written. -/
def balanceText (p : Portfolio) : Option (List String) :=
  (p.cache.account "acct").map (·.balances.map (·.total))

/-- The failed fill keeps its commission. With a balance of 50 it is paid for when
it is tried first, and has no effect when it is tried again. -/
theorem failed_fill_is_kept :
    ((@applyFill exactDecimals feeFill).run feePortfolio).1.isOk = false ∧
      ¬ SameLedgers feePortfolio afterFailedFee ∧
      balanceText ((@applyFill exactDecimals feeFill).run
        (feePortfolio.withAccount (feeAccount "50"))).2 = some ["45"] ∧
      balanceText ((@applyFill exactDecimals feeFill).run
        (afterFailedFee.withAccount (feeAccount "50"))).2 = some ["50"] := by
  refine ⟨by decide +kernel, fun hsame => ?_, by decide +kernel, by decide +kernel⟩
  have hcommission : afterFailedFee.commissions.get ("acct", "USDT") = some 5 := by
    decide +kernel
  rw [hsame.commissions] at hcommission
  cases hcommission

end Exchanges.Portfolio
