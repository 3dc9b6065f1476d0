import Exchanges.Cache.Consistency
import Exchanges.Lib.Visits

/-!
Exchange rates read off the market data of the cached instruments.

The portfolio and the risk engine take the rate of two currencies from the first
instrument that trades one for the other and has a price. The instruments come
out of a map, in an order of their own each time they are asked for.
-/

namespace Exchanges.Cache

open Exchanges.Lib Exchanges.Model

/-- `Instruments`, in the order of their ids. Another order of the same list is
what a caller may see. -/
def instrumentList (c : Cache) : List Instrument := c.instruments.entries.map Prod.snd

section

variable [DecimalPackage]

def quoteRate (quote : QuoteTick) : Option Decimal :=
  if 0 < quote.bidPrice ∧ 0 < quote.askPrice then
    some (DecimalPackage.div (quote.bidPrice + quote.askPrice) 2)
  else if 0 < quote.bidPrice then some quote.bidPrice
  else if 0 < quote.askPrice then some quote.askPrice
  else none

def tickerRate (ticker : Ticker) : Option Decimal :=
  if 0 < ticker.bid ∧ 0 < ticker.ask then
    some (DecimalPackage.div (ticker.bid + ticker.ask) 2)
  else if 0 < ticker.last then some ticker.last
  else none

/-- The price of an instrument for conversions: of its quote, its ticker, its last
trade or its last bar. -/
def xratePrice (c : Cache) (id : InstrumentID) : Option Decimal :=
  (c.quotes.get id).bind quoteRate <|> (c.tickers.get id).bind tickerRate <|>
    (c.trades.get id).bind (fun trade => if 0 < trade.price then some trade.price else none) <|>
    (c.latestBars.get id).bind fun bar => if 0 < bar.close then some bar.close else none

/-- The rate that one instrument gives. -/
def instrumentRate (c : Cache) (source target : Currency) (inst : Instrument) : Option Decimal :=
  match c.xratePrice inst.id with
  | none => none
  | some price =>
    if ¬ 0 < price then none
    else if inst.base = source ∧ inst.quote = target then some price
    else if inst.base = target ∧ inst.quote = source then some (DecimalPackage.div 1 price)
    else none

/-- All cached instruments that trade the two currencies give the same rate. -/
def RatesAgree (c : Cache) (source target : Currency) : Prop :=
  ∀ inst ∈ c.instrumentList, ∀ inst' ∈ c.instrumentList, ∀ rate rate',
    c.instrumentRate source target inst = some rate →
      c.instrumentRate source target inst' = some rate' → rate = rate'

end

/-! ### Where instruments and positions are filed -/

/-- Instruments are filed under their ids, and positions under an account. -/
structure Filed (c : Cache) : Prop where
  instruments : ∀ id inst, c.instruments.get id = some inst → inst.id = id
  accounts : ∀ a id position, c.positions.get (a, id) = some position → a ≠ ""

theorem Filed.of_frame {c c' : Cache} (h : Filed c) (hinstruments : c'.instruments = c.instruments)
    (hpositions : ∀ k position, c'.positions.get k = some position →
      c.positions.get k = some position) : Filed c' :=
  ⟨hinstruments ▸ h.instruments, fun a id q hget => h.accounts a id q (hpositions _ q hget)⟩

theorem Filed.putInstrument {c c' : Cache} {inst : Instrument} (h : Filed c)
    (hput : c.putInstrument inst = .ok c') : Filed c' := by
  simp only [Cache.putInstrument, except_seq_eq_ok] at hput
  obtain ⟨-, hput⟩ := hput
  cases hput
  refine ⟨fun id stored hget => ?_, h.accounts⟩
  have hget : (c.instruments.put inst.id inst).get id = some stored := hget
  rw [OrdMap.get_put] at hget
  split at hget
  · next heq =>
      cases hget
      exact heq.symm
  · exact h.instruments id stored hget

theorem Filed.putPosition {c c' : Cache} {q : PositionStatusReport} (h : Filed c)
    (hput : c.putPosition q = .ok c') : Filed c' := by
  simp only [Cache.putPosition, except_seq_eq_ok, PositionStatusReport.validate_eq_ok] at hput
  obtain ⟨hwf, hput⟩ := hput
  cases hput
  refine ⟨(instruments_storePosition c q).symm ▸ h.instruments, fun a id stored hget => ?_⟩
  rw [positions_storePosition, OrdMap.get_put] at hget
  split at hget
  · next heq =>
      rw [(Prod.mk.inj heq).1]
      exact hwf.accountID_ne
  · exact h.accounts a id stored hget

theorem Filed.purge {c : Cache} (h : Filed c) (a : AccountID) (policy : PurgePolicy) :
    Filed (c.purge a policy).1 := by
  refine purge_keeps (List.foldlRecOn _ removeOrder h fun _ hb _ _ =>
    hb.of_frame rfl fun _ _ hget => hget) (fun b q hb => ?_) fun _ _ _ hb => hb.of_frame rfl
      fun _ _ hget => hget
  exact hb.of_frame rfl fun k stored hget => OrdMap.get_of_get_delete hget

theorem Reachable.filed {c : Cache} (h : Reachable c) : Filed c := by
  induction h with
  | new =>
    refine ⟨fun id inst hget => ?_, fun a id q hget => ?_⟩
    · cases (OrdMap.get_empty _).symm.trans hget
    · cases (OrdMap.get_empty _).symm.trans hget
  | putInstrument _ hput ih => exact ih.putInstrument hput
  | @putOrder b _ order _ hput ih =>
    obtain ⟨-, rfl⟩ := putOrder_eq_ok.mp hput
    rw [ordersOnly_storeOrder b (normalizeOrder order)]
    exact ⟨ih.instruments, ih.accounts⟩
  | putFill _ hput ih =>
    simp only [Cache.putFill, except_seq_eq_ok] at hput
    obtain ⟨-, hput⟩ := hput
    split at hput <;> cases hput <;> exact ⟨ih.instruments, ih.accounts⟩
  | putDeferredFill _ hput ih =>
    simp only [Cache.putDeferredFill, except_seq_eq_ok] at hput
    obtain ⟨-, hput⟩ := hput
    split at hput <;> cases hput <;> exact ⟨ih.instruments, ih.accounts⟩
  | putPosition _ hput ih => exact ih.putPosition hput
  | purge a policy _ ih => exact ih.purge a policy
  | putBar bar _ ih =>
    obtain ⟨bars, hbars⟩ := putBar_eq _ bar
    rw [hbars]
    exact ⟨ih.instruments, ih.accounts⟩
  | putAccount _ _ ih | clearDeferredFills _ _ _ ih | putTicker _ _ ih | putOrderBook _ _ ih
  | putTrade _ _ ih | putQuote _ _ ih | putFundingRate _ _ ih =>
    exact ⟨ih.instruments, ih.accounts⟩

/-! ### The lists that are visited -/

section Lists

variable {c : Cache}

/-- No two of the cached instruments have the same id. -/
theorem instrumentList_ids_nodup (hc : Filed c) : (c.instrumentList.map (·.id)).Nodup := by
  have hids : c.instrumentList.map (·.id) = c.instruments.entries.map Prod.fst := by
    rw [instrumentList, List.map_map]
    refine List.map_congr_left ?_
    rintro ⟨id, inst⟩ hmem
    exact hc.instruments id inst (OrdMap.mem_entries.mp hmem)
  rw [hids]
  refine List.pairwise_map.mpr (c.instruments.entries_pairwise.imp fun hlt heq => ?_)
  rw [heq] at hlt
  simp at hlt

theorem positionsForInstrument_nodup (hc : Keyed c) (i : InstrumentID) :
    (c.positionsForInstrument i).Nodup := by
  unfold positionsForInstrument
  rw [(List.perm_insertionSort _ _).nodup_iff]
  refine List.Nodup.filter _ (List.Nodup.map_on ?_ (OrdMap.entries_nodup _))
  rintro ⟨⟨a, id⟩, q⟩ hq ⟨⟨a', id'⟩, q'⟩ hq' heq
  obtain rfl : q = q' := heq
  obtain ⟨rfl, rfl⟩ := hc.positions a id q (OrdMap.mem_entries.mp hq)
  obtain ⟨rfl, rfl⟩ := hc.positions a' id' q (OrdMap.mem_entries.mp hq')
  rfl

end Lists

end Exchanges.Cache
