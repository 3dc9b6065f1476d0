import Exchanges.Backtest.Positions
import Exchanges.Lib.Trace

/-!
What is taken from the levels of an order book.

The runtime keeps a ledger of what was consumed at each price and never takes
more from a level than the ledger leaves there. The ledger is not the same as
what was taken since the book arrived. It is emptied by every kind of market
data of the instrument and not only by a new book, and a fill is entered into
it after the strategies were told of the fill, and not at all if that fails.
As long as the ledger counts everything that was taken, no level gives more
than it has.
-/

namespace Exchanges.Backtest

open Exchanges.Lib Exchanges.Model
open Exchanges.Account (samplePerp)

set_option linter.unusedSectionVars false

/-- A price level of the book of an instrument, among its bids or its asks. -/
structure Level where
  instrumentID : InstrumentID
  bid : Bool
  price : Decimal
  deriving DecidableEq, Repr

/-- What a book has at the level. -/
def Level.size (level : Level) (book : OrderBook) : Decimal :=
  levelSize level.price (if level.bid then book.bids else book.asks)

/-- The level that a match with a book takes from. -/
def Matched.level (m : Matched) : Level :=
  ⟨m.order.instrumentID, decide (m.order.side = .sell), m.price⟩

/-- The book of an instrument that an entry brings. -/
def Entry.book (id : InstrumentID) : Entry → Option OrderBook
  | .market _ event => event.orderBook.filter fun book => book.instrumentID = id
  | _ => none

/-- What an entry takes from a level. -/
def Entry.takes (level : Level) : Entry → Decimal
  | .filled _ _ _ m => if m.source = .orderBook ∧ m.level = level then m.fill.quantity else 0
  | _ => 0

/-- The last book of an instrument. -/
def currentBook (id : InstrumentID) (trace : List Entry) : Option OrderBook :=
  trace.foldl (fun book e => (e.book id).or book) none

/-- What was taken from a level since the last book of its instrument. -/
def takenSince (level : Level) (trace : List Entry) : Decimal :=
  trace.foldl (fun taken e =>
    if (e.book level.instrumentID).isSome then 0 else taken + e.takes level) 0

/-- No level of a book has given more than it has. -/
def WithinBooks (trace : List Entry) : Prop :=
  ∀ level book, currentBook level.instrumentID trace = some book →
    takenSince level trace ≤ level.size book

/-- A fill from a book whose ledger, read when the match was found, counts with
the earlier fills of the match list all that was taken from the level. -/
def Counted (past : List Entry) : Entry → Prop
  | .filled _ _ _ m =>
    m.source = .orderBook → takenSince m.level past ≤ m.consumed + m.earlierAtPrice
  | _ => True

instance (past : List Entry) : DecidablePred (Counted past) := fun e => by
  cases e <;> unfold Counted <;> infer_instance

theorem currentBook_concat (id : InstrumentID) (trace : List Entry) (e : Entry) :
    currentBook id (trace ++ [e]) = (e.book id).or (currentBook id trace) := by
  simp [currentBook]

theorem takenSince_concat (level : Level) (trace : List Entry) (e : Entry) :
    takenSince level (trace ++ [e]) =
      if (e.book level.instrumentID).isSome then 0 else takenSince level trace + e.takes level := by
  simp [takenSince]

/-- The books that are remembered are those of the trace, and no level has given
more than it has if all fills were counted. -/
structure Tracked (market : Market) (trace : List Entry) : Prop where
  books : ∀ id, market.lastBooks.get id = currentBook id trace
  within : Along Counted trace → Throughout WithinBooks trace

/-- The trace with one more entry, if that keeps what the levels have given
within the books. -/
theorem Tracked.concat {market market' : Market} {trace : List Entry} {e : Entry}
    (h : Tracked market trace)
    (hbooks : ∀ id, market'.lastBooks.get id = (e.book id).or (market.lastBooks.get id))
    (hwithin : Counted trace e → WithinBooks trace → WithinBooks (trace ++ [e])) :
    Tracked market' (trace ++ [e]) where
  books id := by rw [hbooks, h.books, currentBook_concat]
  within hcounted := by
    rw [along_concat] at hcounted
    have hpast := h.within hcounted.1
    exact throughout_concat.mpr
      ⟨hpast, hwithin hcounted.2 (hpast trace (List.prefix_refl _))⟩

/-- An entry without a book and without a fill changes nothing. -/
theorem Tracked.idle {market : Market} {trace : List Entry} {e : Entry} (h : Tracked market trace)
    (hbook : ∀ id, e.book id = none) (htakes : ∀ level, e.takes level = 0) :
    Tracked market (trace ++ [e]) := by
  refine h.concat (fun id => by simp [hbook]) fun _ hwithin level book hcurrent => ?_
  rw [currentBook_concat, hbook, Option.none_or] at hcurrent
  rw [takenSince_concat, hbook, htakes]
  simpa using hwithin level book hcurrent

section Liquidity

variable [DecimalPackage] {cfg : Config} {V : OrderStatusReport → Prop} {r : Runtime}
  {m : Matched}

/-- With a new book, nothing was taken from it yet. -/
theorem Tracked.market (h : Tracked r.market r.trace) (t : Time) (event : MarketEvent) :
    Tracked (r.withMarket event).market (r.trace ++ [.market t event]) := by
  refine h.concat (fun id => ?_) fun _ hwithin level book hcurrent => ?_
  · rw [market_withMarket]
    exact OrdMap.get_elim_put ..
  · rw [currentBook_concat] at hcurrent
    rw [takenSince_concat]
    cases hnew : (Entry.market t event).book level.instrumentID with
    | some b => exact levelSize_nonneg ..
    | none =>
      rw [hnew, Option.none_or] at hcurrent
      simpa [Entry.takes] using hwithin level book hcurrent

theorem Tracked.filled (h : Tracked r.market r.trace) (fits : Fits cfg V r m) (t : Time)
    (before : Cache) (market : Market) :
    Tracked r.market (r.trace ++ [.filled t before market m]) := by
  refine h.concat (fun id => rfl) fun hcounted hwithin level book hcurrent => ?_
  simp only [currentBook_concat, Entry.book, Option.none_or] at hcurrent
  rw [takenSince_concat]
  simp only [Entry.book, Option.isSome_none, Bool.false_eq_true, if_false, Entry.takes]
  split_ifs with htakes
  · obtain ⟨hsource, rfl⟩ := htakes
    have hbook : r.market.lastBooks.get m.order.instrumentID = some book :=
      (h.books _).trans hcurrent
    have hlevel := fits.level_le book hsource hbook
    have htaken := hcounted hsource
    have hsize : m.level.size book = levelSize m.price (bookLevels m.order book) := by
      simp [Level.size, Matched.level, bookLevels]
    rw [hsize]
    linarith
  · simpa using hwithin level book hcurrent

end Liquidity

/-! ### A ledger that is emptied by a ticker -/

end Exchanges.Backtest
