import Exchanges.Account.Channels
import Exchanges.Account.ClientHistory
import Exchanges.Account.Confluence
import Exchanges.Account.MissingOrders
import Exchanges.Account.OpenOrders
import Exchanges.Account.PositionConvergence
import Exchanges.Account.PositionRepair
import Exchanges.Adapter.Books
import Exchanges.Backtest.Accounts
import Exchanges.Backtest.BestPrice
import Exchanges.Backtest.ReduceOnly
import Exchanges.Backtest.Remainders
import Exchanges.Backtest.SamePosition
import Exchanges.Backtest.Timers
import Exchanges.Backtest.Times
import Exchanges.Cache.PositionIndexes
import Exchanges.Cache.Purge
import Exchanges.Data.Aggregation
import Exchanges.Data.Catalog
import Exchanges.Execution.CancelAll
import Exchanges.Execution.Channel
import Exchanges.Execution.Deferral
import Exchanges.Execution.Duplicates
import Exchanges.Execution.Holding
import Exchanges.Execution.MissingFills
import Exchanges.Execution.Releases
import Exchanges.Execution.Trailing
import Exchanges.Lib.Agenda
import Exchanges.Lib.Averages
import Exchanges.Lib.Batches
import Exchanges.Lib.Budget
import Exchanges.Lib.MessagePack
import Exchanges.Lib.Monitor
import Exchanges.Lib.Packing
import Exchanges.Lib.Sorting
import Exchanges.Platform.PositionEvents
import Exchanges.Platform.PositionFeed
import Exchanges.Platform.Queries
import Exchanges.Platform.Reconciliation
import Exchanges.Portfolio.Atomicity
import Exchanges.Portfolio.Balances
import Exchanges.Portfolio.Exposure
import Exchanges.Portfolio.Hedging
import Exchanges.Portfolio.Memo
import Exchanges.Risk.AccountExposure
import Exchanges.Risk.Fills
import Exchanges.Risk.Price
import Exchanges.Risk.Rates
import Exchanges.Risk.Throttle
import Exchanges.Sdk.EdgexOrderHash
import Exchanges.Sdk.HyperliquidNonce
import Exchanges.Sdk.HyperliquidSigning
import Exchanges.Sdk.LighterNonce
import Exchanges.Strategy.Indicators
