import Exchanges.Lib.Overlay
import Exchanges.Lib.Trace
import Exchanges.Model.Commands
import Exchanges.Model.Subscriptions

/-!
The order books that the adapters of OKX, Bybit and Lighter pass on.

On each of the three channels the venue sends a snapshot of the book and then only what
changes: a level with size zero is gone, any other level has the size that is named.
None of the adapters keeps a book. Each message becomes an order book of its own, with
the levels that the message names, and is emitted if it passes the check for market
events, which refuses a level with size zero, and if the channel of the client has room.

So the last book emitted is the venue's book only as long as each update either names
the whole book and is emitted, or is not emitted and changes nothing.
-/

namespace Exchanges.Adapter

open Exchanges.Lib Exchanges.Model

/-! ### What the venues send -/

/-- The price and the size of a level. -/
abbrev VenueLevel := Decimal × Decimal

def parseBookLevel (level : VenueLevel) : OrderBookLevel :=
  { price := level.1, size := level.2 }

/-- `time.UnixMilli`. -/
def unixMilli (value : ℤ) : Time := unixEpoch + value * 1000000

namespace Okx

structure OrderBook where
  asks : List VenueLevel := []
  bids : List VenueLevel := []
  /-- The milliseconds, if the text is a number. -/
  ts : Option ℤ := none
  deriving DecidableEq

/-- `WsPushData` of the books channel. -/
structure WsPushData where
  data : List OrderBook := []
  action : String := ""
  deriving DecidableEq

def parseUnixMillis (now : Time) : Option ℤ → Time
  | none => now
  | some value => if value ≤ 0 then now else unixMilli value

end Okx

namespace Bybit

/-- `WSOrderBookMessage` with its data. -/
structure WSOrderBookMessage where
  ts : ℤ := 0
  bids : List VenueLevel := []
  asks : List VenueLevel := []
  deriving DecidableEq

def parseUnixMillisInt (now : Time) (value : ℤ) : Time :=
  if value ≤ 0 then now else unixMilli value

end Bybit

namespace Lighter

structure WsOrderBookEvent where
  timestamp : ℤ := 0
  lastUpdatedAt : ℤ := 0
  bids : List VenueLevel := []
  asks : List VenueLevel := []
  /-- `OrderBook.LastUpdatedAt`. -/
  bookUpdatedAt : ℤ := 0
  deriving DecidableEq

def firstNonZero : List ℤ → ℤ
  | [] => 0
  | value :: values => if value ≠ 0 then value else firstNonZero values

def parseLighterUnix (now : Time) (value : ℤ) : Time :=
  if value ≤ 0 then now
  else if 1000000000000000 < value then unixEpoch + value * 1000
  else if 1000000000000 < value then unixMilli value
  else if 1000000000 < value then unixEpoch + value * 1000000000
  else unixMilli value

end Lighter

/-! ### The data client -/

structure DataClient where
  /-- The keys of the subscriptions. -/
  subs : List SubscriptionKey := []
  /-- What stands in the channel and has not been received. -/
  events : List MarketEvent := []
  lastError : Option Err := none
  /-- Everything that has been sent on the channel. -/
  emitted : List MarketEvent := []
  deriving DecidableEq

namespace DataClient

/-- The capacity of `dataClient.events`. -/
def capacity : ℕ := 256

def failWith (err : Err) : Prog DataClient Err Unit := do
  Prog.modify fun c => { c with lastError := some err }
  Prog.fail err

/-- `emitMarket`, which the three adapters have but for the name in the message. -/
def emitMarket (venue : String) (event : MarketEvent) : Prog DataClient Err Unit := do
  let c ← Prog.get
  match event.validate with
  | .error err => failWith err
  | .ok () =>
    if c.events.length < capacity then
      Prog.modify fun c =>
        { c with events := c.events ++ [event], emitted := c.emitted ++ [event] }
    else failWith (invalidMarketData (venue ++ " market event channel full"))

/-- `subs` has a subscription of this type to the instrument. -/
def subscribed (c : DataClient) (type : MarketDataType) (id : InstrumentID) : Bool :=
  decide (SubscribeMarketData.key { instrumentID := id, type := type } ∈ c.subs)

end DataClient

open DataClient

namespace Okx

def book (id : InstrumentID) (now : Time) (venueBook : OrderBook) : Model.OrderBook :=
  { instrumentID := id, timestamp := parseUnixMillis now venueBook.ts
    bids := venueBook.bids.map parseBookLevel, asks := venueBook.asks.map parseBookLevel }

def handleOrderBook (id : InstrumentID) (now : Time) (venueBook : OrderBook) :
    Prog DataClient Err Unit := do
  let _ ← (emitMarket "okx" { orderBook := some (book id now venueBook) }).attempt

/-- The callback of `SubscribeOrderBook`: the handler for each book of the push. The
adapter's handler takes no notice of the action. -/
def subscribeOrderBook (handler : OrderBook → String → Prog DataClient Err Unit)
    (push : WsPushData) : Prog DataClient Err Unit :=
  Prog.forEach (fun d => handler d push.action) push.data

end Okx

namespace Bybit

def book (id : InstrumentID) (now : Time) (msg : WSOrderBookMessage) : Model.OrderBook :=
  { instrumentID := id, timestamp := parseUnixMillisInt now msg.ts
    bids := msg.bids.map parseBookLevel, asks := msg.asks.map parseBookLevel }

def bookFanout (c : DataClient) (id : InstrumentID) (depth : ℤ) : Bool × Bool :=
  (c.subscribed .orderBook id, c.subscribed .quoteTick id && decide (depth = 1))

def emitQuoteFromBook (book : Model.OrderBook) : Prog DataClient Err Unit :=
  match book.bids, book.asks with
  | bid :: _, ask :: _ =>
    let quote : QuoteTick :=
      { instrumentID := book.instrumentID, bidPrice := bid.price, askPrice := ask.price
        bidSize := bid.size, askSize := ask.size
        timestamp := book.timestamp, initTime := book.timestamp }
    emitMarket "bybit" { quote := some quote }
  | _, _ => failWith (invalidMarketData "bybit quote tick requires top of book")

/-- The end of `handleBookPayload`. No quote follows a book that was refused. -/
def quoteAfter (emitQuote : Bool) (book : Model.OrderBook) :
    Except Err Unit → Prog DataClient Err Unit
  | .error _ => pure ()
  | .ok () =>
    if emitQuote then do
      let _ ← (emitQuoteFromBook book).attempt
    else pure ()

def handleBookPayload (id : InstrumentID) (depth : ℤ) (now : Time) (msg : WSOrderBookMessage) :
    Prog DataClient Err Unit := do
  let c ← Prog.get
  let (emitBook, emitQuote) := bookFanout c id depth
  let emitted ←
    if emitBook then (emitMarket "bybit" { orderBook := some (book id now msg) }).attempt
    else pure (.ok ())
  quoteAfter emitQuote (book id now msg) emitted

end Bybit

namespace Lighter

def book (id : InstrumentID) (now : Time) (event : WsOrderBookEvent) : Model.OrderBook :=
  { instrumentID := id
    timestamp := parseLighterUnix now
      (firstNonZero [event.bookUpdatedAt, event.lastUpdatedAt, event.timestamp])
    bids := event.bids.map parseBookLevel, asks := event.asks.map parseBookLevel }

def handleOrderBook (id : InstrumentID) (now : Time) (event : WsOrderBookEvent) :
    Prog DataClient Err Unit := do
  let _ ← (emitMarket "lighter" { orderBook := some (book id now event) }).attempt

end Lighter

/-! ### The three channels as one -/

inductive BookChannel where
  | okx
  | bybit (depth : ℤ)
  | lighter
  deriving DecidableEq

namespace BookChannel

/-- What the handler of the channel is called with. -/
abbrev Message : BookChannel → Type
  | okx => Okx.OrderBook
  | bybit _ => Bybit.WSOrderBookMessage
  | lighter => Lighter.WsOrderBookEvent

def bids : (channel : BookChannel) → channel.Message → List VenueLevel
  | okx, message => Okx.OrderBook.bids message
  | bybit _, message => Bybit.WSOrderBookMessage.bids message
  | lighter, message => Lighter.WsOrderBookEvent.bids message

def asks : (channel : BookChannel) → channel.Message → List VenueLevel
  | okx, message => Okx.OrderBook.asks message
  | bybit _, message => Bybit.WSOrderBookMessage.asks message
  | lighter, message => Lighter.WsOrderBookEvent.asks message

def book (id : InstrumentID) (now : Time) :
    (channel : BookChannel) → channel.Message → Model.OrderBook
  | okx, message => Okx.book id now message
  | bybit _, message => Bybit.book id now message
  | lighter, message => Lighter.book id now message

def handle (id : InstrumentID) (now : Time) :
    (channel : BookChannel) → channel.Message → Prog DataClient Err Unit
  | okx, message => Okx.handleOrderBook id now message
  | bybit depth, message => Bybit.handleBookPayload id depth now message
  | lighter, message => Lighter.handleOrderBook id now message

/-- The name in the adapter's messages. -/
def name : BookChannel → String
  | okx => "okx"
  | bybit _ => "bybit"
  | lighter => "lighter"

/-- The book goes to subscribers of the book. Only Bybit looks: its books are also the
source of quotes. -/
def wanted (c : DataClient) (id : InstrumentID) : BookChannel → Bool
  | bybit _ => c.subscribed .orderBook id
  | _ => true

variable (channel : BookChannel) (id : InstrumentID)

/-- The adapter emits the book that it makes of the message. -/
def Accepts (c : DataClient) (now : Time) (message : channel.Message) : Prop :=
  channel.wanted c id = true ∧ (channel.book id now message).validate = .ok () ∧
    c.events.length < capacity

instance (c : DataClient) (now : Time) (message : channel.Message) :
    Decidable (channel.Accepts id c now message) :=
  inferInstanceAs (Decidable (_ ∧ _ ∧ _))

end BookChannel

/-- What happens to a client while it is subscribed to a book. -/
inductive Delivery (channel : BookChannel) where
  /-- A message on the book channel. -/
  | message (now : Time) (message : channel.Message)
  /-- The event that stands first in the client's channel is received. -/
  | received
  /-- An event of another subscription. -/
  | elsewhere (event : MarketEvent)

namespace DataClient

variable {channel : BookChannel} (id : InstrumentID)

/-- The books of the instrument that were emitted. -/
def books (c : DataClient) : List OrderBook :=
  c.emitted.filterMap fun event =>
    event.orderBook.filter fun book => decide (book.instrumentID = id)

def lastBook (c : DataClient) : Option OrderBook := (c.books id).getLast?

/-- A book of the instrument does not come from elsewhere. -/
def step (c : DataClient) : Delivery channel → DataClient
  | .message now message => ((channel.handle id now message).run c).2
  | .received => { c with events := c.events.tail }
  | .elsewhere event =>
    if (event.orderBook.filter fun book => decide (book.instrumentID = id)) = none then
      ((emitMarket channel.name event).run c).2
    else c

/-- The client after the snapshot and what was delivered since. The events that it had
emitted before do not count. -/
def follow (c : DataClient) (now : Time) (snapshot : channel.Message)
    (deliveries : List (Delivery channel)) : DataClient :=
  deliveries.foldl (step id)
    (step id { c with emitted := [] } (Delivery.message now snapshot))

end DataClient

/-- A push of OKX is handled book by book. -/
theorem run_subscribeOrderBook (id : InstrumentID) (now : Time) (push : Okx.WsPushData)
    (c : DataClient) :
    (Okx.subscribeOrderBook (fun book _ => Okx.handleOrderBook id now book) push).run c =
      (.ok (), (push.data.map (@Delivery.message .okx now)).foldl (DataClient.step id) c) := by
  rw [List.foldl_map]
  exact Prog.run_forEach_foldl push.data fun _ _ _ _ => rfl

/-! ### The book of the venue -/

/-- The size at each price, zero where there is no level. -/
@[ext] structure Levels where
  bids : Decimal → Decimal
  asks : Decimal → Decimal

namespace Levels

variable {channel : BookChannel}

def empty : Levels := ⟨0, 0⟩

def change (levels : Levels) (message : channel.Message) : Levels :=
  ⟨overlay levels.bids (channel.bids message), overlay levels.asks (channel.asks message)⟩

/-- The message names every level of the book. -/
def NamedBy (levels : Levels) (message : channel.Message) : Prop :=
  (∀ price, levels.bids price ≠ 0 → Names (channel.bids message) price) ∧
    ∀ price, levels.asks price ≠ 0 → Names (channel.asks message) price

/-- Every level that the message names has the size that it names. -/
def RepeatedBy (levels : Levels) (message : channel.Message) : Prop :=
  (∀ price, Names (channel.bids message) price →
      (empty.change message).bids price = levels.bids price) ∧
    ∀ price, Names (channel.asks message) price →
      (empty.change message).asks price = levels.asks price

theorem empty_change_eq_iff {levels : Levels} {message : channel.Message} :
    empty.change message = levels.change message ↔ levels.NamedBy message := by
  rw [Levels.ext_iff]
  exact and_congr overlay_zero_eq_iff overlay_zero_eq_iff

theorem eq_change_iff {levels : Levels} {message : channel.Message} :
    levels = levels.change message ↔ levels.RepeatedBy message := by
  rw [Levels.ext_iff]
  exact and_congr eq_overlay_iff eq_overlay_iff

/-- The venue's book after a delivery. -/
def step (levels : Levels) : Delivery channel → Levels
  | .message _ message => levels.change message
  | _ => levels

/-- The snapshot with all updates applied. -/
def maintained (snapshot : channel.Message) (deliveries : List (Delivery channel)) : Levels :=
  deliveries.foldl step (empty.change snapshot)

end Levels

/-- The levels of an order book. -/
def bookLevels (book : OrderBook) : Levels :=
  ⟨overlay 0 (book.bids.map fun level => (level.price, level.size)),
    overlay 0 (book.asks.map fun level => (level.price, level.size))⟩

theorem bookLevels_book (channel : BookChannel) (id : InstrumentID) (now : Time)
    (message : channel.Message) :
    bookLevels (channel.book id now message) = Levels.empty.change message := by
  have hback : ∀ levels : List VenueLevel,
      ((levels.map parseBookLevel).map fun level => (level.price, level.size)) = levels := by
    intro levels
    rw [List.map_map]
    exact List.map_id levels
  cases channel <;>
    simp only [bookLevels, BookChannel.book, Okx.book, Bybit.book, Lighter.book, hback] <;> rfl

/-! ### What a client emits -/

section Emitting

variable {id : InstrumentID} {c : DataClient}

theorem validate_book {book : OrderBook} :
    ({ orderBook := some book } : MarketEvent).validate = .ok () ↔ book.validate = .ok () := by
  simp [MarketEvent.validate, ExecutionEvent.checkPayload, MarketEvent.payloadCount]

theorem books_append (c : DataClient) (events : List MarketEvent) (event : MarketEvent) :
    DataClient.books id { c with events := events, emitted := c.emitted ++ [event] } =
      c.books id ++
        (event.orderBook.filter fun book => decide (book.instrumentID = id)).toList := by
  unfold DataClient.books
  rw [List.filterMap_append]
  cases h : event.orderBook.filter fun book => decide (book.instrumentID = id) with
  | none => simp [h]
  | some book => simp [h]

/-- An event that is valid is emitted if the channel has room. -/
theorem run_emitMarket_accepted {venue : String} {event : MarketEvent}
    (hvalid : event.validate = .ok ()) (hroom : c.events.length < capacity) :
    (emitMarket venue event).run c =
      (.ok (), { c with events := c.events ++ [event], emitted := c.emitted ++ [event] }) := by
  unfold emitMarket
  rw [Prog.run_get_bind, hvalid]
  dsimp only
  rw [if_pos hroom]
  rfl

/-- Any other leaves an error only. -/
theorem run_emitMarket_refused (venue : String) (event : MarketEvent)
    (h : ¬ (event.validate = .ok () ∧ c.events.length < capacity)) :
    ∃ err, (emitMarket venue event).run c = (.error err, { c with lastError := some err }) := by
  unfold emitMarket
  rw [Prog.run_get_bind]
  cases hvalid : event.validate with
  | error err => exact ⟨err, rfl⟩
  | ok u =>
    dsimp only
    rw [if_neg fun hroom => h ⟨hvalid, hroom⟩]
    exact ⟨_, rfl⟩

theorem lastBook_emitMarket_book (venue : String) {book : OrderBook}
    (hid : book.instrumentID = id) (c : DataClient) :
    (((emitMarket venue { orderBook := some book }).run c).2).lastBook id =
      if book.validate = .ok () ∧ c.events.length < capacity then some book
      else c.lastBook id := by
  split
  · next h =>
      rw [run_emitMarket_accepted (validate_book.mpr h.1) h.2]
      unfold DataClient.lastBook
      rw [books_append]
      simp [Option.filter, hid]
  · next h =>
      obtain ⟨err, hrun⟩ := run_emitMarket_refused venue { orderBook := some book }
        fun hboth => h ⟨validate_book.mp hboth.1, hboth.2⟩
      rw [hrun]
      rfl

theorem lastBook_emitMarket_other {venue : String} {event : MarketEvent}
    (hother : (event.orderBook.filter fun book => decide (book.instrumentID = id)) = none) :
    (((emitMarket venue event).run c).2).lastBook id = c.lastBook id := by
  by_cases h : event.validate = .ok () ∧ c.events.length < capacity
  · rw [run_emitMarket_accepted h.1 h.2]
    unfold DataClient.lastBook
    rw [books_append, hother]
    simp
  · obtain ⟨err, hrun⟩ := run_emitMarket_refused venue event h
    rw [hrun]
    rfl

theorem lastBook_emitQuoteFromBook (book : OrderBook) :
    (((Bybit.emitQuoteFromBook book).run c).2).lastBook id = c.lastBook id := by
  unfold Bybit.emitQuoteFromBook
  split
  · exact lastBook_emitMarket_other rfl
  · rfl

theorem lastBook_quoteAfter (emitQuote : Bool) (book : OrderBook) (emitted : Except Err Unit) :
    (((Bybit.quoteAfter emitQuote book emitted).run c).2).lastBook id = c.lastBook id := by
  unfold Bybit.quoteAfter
  split
  · rfl
  · split
    · exact lastBook_emitQuoteFromBook book
    · rfl

theorem lastBook_handleBookPayload (depth : ℤ) (now : Time) (msg : Bybit.WSOrderBookMessage) :
    (((Bybit.handleBookPayload id depth now msg).run c).2).lastBook id =
      if c.subscribed .orderBook id = true ∧ (Bybit.book id now msg).validate = .ok () ∧
          c.events.length < capacity then some (Bybit.book id now msg)
      else c.lastBook id := by
  unfold Bybit.handleBookPayload Bybit.bookFanout
  rw [Prog.run_get_bind]
  dsimp only
  cases hwanted : c.subscribed .orderBook id with
  | false =>
    rw [if_neg (by simp), if_neg (by simp), Prog.run_bind, Prog.run_pure]
    exact lastBook_quoteAfter ..
  | true =>
    rw [if_pos rfl, Prog.run_bind, Prog.run_attempt]
    dsimp only
    have hbook : (Bybit.book id now msg).instrumentID = id := rfl
    rw [lastBook_quoteAfter, lastBook_emitMarket_book "bybit" hbook]
    simp only [true_and]

/-- The last book is the one of the message if the adapter accepts it. -/
theorem lastBook_handle (channel : BookChannel) (now : Time) (message : channel.Message) :
    (((channel.handle id now message).run c).2).lastBook id =
      if channel.Accepts id c now message then some (channel.book id now message)
      else c.lastBook id := by
  cases channel with
  | okx =>
    have hbook : (Okx.book id now message).instrumentID = id := rfl
    refine (lastBook_emitMarket_book "okx" hbook c).trans ?_
    simp [BookChannel.Accepts, BookChannel.wanted, BookChannel.book]
  | bybit depth => exact lastBook_handleBookPayload depth now message
  | lighter =>
    have hbook : (Lighter.book id now message).instrumentID = id := rfl
    refine (lastBook_emitMarket_book "lighter" hbook c).trans ?_
    simp [BookChannel.Accepts, BookChannel.wanted, BookChannel.book]

end Emitting

/-! ### Following the venue -/

section Following

variable {channel : BookChannel} (id : InstrumentID) (c : DataClient) (now : Time)
  (snapshot : channel.Message)

/-- The last book that the client emitted is the snapshot with all updates applied. -/
def Follows (deliveries : List (Delivery channel)) : Prop :=
  ∃ book, (c.follow id now snapshot deliveries).lastBook id = some book ∧
    bookLevels book = Levels.maintained snapshot deliveries

/-- An update that the adapter accepts names the whole book; another changes nothing. -/
def Suits (deliveries : List (Delivery channel)) : Delivery channel → Prop
  | .message time message =>
    if channel.Accepts id (c.follow id now snapshot deliveries) time message then
      (Levels.maintained snapshot deliveries).NamedBy message
    else (Levels.maintained snapshot deliveries).RepeatedBy message
  | _ => True

variable {id c now snapshot} {deliveries : List (Delivery channel)}

theorem follow_concat (d : Delivery channel) : c.follow id now snapshot (deliveries ++ [d]) =
    (c.follow id now snapshot deliveries).step id d := by
  unfold DataClient.follow
  rw [List.foldl_append]
  rfl

theorem maintained_concat (d : Delivery channel) :
    Levels.maintained snapshot (deliveries ++ [d]) =
      (Levels.maintained snapshot deliveries).step d := by
  unfold Levels.maintained
  rw [List.foldl_append]
  rfl

/-- The snapshot is followed if it is accepted. -/
theorem follows_nil : Follows id c now snapshot [] ↔ channel.Accepts id c now snapshot := by
  have hlast : (c.follow id now snapshot []).lastBook id =
      if channel.Accepts id c now snapshot then some (channel.book id now snapshot)
      else none := lastBook_handle channel now snapshot
  unfold Follows
  rw [hlast]
  split
  · next h => exact iff_of_true ⟨_, rfl, bookLevels_book channel id now snapshot⟩ h
  · next h => exact iff_of_false (fun ⟨_, hnone, _⟩ => nomatch hnone) h

/-- A client that follows the venue goes on to do so if the delivery suits it. -/
theorem follows_concat (h : Follows id c now snapshot deliveries) (d : Delivery channel) :
    Follows id c now snapshot (deliveries ++ [d]) ↔ Suits id c now snapshot deliveries d := by
  obtain ⟨book, hlast, hlevels⟩ := h
  have hsame : (c.follow id now snapshot (deliveries ++ [d])).lastBook id = some book →
      (Follows id c now snapshot (deliveries ++ [d]) ↔
        Levels.maintained snapshot deliveries =
          (Levels.maintained snapshot deliveries).step d) := by
    intro hlast'
    unfold Follows
    rw [hlast', maintained_concat, ← hlevels]
    simp
  cases d with
  | received =>
    rw [hsame (by rw [follow_concat]; exact hlast)]
    exact iff_of_true rfl trivial
  | elsewhere event =>
    rw [hsame ?_]
    · exact iff_of_true rfl trivial
    · rw [follow_concat, ← hlast]
      dsimp only [DataClient.step]
      split
      · next hother => exact lastBook_emitMarket_other hother
      · rfl
  | message time message =>
    have hhandle := @lastBook_handle id (c.follow id now snapshot deliveries) channel time message
    dsimp only [Suits]
    split
    · next haccepts =>
        rw [if_pos haccepts] at hhandle
        unfold Follows
        rw [follow_concat, maintained_concat, ← Levels.empty_change_eq_iff,
          ← bookLevels_book channel id time message]
        constructor
        · rintro ⟨other, hother, heq⟩
          cases hhandle.symm.trans hother
          exact heq
        · intro heq
          exact ⟨_, hhandle, heq⟩
    · next hrefused =>
        rw [if_neg hrefused] at hhandle
        rw [hsame (by rw [follow_concat]; exact hhandle.trans hlast)]
        exact Levels.eq_change_iff

/-- The last book emitted is the venue's book throughout just if the snapshot is
accepted and every delivery suits. -/
theorem follows_throughout_iff (channel : BookChannel) (id : InstrumentID) (c : DataClient)
    (now : Time) (snapshot : channel.Message) (deliveries : List (Delivery channel)) :
    Throughout (Follows id c now snapshot) deliveries ↔
      channel.Accepts id c now snapshot ∧ Along (Suits id c now snapshot) deliveries := by
  induction deliveries using List.reverseRecOn with
  | nil => rw [throughout_nil, follows_nil, and_iff_left along_nil]
  | append_singleton deliveries d ih =>
    rw [throughout_concat, along_concat, ih]
    constructor
    · rintro ⟨⟨haccepts, hsuits⟩, hfollows⟩
      have hbefore := (ih.mpr ⟨haccepts, hsuits⟩) deliveries (List.prefix_refl _)
      exact ⟨haccepts, hsuits, (follows_concat hbefore d).mp hfollows⟩
    · rintro ⟨haccepts, hsuits, hd⟩
      have hbefore := (ih.mpr ⟨haccepts, hsuits⟩) deliveries (List.prefix_refl _)
      exact ⟨⟨haccepts, hsuits⟩, (follows_concat hbefore d).mpr hd⟩

end Following

/-! ### An update and a removal -/

/-- One price at which the sizes differ is enough. -/
theorem not_follows_of_bid {channel : BookChannel} {id : InstrumentID} {c : DataClient}
    {now : Time} {snapshot : channel.Message} {deliveries : List (Delivery channel)}
    (price : Decimal)
    (h : ((c.follow id now snapshot deliveries).lastBook id).map
        (fun book => (bookLevels book).bids price) ≠
      some ((Levels.maintained snapshot deliveries).bids price)) :
    ¬ Follows id c now snapshot deliveries := by
  rintro ⟨book, hlast, hlevels⟩
  rw [hlast, Option.map_some, hlevels] at h
  exact h rfl

def coin : InstrumentID := { symbol := "BTC-USDT", venue := "V" }

def subscribedToBook : DataClient :=
  { subs := [SubscribeMarketData.key { instrumentID := coin, type := .orderBook, depth := 50 }] }

/-- On OKX a new bid at 98 makes the bid at 99 disappear, on Bybit a new size of the
ask the whole other side. On Lighter the bid at 99 stays after it was removed. -/
theorem update_taken_for_book :
    (let snapshot : Okx.OrderBook := { bids := [(99, 1)], asks := [(101, 2)] }
      let update : Okx.OrderBook := { bids := [(98, 3)] }
      ¬ @Follows .okx coin subscribedToBook 0 snapshot [.message 1 update]) ∧
    (let snapshot : Bybit.WSOrderBookMessage := { bids := [(99, 1)], asks := [(101, 2)] }
      let update : Bybit.WSOrderBookMessage := { asks := [(101, 5)] }
      ¬ @Follows (.bybit 50) coin subscribedToBook 0 snapshot [.message 1 update]) ∧
    (let snapshot : Lighter.WsOrderBookEvent := { bids := [(99, 1)], asks := [(101, 2)] }
      let update : Lighter.WsOrderBookEvent := { bids := [(99, 0)] }
      ¬ @Follows .lighter coin subscribedToBook 0 snapshot [.message 1 update]) := by
  refine ⟨?_, ?_, ?_⟩ <;> exact not_follows_of_bid 99 (by decide +kernel)

end Exchanges.Adapter
