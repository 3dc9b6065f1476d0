import Exchanges.Lib.Sorting
import Exchanges.Model.Commands
import Exchanges.Model.Subscriptions

/-!
The catalog of market events in memory.

A write validates all of its events before it appends any, and then sorts the
whole store by time. The sort is stable, and so are many of them one after the
other: for each time the store has the events of that time in the order in which
they were written. A query is a filter of the store, cut off at a limit.
-/

namespace Exchanges.Model

open Exchanges.Lib

/-! ### Requests and responses -/

abbrev DataRequestID := String

structure DataRequest where
  metadata : CommandMetadata := {}
  requestID : DataRequestID := ""
  instrumentID : InstrumentID := {}
  type : MarketDataType := .unset
  barType : BarType := {}
  start : Time := 0
  «end» : Time := 0
  limit : ℤ := 0
  depth : ℤ := 0
  customType : String := ""
  deriving DecidableEq, Repr, Inhabited

namespace DataRequest

/-- What a request of each type has to say. -/
def validateType (r : DataRequest) : Except Err Unit :=
  match r.type with
  | .bar => do
    r.barType.canonical.validate
    reject (r.barType.canonical.instrumentID ≠ r.instrumentID)
      (invalidMarketData "bar request instrument mismatch")
  | .orderBook => reject (r.depth ≤ 0)
      (invalidMarketData "order book request depth must be positive")
  | .custom => reject (r.customType = "") (invalidMarketData "missing custom data type")
  | _ => reject (r.depth < 0) (invalidMarketData "request depth cannot be negative")

def validate (r : DataRequest) : Except Err Unit := do
  reject (r.requestID = "") (invalidMarketData "missing request id")
  r.instrumentID.validate
  r.type.validate
  reject (r.limit < 0) (invalidMarketData "negative request limit")
  reject (r.start ≠ 0 ∧ r.end ≠ 0 ∧ ¬ r.start < r.end)
    (invalidMarketData "request end must be after start")
  r.validateType

end DataRequest

/-- The event has a payload of the type: `marketEventMatchesType`. The data package
has a copy of it, `marketEventMatchesRequestType`. -/
def MarketEvent.matchesType (event : MarketEvent) : MarketDataType → Bool
  | .ticker => event.ticker.isSome
  | .orderBook => event.orderBook.isSome
  | .tradeTick => event.trade.isSome
  | .quoteTick => event.quote.isSome
  | .bar => event.bar.isSome
  | .fundingRate => event.fundingRate.isSome
  | .custom => event.custom.isSome
  | _ => false

structure DataResponse where
  metadata : CommandMetadata := {}
  requestID : DataRequestID := ""
  instrumentID : InstrumentID := {}
  type : MarketDataType := .unset
  barType : BarType := {}
  events : List MarketEvent := []
  isFinal : Bool := false
  deriving DecidableEq, Repr, Inhabited

namespace DataResponse

def validateEvent (r : DataResponse) (event : MarketEvent) : Except Err Unit := do
  event.validate
  reject (event.instrumentID ≠ r.instrumentID) (invalidMarketData "response instrument mismatch")
  reject (¬ event.matchesType r.type) (invalidMarketData "response event type mismatch")

def validate (r : DataResponse) : Except Err Unit := do
  reject (r.requestID = "") (invalidMarketData "missing response request id")
  r.instrumentID.validate
  r.type.validate
  checkIf (r.type = .bar) do
    r.barType.canonical.validate
    reject (r.barType.canonical.instrumentID ≠ r.instrumentID)
      (invalidMarketData "bar response instrument mismatch")
  checkAll r.validateEvent r.events

end DataResponse

end Exchanges.Model

namespace Exchanges.Data

open Exchanges.Lib Exchanges.Model

/-! ### The catalog -/

/-- `marketEventTime`: the time of the first payload. -/
def marketEventTime (event : MarketEvent) : Time :=
  match event.ticker, event.orderBook, event.trade, event.quote, event.bar, event.fundingRate,
    event.custom with
  | some ticker, _, _, _, _, _, _ => ticker.timestamp
  | none, some book, _, _, _, _, _ => book.timestamp
  | none, none, some trade, _, _, _, _ => trade.timestamp
  | none, none, none, some quote, _, _, _ => quote.timestamp
  | none, none, none, none, some bar, _, _ => bar.timestamp
  | none, none, none, none, none, some funding, _ => funding.timestamp
  | none, none, none, none, none, none, some custom => custom.timestamp
  | none, none, none, none, none, none, none => 0

structure MemoryCatalog where
  events : List MarketEvent := []
  deriving DecidableEq

namespace MemoryCatalog

/-- `Write`. -/
def write (events : List MarketEvent) : Prog MemoryCatalog Err Unit := do
  Prog.lift (checkAll MarketEvent.validate events)
  Prog.modify fun c => { c with events := sortBy marketEventTime (c.events ++ events) }

/-- `NewMemoryCatalog`, which ignores an error of the write. -/
def new (events : List MarketEvent) : MemoryCatalog := ((write events).run {}).2

end MemoryCatalog

/-- `catalogEventMatches`. -/
def catalogEventMatches (request : DataRequest) (event : MarketEvent) : Bool :=
  if event.instrumentID ≠ request.instrumentID then false
  else if ¬ event.matchesType request.type then false
  else if request.start ≠ 0 ∧ marketEventTime event < request.start then false
  else if request.end ≠ 0 ∧ ¬ marketEventTime event < request.end then false
  else match request.type, event.bar, event.custom with
    | .bar, some bar, _ => decide (bar.barType.canonical = request.barType.canonical)
    | .custom, _, some custom => decide (custom.type = request.customType)
    | _, _, _ => true

/-- The loop of `Query`, with the events that were found before. -/
def collect (request : DataRequest) (found : List MarketEvent) :
    List MarketEvent → List MarketEvent
  | [] => found
  | event :: events =>
    if ¬ catalogEventMatches request event then collect request found events
    else if 0 < request.limit ∧ request.limit ≤ (found ++ [event]).length then found ++ [event]
    else collect request (found ++ [event]) events

/-- `responseMetadata`. -/
def responseMetadata (request : DataRequest) : CommandMetadata :=
  { request.metadata with
    correlationID := orDefault request.metadata.correlationID request.requestID }

/-- The error of a query that finds nothing. -/
def noCatalogData (request : DataRequest) : Err :=
  ⟨.invalidMarketData, "no catalog data for request", [request.requestID]⟩

/-- The response to a request. -/
def responseWith (request : DataRequest) (events : List MarketEvent) : DataResponse where
  metadata := responseMetadata request
  requestID := request.requestID
  instrumentID := request.instrumentID
  type := request.type
  barType := request.barType.canonical
  events := events
  isFinal := true

namespace MemoryCatalog

/-- `Query`. -/
def query (c : MemoryCatalog) (request : DataRequest) : Except Err DataResponse := do
  request.validate
  let events := collect request [] c.events
  reject (events = []) (noCatalogData request)
  (responseWith request events).validate
  return responseWith request events

/-- What a query answers, where to find nothing counts as an answer. -/
def answer (c : MemoryCatalog) (request : DataRequest) : Except Err (List MarketEvent) :=
  match c.query request with
  | .ok response => .ok response.events
  | .error err => if err = noCatalogData request then .ok [] else .error err

/-- The catalog after some writes. -/
def afterWrites (c : MemoryCatalog) (batches : List (List MarketEvent)) : MemoryCatalog :=
  batches.foldl (fun c events => ((write events).run c).2) c

end MemoryCatalog

/-! ### What was written -/

/-- The events of the writes that were accepted, in the order of writing. -/
def written (batches : List (List MarketEvent)) : List MarketEvent :=
  (batches.filter fun events => decide (∀ e ∈ events, e.validate = .ok ())).flatten

/-- The store has the events written so far, sorted by time, and those of one time
in the order of writing. -/
structure Stores (c : MemoryCatalog) (events : List MarketEvent) : Prop where
  valid : ∀ e ∈ c.events, e.validate = .ok ()
  sorted : c.events.Pairwise fun e f => marketEventTime e ≤ marketEventTime f
  stable : ∀ t, c.events.filter (fun e => marketEventTime e = t) =
    events.filter fun e => marketEventTime e = t

section Writes

variable {c : MemoryCatalog} {events stored : List MarketEvent}

theorem run_write_valid (c : MemoryCatalog) (h : ∀ e ∈ events, e.validate = .ok ()) :
    (MemoryCatalog.write events).run c =
      (.ok (), { c with events := sortBy marketEventTime (c.events ++ events) }) := by
  have hcheck : (Prog.lift (checkAll MarketEvent.validate events) : Prog MemoryCatalog Err Unit).run
      c = (.ok (), c) := by
    rw [checkAll_eq_ok.mpr h]
    rfl
  rw [MemoryCatalog.write, Prog.run_bind_ok hcheck]
  rfl

theorem run_write_invalid (c : MemoryCatalog) (h : ¬ ∀ e ∈ events, e.validate = .ok ()) :
    ∃ err, (MemoryCatalog.write events).run c = (.error err, c) := by
  cases hcheck : checkAll MarketEvent.validate events with
  | ok u => exact absurd (checkAll_eq_ok.mp hcheck) h
  | error err =>
    have hlift : (Prog.lift (checkAll MarketEvent.validate events) :
        Prog MemoryCatalog Err Unit).run c = (.error err, c) := by
      rw [hcheck]
      rfl
    exact ⟨err, by rw [MemoryCatalog.write, Prog.run_bind_error hlift]⟩

theorem Stores.write (h : Stores c stored) (hevents : ∀ e ∈ events, e.validate = .ok ()) :
    Stores ((MemoryCatalog.write events).run c).2 (stored ++ events) := by
  rw [run_write_valid c hevents]
  refine ⟨fun e he => ?_, pairwise_sortBy marketEventTime _, fun t => ?_⟩
  · rcases List.mem_append.mp (mem_sortBy.mp he) with he | he
    · exact h.valid e he
    · exact hevents e he
  · rw [filter_sortBy, List.filter_append, h.stable, List.filter_append]

theorem stores_afterWrites (batches : List (List MarketEvent)) :
    ∀ {c : MemoryCatalog} {stored : List MarketEvent}, Stores c stored →
      Stores (c.afterWrites batches) (stored ++ written batches) := by
  induction batches with
  | nil =>
    intro c stored h
    rwa [written, List.filter_nil, List.flatten_nil, List.append_nil]
  | cons events batches ih =>
    intro c stored h
    have hstep : c.afterWrites (events :: batches) =
        (((MemoryCatalog.write events).run c).2).afterWrites batches := rfl
    rw [hstep, written]
    by_cases hevents : ∀ e ∈ events, e.validate = .ok ()
    · rw [List.filter_cons_of_pos (by simpa using hevents), List.flatten_cons,
        ← List.append_assoc]
      exact ih (h.write hevents)
    · obtain ⟨err, hrun⟩ := run_write_invalid c hevents
      rw [hrun, List.filter_cons_of_neg (by simpa using hevents)]
      exact ih h

/-- A catalog that was made with some events and written to since. -/
theorem stores_empty (batches : List (List MarketEvent)) :
    Stores (MemoryCatalog.afterWrites {} batches) (written batches) := by
  have hempty : Stores {} [] := ⟨by simp, .nil, fun _ => rfl⟩
  simpa using stores_afterWrites batches hempty

end Writes

/-! ### Queries -/

section Queries

variable {c : MemoryCatalog} {request : DataRequest} {stored : List MarketEvent}

/-- The list, cut to the limit if there is one. -/
def limited (request : DataRequest) (events : List MarketEvent) : List MarketEvent :=
  if 0 < request.limit then events.take request.limit.toNat else events

theorem mem_of_mem_limited {events : List MarketEvent} {e : MarketEvent}
    (h : e ∈ limited request events) : e ∈ events := by
  unfold limited at h
  split_ifs at h
  · exact List.mem_of_mem_take h
  · exact h

theorem collect_eq (request : DataRequest) (events : List MarketEvent) :
    ∀ found : List MarketEvent, (0 < request.limit → found.length < request.limit.toNat) →
      collect request found events =
        limited request (found ++ events.filter (catalogEventMatches request)) := by
  induction events with
  | nil =>
    intro found hfound
    rw [collect, List.filter_nil, List.append_nil, limited]
    split_ifs with hlimit
    · rw [List.take_of_length_le (hfound hlimit).le]
    · rfl
  | cons event events ih =>
    intro found hfound
    rw [collect]
    by_cases hmatch : catalogEventMatches request event = true
    · rw [if_neg (not_not.mpr hmatch), List.filter_cons_of_pos hmatch,
        List.append_cons found event (events.filter (catalogEventMatches request))]
      split_ifs with hfull
      · -- the limit is reached with this event
        have hlength : (found ++ [event]).length = request.limit.toNat := by
          have hbefore := hfound hfull.1
          have hafter := hfull.2
          rw [List.length_append, List.length_singleton] at hafter ⊢
          omega
        rw [limited, if_pos hfull.1, ← hlength, List.take_left]
      · refine ih (found ++ [event]) fun hlimit => ?_
        have hroom : ¬ request.limit ≤ (found ++ [event]).length := fun hle =>
          hfull ⟨hlimit, hle⟩
        omega
    · rw [if_pos hmatch, List.filter_cons_of_neg hmatch]
      exact ih found hfound

/-- What a request asks for beside the window of time. -/
def ofKind (request : DataRequest) (event : MarketEvent) : Bool :=
  catalogEventMatches { request with start := 0, «end» := 0 } event

theorem catalogEventMatches_eq (request : DataRequest) (event : MarketEvent) :
    catalogEventMatches request event = (ofKind request event &&
      (decide (request.start ≠ 0 → request.start ≤ marketEventTime event) &&
        decide (request.end ≠ 0 → marketEventTime event < request.end))) := by
  unfold ofKind catalogEventMatches
  by_cases hid : event.instrumentID = request.instrumentID
  · by_cases htype : event.matchesType request.type = true
    · by_cases hstart : request.start ≠ 0 ∧ marketEventTime event < request.start
      · simp [hid, htype, hstart]
      · by_cases hend : request.end ≠ 0 ∧ ¬ marketEventTime event < request.end
        · simp [hid, htype, hstart, hend]
        · have hstart' : request.start ≠ 0 → request.start ≤ marketEventTime event :=
            fun hne => not_lt.mp fun hlt => hstart ⟨hne, hlt⟩
          have hend' : request.end ≠ 0 → marketEventTime event < request.end :=
            fun hne => not_not.mp fun hlt => hend ⟨hne, hlt⟩
          rw [if_neg (not_not.mpr hid), if_neg (not_not.mpr htype), if_neg hstart, if_neg hend,
            decide_eq_true hstart', decide_eq_true hend']
          simp [hid, htype]
    · simp [hid, htype]
  · simp [hid]

theorem matches_kind {event : MarketEvent} (h : catalogEventMatches request event = true) :
    event.instrumentID = request.instrumentID ∧ event.matchesType request.type = true := by
  unfold catalogEventMatches at h
  split_ifs at h with hid htype
  exact ⟨not_not.mp hid, htype⟩

/-- The response to a valid request is valid. -/
theorem validate_responseWith (hvalid : request.validate = .ok ()) {events : List MarketEvent}
    (hevents : ∀ e ∈ events, e.validate = .ok () ∧ catalogEventMatches request e = true) :
    (responseWith request events).validate = .ok () := by
  simp only [DataRequest.validate, except_seq_eq_ok, reject_eq_ok] at hvalid
  obtain ⟨hid, hinstrument, htype, -, -, hkind⟩ := hvalid
  simp only [DataResponse.validate, except_seq_eq_ok, reject_eq_ok, checkIf_eq_ok, checkAll_eq_ok]
  refine ⟨hid, hinstrument, htype, fun hbar => ?_, fun e he => ?_⟩
  · have hbar : request.type = .bar := hbar
    simp only [DataRequest.validateType, hbar, except_seq_eq_ok, reject_eq_ok] at hkind
    simpa [responseWith, BarType.canonical_canonical] using hkind
  · obtain ⟨hvalid, hmatch⟩ := hevents e he
    obtain ⟨hinst, htyped⟩ := matches_kind hmatch
    simp only [DataResponse.validateEvent, except_seq_eq_ok, reject_eq_ok, not_not]
    exact ⟨hvalid, hinst, htyped⟩

/-- A query finds the matching events of the store, up to the limit. -/
theorem query_eq (hc : Stores c stored) (hvalid : request.validate = .ok ()) :
    c.query request =
      if limited request (c.events.filter (catalogEventMatches request)) = [] then
        .error (noCatalogData request)
      else .ok (responseWith request
        (limited request (c.events.filter (catalogEventMatches request)))) := by
  have hcollect : collect request [] c.events =
      limited request (c.events.filter (catalogEventMatches request)) := by
    rw [collect_eq request c.events [] fun hlimit => by simpa using hlimit, List.nil_append]
  unfold MemoryCatalog.query
  rw [hvalid, hcollect]
  split_ifs with hnone
  · rw [hnone]
    rfl
  · have hevents : ∀ e ∈ limited request (c.events.filter (catalogEventMatches request)),
        e.validate = .ok () ∧ catalogEventMatches request e = true := fun e he => by
      obtain ⟨hmem, hmatch⟩ := List.mem_filter.mp (mem_of_mem_limited he)
      exact ⟨hc.valid e hmem, hmatch⟩
    simp only [reject, if_neg hnone, validate_responseWith hvalid hevents]
    rfl

theorem answer_eq (hc : Stores c stored) (hvalid : request.validate = .ok ()) :
    c.answer request =
      .ok (limited request (c.events.filter (catalogEventMatches request))) := by
  rw [MemoryCatalog.answer, query_eq hc hvalid]
  split_ifs with hnone
  · rw [hnone]
    exact if_pos rfl
  · rfl

/-- The matching events of one time are those that were written, in order. -/
theorem Stores.filter_matches (hc : Stores c stored) (request : DataRequest) (t : Time) :
    (c.events.filter (catalogEventMatches request)).filter (fun e => marketEventTime e = t) =
      (stored.filter (catalogEventMatches request)).filter fun e => marketEventTime e = t := by
  rw [List.filter_comm, hc.stable t, List.filter_comm]

end Queries

/-! ### Windows -/

section Windows

variable {c : MemoryCatalog} {request : DataRequest} {stored : List MarketEvent}

/-- The request for a window of time, without a limit. -/
def window (request : DataRequest) (start stop : Time) : DataRequest :=
  { request with start := start, «end» := stop, limit := 0 }

theorem validate_window (hvalid : request.validate = .ok ()) {start stop : Time}
    (h : start < stop) : (window request start stop).validate = .ok () := by
  simp only [DataRequest.validate, except_seq_eq_ok, reject_eq_ok] at hvalid ⊢
  obtain ⟨hid, hinstrument, htype, -, -, hkind⟩ := hvalid
  exact ⟨hid, hinstrument, htype, lt_irrefl _, fun hwindow => hwindow.2.2 h, hkind⟩

theorem matches_window {start stop : Time} (hstart : start ≠ 0) (hstop : stop ≠ 0)
    (event : MarketEvent) : catalogEventMatches (window request start stop) event =
      (ofKind (window request 0 0) event &&
        (decide (start ≤ marketEventTime event) && decide (marketEventTime event < stop))) := by
  rw [catalogEventMatches_eq]
  simp [window, ofKind, hstart, hstop]

theorem answer_window (hc : Stores c stored) (hvalid : request.validate = .ok ())
    {start stop : Time} (h : start < stop) :
    c.answer (window request start stop) =
      .ok (c.events.filter (catalogEventMatches (window request start stop))) := by
  rw [answer_eq hc (validate_window hvalid h)]
  rfl

theorem filter_window (hc : Stores c stored) {start mid stop : Time} (hstart : start ≠ 0)
    (hmid : mid ≠ 0) (hstop : stop ≠ 0) (hlt : start < mid) (hlt' : mid < stop) :
    c.events.filter (catalogEventMatches (window request start stop)) =
      c.events.filter (catalogEventMatches (window request start mid)) ++
        c.events.filter (catalogEventMatches (window request mid stop)) := by
  have hsorted := hc.sorted.filter (catalogEventMatches (window request start stop))
  rw [← filter_lt_append_filter_le hsorted mid, List.filter_filter, List.filter_filter]
  congr 1
  · refine List.filter_congr fun e _ => ?_
    rw [matches_window hstart hstop, matches_window hstart hmid]
    by_cases hbefore : marketEventTime e < mid
    · simp [hbefore, hbefore.trans hlt']
    · simp [hbefore]
  · refine List.filter_congr fun e _ => ?_
    rw [matches_window hstart hstop, matches_window hmid hstop]
    by_cases hafter : mid ≤ marketEventTime e
    · simp [hafter, hlt.le.trans hafter]
    · simp [hafter]

end Windows

/-- After any writes, a write with an invalid event changes nothing. A valid request
gets the written events that match it by time, those of one time in the order of
writing, up to its limit; and the events of a window of time are those of its two
parts, one after the other. -/
theorem query_of_writes (first : List MarketEvent) (batches : List (List MarketEvent))
    (request : DataRequest) (hvalid : request.validate = .ok ()) :
    let c := (MemoryCatalog.new first).afterWrites batches
    (∀ events : List MarketEvent, (∃ e ∈ events, e.validate ≠ .ok ()) →
      ∃ err, (MemoryCatalog.write events).run c = (.error err, c)) ∧
    (∃ found : List MarketEvent,
      found.Pairwise (fun e f => marketEventTime e ≤ marketEventTime f) ∧
      (∀ t, found.filter (fun e => marketEventTime e = t) =
        ((written (first :: batches)).filter (catalogEventMatches request)).filter
          fun e => marketEventTime e = t) ∧
      c.query request =
        if limited request found = [] then .error (noCatalogData request)
        else .ok (responseWith request (limited request found))) ∧
    ∀ start mid stop : Time, start ≠ 0 → mid ≠ 0 → stop ≠ 0 → start < mid → mid < stop →
      ∃ before after, c.answer (window request start mid) = .ok before ∧
        c.answer (window request mid stop) = .ok after ∧
        c.answer (window request start stop) = .ok (before ++ after) := by
  intro c
  have hc : Stores c (written (first :: batches)) := stores_empty (first :: batches)
  refine ⟨fun events hinvalid => run_write_invalid c ?_, ⟨_, hc.sorted.filter _,
    hc.filter_matches request, query_eq hc hvalid⟩,
    fun start mid stop hstart hmid hstop hlt hlt' => ?_⟩
  · obtain ⟨e, he, hne⟩ := hinvalid
    exact fun hall => hne (hall e he)
  · refine ⟨_, _, answer_window hc hvalid hlt, answer_window hc hvalid hlt', ?_⟩
    rw [answer_window hc hvalid (hlt.trans hlt'), filter_window hc hstart hmid hstop hlt hlt']

/-- A trade of the given id and time. -/
def catalogTrade (tradeID : String) (timestamp : Time) : MarketEvent where
  trade := some {
    instrumentID := ⟨"BTC-USDT-PERP", "BINANCE"⟩
    price := 100
    size := 1
    aggressorSide := .buyer
    tradeID := tradeID
    timestamp := timestamp }

def tradeRequest : DataRequest where
  requestID := "r"
  instrumentID := ⟨"BTC-USDT-PERP", "BINANCE"⟩
  type := .tradeTick
  limit := 2

/-- Three trades in two writes, of which the last is the first in time. -/
theorem query_of_writes_trades :
    let c := (MemoryCatalog.new [catalogTrade "a" 5]).afterWrites
      [[catalogTrade "b" 5, catalogTrade "c" 3]]
    (∃ err, (MemoryCatalog.write [{}]).run c = (.error err, c)) ∧
    c.query tradeRequest =
      .ok (responseWith tradeRequest [catalogTrade "c" 3, catalogTrade "a" 5]) ∧
    c.answer (window tradeRequest 3 9) =
      .ok [catalogTrade "c" 3, catalogTrade "a" 5, catalogTrade "b" 5] ∧
    ∃ before after, c.answer (window tradeRequest 3 5) = .ok before ∧
      c.answer (window tradeRequest 5 9) = .ok after ∧
      c.answer (window tradeRequest 3 9) = .ok (before ++ after) :=
  have hall := query_of_writes [catalogTrade "a" 5] [[catalogTrade "b" 5, catalogTrade "c" 3]]
    tradeRequest (by decide +kernel)
  ⟨hall.1 _ ⟨{}, by decide +kernel⟩, by decide +kernel, by decide +kernel,
    hall.2.2 3 5 9 (by decide) (by decide) (by decide) (by decide) (by decide)⟩

end Exchanges.Data
