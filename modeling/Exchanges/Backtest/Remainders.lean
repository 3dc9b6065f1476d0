import Exchanges.Account.OpenOrders
import Exchanges.Backtest.Positions

/-!
What is left to fill of the open orders of a backtest.

A fill closes an order of which nothing is left, and of a new order everything is left.
A modification is the exception: it may set the quantity of an order to what is filled of
it, and the order stays open. The results say that this is the only way: in a run all open
orders have something left to fill, at every moment, exactly if no modification does so.

Some steps use a version of an order that was read earlier. Of such a version it is known
that something is left, unless there was such a modification before (`Known`).
-/

namespace Exchanges.Backtest

open Exchanges.Lib Exchanges.Model Exchanges.Account Exchanges.Cache Relation

set_option linter.unusedSectionVars false

/-- If the order is open and has a quantity, something of it is left to fill. -/
def Unfinished (o : OrderStatusReport) : Prop :=
  o.status.isOpen = true → 0 < o.quantity → o.filledQuantity < o.quantity

def AllUnfinished (c : Cache) : Prop := ∀ key o, c.orders.get key = some o → Unfinished o

/-- The entry tells of a modification that was taken and set the quantity of a stored order
to what is filled of it. -/
def Entry.UsesUp : Entry → Prop
  | .reported _ before report (.ok ()) => report.status = .accepted ∧ 0 < report.quantity ∧
      report.filledQuantity = report.quantity ∧
        ∃ o ∈ before.order report.accountID report.orderID, o.quantity ≠ report.quantity
  | _ => False

instance : DecidablePred Entry.UsesUp
  | .reported _ _ _ (.ok ()) => inferInstanceAs (Decidable (_ ∧ _))
  | .reported _ _ _ (.error _) | .market .. | .clock .. | .callback .. | .commanded _ | .listed _
  | .accepted .. | .tested .. | .filled .. | .positioned .. => isFalse id

/-- The cache that an entry tells of: the one before what it tells of. -/
def Entry.told : Entry → Option Cache
  | .clock _ _ _ c | .callback _ c | .reported _ c _ _ | .tested _ c | .filled _ c _ _
  | .positioned c _ _ => some c
  | .market .. | .commanded _ | .listed _ | .accepted .. => none

/-- All open orders have something left to fill, now and at every earlier moment. -/
structure AlwaysUnfinished (r : Runtime) : Prop where
  now : AllUnfinished r.cache
  before : ∀ e ∈ r.trace, ∀ c ∈ e.told, AllUnfinished c

section Remainders

variable [DecimalPackage] {c c' : Cache} {o report : OrderStatusReport} {r r' : Runtime}

/-! ### Versions of an order -/

theorem unfinished_of_closed (h : o.status.isOpen = false) : Unfinished o := fun hopen => by
  rw [h] at hopen
  cases hopen

/-- After a fill something is left, or the order is closed. -/
theorem unfinished_applyFillToOrder (o : OrderStatusReport) (f : FillReport) :
    Unfinished (applyFillToOrder o f) := by
  intro hopen hpos
  rw [applyFillToOrder_quantity] at hpos ⊢
  rw [applyFillToOrder_filledQuantity]
  by_contra hfull
  rw [applyFillToOrder, if_pos hpos, if_pos (not_lt.mp hfull)] at hopen
  cases hopen

theorem Unfinished.fillAll (h : Unfinished o) (fills : List FillReport) :
    Unfinished (fillAll o fills) := by
  induction fills generalizing o with
  | nil => exact h
  | cons f fills ih => exact ih (unfinished_applyFillToOrder o f)

theorem unfinished_normalizeOrder : Unfinished (normalizeOrder o) ↔ Unfinished o := by
  unfold Unfinished
  rw [normalizeOrder_status, normalizeOrder_quantity, normalizeOrder_filledQuantity]
  refine forall_congr' fun hopen => ?_
  rw [if_neg]
  rintro ⟨hstatus, -⟩
  rw [hstatus] at hopen
  cases hopen

/-- A report leaves something to fill exactly if the order does that it is stored as. -/
theorem StoredAs.unfinished_iff (h : StoredAs c report o) : Unfinished o ↔ Unfinished report := by
  cases h with
  | managed follows => exact unfinished_normalizeOrder
  | @accepted s accepted =>
    have hstatus : Unfinished { report with status := s } ↔ Unfinished report := by
      unfold Unfinished
      rw [accepted.isOpen_eq]
    rw [← hstatus, ← unfinished_normalizeOrder (o := { report with status := s })]
    refine ⟨fun h => ?_, fun h => h.fillAll _⟩
    by_cases hzero : report.filledQuantity = 0
    · -- only a report without fills is completed with those that are stored
      rw [unfinished_normalizeOrder]
      exact fun _ hpos => hzero ▸ hpos
    · rwa [outcome, replayedFills, if_neg hzero, fillAll_nil] at h

/-- The quantities of a report are those of the order, which is open. -/
theorem Revises.unfinished (h : Revises o report) (hopen : o.status.isOpen = true)
    (ho : Unfinished o) : Unfinished report := by
  intro _ hpos
  rw [h.quantity] at hpos ⊢
  rw [h.filledQuantity]
  exact ho hopen hpos

/-! ### Caches -/

theorem AllUnfinished.congr (h : AllUnfinished c) (horders : c'.orders = c.orders) :
    AllUnfinished c' := by
  rw [AllUnfinished, horders]
  exact h

theorem AllUnfinished.storeOrder (h : AllUnfinished c) (hc : OrdersIndexed c)
    (ho : Unfinished o) (horders : c'.orders = (c.storeOrder o).orders) : AllUnfinished c' := by
  intro key e he
  rw [horders] at he
  obtain rfl | hold := orders_of_storeOrder hc he
  · exact ho
  · exact h key e hold

theorem AllUnfinished.of_storeOrder (h : AllUnfinished c')
    (horders : c'.orders = (c.storeOrder o).orders) : Unfinished o :=
  h (o.accountID, o.orderID) o (by rw [horders, order_storeOrder_self])

/-! ### Steps -/

/-- There was a modification that left nothing to fill. -/
def UsedUp (r : Runtime) : Prop := ∃ e ∈ r.trace, e.UsesUp

/-- What is known of a version of an order. -/
def Known (r : Runtime) (o : OrderStatusReport) : Prop := UsedUp r ∨ Unfinished o

structure Watched (r : Runtime) : Prop where
  sound : Sound r.cache
  consumed : Consumed r
  unfinished : UsedUp r ∨ AlwaysUnfinished r

variable {setup : Setup} {V : OrderStatusReport → Prop}

theorem UsedUp.extends {cfg : Config} {matched : Option Matched} (h : UsedUp r)
    (hextends : Extends cfg matched r r') : UsedUp r' := by
  obtain ⟨e, he, huses⟩ := h
  obtain ⟨entries, heq, -⟩ := hextends
  exact ⟨e, by simp [heq, he], huses⟩

theorem told_logs {cfg : Config} {matched : Option Matched} {e : Entry}
    (h : Logs cfg r r' matched e) : ∀ c ∈ e.told, c = r.cache := by
  cases h <;> simp [Entry.told]

/-- A modification leaves something to fill, or it is one that is told of. -/
theorem usesUp_or_unfinished {t : Time} (h : Modified o report)
    (ho : c.order report.accountID report.orderID = some o) (hunfinished : Unfinished o) :
    (Entry.reported t c report (.ok ())).UsesUp ∨ Unfinished report := by
  rw [or_iff_not_imp_right]
  intro hreport
  unfold Unfinished at hreport
  push Not at hreport
  obtain ⟨-, hpos, hfull⟩ := hreport
  have hchanged : o.quantity ≠ report.quantity := by
    intro heq
    rw [h.filledQuantity, ← heq] at hfull
    exact absurd (hunfinished h.wasOpen (heq ▸ hpos)) (not_lt.mpr hfull)
  obtain ⟨hsame, -⟩ | ⟨hle, -⟩ := h.quantity
  · exact absurd hsame.symm hchanged
  · rw [← h.filledQuantity] at hle
    exact ⟨h.status, hpos, le_antisymm hle hfull, o, ho, hchanged⟩

/-- What is stored of an order is found under its ids. -/
theorem order_of_cached (hr : Sound r.cache) (h : Cached r o) :
    r.cache.order o.accountID o.orderID = some o := by
  obtain ⟨⟨a, i⟩, hget⟩ := h
  obtain ⟨rfl, rfl, -⟩ := hr.reachable.consistent.orders.keyed a i o hget
  exact hget

theorem known_of_reportOf (hr : Sound r.cache) (hall : AllUnfinished r.cache)
    (h : ReportOf (Known r) r report) : UsedUp r ∨
      (Entry.reported r.currentTime r.cache report (.ok ())).UsesUp ∨ Unfinished report := by
  have hcached : ∀ {o}, Cached r o → Unfinished o := fun ⟨key, hget⟩ => hall key _ hget
  cases h with
  | acceptance valid => exact .inr (.inr fun _ hpos => hpos)
  | storing storing =>
    refine .inr ?_
    cases storing with
    | canceled cached isOpen revises status =>
      exact .inr (unfinished_of_closed (by rw [status]; rfl))
    | modified cached modified =>
      refine usesUp_or_unfinished modified ?_ (hcached cached)
      rw [modified.accountID, modified.orderID]
      exact order_of_cached hr cached
    | @queried o cached revises status =>
      refine .inr fun hopen => ?_
      exact revises.unfinished (status ▸ hopen) (hcached cached) hopen
  | amendment amendment =>
    cases amendment with
    | fresh cached isOpen revises status =>
      exact .inr (.inr (revises.unfinished isOpen (hcached cached)))
    | stored stored known =>
      obtain (hused | hunfinished) | hcanceled := known
      · exact .inl hused
      · exact .inr (.inr hunfinished)
      · exact .inr (.inr (unfinished_of_closed (by rw [hcanceled]; rfl)))
    | triggered admissible isOpen revises status tested =>
      exact admissible.imp_right fun ho => .inr (revises.unfinished isOpen ho)
    | expired admissible isOpen revises status =>
      exact .inr (.inr (unfinished_of_closed (by rw [status]; rfl)))

/-- Unless it is a modification that leaves nothing to fill, a step leaves something to
fill of every order. -/
theorem Step.allUnfinished {cfg : Config} {G : Runtime → Matched → Prop}
    (h : Step cfg (Known r) G r r') (hr : Sound r.cache) (hall : AllUnfinished r.cache) :
    UsedUp r' ∨ AllUnfinished r'.cache := by
  have hindexed := hr.reachable.consistent.orders
  cases h with
  | plain step =>
    obtain ⟨hsame, -⟩ | @⟨report, o, -, hof, htrace, hstored, horders⟩ := step.orders hr
    · exact .inr (hall.congr hsame)
    · obtain hused | huses | hreport := known_of_reportOf hr hall hof
      · exact .inl (hused.extends step.extends)
      · exact .inl ⟨_, by simp [htrace], huses⟩
      · exact .inr (hall.storeOrder hindexed (hstored.unfinished_iff.mpr hreport) horders)
  | @filled m drawn fits guard =>
    obtain hsame | ⟨o, -, -, -, horders⟩ := orders_booked hr m drawn
    · exact .inr (hall.congr hsame)
    · exact .inr (hall.storeOrder hindexed (unfinished_applyFillToOrder o m.fill) horders)

/-! ### Runs -/

theorem AlwaysUnfinished.extends {cfg : Config} {matched : Option Matched}
    (h : AlwaysUnfinished r) (hextends : Extends cfg matched r r')
    (hnow : AllUnfinished r'.cache) : AlwaysUnfinished r' := by
  refine ⟨hnow, fun e he c hc => ?_⟩
  rcases hextends.mem he with hold | hnew
  · exact h.before e hold c hc
  · rw [told_logs hnew c hc]
    exact h.now

/-- The moves that use known versions of orders only. -/
abbrev KnowingMove (setup : Setup) : Runtime → Runtime → Prop :=
  Move (fun r r' => AnyStep setup.cfg (Known r) r r') setup.events

theorem KnowingMove.here (h : KnowingMove setup r r') :
    Move (AnyStep setup.cfg (Known r)) setup.events r r' := by
  cases h with
  | step step => exact .step step
  | clock tick t due => exact .clock r tick t due
  | market now => exact .market r now

theorem stable_known (setup : Setup) (o : OrderStatusReport) :
    Stable (Known · o) (KnowingMove setup) := by
  intro r r' hmove hr
  obtain ⟨matched, hextends, -⟩ := (KnowingMove.here hmove).extends
  exact hr.imp_left fun hused => hused.extends hextends

theorem stable_watched (setup : Setup) : Stable Watched (KnowingMove setup) := by
  intro r r' hmove hr
  have hhere := KnowingMove.here hmove
  obtain ⟨matched, hextends, -⟩ := hhere.extends
  refine ⟨stable_sound setup.events r r' hhere hr.sound,
    stable_consumed _ _ _ _ r r' hhere hr.consumed, ?_⟩
  obtain hused | halways := hr.unfinished
  · exact .inl (hused.extends hextends)
  · have hnow : UsedUp r' ∨ AllUnfinished r'.cache := by
      cases hmove with
      | step step => exact step.allUnfinished hr.sound halways.now
      | clock tick t due => exact .inr halways.now
      | @market event now =>
        obtain ⟨_, _, heq⟩ := rememberEvent_eq event r
        exact .inr (halways.now.congr (by rw [Runtime.withMarket, heq]))
    exact hnow.imp_right (halways.extends hextends)

theorem ground_known (setup : Setup) :
    Ground setup.cfg Known Watched fun r r' => AnyStep setup.cfg (Known r) r r' where
  acceptance _ := .inr fun _ hpos => hpos
  modified := by
    intro r r' o report hr hcached hmodified hstored
    rw [run_storeReport] at hstored
    obtain ⟨hok, rfl⟩ := Prod.mk.inj hstored
    obtain ⟨e, he, huses⟩ | halways := hr.unfinished
    · exact .inl ⟨e, List.mem_append_left _ he, huses⟩
    · obtain ⟨key, hget⟩ := hcached
      have ho := order_of_cached hr.sound ⟨key, hget⟩
      rw [← hmodified.accountID, ← hmodified.orderID] at ho
      refine (usesUp_or_unfinished (t := r.currentTime) hmodified ho
        (halways.now key o hget)).imp_left fun huses => ?_
      exact ⟨_, by simp [hok], huses⟩
  triggered hknown hopen hrevises _ := hknown.imp_right (hrevises.unfinished hopen)
  stored hr := by
    rintro ⟨key, hget⟩
    exact hr.unfinished.imp_right fun halways => halways.now key _ hget
  kept o r r' hstep := stable_known setup o r r' (.step hstep)
  consumed hr := hr.consumed
  stable r r' hstep := stable_watched setup r r' (.step hstep)
  plain := .plain

theorem watched_result (setup : Setup) {c : Cache} (p : Portfolio) (hc : Sound c)
    (hstart : AllUnfinished c) : Watched (setup.result c p) := by
  have hinit : Watched (initial c p) :=
    ⟨hc, fun _ _ => le_rfl, .inr ⟨hstart, fun e he => by simp [initial] at he⟩⟩
  refine (stable_watched setup).star (moves_result ?_ (stable_watched setup)
    (stable_known setup) Step.currentTime hinit) hinit
  exact (ground_known setup).closed setup.strategies setup.depth

/-! ### The other direction -/

theorem Entry.UsesUp.reported {e : Entry} (h : e.UsesUp) :
    ∃ t c report, e = .reported t c report (.ok ()) ∧ ¬ Unfinished report := by
  unfold Entry.UsesUp at h
  split at h
  · next t c report =>
      obtain ⟨hstatus, hpos, hfull, -⟩ := h
      refine ⟨t, c, report, rfl, fun hunfinished => ?_⟩
      exact (hunfinished (by rw [hstatus]; rfl) hpos).ne hfull
  · exact h.elim

/-- A move that changes the orders tells of the cache before it. -/
theorem told_of_changed (hmove : AnyMove setup r r') (hr : Sound r.cache) :
    r'.cache.orders = r.cache.orders ∨ ∃ e ∈ r'.trace, e.told = some r.cache := by
  cases hmove with
  | step step =>
    cases step with
    | plain step =>
      obtain ⟨hsame, -⟩ | ⟨-, -, htrace, -, -⟩ := step.orders hr
      · exact .inl hsame
      · exact .inr ⟨_, by rw [htrace]; exact List.mem_concat_self, rfl⟩
    | @filled m drawn fits guard =>
      obtain hsame | ⟨o, -, -, hmem, -⟩ := orders_booked hr m drawn
      · exact .inl hsame
      · exact .inr ⟨_, hmem, rfl⟩
  | clock tick t due => exact .inl rfl
  | @market event now =>
    obtain ⟨_, _, heq⟩ := rememberEvent_eq event r
    exact .inl (by rw [Runtime.withMarket, heq])

/-- After a modification that leaves nothing to fill, an order is stored like that. -/
theorem mem_of_usesUp (hmove : AnyMove setup r r') (hr : Sound r.cache)
    (hall : AllUnfinished r'.cache) {e : Entry} (he : e ∈ r'.trace) (huses : e.UsesUp) :
    e ∈ r.trace := by
  obtain ⟨t, c, report, rfl, hfull⟩ := huses.reported
  cases hmove with
  | step step =>
    cases step with
    | plain step =>
      obtain ⟨-, huntaken⟩ | ⟨-, -, htrace, hstored, horders⟩ := step.orders hr
      · exact huntaken t c report he
      · rw [htrace, List.mem_append, List.mem_singleton] at he
        obtain hold | hnew := he
        · exact hold
        · cases hnew
          exact absurd (hstored.unfinished_iff.mp (hall.of_storeOrder horders)) hfull
    | @filled m drawn fits guard =>
      obtain htrace | htrace | htrace := booked_trace r m drawn <;> simpa [htrace] using he
  | clock tick t' due => simpa [Runtime.atTime] using he
  | @market event now =>
    obtain ⟨_, _, heq⟩ := rememberEvent_eq event r
    simpa [Runtime.withMarket, heq] using he

theorem stable_notUsedUp (setup : Setup) : Stable
    (fun r => Sound r.cache ∧ (AlwaysUnfinished r → ¬ UsedUp r)) (AnyMove setup) := by
  rintro r r' hmove ⟨hsound, hr⟩
  refine ⟨stable_sound setup.events r r' hmove hsound, ?_⟩
  rintro halways ⟨e, he, huses⟩
  obtain ⟨matched, ⟨entries, htrace, -⟩, -⟩ := hmove.extends
  have hbefore : AlwaysUnfinished r := by
    refine ⟨?_, fun e he => halways.before e (by simp [htrace, he])⟩
    obtain hsame | ⟨e, he, htold⟩ := told_of_changed hmove hsound
    · exact halways.now.congr hsame.symm
    · exact halways.before e he _ htold
  exact hr hbefore ⟨e, mem_of_usesUp hmove hsound halways.now he huses, huses⟩

/-- In every run, from any sound cache, all open orders have something left to fill at
every moment exactly if no modification sets the quantity of an order to what is filled. -/
theorem open_orders_unfinished_iff (setup : Setup) {c : Cache} (p : Portfolio) (hc : Sound c)
    (hstart : AllUnfinished c) : AlwaysUnfinished (setup.result c p) ↔
      ∀ e ∈ (setup.result c p).trace, ¬ e.UsesUp := by
  constructor
  · intro halways e he huses
    have hinit : ¬ UsedUp (initial c p) := by simp [UsedUp, initial]
    exact (of_result (stable_notUsedUp setup) ⟨hc, fun _ => hinit⟩).2 halways ⟨e, he, huses⟩
  · intro hnone
    obtain ⟨e, he, huses⟩ | halways := (watched_result setup p hc hstart).unfinished
    · exact absurd huses (hnone e he)
    · exact halways

end Remainders

/-! ### An order that is filled in part -/

/-- A strategy that buys two from a book and then modifies the order to another quantity. -/
def buyThenModify (quantity : Decimal) : Strategy := .answering "buyer"
  (fun event => if event.orderBook.isSome then [.submitOrder { sampleBuy with quantity := 2 }]
    else [.modifyOrder { accountID := "acct", instrumentID := samplePerp, clientOrderID := "buy"
                         quantity := quantity }])
  fun _ => []

/-- The book has one unit, so that the order is half filled when news of another instrument
arrive and it is modified. -/
def modifiedSetup (quantity : Decimal) : Setup :=
  { strategies := [buyThenModify quantity]
    events := [sampleAsks 1 [⟨100, 1⟩], ⟨2, .marketData, .market
      { ticker := some { instrumentID := ⟨"ETH-USDT-PERP", "BINANCE"⟩, last := 5, timestamp := 2 } }⟩]
    depth := 2
    timers := 1 }

theorem open_orders_unfinished_iff_three :
    ((@Setup.result exactDecimals (modifiedSetup 3) Cache.new (Portfolio.new Cache.new)).cache.order
        "acct" "bt-order-1").map (fun o => (o.status, o.quantity, o.filledQuantity)) =
        some (.accepted, 3, 1) ∧
      AlwaysUnfinished (@Setup.result exactDecimals (modifiedSetup 3) Cache.new
        (Portfolio.new Cache.new)) :=
  ⟨by decide +kernel, (@open_orders_unfinished_iff exactDecimals (modifiedSetup 3) Cache.new
    (Portfolio.new Cache.new) ⟨.new, OrdMap.get_empty⟩ fun key o ho => by
      rw [show Cache.new.orders.get key = none from OrdMap.get_empty key] at ho
      cases ho).mpr (by decide +kernel)⟩

/-- The order is modified to the quantity that is filled, and stays open. -/
theorem nothing_left_to_fill :
    ((@Setup.result exactDecimals (modifiedSetup 1) Cache.new (Portfolio.new Cache.new)).cache.order
        "acct" "bt-order-1").map (fun o => (o.status.isOpen, o.quantity, o.filledQuantity)) =
        some (true, 1, 1) ∧
      ¬ AlwaysUnfinished (@Setup.result exactDecimals (modifiedSetup 1) Cache.new
        (Portfolio.new Cache.new)) := by
  refine (and_iff_left_of_imp fun hstored halways => ?_).mpr (by decide +kernel)
  obtain ⟨o, ho, heq⟩ := Option.map_eq_some_iff.mp hstored
  obtain ⟨hopen, hquantity, hfilled⟩ : _ ∧ _ ∧ _ := by simpa using heq
  have hless := halways.now _ o ho hopen (by rw [hquantity]; exact one_pos)
  rw [hquantity, hfilled] at hless
  exact lt_irrefl _ hless

end Exchanges.Backtest
