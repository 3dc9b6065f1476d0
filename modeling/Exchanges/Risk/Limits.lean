import Exchanges.Risk.Engine

/-!
Which limits an order meets.

Limits are configured for everybody, for an account, for a strategy and for an
instrument, and zero stands for no limit. They are tightened one after the other
into the one that is checked. `foldl_tighten_le` says that this is at most every
positive one of them, and `inForce_foldl_tighten` that the others leave no trace:
what is checked is a function of the positive limits alone.
-/

namespace Exchanges.Risk

open Exchanges.Lib Exchanges.Model

set_option linter.unusedSectionVars false

/-! ### Tightening a limit -/

/-- A limit together with the level that it comes from. -/
abbrev Sourced := Decimal × String

/-- `tighterLimit` on pairs. -/
def tighten (current candidate : Sourced) : Sourced :=
  tighterLimit current.1 current.2 candidate.1 candidate.2

/-- The limit that a check sees. -/
def inForce (limit : Sourced) : Option Sourced := if 0 < limit.1 then some limit else none

theorem tighten_of_not_pos {current candidate : Sourced} (h : ¬ 0 < candidate.1) :
    tighten current candidate = current := by
  rw [tighten, tighterLimit, if_pos h]

theorem tighten_of_not_pos_left {current candidate : Sourced} (hcurrent : ¬ 0 < current.1)
    (hcandidate : 0 < candidate.1) : tighten current candidate = candidate := by
  rw [tighten, tighterLimit, if_neg (not_not.mpr hcandidate), if_pos (.inl hcurrent)]

/-- A positive limit stays positive, and does not grow. -/
theorem tighten_le_left {current : Sourced} (h : 0 < current.1) (candidate : Sourced) :
    0 < (tighten current candidate).1 ∧ (tighten current candidate).1 ≤ current.1 := by
  unfold tighten tighterLimit
  split
  · exact ⟨h, le_refl _⟩
  · next hcandidate =>
      split
      · next hless =>
          exact ⟨not_not.mp hcandidate, (hless.resolve_left (not_not.mpr h)).le⟩
      · exact ⟨h, le_refl _⟩

theorem tighten_le_right (current : Sourced) {candidate : Sourced} (h : 0 < candidate.1) :
    0 < (tighten current candidate).1 ∧ (tighten current candidate).1 ≤ candidate.1 := by
  unfold tighten tighterLimit
  rw [if_neg (not_not.mpr h)]
  split
  · exact ⟨h, le_refl _⟩
  · next hless =>
      obtain ⟨hcurrent, hle⟩ := not_or.mp hless
      exact ⟨not_not.mp hcurrent, not_lt.mp hle⟩

/-- The tightened limit is at most every positive limit that went into it. -/
theorem foldl_tighten_le (l : List Sourced) : ∀ (start : Sourced) {limit : Sourced},
    limit ∈ start :: l → 0 < limit.1 →
      0 < (l.foldl tighten start).1 ∧ (l.foldl tighten start).1 ≤ limit.1 := by
  induction l with
  | nil =>
    intro start limit hmem hpos
    obtain rfl := List.mem_singleton.mp hmem
    exact ⟨hpos, le_refl _⟩
  | cons candidate l ih =>
    intro start limit hmem hpos
    rw [List.foldl_cons]
    -- the limit is in the tightening of the first two, or comes later
    have hstep (h : 0 < (tighten start candidate).1 ∧ (tighten start candidate).1 ≤ limit.1) :
        0 < (l.foldl tighten (tighten start candidate)).1 ∧
          (l.foldl tighten (tighten start candidate)).1 ≤ limit.1 := by
      obtain ⟨hfold, hle⟩ := ih _ List.mem_cons_self h.1
      exact ⟨hfold, hle.trans h.2⟩
    rcases List.mem_cons.mp hmem with rfl | hmem
    · exact hstep (tighten_le_left hpos candidate)
    · rcases List.mem_cons.mp hmem with rfl | hmem
      · exact hstep (tighten_le_right start hpos)
      · exact ih _ (List.mem_cons_of_mem _ hmem) hpos

/-- Tighten the limits of a list, if there are any. -/
def tightest : List Sourced → Option Sourced
  | [] => none
  | first :: rest => some (rest.foldl tighten first)

/-- The limit in force is computed from the positive limits. -/
theorem inForce_foldl_tighten (l : List Sourced) : ∀ start : Sourced,
    inForce (l.foldl tighten start) = tightest ((start :: l).filter fun limit => 0 < limit.1) := by
  induction l with
  | nil =>
    intro start
    by_cases h : 0 < start.1 <;> simp [inForce, tightest, h]
  | cons candidate l ih =>
    intro start
    rw [List.foldl_cons, ih]
    by_cases hcandidate : 0 < candidate.1
    · have hpos := (tighten_le_right start hcandidate).1
      by_cases hstart : 0 < start.1
      · simp only [List.filter_cons, hpos, hstart, hcandidate, decide_true, if_true, tightest,
          List.foldl_cons]
      · rw [tighten_of_not_pos_left hstart hcandidate]
        simp only [List.filter_cons, hstart, decide_false, Bool.false_eq_true, if_false]
    · rw [tighten_of_not_pos hcandidate]
      simp only [List.filter_cons, hcandidate, decide_false, Bool.false_eq_true, if_false]

/-! ### The levels of a configuration -/

/-- The limits of the account, the strategy and the instrument of an order; a level
that is not configured has no limits. -/
def levels (order : SubmitOrder) (cfg : Config) : List (String × Limits) :=
  [("account " ++ order.accountID, (cfg.accountLimits.get order.accountID).getD {}),
    ("strategy " ++ order.metadata.strategyID,
      if order.metadata.strategyID ≠ "" then
        (cfg.strategyLimits.get order.metadata.strategyID).getD {}
      else {}),
    ("instrument " ++ order.instrumentID.string,
      (cfg.instrumentLimits.get order.instrumentID).getD {})]

/-- Limits that are not positive do nothing. -/
theorem ResolvedLimits.apply_empty (l : ResolvedLimits) (source : String) :
    l.apply source {} = l := by
  have h (current : Decimal) (from_ : String) :
      tighterLimit current from_ 0 source = (current, from_) := by
    rw [tighterLimit, if_pos (lt_irrefl 0)]
  simp only [ResolvedLimits.apply, h]

theorem resolveLimits_eq (order : SubmitOrder) (cfg : Config) :
    resolveLimits order cfg = (levels order cfg).foldl (fun l level => l.apply level.1 level.2)
      { toLimits := cfg.toLimits } := by
  -- a level without limits of its own is passed over, and its empty limits do nothing
  simp only [levels, List.foldl_cons, List.foldl_nil, resolveLimits]
  cases cfg.accountLimits.get order.accountID <;>
    cases cfg.strategyLimits.get order.metadata.strategyID <;>
    cases cfg.instrumentLimits.get order.instrumentID <;>
    split_ifs <;>
    simp only [Option.getD_none, Option.getD_some, ResolvedLimits.apply_empty]

/-- One of the three limits: where it is configured, and where it is resolved. -/
structure Kind where
  value : Limits → Decimal
  resolved : ResolvedLimits → Sourced
  start (limits : Limits) : resolved { toLimits := limits } = (value limits, "")
  apply (l : ResolvedLimits) (source : String) (limits : Limits) :
    resolved (l.apply source limits) = tighten (resolved l) (value limits, source)

def orderKind : Kind where
  value := (·.maxOrderNotional)
  resolved l := (l.maxOrderNotional, l.orderSource)
  start _ := rfl
  apply _ _ _ := rfl

def positionKind : Kind where
  value := (·.maxPositionNotional)
  resolved l := (l.maxPositionNotional, l.positionSource)
  start _ := rfl
  apply _ _ _ := rfl

def exposureKind : Kind where
  value := (·.maxAccountExposure)
  resolved l := (l.maxAccountExposure, l.exposureSource)
  start _ := rfl
  apply _ _ _ := rfl

namespace Kind

variable (k : Kind) (order : SubmitOrder)

/-- The limits of the kind, with no limit as zero, from the global one on. -/
def candidates (cfg : Config) : List Sourced :=
  (levels order cfg).map fun level => (k.value level.2, level.1)

theorem resolved_resolveLimits (cfg : Config) :
    k.resolved (resolveLimits order cfg) =
      (k.candidates order cfg).foldl tighten (k.value cfg.toLimits, "") := by
  have hfold (l : List (String × Limits)) (start : ResolvedLimits) :
      k.resolved (l.foldl (fun r level => r.apply level.1 level.2) start) =
        (l.map fun level => (k.value level.2, level.1)).foldl tighten (k.resolved start) := by
    induction l generalizing start with
    | nil => rfl
    | cons level l ih => rw [List.foldl_cons, ih, k.apply, List.map_cons, List.foldl_cons]
  rw [resolveLimits_eq, hfold, k.start]
  rfl

end Kind

/-- The limits that apply to an order. -/
inductive Applies (order : SubmitOrder) (cfg : Config) : Limits → Prop
  | global : Applies order cfg cfg.toLimits
  | account {limits} : cfg.accountLimits.get order.accountID = some limits →
      Applies order cfg limits
  | strategy {limits} : order.metadata.strategyID ≠ "" →
      cfg.strategyLimits.get order.metadata.strategyID = some limits → Applies order cfg limits
  | instrument {limits} : cfg.instrumentLimits.get order.instrumentID = some limits →
      Applies order cfg limits

theorem Applies.mem {order : SubmitOrder} {cfg : Config} {limits : Limits}
    (h : Applies order cfg limits) :
    ∃ source, (source, limits) ∈ ("", cfg.toLimits) :: levels order cfg := by
  cases h with
  | global => exact ⟨"", List.mem_cons_self⟩
  | account h =>
    refine ⟨"account " ++ order.accountID, ?_⟩
    simp only [levels, h, Option.getD_some, List.mem_cons, true_or, or_true]
  | strategy hid h =>
    refine ⟨"strategy " ++ order.metadata.strategyID, ?_⟩
    simp only [levels, if_pos hid, h, Option.getD_some, List.mem_cons, true_or, or_true]
  | instrument h =>
    refine ⟨"instrument " ++ order.instrumentID.string, ?_⟩
    simp only [levels, h, Option.getD_some, List.mem_cons, true_or, or_true]

/-- What is resolved is positive and at most every positive limit that applies. -/
theorem Kind.resolved_le (k : Kind) {order : SubmitOrder} {cfg : Config} {limits : Limits}
    (h : Applies order cfg limits) (hpos : 0 < k.value limits) :
    0 < (k.resolved (resolveLimits order cfg)).1 ∧
      (k.resolved (resolveLimits order cfg)).1 ≤ k.value limits := by
  obtain ⟨source, hmem⟩ := h.mem
  have hmem' := List.mem_map_of_mem (f := fun level => (k.value level.2, level.1)) hmem
  rw [k.resolved_resolveLimits]
  exact foldl_tighten_le _ _ hmem' hpos

/-! ### Limits that are not positive -/

/-- The same limits, where one that is not positive is as good as none. -/
def SamePositive (l l' : Limits) : Prop :=
  (l.maxOrderNotional = l'.maxOrderNotional ∨
    ¬ 0 < l.maxOrderNotional ∧ ¬ 0 < l'.maxOrderNotional) ∧
  (l.maxPositionNotional = l'.maxPositionNotional ∨
    ¬ 0 < l.maxPositionNotional ∧ ¬ 0 < l'.maxPositionNotional) ∧
  (l.maxAccountExposure = l'.maxAccountExposure ∨
    ¬ 0 < l.maxAccountExposure ∧ ¬ 0 < l'.maxAccountExposure)

/-- Two configurations that differ, at any level and for any account, strategy and
instrument, in limits that are not positive only. -/
structure DiffersInNonPositive (cfg cfg' : Config) : Prop where
  rest : cfg' = { cfg with
    toLimits := cfg'.toLimits
    accountLimits := cfg'.accountLimits
    strategyLimits := cfg'.strategyLimits
    instrumentLimits := cfg'.instrumentLimits }
  global : SamePositive cfg.toLimits cfg'.toLimits
  account : ∀ id, SamePositive ((cfg.accountLimits.get id).getD {})
    ((cfg'.accountLimits.get id).getD {})
  strategy : ∀ id, SamePositive ((cfg.strategyLimits.get id).getD {})
    ((cfg'.strategyLimits.get id).getD {})
  instrument : ∀ id, SamePositive ((cfg.instrumentLimits.get id).getD {})
    ((cfg'.instrumentLimits.get id).getD {})

theorem SamePositive.refl (l : Limits) : SamePositive l l := ⟨.inl rfl, .inl rfl, .inl rfl⟩

section Decision

variable [DecimalPackage] {cfg cfg' : Config}

/-- The limits in force are the same. -/
theorem DiffersInNonPositive.inForce (h : DiffersInNonPositive cfg cfg') (order : SubmitOrder)
    {k : Kind} (hk : ∀ l l', SamePositive l l' → k.value l = k.value l' ∨
      ¬ 0 < k.value l ∧ ¬ 0 < k.value l') :
    inForce (k.resolved (resolveLimits order cfg')) =
      inForce (k.resolved (resolveLimits order cfg)) := by
  have hone {l l' : Limits} (hsame : SamePositive l l') (source : String) (rest : List Sourced) :
      ((k.value l', source) :: rest).filter (fun limit => 0 < limit.1) =
        ((k.value l, source) :: rest).filter fun limit => 0 < limit.1 := by
    rcases hk l l' hsame with heq | ⟨hl, hl'⟩
    · rw [heq]
    · simp only [List.filter_cons, hl, hl', decide_false, Bool.false_eq_true, if_false]
  have hstrategy : SamePositive
      (if order.metadata.strategyID ≠ "" then
        (cfg.strategyLimits.get order.metadata.strategyID).getD {} else {})
      (if order.metadata.strategyID ≠ "" then
        (cfg'.strategyLimits.get order.metadata.strategyID).getD {} else {}) := by
    split
    · exact h.strategy _
    · exact .refl _
  rw [k.resolved_resolveLimits, k.resolved_resolveLimits, inForce_foldl_tighten,
    inForce_foldl_tighten]
  congr 1
  simp only [Kind.candidates, levels, List.map_cons, List.map_nil]
  rw [hone h.global]
  have htail {l l' : List Sourced} (first : Sourced)
      (htail : l'.filter (fun limit => 0 < limit.1) = l.filter fun limit => 0 < limit.1) :
      (first :: l').filter (fun limit => 0 < limit.1) =
        (first :: l).filter fun limit => 0 < limit.1 := by
    rw [List.filter_cons, List.filter_cons, htail]
  refine htail _ ((hone (h.account _) _ _).trans ?_)
  refine htail _ ((hone hstrategy _ _).trans ?_)
  exact htail _ (hone (h.instrument _) _ _)

/-- A check reads of a limit what is in force. -/
theorem checkLimit_eq (limit : Sourced) (price : Decimal) (amount : Option Decimal)
    (unknown exceeded : String) :
    checkLimit limit.1 price amount unknown limit.2 exceeded =
      match inForce limit with
      | none => .ok ()
      | some limit => checkLimit limit.1 price amount unknown limit.2 exceeded := by
  by_cases h : 0 < limit.1
  · rw [inForce, if_pos h]
  · rw [inForce, if_neg h]
    exact if_neg h

theorem DiffersInNonPositive.checkLimits (h : DiffersInNonPositive cfg cfg') {e : Engine}
    (hcfg : e.cfg = cfg) (v : Visits) (order : SubmitOrder) (price : Decimal) :
    checkLimits { e with cfg := cfg' } v order price = checkLimits e v order price := by
  subst hcfg
  have hkind {k : Kind} (hk : ∀ l l', SamePositive l l' → k.value l = k.value l' ∨
      ¬ 0 < k.value l ∧ ¬ 0 < k.value l') (amount : Option Decimal) (unknown exceeded : String) :
      checkLimit (k.resolved (resolveLimits order cfg')).1 price amount unknown
          (k.resolved (resolveLimits order cfg')).2 exceeded =
        checkLimit (k.resolved (resolveLimits order e.cfg)).1 price amount unknown
          (k.resolved (resolveLimits order e.cfg)).2 exceeded := by
    rw [checkLimit_eq, h.inForce order hk, ← checkLimit_eq]
  have horder := hkind (k := orderKind) fun _ _ hsame => hsame.1
  have hposition := hkind (k := positionKind) fun _ _ hsame => hsame.2.1
  have hexposure := hkind (k := exposureKind) fun _ _ hsame => hsame.2.2
  have hcurrency : projectedAccountExposure e.cache cfg' v order price =
      projectedAccountExposure e.cache e.cfg v order price := by
    rw [h.rest]
    rfl
  dsimp only [orderKind, positionKind, exposureKind] at horder hposition hexposure
  simp only [Risk.checkLimits, horder, hposition, hexposure, hcurrency]

theorem DiffersInNonPositive.checkOrder (h : DiffersInNonPositive cfg cfg') {e : Engine}
    (hcfg : e.cfg = cfg) (v : Visits) (order : SubmitOrder) (duplicate existing : Bool) :
    checkOrder { e with cfg := cfg' } v order duplicate existing =
      checkOrder e v order duplicate existing := by
  have hstate : checkTradingState { e with cfg := cfg' } order = checkTradingState e order := by
    have hsame : cfg'.tradingState = e.cfg.tradingState := by rw [h.rest, hcfg]
    simp only [checkTradingState, hsame]
  have hopen : cfg'.maxOpenOrders = e.cfg.maxOpenOrders := by rw [h.rest, hcfg]
  simp only [Risk.checkOrder, checkInstrument, h.checkLimits hcfg, hstate, hopen]

/-- Every level is respected, and limits that are not positive decide nothing. -/
theorem limits_respected (e : Engine) (v : Visits) (now : Time) (order : SubmitOrder) :
    (((check v now order).run e).1 = .ok () → ∀ limits, Applies order e.cfg limits →
      (0 < limits.maxOrderNotional →
        estimatedPrice e.cache order * order.quantity ≤ limits.maxOrderNotional) ∧
      (0 < limits.maxPositionNotional →
        projectedPositionNotional e.cache order (estimatedPrice e.cache order) ≤
          limits.maxPositionNotional)) ∧
    ∀ cfg', DiffersInNonPositive e.cfg cfg' →
      ((check v now order).run { e with cfg := cfg' }).1 = ((check v now order).run e).1 := by
  constructor
  · intro hok limits happlies
    have hrun : (check v now order).run e = (.ok (), ((check v now order).run e).2) :=
      Prod.ext hok rfl
    obtain ⟨-, horder, -⟩ := check_ok hrun
    simp only [checkOrder, except_seq_eq_ok] at horder
    obtain ⟨-, -, horder⟩ := horder
    split at horder
    · cases horder
    · simp only [checkInstrument, checkLimits, checkLimit, except_seq_eq_ok, checkIf_eq_ok,
        reject_eq_ok, not_lt] at horder
      obtain ⟨-, -, -, ⟨hnotional, hposition, -⟩, -, -⟩ := horder
      refine ⟨fun hpos => ?_, fun hpos => ?_⟩
      · obtain ⟨hresolved, hle⟩ := orderKind.resolved_le happlies hpos
        exact (hnotional hresolved).2.trans hle
      · obtain ⟨hresolved, hle⟩ := positionKind.resolved_le happlies hpos
        exact (hposition hresolved).2.trans hle
  · intro cfg' h
    have hrate : (checkCommandRate now { e with cfg := cfg' }).1 = (checkCommandRate now e).1 := by
      have hcount : cfg'.maxCommandsPerWindow = e.cfg.maxCommandsPerWindow := by rw [h.rest]
      have hwidth : cfg'.commandRateWindow = e.cfg.commandRateWindow := by rw [h.rest]
      simp only [checkCommandRate, hcount, hwidth]
      generalize (if e.cfg.commandRateWindow ≤ 0 then (1000000000 : ℤ)
        else e.cfg.commandRateWindow) = width
      split
      · rfl
      · split <;> rfl
    rw [check, answer_checkWith, answer_checkWith, h.checkOrder rfl, hrate]

end Decision

/-! ### An order within the limits of its account -/

def limitedPair : Instrument :=
  { id := ⟨"BTC-USD", "VENUE"⟩, rawSymbol := "BTCUSD", type := .spot, base := "BTC", quote := "USD"
    priceTick := 1, sizeTick := 1, status := .trading }

/-- Orders of no more than 100, and of no more than 50 for this account. -/
def limitedAccount : Engine :=
  { cache := { Cache.new with
      instruments := (∅ : OrdMap InstrumentID Instrument).put limitedPair.id limitedPair }
    cfg :=
      { maxOrderNotional := 100
        accountLimits := (∅ : OrdMap AccountID Limits).put "acct" { maxOrderNotional := 50 } } }

/-- The same with a strategy whose limits are not positive. -/
def unlimitedStrategy : Config :=
  { limitedAccount.cfg with
    strategyLimits := (∅ : OrdMap StrategyID Limits).put "grid" { maxPositionNotional := -1 } }

def buyFive : SubmitOrder :=
  { accountID := "acct", instrumentID := limitedPair.id, side := .buy, type := .limit
    quantity := 5, price := 10, metadata := { strategyID := "grid" } }

def limitedVisits : Visits :=
  ⟨[limitedPair], fun _ => [limitedPair], [limitedPair], [limitedPair]⟩

theorem differs_unlimitedStrategy : DiffersInNonPositive limitedAccount.cfg unlimitedStrategy where
  rest := rfl
  global := .refl _
  account _ := .refl _
  strategy id := by
    have hget : unlimitedStrategy.strategyLimits.get id =
        if id = "grid" then some { maxPositionNotional := -1 } else none := OrdMap.get_put ..
    rw [hget]
    split
    · refine ⟨.inl rfl, .inr ⟨lt_irrefl _, ?_⟩, .inl rfl⟩
      decide +kernel
    · exact .refl _
  instrument _ := .refl _

theorem limits_respected_buyFive :
    (estimatedPrice limitedAccount.cache buyFive * buyFive.quantity ≤ 100 ∧
      estimatedPrice limitedAccount.cache buyFive * buyFive.quantity ≤ 50) ∧
    ((@check exactDecimals limitedVisits 0 buyFive).run
        { limitedAccount with cfg := unlimitedStrategy }).1 = .ok () := by
  have hok : ((@check exactDecimals limitedVisits 0 buyFive).run limitedAccount).1 = .ok () := by
    decide +kernel
  obtain ⟨hlimits, hsame⟩ := @limits_respected exactDecimals limitedAccount limitedVisits 0 buyFive
  refine ⟨⟨?_, ?_⟩, (hsame _ differs_unlimitedStrategy).trans hok⟩
  · exact (hlimits hok _ .global).1 (by decide +kernel)
  · exact (hlimits hok { maxOrderNotional := 50 } (.account (by decide +kernel))).1
      (by decide +kernel)

end Exchanges.Risk
