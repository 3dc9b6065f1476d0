import Exchanges.Account.Repair

/-!
Bringing the cached open orders of an instrument in line with the venue's.

The node applies a list of the venue's open orders, report by report, and then
closes what the list does not contain. A report that the reconciler refuses
stops the whole pass, and an order may be refused because the cache holds it as
closed, or with more filled. The theorem says from which caches the pass
succeeds and leaves exactly the listed orders open.
-/

namespace Exchanges.Account

open Exchanges.Lib Exchanges.Model Exchanges.Cache

set_option linter.unusedSectionVars false

/-- A valid list of open orders of one account and instrument, in which no two
orders share an id. -/
structure OpenOrderList (a : AccountID) (inst : InstrumentID)
    (reports : List OrderStatusReport) : Prop where
  accountID_ne : a ≠ ""
  instrument : inst.validate = .ok ()
  wellFormed : ∀ r ∈ reports, r.WellFormed
  accountID : ∀ r ∈ reports, r.accountID = a
  instrumentID : ∀ r ∈ reports, r.instrumentID = inst
  isOpen : ∀ r ∈ reports, r.status.isOpen = true
  distinct : reports.Pairwise fun r r' => r.orderID ≠ r'.orderID ∧ ¬ SharesID r r'

/-- The stored order, unless one of the reports takes its client or venue order
id away. -/
def survivor (c : Cache) (a : AccountID) (reports : List OrderStatusReport) (i : OrderID) :
    Option OrderStatusReport :=
  (c.order a i).filter fun e => decide (∀ r ∈ reports, ¬ SharesID r e)

section

variable [DecimalPackage]

/-- The pass: apply the reports, then close the orders that are missing. -/
def syncOpenOrders (clock : Time) (a : AccountID) (inst : InstrumentID)
    (reports : List OrderStatusReport) : Prog Cache Err (List OrderStatusReport) := do
  Prog.forEach (fun r => apply (.ofOrder r)) reports
  Prog.mapError Prod.snd (reconcileMissingOpenOrders clock a inst reports .canceled)

variable {c c₁ c₂ : Cache} {a : AccountID} {i : OrderID} {e r : OrderStatusReport}
  {inst : InstrumentID} {s : OrderStatus} {clock : Time} {pre reports : List OrderStatusReport}
  {fills : List FillReport}

theorem OpenOrderList.of_prefix (h : OpenOrderList a inst reports) (hpre : pre <+: reports) :
    OpenOrderList a inst pre :=
  ⟨h.accountID_ne, h.instrument, fun r hr => h.wellFormed r (hpre.subset hr),
    fun r hr => h.accountID r (hpre.subset hr), fun r hr => h.instrumentID r (hpre.subset hr),
    fun r hr => h.isOpen r (hpre.subset hr), h.distinct.sublist hpre.sublist⟩

theorem survivor_eq_some : survivor c a reports i = some e ↔
    c.order a i = some e ∧ ∀ r ∈ reports, ¬ SharesID r e := by
  rw [survivor, Option.filter_eq_some_iff, decide_eq_true_eq]

theorem sharesID_comm {o o' : OrderStatusReport} : SharesID o o' ↔ SharesID o' o := by
  unfold SharesID
  constructor <;> rintro (⟨hne, heq⟩ | ⟨hne, heq⟩)
  all_goals first
    | exact .inl ⟨heq ▸ hne, heq.symm⟩
    | exact .inr ⟨heq ▸ hne, heq.symm⟩

theorem sharesID_congr {o o' e' : OrderStatusReport} (h : Version o o') (h' : Version e e') :
    SharesID o' e' ↔ SharesID o e := by
  rw [SharesID, SharesID, h.clientOrderID, h.venueOrderID, h'.clientOrderID, h'.venueOrderID]

/-! ### Applying the reports -/

/-- The cache after some reports of a list were accepted. -/
structure AppliesAll (a : AccountID) (reports : List OrderStatusReport) (c c₁ : Cache) :
    Prop where
  reachable : Reachable c₁
  fills : c₁.fills = c.fills
  reported : ∀ r ∈ reports, ∃ s, s.isOpen = true ∧
    c₁.order a r.orderID = some (outcome c r s)
  kept : ∀ i, (∀ r ∈ reports, r.orderID ≠ i) → c₁.order a i = survivor c a reports i

theorem AcceptedAs.isOpen_eq {existing : Option OrderStatusReport}
    (h : AcceptedAs existing r s) : s.isOpen = r.status.isOpen := by
  cases existing with
  | none => rw [show s = r.status from h]
  | some e =>
    obtain rfl | ⟨hsubmitted, rfl⟩ := nextOrderStatus_eq h.1
    · rfl
    · rw [hsubmitted]
      rfl

/-- One more report. -/
theorem AppliesAll.concat (h : AppliesAll a pre c c₁) (hlist : OpenOrderList a inst (pre ++ [r]))
    (hs : AcceptedAs (c₁.order a r.orderID) r s) :
    ∃ c₂, (apply (.ofOrder r)).run c₁ = (.ok (), c₂) ∧ AppliesAll a (pre ++ [r]) c c₂ := by
  have hmem : r ∈ pre ++ [r] := by simp
  have hwf := hlist.wellFormed r hmem
  obtain rfl := hlist.accountID r hmem
  have hdistinct := (List.pairwise_append.mp hlist.distinct).2.2
  obtain ⟨c₂, hrun, hreach, honly, horders⟩ := run_applyOrder_outcome h.reachable hwf hs
  rw [outcome_congr h.fills] at horders
  have hids := version_outcome c r s
  have hindexed := h.reachable.consistent.orders
  have hother : ∀ i e, i ≠ r.orderID → (c₂.order r.accountID i = some e ↔
      c₁.order r.accountID i = some e ∧ ¬ SharesID r e) := by
    intro i e hne
    have hkey : (r.accountID, i) ≠ ((outcome c r s).accountID, (outcome c r s).orderID) := by
      rw [hids.accountID, hids.orderID]
      exact fun heq => hne (Prod.mk.inj heq).2
    rw [Cache.order, horders, order_storeOrder_other hindexed hkey, hids.accountID,
      sharesID_congr hids (.refl e), Cache.order]
    simp
  refine ⟨c₂, by rw [run_apply_ofOrder hwf, hrun], hreach, ?_, ?_, ?_⟩
  · rw [← h.fills, honly]
    rfl
  · intro r' hr'
    rcases List.mem_append.mp hr' with hr' | hr'
    · obtain ⟨s', hopen, hr''⟩ := h.reported r' hr'
      obtain ⟨hne, hshares⟩ := hdistinct r' hr' r (by simp)
      refine ⟨s', hopen, (hother _ _ hne).mpr ⟨hr'', ?_⟩⟩
      rwa [sharesID_congr (.refl r) (version_outcome c r' s'), sharesID_comm]
    · obtain rfl := List.mem_singleton.mp hr'
      refine ⟨s, hs.isOpen_eq.trans (hlist.isOpen r' hmem), ?_⟩
      have hself := order_storeOrder_self c₁ (outcome c r' s)
      rwa [hids.accountID, hids.orderID, ← horders] at hself
  · intro i hi
    have hne : i ≠ r.orderID := fun heq => hi r hmem heq.symm
    ext e
    rw [hother i e hne, h.kept i fun r' hr' => hi r' (List.mem_append_left _ hr'),
      survivor_eq_some, survivor_eq_some]
    simp [or_imp, forall_and, and_assoc]

/-- Every report of the list is accepted next to what is left of its order. -/
def AllAccepted (c : Cache) (a : AccountID) (reports : List OrderStatusReport) : Prop :=
  ∀ pre r, pre ++ [r] <+: reports → ∀ e, survivor c a pre r.orderID = some e →
    canOrderTransition e.status r.status = true ∧ e.filledQuantity ≤ r.filledQuantity

theorem allAccepted_concat : AllAccepted c a (pre ++ [r]) ↔ AllAccepted c a pre ∧
    ∀ e, survivor c a pre r.orderID = some e →
      canOrderTransition e.status r.status = true ∧ e.filledQuantity ≤ r.filledQuantity := by
  constructor
  · exact fun h => ⟨fun pre' r' hpre => h pre' r' (hpre.trans (List.prefix_append ..)),
      h pre r (List.prefix_refl _)⟩
  · rintro ⟨hpre, hlast⟩ pre' r' hprefix
    rcases List.prefix_concat_iff.mp hprefix with heq | hprefix
    · obtain ⟨rfl, hsame⟩ := List.append_inj' heq rfl
      cases hsame
      exact hlast
    · exact hpre pre' r' hprefix

theorem AppliesAll.nil (hc : Reachable c) : AppliesAll a [] c c := by
  refine ⟨hc, rfl, by simp, fun i _ => ?_⟩
  ext e
  simp [survivor_eq_some]

/-- The reports are all applied, or one of them is refused. -/
theorem run_forEach_reports (hc : Reachable c) (hlist : OpenOrderList a inst reports) :
    AllAccepted c a reports ∧
        (∃ c₁, (Prog.forEach (fun r => apply (.ofOrder r)) reports).run c = (.ok (), c₁) ∧
          AppliesAll a reports c c₁) ∨
      ¬ AllAccepted c a reports ∧ ∃ err c₁,
        (Prog.forEach (fun r => apply (.ofOrder r)) reports).run c = (.error err, c₁) := by
  induction reports using List.reverseRecOn with
  | nil => exact .inl ⟨fun pre r hpre => by simp at hpre, c, rfl, .nil hc⟩
  | append_singleton pre r ih =>
    have hmem : r ∈ pre ++ [r] := by simp
    have hlast := (List.pairwise_append.mp hlist.distinct).2.2
    rw [Prog.run_forEach_concat, allAccepted_concat]
    obtain ⟨haccepted, c₁, hrun, happlied⟩ | ⟨hnot, err, c₁, hrun⟩ :=
      ih (hlist.of_prefix (List.prefix_append ..))
    · have hkept := happlied.kept r.orderID fun r' hr' => (hlast r' hr' r (by simp)).1
      rw [Prog.run_bind_ok hrun, ← hkept, ← exists_acceptedAs]
      by_cases hs : ∃ s, AcceptedAs (c₁.order a r.orderID) r s
      · obtain ⟨s, hs'⟩ := hs
        obtain ⟨c₂, hrun', happlied'⟩ := happlied.concat hlist hs'
        exact .inl ⟨⟨haccepted, s, hs'⟩, c₂, hrun', happlied'⟩
      · obtain rfl := hlist.accountID r hmem
        obtain ⟨err, hrun'⟩ := run_applyOrder_not_accepted fun s hs' => hs ⟨s, hs'⟩
        refine .inr ⟨fun h => hs h.2, err, c₁, ?_⟩
        rw [run_apply_ofOrder (hlist.wellFormed r hmem), hrun']
    · exact .inr ⟨fun h => hnot h.1, err, c₁, Prog.run_bind_error hrun⟩

/-! ### Closing the rest -/

/-- An open order of the instrument that no report is about, and that keeps its
ids. -/
structure Leftover (c : Cache) (a : AccountID) (inst : InstrumentID)
    (reports : List OrderStatusReport) (e : OrderStatusReport) : Prop where
  survives : survivor c a reports e.orderID = some e
  unreported : ∀ r ∈ reports, r.orderID ≠ e.orderID
  isOpen : e.status.isOpen = true
  instrumentID : e.instrumentID = inst

/-- After the reports, the missing orders are the leftover ones. -/
theorem AppliesAll.mem_missingOrders (h : AppliesAll a reports c c₁)
    (hlist : OpenOrderList a inst reports) :
    e ∈ missingOrders c₁ a inst reports ↔ Leftover c a inst reports e := by
  have hindexed := h.reachable.consistent.orders
  rw [Account.mem_missingOrders hindexed]
  constructor
  · rintro ⟨hstored, hopen, hinst, hlisted⟩
    have hid := (hindexed.keyed a _ e hstored).2.2
    have hunreported : ∀ r ∈ reports, r.orderID ≠ e.orderID := fun r hr heq =>
      hlisted ⟨r, hr, hlist.accountID r hr, hlist.instrumentID r hr, .inl ⟨hid, heq⟩⟩
    exact ⟨h.kept _ hunreported ▸ hstored, hunreported, hopen, hinst⟩
  · rintro ⟨hsurvives, hunreported, hopen, hinst⟩
    refine ⟨h.kept _ hunreported ▸ hsurvives, hopen, hinst, ?_⟩
    rintro ⟨r, hr, -, -, ⟨-, heq⟩ | hshares⟩
    · exact hunreported r hr heq
    · exact (survivor_eq_some.mp hsurvives).2 r hr hshares

/-- The ids under which open orders of the instrument are stored are those of
the reports. -/
def OpenExactly (c : Cache) (a : AccountID) (inst : InstrumentID)
    (reports : List OrderStatusReport) : Prop :=
  ∀ i, (∃ e ∈ c.openOrders a, e.instrumentID = inst ∧ e.orderID = i) ↔
    ∃ r ∈ reports, r.orderID = i

/-- From which caches the pass converges. Each report is accepted next to what
is left of its order, and is not completed by the fills stored for it. Each
leftover order may be canceled, and the fills stored for it, if it has not
counted any, do not open it again. -/
structure Converges (c : Cache) (a : AccountID) (inst : InstrumentID)
    (reports : List OrderStatusReport) : Prop where
  accepted : AllAccepted c a reports
  staysOpen : ∀ r ∈ reports, r.filledQuantity = 0 → 0 < r.quantity →
    totalQuantity (c.fillsForOrder a r.orderID) < r.quantity
  cancelable : ∀ e, Leftover c a inst reports e →
    canOrderTransition e.status .canceled = true
  staysClosed : ∀ e, Leftover c a inst reports e → e.filledQuantity = 0 →
    c.fillsForOrder a e.orderID ≠ [] →
    0 < e.quantity ∧ e.quantity ≤ totalQuantity (c.fillsForOrder a e.orderID)

theorem isOpen_ne_unset (hs : s.isOpen = true) : s ≠ .unset := by
  rintro rfl
  cases hs

theorem isOpen_iff_not_closedWith (hc : Reachable c) (hr : r.WellFormed) (hs : s ≠ .unset) :
    (outcome c r s).status.isOpen = true ↔
      ¬ ClosedWith r s (c.fillsForOrder r.accountID r.orderID) := by
  have hset := (outcome_wellFormed hc hr hs).status_ne
  rw [← isTerminal_outcome hc hr hs, ← OrderStatus.isOpen_eq_false hset, Bool.not_eq_false]

theorem closedWith_open (hs : s.isOpen = true) : ClosedWith r s fills ↔
    r.filledQuantity = 0 ∧ 0 < r.quantity ∧ r.quantity ≤ totalQuantity fills := by
  have hterminal : s.isTerminal = false := by
    simp only [OrderStatus.isOpen, Bool.and_eq_true, Bool.not_eq_true'] at hs
    exact hs.2
  have hfilled : s ≠ .filled := by
    rintro rfl
    cases hterminal
  rw [ClosedWith]
  split
  · next hdone =>
      refine iff_of_false (by simp [hterminal]) ?_
      rintro ⟨hzero, hq, hle⟩
      rcases hdone with hne | rfl
      · exact hne hzero
      · exact absurd hle (not_le.mpr hq)
  · next hreplay =>
      rw [not_or, not_not] at hreplay
      simp [hreplay.1, hfilled]

theorem closedWith_canceled : ClosedWith r .canceled fills ↔
    (r.filledQuantity = 0 → fills ≠ [] → 0 < r.quantity ∧ r.quantity ≤ totalQuantity fills) := by
  rw [ClosedWith]
  split
  · next hdone =>
      refine iff_of_true rfl fun hzero hne => ?_
      rcases hdone with h | h
      · exact absurd hzero h
      · exact absurd h hne
  · next hreplay =>
      rw [not_or, not_not] at hreplay
      simp [hreplay.1, hreplay.2]

/-- A report is open after it was applied unless stored fills complete it. -/
theorem isOpen_report (hc : Reachable c) (hlist : OpenOrderList a inst reports)
    (hr : r ∈ reports) (hs : s.isOpen = true) : (outcome c r s).status.isOpen = true ↔
      (r.filledQuantity = 0 → 0 < r.quantity →
        totalQuantity (c.fillsForOrder a r.orderID) < r.quantity) := by
  rw [isOpen_iff_not_closedWith hc (hlist.wellFormed r hr) (isOpen_ne_unset hs),
    closedWith_open hs, hlist.accountID r hr]
  simp only [not_and, not_le]

/-- A leftover order is closed by the repair unless stored fills open it. -/
theorem isOpen_leftover (clock : Time) (hc : Reachable c) (he : c.order a e.orderID = some e) :
    (outcome c (closing .canceled clock e) .canceled).status.isOpen = false ↔
      (e.filledQuantity = 0 → c.fillsForOrder a e.orderID ≠ [] →
        0 < e.quantity ∧ e.quantity ≤ totalQuantity (c.fillsForOrder a e.orderID)) := by
  obtain ⟨rfl, -, -⟩ := hc.consistent.orders.keyed a _ e he
  have hwf : (closing .canceled clock e).WellFormed :=
    closing_wellFormed clock (hc.validated.orders _ e he) (by simp)
  rw [← Bool.not_eq_true, isOpen_iff_not_closedWith hc hwf (by simp), not_not,
    closedWith_canceled]
  exact Iff.rfl

/-- The stored orders after both parts of the pass. -/
structure Synced (c : Cache) (a : AccountID) (inst : InstrumentID) (clock : Time)
    (reports : List OrderStatusReport) (c₂ : Cache) : Prop where
  reachable : Reachable c₂
  reported : ∀ r ∈ reports, ∃ s, s.isOpen = true ∧ c₂.order a r.orderID = some (outcome c r s)
  leftover : ∀ e, Leftover c a inst reports e →
    c₂.order a e.orderID = some (outcome c (closing .canceled clock e) .canceled)
  others : ∀ i, (∀ r ∈ reports, r.orderID ≠ i) →
    (∀ e, Leftover c a inst reports e → e.orderID ≠ i) →
    c₂.order a i = survivor c a reports i

theorem AppliesAll.synced (h : AppliesAll a reports c c₁) (hlist : OpenOrderList a inst reports)
    (hcloses : ClosesAll a .canceled clock (missingOrders c₁ a inst reports) c₁ c₂) :
    Synced c a inst clock reports c₂ := by
  refine ⟨hcloses.reachable, ?_, ?_, ?_⟩
  · intro r hr
    obtain ⟨s, hs, hstored⟩ := h.reported r hr
    refine ⟨s, hs, (hcloses.kept a _ fun e he heq => ?_).trans hstored⟩
    exact ((h.mem_missingOrders hlist).mp he).unreported r hr (Prod.mk.inj heq).2
  · intro e he
    rw [hcloses.closed e ((h.mem_missingOrders hlist).mpr he), outcome_congr h.fills]
  · intro i hunreported hnot
    rw [hcloses.kept a i fun e he heq => ?_, h.kept i hunreported]
    exact hnot e ((h.mem_missingOrders hlist).mp he) (Prod.mk.inj heq).2.symm

theorem canceled_isTerminal : OrderStatus.canceled.isTerminal = true := rfl

/-- The pass succeeds when every report is accepted and every leftover order
may be canceled, and only then. -/
theorem run_syncOpenOrders (clock : Time) (hc : Reachable c) (hlist : OpenOrderList a inst reports) :
    (AllAccepted c a reports ∧
        (∀ e, Leftover c a inst reports e → canOrderTransition e.status .canceled = true)) ∧
        (∃ generated c₂, (syncOpenOrders clock a inst reports).run c = (.ok generated, c₂) ∧
          Synced c a inst clock reports c₂) ∨
      ¬ (AllAccepted c a reports ∧
        ∀ e, Leftover c a inst reports e → canOrderTransition e.status .canceled = true) ∧
        ∃ err c₂, (syncOpenOrders clock a inst reports).run c = (.error err, c₂) := by
  obtain ⟨haccepted, c₁, hrun, happlied⟩ | ⟨hnot, err, c₁, hrun⟩ :=
    run_forEach_reports hc hlist
  · obtain ⟨result, c₂, hrepair, hcloses, hresult⟩ := run_reconcileMissingOpenOrders
      clock reports happlied.reachable hlist.accountID_ne hlist.instrument canceled_isTerminal
    have hmissing : (∀ e ∈ missingOrders c₁ a inst reports,
          canOrderTransition e.status .canceled = true) ↔
        ∀ e, Leftover c a inst reports e → canOrderTransition e.status .canceled = true :=
      forall_congr' fun e => by rw [happlied.mem_missingOrders hlist]
    rw [syncOpenOrders, Prog.run_bind_ok hrun]
    by_cases hcan : ∀ e ∈ missingOrders c₁ a inst reports,
        canOrderTransition e.status .canceled = true
    · rw [if_pos hcan] at hresult
      rw [List.takeWhile_eq_self_iff.mpr hcan] at hcloses
      rw [hresult] at hrepair
      exact .inl ⟨⟨haccepted, hmissing.mp hcan⟩, _, c₂, Prog.run_mapError_ok hrepair,
        happlied.synced hlist hcloses⟩
    · rw [if_neg hcan] at hresult
      obtain ⟨g, err, rfl⟩ := hresult
      exact .inr ⟨fun h => hcan (hmissing.mpr h.2), err, c₂, Prog.run_mapError_error hrepair⟩
  · exact .inr ⟨fun h => hnot h.1, err, c₁, Prog.run_bind_error hrun⟩

/-- After the pass, exactly the reported orders are open when no report was
completed and no leftover order was opened by stored fills. -/
theorem Synced.openExactly_iff (h : Synced c a inst clock reports c₂) (hc : Reachable c)
    (hlist : OpenOrderList a inst reports) : OpenExactly c₂ a inst reports ↔
      (∀ r ∈ reports, r.filledQuantity = 0 → 0 < r.quantity →
        totalQuantity (c.fillsForOrder a r.orderID) < r.quantity) ∧
      ∀ e, Leftover c a inst reports e → e.filledQuantity = 0 →
        c.fillsForOrder a e.orderID ≠ [] →
        0 < e.quantity ∧ e.quantity ≤ totalQuantity (c.fillsForOrder a e.orderID) := by
  have hindexed := h.reachable.consistent.orders
  have hstored : ∀ e, Leftover c a inst reports e → c.order a e.orderID = some e :=
    fun e he => (survivor_eq_some.mp he.survives).1
  constructor
  · intro hopen
    constructor
    · intro r hr
      obtain ⟨s, hs, hget⟩ := h.reported r hr
      obtain ⟨e, he, -, hid⟩ := (hopen r.orderID).mpr ⟨r, hr, rfl⟩
      obtain ⟨he, hisOpen⟩ := (mem_openOrders hindexed).mp he
      rw [hid, hget] at he
      rw [← Option.some.inj he] at hisOpen
      exact (isOpen_report hc hlist hr hs).mp hisOpen
    · intro e he
      rw [← isOpen_leftover clock hc (hstored e he), ← Bool.not_eq_true]
      intro hisOpen
      have hids := version_outcome c (closing .canceled clock e) .canceled
      obtain ⟨r, hr, heq⟩ := (hopen e.orderID).mp ⟨_, (mem_openOrders hindexed).mpr
        ⟨by rw [hids.orderID]; exact h.leftover e he, hisOpen⟩,
        hids.instrumentID.trans he.instrumentID, hids.orderID⟩
      exact he.unreported r hr heq
  · rintro ⟨hreports, hleftover⟩ i
    constructor
    · rintro ⟨e, he, hinst, rfl⟩
      obtain ⟨he, hisOpen⟩ := (mem_openOrders hindexed).mp he
      by_contra hunreported
      push Not at hunreported
      by_cases hleft : ∃ e', Leftover c a inst reports e' ∧ e'.orderID = e.orderID
      · obtain ⟨e', he', hid⟩ := hleft
        have hclosed := (isOpen_leftover clock hc (hstored e' he')).mpr
          (hleftover e' he')
        have hsame := h.leftover e' he'
        rw [hid, he] at hsame
        rw [← Option.some.inj hsame, hisOpen] at hclosed
        cases hclosed
      · push Not at hleft
        rw [h.others _ hunreported hleft] at he
        exact hleft e ⟨he, hunreported, hisOpen, hinst⟩ rfl
    · rintro ⟨r, hr, rfl⟩
      obtain ⟨s, hs, hget⟩ := h.reported r hr
      have hids := version_outcome c r s
      refine ⟨outcome c r s, (mem_openOrders hindexed).mpr ⟨by rwa [hids.orderID], ?_⟩,
        hids.instrumentID.trans (hlist.instrumentID r hr), hids.orderID⟩
      exact (isOpen_report hc hlist hr hs).mpr (hreports r hr)

/-- For a valid list of open orders, the pass succeeds and leaves exactly the
listed orders open when the cache agrees with the list far enough, and only
then. -/
theorem sync_converges_iff (clock : Time) (hc : Reachable c) (hlist : OpenOrderList a inst reports) :
    (∃ generated c₂, (syncOpenOrders clock a inst reports).run c = (.ok generated, c₂) ∧
        OpenExactly c₂ a inst reports) ↔ Converges c a inst reports := by
  obtain ⟨⟨haccepted, hcan⟩, generated, c₂, hrun, hsynced⟩ | ⟨hnot, err, c₂, hrun⟩ :=
    run_syncOpenOrders clock hc hlist
  · have hiff := hsynced.openExactly_iff hc hlist
    constructor
    · rintro ⟨g, c', hrun', hopen⟩
      obtain ⟨-, rfl⟩ := Prod.mk.inj (hrun.symm.trans hrun')
      exact ⟨haccepted, (hiff.mp hopen).1, hcan, (hiff.mp hopen).2⟩
    · exact fun h => ⟨generated, c₂, hrun, hiff.mpr ⟨h.staysOpen, h.staysClosed⟩⟩
  · refine iff_of_false ?_ fun h => hnot ⟨h.accepted, h.cancelable⟩
    rintro ⟨g, c', hrun', -⟩
    cases (Prod.mk.inj (hrun.symm.trans hrun')).1

end

/-- Two accepted orders of which the venue still lists the first. -/
def sampleOpenOrders : List ExecutionEvent :=
  [.ofOrder sampleReport, .ofOrder { sampleReport with orderID := "order-2" }]

theorem openOrderList_sample : OpenOrderList "acct" samplePerp [sampleReport] := by
  refine ⟨by decide, by decide +kernel, ?_, ?_, ?_, ?_, by simp⟩
  · simpa using sampleReport_wellFormed
  · simp [sampleReport]
  · simp [sampleReport]
  · simp [sampleReport, OrderStatus.isOpen, OrderStatus.isTerminal]

theorem sync_converges_iff_sample :
    Converges (@afterEvents exactDecimals new sampleOpenOrders) "acct" samplePerp
      [sampleReport] := by
  let _ : DecimalPackage := exactDecimals
  refine (sync_converges_iff 5 (reachable_afterEvents .new _)
    openOrderList_sample).mp ⟨[closing .canceled 5 (normalizeOrder
      { sampleReport with orderID := "order-2" })], _, Prod.ext (by decide +kernel) rfl, ?_⟩
  have hopen : (((syncOpenOrders 5 "acct" samplePerp [sampleReport]).run
      (afterEvents new sampleOpenOrders)).2.openOrders "acct").map
        (fun e => (e.instrumentID, e.orderID)) = [(samplePerp, "order-1")] := by
    decide +kernel
  intro i
  have hmem : (samplePerp, i) ∈ (((syncOpenOrders 5 "acct" samplePerp [sampleReport]).run
      (afterEvents new sampleOpenOrders)).2.openOrders "acct").map
        (fun e => (e.instrumentID, e.orderID)) ↔ i = "order-1" := by
    rw [hopen]
    simp
  rw [List.mem_map] at hmem
  simpa [sampleReport, eq_comm] using hmem

/-- The cache holds as rejected what the venue lists as accepted. -/
theorem wrongly_closed_stops_sync :
    let c := @afterEvent exactDecimals new (.ofOrder { sampleReport with status := .rejected })
    ((@syncOpenOrders exactDecimals 5 "acct" samplePerp [sampleReport]).run c).1 =
        .error (invalidOrder "invalid order transition rejected -> accepted") ∧
      ((@syncOpenOrders exactDecimals 5 "acct" samplePerp [sampleReport]).run c).2.openOrders
        "acct" = [] := by
  decide +kernel

end Exchanges.Account
