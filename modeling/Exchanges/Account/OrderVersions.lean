import Exchanges.Account.OrderWrites

/-!
How the versions of an order follow each other under the reconciler.

A report is checked against the stored order: its status must be in the table
and its filled quantity must not be lower. A fill is not checked. It raises the
filled quantity, up to the order's quantity, and makes the order partially
filled or filled whatever its status was. So filled quantities always rise, and
statuses follow the table as long as fills meet orders that may be filled.
-/

namespace Exchanges.Account

open Exchanges.Lib Exchanges.Model Exchanges.Cache

set_option linter.unusedSectionVars false

section

variable [DecimalPackage] {c : Cache} {o r : OrderStatusReport} {f : FillReport}
  {a : AccountID} {i : OrderID} {event : ExecutionEvent} {fills : List FillReport}
  {R : OrderStatusReport → OrderStatusReport → Prop}

/-! ### A relation between the versions that one event writes -/

theorem isChain_versionsIn_ofOrder (hr : r.WellFormed) :
    (versionsIn c (.ofOrder r)).IsChain R ↔
      ∀ r', checkOrder (c.order r.accountID r.orderID) r = .ok r' →
        (∀ e, c.order r.accountID r.orderID = some e → R e (normalizeOrder r')) ∧
          (normalizeOrder r' :: if r'.filledQuantity = 0 then
              replayWrites (normalizeOrder r') (c.fillsForOrder r.accountID r.orderID)
            else []).IsChain R := by
  rw [versionsIn, writes_ofOrder hr, reportWrites]
  cases hcheck : checkOrder (c.order r.accountID r.orderID) r with
  | error e => simp
  | ok r' =>
    obtain ⟨ha, hi, -⟩ := (orderAt_of_checkOrder hcheck ⟨rfl, rfl, hr⟩).normalizeOrder
    dsimp only
    rw [ha, hi, List.isChain_append]
    cases c.order r.accountID r.orderID with
    | none => simp
    | some e => simp [and_comm]

theorem isChain_versionsIn_ofFill (hc : Reachable c) (hf : f.WellFormed) :
    (versionsIn c (.ofFill f)).IsChain R ↔
      ∀ o, c.fills.get (fillKey f) = none → c.order f.accountID f.orderID = some o →
        R o (applyFillToOrder o f) := by
  rw [versionsIn, writes_ofFill hf, fillWrites]
  cases hget : c.fills.get (fillKey f) with
  | some g => simp
  | none =>
    cases ho : c.order f.accountID f.orderID with
    | none => simp
    | some o =>
      obtain ⟨ha, hi, -⟩ := hc.consistent.orders.keyed _ _ o ho
      simp [ha, hi, ho]

/-- Along a replay it is enough that each fill respects the relation. -/
theorem isChain_replayWrites (hfills : ∀ f ∈ fills, f.WellFormed)
    (hstep : ∀ o f, o.WellFormed → f.WellFormed → R o (applyFillToOrder o f)) :
    ∀ {o : OrderStatusReport}, o.WellFormed → (o :: replayWrites o fills).IsChain R := by
  induction fills with
  | nil => simp [replayWrites]
  | cons f fills ih =>
    intro o ho
    have hf := hfills f List.mem_cons_self
    rw [replayWrites, List.isChain_cons_cons]
    exact ⟨hstep o f ho hf, ih (fun g hg => hfills g (List.mem_cons_of_mem f hg))
      (applyFillToOrder_wellFormed ho hf)⟩

/-! ### Filled quantities -/

theorem filledQuantity_le_applyFillToOrder (ho : o.WellFormed) (hf : f.WellFormed) :
    o.filledQuantity ≤ (applyFillToOrder o f).filledQuantity := by
  rw [applyFillToOrder_filledQuantity]
  simp only [nextFilledQuantity]
  split
  · next hcap => exact ho.filled_le hcap.1
  · linarith [hf.quantity_pos]

theorem filledQuantity_le_normalizeOrder (ho : 0 ≤ o.quantity) :
    o.filledQuantity ≤ (normalizeOrder o).filledQuantity := by
  rw [normalizeOrder_filledQuantity]
  split
  · next hfull =>
      rw [hfull.2.2]
      exact ho
  · exact le_refl _

/-- No write of an event lowers the filled quantity. -/
theorem isChain_filledQuantity (hc : Reachable c) :
    (versionsIn c event).IsChain fun e e' => e.filledQuantity ≤ e'.filledQuantity := by
  cases kind c event with
  | @order r hr =>
    refine (isChain_versionsIn_ofOrder hr).mpr fun r' hcheck => ?_
    have hwf := (orderAt_of_checkOrder hcheck ⟨rfl, rfl, hr⟩).wellFormed
    have hnorm := filledQuantity_le_normalizeOrder hwf.quantity_nonneg
    obtain ⟨status, rfl, -, -, hexisting⟩ := checkOrder_eq_ok hcheck hr
    refine ⟨fun e he => (hexisting e he).2.trans hnorm, ?_⟩
    split
    · exact isChain_replayWrites (fillsForOrder_wellFormed hc)
        (fun _ _ => filledQuantity_le_applyFillToOrder) (normalizeOrder_wellFormed hwf)
    · simp
  | @fill f hf =>
    exact (isChain_versionsIn_ofFill hc hf).mpr fun o _ ho =>
      filledQuantity_le_applyFillToOrder (hc.validated.orders _ o ho) hf
  | other hnil _ => simp [versionsIn, hnil]

theorem filledQuantity_le_afterEvent {e e' : OrderStatusReport} (hc : Reachable c)
    (he : c.order a i = some e) (he' : (afterEvent c event).order a i = some e') :
    e.filledQuantity ≤ e'.filledQuantity := by
  obtain hsame | ⟨o, ws, hw, hkey, rfl⟩ := order_afterEvent hc he'
  · rw [Option.some.inj (he.symm.trans hsame)]
  · have hchain : (versionsIn c event).IsChain fun e e' =>
        e.filledQuantity ≤ e'.filledQuantity := isChain_filledQuantity hc
    obtain ⟨rfl, rfl⟩ := Prod.mk.inj hkey
    rw [versionsIn, hw] at hchain
    dsimp only at hchain
    rw [he, List.isChain_iff_pairwise] at hchain
    exact List.rel_of_pairwise_cons hchain (List.getLast_mem _)

/-- As long as an order is stored, its filled quantity rises, and it is at most
the order's quantity. -/
theorem filled_rises_while_stored (hc : Reachable c) (events : List ExecutionEvent)
    (hstays : ∀ pre, pre <+: events → ((afterEvents c pre).order a i).isSome) :
    (observed afterEvent (·.order a i) c events).Pairwise
        (fun e e' => e.filledQuantity ≤ e'.filledQuantity) ∧
      ∀ e ∈ observed afterEvent (·.order a i) c events,
        0 < e.quantity → e.filledQuantity ≤ e.quantity := by
  constructor
  · refine pairwise_observed_iff.mpr fun pre event hpre x y hx hy => ?_
    obtain ⟨e, he⟩ := Option.isSome_iff_exists.mp
      (hstays pre ((List.prefix_append pre [event]).trans hpre))
    cases hx.symm.trans (lastObserved_of_obs he)
    exact filledQuantity_le_afterEvent (reachable_afterEvents hc pre) he hy
  · intro e he
    obtain ⟨pre, -, he⟩ := exists_of_mem_observed he
    exact ((reachable_afterEvents hc pre).validated.orders _ e he).filled_le

end

theorem filled_rises_while_stored_sample :
    let events : List ExecutionEvent :=
      [.ofFill sampleFill1, .ofOrder { sampleReport with status := .canceled, filledQuantity := 6 },
        .ofFill sampleFill2]
    let c := @afterEvent exactDecimals new (.ofOrder sampleReport)
    (observed (@afterEvent exactDecimals) (·.order "acct" "order-1") c events).Pairwise
        (fun e e' => e.filledQuantity ≤ e'.filledQuantity) ∧
      ∀ e ∈ observed (@afterEvent exactDecimals) (·.order "acct" "order-1") c events,
        0 < e.quantity → e.filledQuantity ≤ e.quantity := by
  let _ : DecimalPackage := exactDecimals
  refine filled_rises_while_stored (reachable_afterEvent .new _) _ ?_
  intro pre hpre
  rw [List.prefix_iff_eq_take] at hpre
  have hlen : pre.length ≤ 3 := by
    rw [hpre]
    simp
  rw [hpre]
  interval_cases pre.length <;> decide +kernel

/-! ### Statuses -/

section

variable [DecimalPackage] {c : Cache} {o r : OrderStatusReport} {f : FillReport}
  {event : ExecutionEvent} {fills : List FillReport}

/-- The order state table lets the second version follow the first. -/
def StatusAllowed (e e' : OrderStatusReport) : Prop :=
  ∃ requested, nextOrderStatus e.status requested = some e'.status

/-- The order may be filled by the fill: its status may become partially filled,
or it is filled already and stays so. -/
def Fillable (o : OrderStatusReport) (f : FillReport) : Prop :=
  o.status ∈ fillableStatuses ∨
    o.status = .filled ∧ 0 < o.quantity ∧ o.quantity ≤ o.filledQuantity + f.quantity

theorem status_applyFillToOrder (ho : o.WellFormed) (hf : f.WellFormed) :
    (applyFillToOrder o f).status =
      if 0 < o.quantity ∧ o.quantity ≤ o.filledQuantity + f.quantity then .filled
      else .partiallyFilled := by
  have hpos := nextFilledQuantity_pos ho hf
  have hcap : 0 < o.quantity →
      (o.quantity ≤ nextFilledQuantity o f ↔ o.quantity ≤ o.filledQuantity + f.quantity) := by
    intro hq
    simp only [nextFilledQuantity, hq, true_and]
    split
    · next hlt => exact iff_of_true le_rfl hlt.le
    · exact Iff.rfl
  simp only [applyFillToOrder, hpos, if_true]
  by_cases hq : 0 < o.quantity
  · simp only [hq, true_and, if_true, hcap hq]
    split <;> rfl
  · simp [hq]

theorem statusAllowed_applyFillToOrder (ho : o.WellFormed) (hf : f.WellFormed) :
    StatusAllowed o (applyFillToOrder o f) ↔ Fillable o f := by
  rw [StatusAllowed, status_applyFillToOrder ho hf, Fillable]
  split
  · next hfull =>
      rw [fill_allowed (.inr rfl) ho.status_ne]
      simp [hfull]
  · next hpart =>
      rw [fill_allowed (.inl rfl) ho.status_ne]
      exact ⟨fun h => .inl (h.elim id fun heq => (by rw [heq]; decide)),
        fun h => .inl (h.resolve_right fun hfull => hpart hfull.2)⟩

/-- An order that was filled once may be filled again. -/
theorem fillable_applyFillToOrder {g : FillReport} (ho : o.WellFormed) (hf : f.WellFormed)
    (hg : g.WellFormed) : Fillable (applyFillToOrder o f) g := by
  rw [Fillable, status_applyFillToOrder ho hf]
  split
  · next hfull =>
      refine .inr ⟨rfl, by simpa using hfull.1, ?_⟩
      rw [applyFillToOrder_quantity, applyFillToOrder_filledQuantity]
      have hfilled : o.quantity ≤ nextFilledQuantity o f := by
        simp only [nextFilledQuantity]
        split
        · exact le_refl _
        · exact hfull.2
      linarith [hg.quantity_pos]
  · exact .inl (by simp [fillableStatuses])

/-- A replay follows the table if its first fill does. -/
theorem isChain_statusAllowed_replayWrites (hfills : ∀ f ∈ fills, f.WellFormed)
    (ho : o.WellFormed) :
    (o :: replayWrites o fills).IsChain StatusAllowed ↔
      ∀ f, fills.head? = some f → Fillable o f := by
  have hrest : ∀ {gs : List FillReport}, (∀ g ∈ gs, g.WellFormed) →
      ∀ {o : OrderStatusReport}, o.WellFormed → (∀ g, g.WellFormed → Fillable o g) →
        (o :: replayWrites o gs).IsChain StatusAllowed := by
    intro gs
    induction gs with
    | nil => simp [replayWrites]
    | cons g gs ih =>
      intro hgs o ho hall
      have hg := hgs g List.mem_cons_self
      rw [replayWrites, List.isChain_cons_cons]
      exact ⟨(statusAllowed_applyFillToOrder ho hg).mpr (hall g hg),
        ih (fun g' hg' => hgs g' (List.mem_cons_of_mem g hg'))
          (applyFillToOrder_wellFormed ho hg) fun _ => fillable_applyFillToOrder ho hg⟩
  cases fills with
  | nil => simp [replayWrites]
  | cons f fills =>
    have hf := hfills f List.mem_cons_self
    rw [replayWrites, List.isChain_cons_cons, statusAllowed_applyFillToOrder ho hf]
    constructor
    · rintro ⟨hfirst, -⟩ g hg
      cases hg
      exact hfirst
    · exact fun h => ⟨h f rfl, hrest (fun g hg => hfills g (List.mem_cons_of_mem f hg))
        (applyFillToOrder_wellFormed ho hf) fun _ => fillable_applyFillToOrder ho hf⟩

/-- The statuses of a report that replayed fills may meet. -/
theorem fillable_normalizeOrder {s : OrderStatus} (hf : f.WellFormed)
    (hzero : r.filledQuantity = 0) : Fillable (normalizeOrder { r with status := s }) f ↔
      s ∈ fillableStatuses ∨ s = .filled ∧ 0 < r.quantity := by
  simp only [Fillable, normalizeOrder_status, normalizeOrder_quantity,
    normalizeOrder_filledQuantity, hzero]
  constructor
  · exact Or.imp_right fun h => ⟨h.1, h.2.1⟩
  · refine Or.imp_right fun h => ⟨h.1, h.2, ?_⟩
    rw [if_pos ⟨h.1, h.2, trivial⟩]
    linarith [hf.quantity_pos]

/-- The fills of an event, new or replayed, meet an order that they may fill. -/
structure TakesFills (c : Cache) (event : ExecutionEvent) : Prop where
  report : ∀ r s, event = .ofOrder r → r.WellFormed →
    AcceptedAs (c.order r.accountID r.orderID) r s → r.filledQuantity = 0 →
    c.fillsForOrder r.accountID r.orderID ≠ [] →
    s ∈ fillableStatuses ∨ s = .filled ∧ 0 < r.quantity
  fill : ∀ f o, event = .ofFill f → f.WellFormed → c.fills.get (fillKey f) = none →
    c.order f.accountID f.orderID = some o → Fillable o f

theorem statusAllowed_report {s : OrderStatus} {e : OrderStatusReport}
    (h : AcceptedAs (some e) r s) : StatusAllowed e (normalizeOrder { r with status := s }) :=
  ⟨r.status, by simpa using h.1⟩

theorem isChain_statusAllowed_ofOrder (hc : Reachable c) (hr : r.WellFormed) :
    (versionsIn c (.ofOrder r)).IsChain StatusAllowed ↔
      ∀ s, AcceptedAs (c.order r.accountID r.orderID) r s → r.filledQuantity = 0 →
        c.fillsForOrder r.accountID r.orderID ≠ [] →
        s ∈ fillableStatuses ∨ s = .filled ∧ 0 < r.quantity := by
  have hfills := fillsForOrder_wellFormed (a := r.accountID) (i := r.orderID) hc
  have hreplay : ∀ s, AcceptedAs (c.order r.accountID r.orderID) r s → r.filledQuantity = 0 →
      ((normalizeOrder { r with status := s } :: replayWrites
          (normalizeOrder { r with status := s })
          (c.fillsForOrder r.accountID r.orderID)).IsChain StatusAllowed ↔
        (c.fillsForOrder r.accountID r.orderID ≠ [] →
          s ∈ fillableStatuses ∨ s = .filled ∧ 0 < r.quantity)) := by
    intro s hs hzero
    have hcheck := checkOrder_eq_ok_iff.mpr ⟨s, rfl, hs⟩
    have hwf := (orderAt_of_checkOrder hcheck ⟨rfl, rfl, hr⟩).normalizeOrder.wellFormed
    rw [isChain_statusAllowed_replayWrites hfills hwf]
    cases hlist : c.fillsForOrder r.accountID r.orderID with
    | nil => simp
    | cons f fills =>
      have hf : f.WellFormed := hfills f (by simp [hlist])
      simp [fillable_normalizeOrder hf hzero]
  rw [isChain_versionsIn_ofOrder hr]
  constructor
  · intro h s hs hzero
    have hchain := (h _ (checkOrder_eq_ok_iff.mpr ⟨s, rfl, hs⟩)).2
    rw [if_pos hzero] at hchain
    exact (hreplay s hs hzero).mp hchain
  · intro h r' hcheck
    obtain ⟨s, rfl, hs⟩ := checkOrder_eq_ok_iff.mp hcheck
    refine ⟨fun e he => statusAllowed_report (he ▸ hs), ?_⟩
    split
    · next hzero => exact (hreplay s hs hzero).mpr (h s hs hzero)
    · simp

theorem isChain_statusAllowed_iff (hc : Reachable c) :
    (versionsIn c event).IsChain StatusAllowed ↔ TakesFills c event := by
  cases kind c event with
  | @order r hr =>
    rw [isChain_statusAllowed_ofOrder hc hr]
    constructor
    · intro h
      refine ⟨fun r₁ s heq _ => ?_, fun f o heq => by cases heq⟩
      cases heq
      exact h s
    · exact fun h s => h.report r s rfl hr
  | @fill f hf =>
    rw [isChain_versionsIn_ofFill hc hf]
    have hallowed : ∀ o, c.order f.accountID f.orderID = some o →
        (StatusAllowed o (applyFillToOrder o f) ↔ Fillable o f) := fun o ho =>
      statusAllowed_applyFillToOrder (hc.validated.orders _ o ho) hf
    constructor
    · intro h
      refine ⟨fun r s heq => (by cases heq), fun g o heq _ hget ho => ?_⟩
      cases heq
      exact (hallowed o ho).mp (h o hget ho)
    · intro h o hget ho
      exact (hallowed o ho).mpr (h.fill f o rfl hf hget ho)
  | other hnil _ =>
    refine iff_of_true (by simp [versionsIn, hnil]) ⟨?_, ?_⟩
    · intro r s heq hr hs
      subst heq
      rw [writes_ofOrder hr, reportWrites, checkOrder_eq_ok_iff.mpr ⟨s, rfl, hs⟩] at hnil
      cases hnil
    · intro f o heq hf hget ho
      subst heq
      rw [writes_ofFill hf, fillWrites, hget, ho] at hnil
      cases hnil

/-- Every status that an event writes follows the table, in every run, exactly
when every fill meets an order that may be filled. -/
theorem statuses_allowed_iff (hc : Reachable c) (events : List ExecutionEvent) :
    (∀ pre event, pre ++ [event] <+: events →
        (versionsIn (afterEvents c pre) event).IsChain StatusAllowed) ↔
      ∀ pre event, pre ++ [event] <+: events → TakesFills (afterEvents c pre) event :=
  forall_congr' fun pre => forall_congr' fun _ => forall_congr' fun _ =>
    isChain_statusAllowed_iff (reachable_afterEvents hc pre)

end

theorem statuses_allowed_iff_sample :
    (@afterEvents exactDecimals new [.ofOrder sampleReport, .ofFill sampleFill1]).fills.get
        (fillKey sampleFill1) = some sampleFill1 ∧
      ∀ pre event, pre ++ [event] <+: [.ofOrder sampleReport, .ofFill sampleFill1] →
        TakesFills (@afterEvents exactDecimals new pre) event := by
  let _ : DecimalPackage := exactDecimals
  refine ⟨by decide +kernel, (statuses_allowed_iff .new _).mp
    (forall_step_cons.mpr ⟨?_, forall_step_cons.mpr ⟨?_, forall_step_nil⟩⟩)⟩
  · have hwrites : versionsIn (afterEvents new []) (.ofOrder sampleReport) =
        [normalizeOrder sampleReport] := by
      decide +kernel
    simp [hwrites]
  · have hwrites : versionsIn (afterEvents new [.ofOrder sampleReport]) (.ofFill sampleFill1) =
        [normalizeOrder sampleReport,
          applyFillToOrder (normalizeOrder sampleReport) sampleFill1] := by
      decide +kernel
    rw [hwrites, List.isChain_pair]
    exact ⟨.partiallyFilled, by decide +kernel⟩

/-- A fill makes a rejected order partially filled. -/
theorem fill_revives_rejected :
    let rejected : OrderStatusReport := { sampleReport with status := .rejected }
    let c := @afterEvent exactDecimals new (.ofOrder rejected)
    ∃ o, @versionsIn exactDecimals c (.ofFill sampleFill1) = [rejected, o] ∧
      o.status = .partiallyFilled ∧ ¬ StatusAllowed rejected o := by
  let _ : DecimalPackage := exactDecimals
  refine ⟨applyFillToOrder { sampleReport with status := .rejected } sampleFill1,
    by decide +kernel, by decide +kernel, ?_⟩
  rintro ⟨requested, h⟩
  obtain hsame | hunset | hmem := mem_orderStateTransitions h
  · revert hsame
    decide +kernel
  · cases hunset
  · cases hmem

end Exchanges.Account
