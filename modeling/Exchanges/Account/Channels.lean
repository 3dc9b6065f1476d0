import Exchanges.Account.OrderLedger

/-!
Two channels for one execution: the venue reports it as a fill and again in
the cumulative quantity of the order's status report.

The reconciler overwrites the filled quantity with a report's and increments
it with a fill's, and nothing tells it that the two are about the same trade.
A report that arrives before a fill it already counts makes the fill count
twice (`report_then_fill_counts_twice`). `reportInStep` is the condition on a
report, at the moment it is applied, that keeps the two channels together, and
`filledTracks_of_inStep` says that nothing else can go wrong: in every run in
which all reports are in step, the stored filled quantity never exceeds the
order's trades and equals them once all have been delivered.

The condition leaves room where the code does. A report may run ahead of the
fills if the order's quantity is exactly what its trades add up to, because
the filled quantity is capped there. A report that the reconciler refuses does
no harm, whatever it says.
-/

namespace Exchanges.Account

open Exchanges.Lib Exchanges.Model Exchanges.Cache

variable {a : AccountID} {i : OrderID} {trades : List FillReport} {c : Cache}

/-! ### What the venue sends -/

/-- A status report of the order, with its filled quantity over some prefix of
the trades. -/
def VenueReport (a : AccountID) (i : OrderID) (trades : List FillReport)
    (r : OrderStatusReport) : Prop :=
  r.accountID = a ∧ r.orderID = i ∧ ∃ k, r.filledQuantity = totalQuantity (trades.take k)

/-- A status report of the order or a fill for one of its trades. -/
def VenueEvent (a : AccountID) (i : OrderID) (trades : List FillReport)
    (e : ExecutionEvent) : Prop :=
  (∃ r, VenueReport a i trades r ∧ e = .ofOrder r) ∨ ∃ f ∈ trades, e = .ofFill f

/-- In every state of the run the stored filled quantity is within the trades,
and it is all of them once all have been delivered as fills. -/
def FilledTracks [DecimalPackage] (a : AccountID) (i : OrderID) (trades : List FillReport)
    (c : Cache) (events : List ExecutionEvent) : Prop :=
  ∀ done, done <+: events → ∀ o, (afterEvents c done).order a i = some o →
    o.filledQuantity ≤ totalQuantity trades ∧
      ((∀ f ∈ trades, ExecutionEvent.ofFill f ∈ done) →
        o.filledQuantity = totalQuantity trades)

def sampleAheadReport : OrderStatusReport :=
  { sampleReport with status := .partiallyFilled, filledQuantity := 5 }

/-- An order of 10 with one trade of 5. The report for the trade comes first
and the fill second: 10 are then stored as filled. -/
theorem report_then_fill_counts_twice :
    TradesOf "acct" "order-1" [sampleFill1] ∧ Unknown "acct" "order-1" new ∧
      (∀ e ∈ [ExecutionEvent.ofOrder sampleAheadReport, .ofFill sampleFill1],
        VenueEvent "acct" "order-1" [sampleFill1] e) ∧
      ¬ @FilledTracks exactDecimals "acct" "order-1" [sampleFill1] new
        [.ofOrder sampleAheadReport, .ofFill sampleFill1] := by
  have hsample := tradesOf_sample
  refine ⟨⟨?_, ?_, ?_, by simp⟩, unknown_new _ _, ?_, ?_⟩
  · simpa using hsample.wellFormed sampleFill1 (by simp)
  · simpa using hsample.accountID sampleFill1 (by simp)
  · simpa using hsample.orderID sampleFill1 (by simp)
  · intro e he
    rcases List.mem_cons.mp he with rfl | he
    · exact .inl ⟨sampleAheadReport, ⟨rfl, rfl, 1, by decide +kernel⟩, rfl⟩
    · exact .inr ⟨sampleFill1, by simp, by simpa using he⟩
  · intro htracks
    have hstored : ∃ o, (@afterEvents exactDecimals new
        [.ofOrder sampleAheadReport, .ofFill sampleFill1]).order "acct" "order-1" = some o ∧
        o.filledQuantity = 10 := by
      refine ⟨_, Option.eq_some_of_isSome (by decide +kernel), by decide +kernel⟩
    obtain ⟨o, ho, hfilled⟩ := hstored
    have hle := (htracks _ (List.prefix_refl _) o ho).1
    rw [hfilled] at hle
    exact absurd hle (by decide +kernel)

/-! ### Reports in step -/

/-- What an accepted report must satisfy, given the fills recorded so far. -/
structure InStepWith (trades recorded : List FillReport) (first : Bool)
    (r : OrderStatusReport) : Prop where
  /-- The order has room for its trades. -/
  room : r.quantity = 0 ∨ totalQuantity trades ≤ r.quantity
  /-- The report counts no trade that has not been recorded, unless the cap on
  the filled quantity is where the trades end. -/
  not_ahead : (normalizeOrder r).filledQuantity ≤ totalQuantity recorded ∨
    r.quantity = totalQuantity trades
  /-- A first report counts nothing, so that recorded fills are replayed, or
  counts them all. -/
  not_behind : first = true → r.filledQuantity = 0 ∨
    totalQuantity recorded ≤ r.filledQuantity

instance (trades recorded : List FillReport) (first : Bool) (r : OrderStatusReport) :
    Decidable (InStepWith trades recorded first r) :=
  decidable_of_iff
    ((r.quantity = 0 ∨ totalQuantity trades ≤ r.quantity) ∧
      ((normalizeOrder r).filledQuantity ≤ totalQuantity recorded ∨
        r.quantity = totalQuantity trades) ∧
      (first = true → r.filledQuantity = 0 ∨ totalQuantity recorded ≤ r.filledQuantity))
    ⟨fun ⟨h1, h2, h3⟩ => ⟨h1, h2, h3⟩, fun ⟨h1, h2, h3⟩ => ⟨h1, h2, h3⟩⟩

/-- A report that is refused, or is in step with the recorded fills. -/
def reportInStep (a : AccountID) (i : OrderID) (trades : List FillReport) (c : Cache)
    (r : OrderStatusReport) : Prop :=
  ∀ r', checkOrder (c.order a i) r = .ok r' →
    InStepWith trades (c.fillsForOrder a i) (c.order a i).isNone r'

instance (c : Cache) (r : OrderStatusReport) : Decidable (reportInStep a i trades c r) :=
  match h : checkOrder (c.order a i) r with
  | .error e => isTrue fun r' h' => by rw [h] at h'; cases h'
  | .ok r' => decidable_of_iff (InStepWith trades (c.fillsForOrder a i) (c.order a i).isNone r')
      ⟨fun hin r'' h'' => by rw [h] at h''; cases h''; exact hin, fun hin => hin r' h⟩

section Runs

variable [DecimalPackage]

/-- Every report of the run is in step when it is applied. -/
def RunInStep (a : AccountID) (i : OrderID) (trades : List FillReport) :
    Cache → List ExecutionEvent → Prop
  | _, [] => True
  | c, e :: events =>
    (∀ r, e = .ofOrder r → reportInStep a i trades c r) ∧
      RunInStep a i trades (afterEvent c e) events

/-- A condition on the report an event carries. -/
instance decidableOnReport (P : OrderStatusReport → Prop) [DecidablePred P] (e : ExecutionEvent) :
    Decidable (∀ r, e = .ofOrder r → P r) :=
  match h : e.order with
  | none => isTrue fun r hr => by rw [hr] at h; cases h
  | some r => decidable_of_iff (e = .ofOrder r → P r)
      ⟨fun hp r' hr' => by
        rw [hr'] at h
        cases h
        exact hp hr', fun hp => hp r⟩

instance decidableRunInStep :
    ∀ (c : Cache) (events : List ExecutionEvent), Decidable (RunInStep a i trades c events)
  | _, [] => isTrue trivial
  | c, e :: events =>
    have := decidableRunInStep (afterEvent c e) events
    inferInstanceAs (Decidable (_ ∧ _))

theorem runInStep_append {events events' : List ExecutionEvent} :
    ∀ {c : Cache}, RunInStep a i trades c (events ++ events') ↔
      RunInStep a i trades c events ∧
        RunInStep a i trades (afterEvents c events) events' := by
  induction events with
  | nil =>
    intro c
    simp [RunInStep, afterEvents]
  | cons e events ih =>
    intro c
    rw [List.cons_append, RunInStep, RunInStep, ih, and_assoc]
    rfl

end Runs

/-! ### One order against its trades -/

/-- The stored order covers the recorded quantity and stays within the total.
It may only run ahead where the cap catches it. -/
structure Tracks (total recorded : Decimal) (o : OrderStatusReport) : Prop where
  recorded_le : recorded ≤ o.filledQuantity
  le_total : o.filledQuantity ≤ total
  exact_or_capped : o.filledQuantity = recorded ∨ o.quantity = total
  room : o.quantity = 0 ∨ total ≤ o.quantity

section Fills

variable [DecimalPackage] {total recorded : Decimal} {o : OrderStatusReport}

theorem Tracks.fill {f : FillReport} (h : Tracks total recorded o) (hf : f.WellFormed)
    (hnonneg : 0 ≤ recorded) (hle : recorded + f.quantity ≤ total) :
    Tracks total (recorded + f.quantity) (applyFillToOrder o f) := by
  have hpos := hf.quantity_pos
  obtain ⟨hrec, htot, hexact, hroom⟩ := h
  have hpositive : 0 < o.quantity → total ≤ o.quantity := by
    intro hq
    exact hroom.resolve_left hq.ne'
  have hnext : nextFilledQuantity o f =
      if 0 < o.quantity ∧ o.quantity < o.filledQuantity + f.quantity then o.quantity
      else o.filledQuantity + f.quantity := rfl
  -- the cap only cuts off an order that is ahead of its fills
  have hcapped : 0 < o.quantity → o.quantity < o.filledQuantity + f.quantity →
      o.quantity = total := by
    intro hq hcap
    rcases hexact with hexact | hquantity
    · linarith [hpositive hq]
    · exact hquantity
  refine ⟨?_, ?_, ?_, by simpa using hroom⟩
  · rw [applyFillToOrder_filledQuantity, hnext]
    split
    · next hcap => exact hle.trans (hpositive hcap.1)
    · linarith
  · rw [applyFillToOrder_filledQuantity, hnext]
    split
    · next hcap => exact (hcapped hcap.1 hcap.2).le
    · next hcap =>
        rcases hexact with hexact | hquantity
        · linarith
        · by_contra hgt
          exact hcap ⟨by linarith, by linarith⟩
  · rw [applyFillToOrder_filledQuantity, hnext, applyFillToOrder_quantity]
    split
    · next hcap => exact .inr (hcapped hcap.1 hcap.2)
    · rcases hexact with hexact | hquantity
      · exact .inl (by rw [hexact])
      · exact .inr hquantity

theorem Tracks.fillAll {fills : List FillReport} (hwf : ∀ f ∈ fills, f.WellFormed) :
    ∀ {recorded : Decimal} {o : OrderStatusReport}, Tracks total recorded o → 0 ≤ recorded →
      recorded + totalQuantity fills ≤ total →
      Tracks total (recorded + totalQuantity fills) (fillAll o fills) := by
  induction fills with
  | nil =>
    intro recorded o h _ _
    simpa using h
  | cons f fills ih =>
    intro recorded o h hnonneg hle
    have hf := hwf f List.mem_cons_self
    have hfills : ∀ g ∈ fills, g.WellFormed :=
      fun g hg => hwf g (List.mem_cons_of_mem f hg)
    have hrest := totalQuantity_nonneg hfills
    rw [totalQuantity_cons, ← add_assoc] at hle ⊢
    have hstep := h.fill hf hnonneg (by linarith)
    exact ih hfills hstep (by linarith [hf.quantity_pos]) hle

end Fills

/-- A report without a filled quantity, before any fill is added. If it says
that the order is filled, the cache fills it up to its quantity. -/
theorem tracks_zero {total : Decimal} {r : OrderStatusReport} (hzero : r.filledQuantity = 0)
    (hroom : r.quantity = 0 ∨ total ≤ r.quantity)
    (hahead : (normalizeOrder r).filledQuantity ≤ total ∨ r.quantity = total)
    (htotal : 0 ≤ total) : Tracks total 0 (normalizeOrder r) := by
  have hroom' : (normalizeOrder r).quantity = 0 ∨ total ≤ (normalizeOrder r).quantity := by
    simpa using hroom
  by_cases hfilled : r.status = .filled ∧ 0 < r.quantity ∧ r.filledQuantity = 0
  · have hcount : (normalizeOrder r).filledQuantity = r.quantity := by
      rw [normalizeOrder_filledQuantity, if_pos hfilled]
    have hquantity : r.quantity = total := by
      rw [hcount] at hahead
      refine hahead.elim (fun h => ?_) id
      exact le_antisymm h (hroom.resolve_left hfilled.2.1.ne')
    refine ⟨?_, ?_, .inr (by simpa using hquantity), hroom'⟩
    · rw [hcount]
      exact hfilled.2.1.le
    · rw [hcount, hquantity]
  · have hcount : (normalizeOrder r).filledQuantity = 0 := by
      rw [normalizeOrder_filledQuantity, if_neg hfilled, hzero]
    exact ⟨hcount.ge, hcount.le.trans htotal, .inl hcount, hroom'⟩

/-- A report that is in step leaves an order that tracks its trades. -/
theorem tracks_orderAfterReport [DecimalPackage] {recorded : List FillReport}
    {existing : Option OrderStatusReport} {r o : OrderStatusReport}
    (hwf : ∀ f ∈ recorded, f.WellFormed)
    (hrecorded : totalQuantity recorded ≤ totalQuantity trades) (hr : r.WellFormed)
    (hle : r.filledQuantity ≤ totalQuantity trades)
    (hin : ∀ r', checkOrder existing r = .ok r' →
      InStepWith trades recorded existing.isNone r')
    (hexisting : ∀ e, existing = some e →
      Tracks (totalQuantity trades) (totalQuantity recorded) e)
    (ho : orderAfterReport recorded existing r = some o) :
    Tracks (totalQuantity trades) (totalQuantity recorded) o := by
  have hnonneg := totalQuantity_nonneg hwf
  unfold orderAfterReport at ho
  split at ho
  · exact hexisting o ho
  · next r' hcheck =>
      obtain ⟨status, hr', -, -, hnotBack⟩ := checkOrder_eq_ok hcheck hr
      obtain ⟨hroom, hahead, hbehind⟩ := hin r' hcheck
      have hsame : r'.filledQuantity = r.filledQuantity := by rw [hr']
      have hroom' : (normalizeOrder r').quantity = 0 ∨
          totalQuantity trades ≤ (normalizeOrder r').quantity := by simpa using hroom
      split at ho
      · -- nothing counted yet: the recorded fills are replayed
        next hzero =>
          cases ho
          have hstart := tracks_zero hzero hroom (hahead.imp_left fun h => h.trans hrecorded)
            (hnonneg.trans hrecorded)
          have hall := hstart.fillAll hwf le_rfl (by simpa using hrecorded)
          simpa using hall
      · -- the report's own count is stored
        next hpos =>
          cases ho
          have hcount : (normalizeOrder r').filledQuantity = r.filledQuantity := by
            rw [normalizeOrder_filledQuantity, if_neg (fun h => hpos h.2.2), hsame]
          have hcovers : totalQuantity recorded ≤ r.filledQuantity := by
            cases hex : existing with
            | none =>
              rw [hex] at hbehind
              have hor := hbehind rfl
              rw [hsame] at hor hpos
              exact hor.resolve_left hpos
            | some e => exact (hexisting e hex).recorded_le.trans (hnotBack e hex).2
          rw [hcount] at hahead
          refine ⟨by rwa [hcount], by rwa [hcount], ?_, hroom'⟩
          rw [hcount, normalizeOrder_quantity]
          exact hahead.imp_left fun h => le_antisymm h hcovers

/-! ### Runs -/

section Runs

variable [DecimalPackage]

/-- The invariant of a run: the stored order tracks its trades, and the fills
recorded are the fills delivered. -/
structure InStepState (a : AccountID) (i : OrderID) (trades : List FillReport)
    (done : List ExecutionEvent) (c : Cache) : Prop where
  ledger : Ledger a i trades c
  recorded : ∀ f ∈ trades, f ∈ c.fillsForOrder a i ↔ ExecutionEvent.ofFill f ∈ done
  tracks : ∀ o, c.order a i = some o →
    Tracks (totalQuantity trades) (totalQuantity (c.fillsForOrder a i)) o

variable {done : List ExecutionEvent}

omit [DecimalPackage] in
theorem prefix_le_total (ht : TradesOf a i trades) (k : ℕ) :
    totalQuantity (trades.take k) ≤ totalQuantity trades :=
  ht.totalQuantity_le (ht.distinct.of_map.sublist (List.take_sublist k trades))
    fun _ hf => List.mem_of_mem_take hf

theorem InStepState.report (ht : TradesOf a i trades) {r : OrderStatusReport}
    (hr : VenueReport a i trades r) (hin : reportInStep a i trades c r)
    (h : InStepState a i trades done c) :
    InStepState a i trades (done ++ [.ofOrder r]) (afterEvent c (.ofOrder r)) := by
  obtain ⟨ha, hi, k, hk⟩ := hr
  obtain ⟨hledger, hfills, horder⟩ := h.ledger.afterReport ht ha hi
  have hsame : (afterEvent c (.ofOrder r)).fillsForOrder a i = c.fillsForOrder a i := by
    rw [fillsForOrder, hfills, fillsForOrder]
  refine ⟨hledger, ?_, ?_⟩
  · intro f hf
    rw [hsame, h.recorded f hf]
    simp [ExecutionEvent.ofOrder, ExecutionEvent.ofFill]
  · intro o ho
    rw [hsame]
    obtain ⟨-, hunchanged⟩ | ⟨hvalid, hchanged⟩ := horder
    · exact h.tracks o (by rw [← hunchanged, ho])
    · rw [hchanged] at ho
      exact tracks_orderAfterReport (h.ledger.fills_wellFormed ht)
        (ht.totalQuantity_le h.ledger.fills_nodup fun f => h.ledger.mem_trades) hvalid
        (by rw [hk]; exact prefix_le_total ht k) hin h.tracks ho

theorem InStepState.fill (ht : TradesOf a i trades) {f : FillReport} (hf : f ∈ trades)
    (h : InStepState a i trades done c) :
    InStepState a i trades (done ++ [.ofFill f]) (afterEvent c (.ofFill f)) := by
  by_cases hknown : f ∈ c.fillsForOrder a i
  · rw [h.ledger.afterFill_known ht hf hknown]
    exact ⟨h.ledger, recorded_concat h.recorded (by simpa using hknown), h.tracks⟩
  · obtain ⟨hledger, hperm, horder⟩ := h.ledger.afterFill_new ht hf hknown
    refine ⟨hledger, recorded_concat h.recorded (by simp [hperm.mem_iff]), ?_⟩
    intro o ho
    rw [horder, Option.map_eq_some_iff] at ho
    obtain ⟨e, he, rfl⟩ := ho
    have hnonneg := totalQuantity_nonneg (h.ledger.fills_wellFormed ht)
    have htotal := h.ledger.total_cons_le ht hf hknown
    rw [totalQuantity_cons, add_comm] at htotal
    have hstep := (h.tracks e he).fill (ht.wellFormed f hf) hnonneg htotal
    rwa [totalQuantity_perm hperm, totalQuantity_cons, add_comm]

theorem inStepState_afterEvents (ht : TradesOf a i trades) (hc : Unknown a i c)
    (events : List ExecutionEvent) (hvenue : ∀ e ∈ events, VenueEvent a i trades e)
    (hrun : RunInStep a i trades c events) :
    InStepState a i trades events (afterEvents c events) := by
  induction events using List.reverseRecOn with
  | nil =>
    refine ⟨hc.ledger, ?_, ?_⟩
    · intro f _
      simp [afterEvents, hc.fillsForOrder]
    · intro o ho
      rw [afterEvents, List.foldl_nil, hc.order] at ho
      cases ho
  | append_singleton done e ih =>
    obtain ⟨hdone, hlast⟩ := runInStep_append.mp hrun
    have hstate := ih (fun e' he' => hvenue e' (List.mem_append_left [e] he')) hdone
    rw [afterEvents_append]
    obtain ⟨r, hr, rfl⟩ | ⟨f, hf, rfl⟩ :=
      hvenue e (List.mem_append_right done List.mem_cons_self)
    · exact hstate.report ht hr (hlast.1 r rfl)
    · exact hstate.fill ht hf

/-- While every report is in step with the fills, the stored filled quantity
never exceeds the trades, and is their total once all are delivered. -/
theorem filledTracks_of_inStep (ht : TradesOf a i trades) (hc : Unknown a i c)
    {events : List ExecutionEvent} (hvenue : ∀ e ∈ events, VenueEvent a i trades e)
    (hrun : RunInStep a i trades c events) : FilledTracks a i trades c events := by
  rintro done ⟨rest, rfl⟩ o ho
  have h := inStepState_afterEvents ht hc done
    (fun e he => hvenue e (List.mem_append_left rest he)) (runInStep_append.mp hrun).1
  refine ⟨(h.tracks o ho).le_total, ?_⟩
  intro hall
  have htotal : totalQuantity ((afterEvents c done).fillsForOrder a i) =
      totalQuantity trades := by
    apply ht.totalQuantity_eq h.ledger.fills_nodup
    intro f
    exact ⟨h.ledger.mem_trades, fun hf => (h.recorded f hf).mpr (hall f hf)⟩
  have hcovered := (h.tracks o ho).recorded_le
  rw [htotal] at hcovered
  exact le_antisymm (h.tracks o ho).le_total hcovered

end Runs

/-- The order is accepted, its first trade arrives, a report confirms it, and
the second trade arrives. -/
theorem filledTracks_of_inStep_sample :
    @FilledTracks exactDecimals "acct" "order-1" [sampleFill1, sampleFill2] new
      [.ofOrder sampleReport, .ofFill sampleFill1, .ofOrder sampleAheadReport,
        .ofFill sampleFill2] := by
  let _ : DecimalPackage := exactDecimals
  refine filledTracks_of_inStep tradesOf_sample (unknown_new _ _) ?_ (by decide +kernel)
  intro e he
  simp only [List.mem_cons, List.not_mem_nil, or_false] at he
  rcases he with rfl | rfl | rfl | rfl
  · exact .inl ⟨sampleReport, ⟨rfl, rfl, 0, rfl⟩, rfl⟩
  · exact .inr ⟨sampleFill1, by simp, rfl⟩
  · exact .inl ⟨sampleAheadReport, ⟨rfl, rfl, 1, by decide +kernel⟩, rfl⟩
  · exact .inr ⟨sampleFill2, by simp, rfl⟩

end Exchanges.Account
