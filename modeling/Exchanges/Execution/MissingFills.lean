import Exchanges.Execution.OrderHistory
import Exchanges.Execution.Reconciliation

/-!
Reconciling missing fills accounts for every report, and once is enough.

A report is older than the lookback, is a duplicate, is stored or is deferred. A
fill that is handled, that is stored or deferred, stays so while the other
reports are applied. A second pass therefore finds nothing to do.
-/

namespace Exchanges.Execution

open Exchanges.Lib Exchanges.Model Exchanges.Cache

set_option linter.unusedSectionVars false

/-- The report is older than the reconciliation looks. -/
def Outdated (lookbackStart : Time) (f : FillReport) : Prop :=
  lookbackStart ≠ 0 ∧ f.timestamp < lookbackStart

/-- The trade is stored, or the fill waits for its order. -/
def Handled (c : Cache) (f : FillReport) : Prop :=
  Known c f ∨ (c.deferredFills.get (fillKey f)).isSome

/-- Every report scanned is counted once. -/
def ReconciliationResult.Balanced (r : ReconciliationResult) : Prop :=
  r.reportsScanned = r.fillsApplied + r.fillsDeferred + r.duplicatesSkipped + r.lookbackSkipped

section

variable [DecimalPackage] {m : Manager} {c c' : Cache} {f g : FillReport}
  {s s' : Reconciling} {start : Time} {fs : List FillReport}

theorem deferredFillExists_iff (hc : Consistent c) :
    deferredFillExists c f = true ↔ (c.deferredFills.get (fillKey f)).isSome := by
  simp only [deferredFillExists, List.any_eq_true, decide_eq_true_eq, mem_deferredFillsForOrder,
    Option.isSome_iff_exists]
  constructor
  · rintro ⟨g, ⟨t, hget⟩, htrade⟩
    -- a deferred fill is found under its own trade
    have hkey := (hc.keyed.deferred _ g hget).1
    obtain rfl : g.tradeID = t := congrArg Prod.snd hkey
    exact ⟨g, by rwa [fillKey, ← htrade]⟩
  · rintro ⟨g, hget⟩
    have hkey := (hc.keyed.deferred _ g hget).1
    exact ⟨g, ⟨_, hget⟩, congrArg Prod.snd hkey⟩

/-! ### One fill -/

/-- A fill leaves the others handled. -/
theorem FillEffect.handled (he : FillEffect c f c') (h : Handled c g) : Handled c' g := by
  cases he with
  | same => exact h
  | stored fill => exact h.imp (fun hknown => known_insertFill.mpr (.inr hknown)) id
  | counted hf ho hwf =>
    refine h.imp (fun hknown => known_afterFill.mpr (.inr hknown)) fun hdeferred => ?_
    rwa [deferredFills_afterFill]
  | deferred hput =>
    simp only [Cache.putDeferredFill, except_seq_eq_ok] at hput
    obtain ⟨-, hput⟩ := hput
    split at hput
    · cases hput
      exact h
    · cases hput
      refine h.imp id fun hdeferred => ?_
      change ((c.deferredFills.put (fillKey f) f).get (fillKey g)).isSome = true
      rw [OrdMap.get_put]
      split
      · rfl
      · exact hdeferred

theorem deferredFills_deferFill {b : Bool} (hrun : (deferFill f).run c = (.ok b, c')) :
    b = false ∧ (c'.deferredFills.get (fillKey f)).isSome := by
  unfold deferFill at hrun
  obtain ⟨stored, c₁, hput, hrun⟩ := Prog.run_bind_eq_ok.mp hrun
  cases hrun
  refine ⟨rfl, ?_⟩
  cases hres : c.putDeferredFill f with
  | error e =>
    rw [Prog.run_step_error hres] at hput
    cases hput
  | ok r =>
    rw [Prog.run_step_ok hres] at hput
    cases hput
    simp only [Cache.putDeferredFill, except_seq_eq_ok] at hres
    obtain ⟨-, hres⟩ := hres
    split at hres
    · next hget =>
        cases hres
        rw [hget]
        rfl
    · cases hres
      change ((c.deferredFills.put (fillKey f) f).get (fillKey f)).isSome = true
      rw [OrdMap.get_put, if_pos rfl]
      rfl

theorem known_putLegFill {b : Bool} (hc : Consistent c)
    (htrade : c.fillByTradeID f.accountID f.tradeID = none)
    (hrun : (Prog.step (·.putFill (withLegPositionID f)) : Prog Cache Err Bool).run c =
      (.ok b, c')) : b = true ∧ Known c' f := by
  have hids : (withLegPositionID f).accountID = f.accountID ∧
      (withLegPositionID f).tradeID = f.tradeID := by
    unfold withLegPositionID
    split <;> exact ⟨rfl, rfl⟩
  have hnew : c.fills.get (fillKey (withLegPositionID f)) = none :=
    get_fillKey_of_trade_new hc (by rwa [hids.1, hids.2])
  cases hvalid : (withLegPositionID f).validate with
  | error e =>
    have herr : c.putFill (withLegPositionID f) = .error e := by
      rw [Cache.putFill, hvalid]
      rfl
    rw [Prog.run_step_error herr] at hrun
    cases hrun
  | ok u =>
    have hput := putFill_of_new (FillReport.validate_eq_ok.mp hvalid) hnew
    rw [Prog.run_step_ok hput] at hrun
    cases hrun
    exact ⟨rfl, known_insertFill.mpr (.inl ⟨hids.1.symm, hids.2.symm⟩)⟩

/-- A fill of a new trade that succeeds is stored, and says so, or is deferred. -/
theorem handled_applyFill {b : Bool} (hc : Reachable c) (hf : f.WellFormed) (hnew : ¬ Known c f)
    (hrun : (applyFill m f).run c = (.ok b, c')) :
    b = true ∧ Known c' f ∨
      b = false ∧ (c'.deferredFills.get (fillKey f)).isSome := by
  have htrade : c.fillByTradeID f.accountID f.tradeID = none :=
    Option.not_isSome_iff_eq_none.mp hnew
  cases ho : orderOfFill c f with
  | some o =>
    have hwf := hc.validated.orders _ o (order_of_orderOfFill hc.consistent.orders ho)
    by_cases hfits : Fits o f
    · rw [run_applyFill_counted hc.consistent hf ho hwf hnew hfits] at hrun
      cases hrun
      exact .inl ⟨rfl, known_afterFill.mpr (.inl ⟨rfl, rfl⟩)⟩
    · obtain ⟨err, herr⟩ := run_applyFill_overfill (m := m) hc.consistent hf ho hwf hnew hfits
      rw [herr] at hrun
      cases hrun
  | none =>
    rw [run_applyFill hf, htrade, ho] at hrun
    dsimp only at hrun
    split at hrun
    · exact .inl (known_putLegFill hc.consistent htrade hrun)
    · exact .inr (deferredFills_deferFill hrun)

/-! ### One pass -/

/-- What a pass over some reports has achieved. -/
structure Accounted (start : Time) (fs : List FillReport) (s s' : Reconciling) : Prop where
  wellFormed : ∀ f ∈ fs, f.WellFormed
  reachable : Reachable s'.cache
  handled : ∀ g, Handled s.cache g → Handled s'.cache g
  settled : ∀ f ∈ fs, Outdated start f ∨ Handled s'.cache f
  balanced : s.result.Balanced → s'.result.Balanced

theorem Accounted.cons {s₁ : Reconciling} (h : Accounted start [f] s s₁)
    (hrest : Accounted start fs s₁ s') : Accounted start (f :: fs) s s' where
  wellFormed := List.forall_mem_cons.mpr ⟨h.wellFormed f List.mem_cons_self, hrest.wellFormed⟩
  reachable := hrest.reachable
  handled g hg := hrest.handled g (h.handled g hg)
  settled := List.forall_mem_cons.mpr
    ⟨(h.settled f List.mem_cons_self).imp_right (hrest.handled f), hrest.settled⟩
  balanced hs := hrest.balanced (h.balanced hs)

/-- A report that needs no work is counted, and the cache stays as it is. -/
theorem Accounted.skipped (hc : Reachable s.cache) (hf : f.WellFormed)
    (hcache : s'.cache = s.cache) (hdone : Outdated start f ∨ Handled s.cache f)
    (hbalanced : s.result.Balanced → s'.result.Balanced) : Accounted start [f] s s' where
  wellFormed := List.forall_mem_singleton.mpr hf
  reachable := hcache ▸ hc
  handled _ hg := hcache ▸ hg
  settled := List.forall_mem_singleton.mpr (hcache ▸ hdone)
  balanced := hbalanced

/-- The counts after a report has been looked at. -/
def scanned (f : FillReport) (r : ReconciliationResult) : ReconciliationResult :=
  { r with
    accountID := if r.accountID = "" then f.accountID else r.accountID
    instrumentID := if r.instrumentID = {} then f.instrumentID else r.instrumentID
    reportsScanned := r.reportsScanned + 1 }

theorem run_reconcileMissingFill (hf : f.WellFormed) (s : Reconciling) :
    (reconcileMissingFill m start f).run s =
      (if start ≠ 0 ∧ f.timestamp < start then
        count fun r => { r with lookbackSkipped := r.lookbackSkipped + 1 }
      else if Known s.cache f then
        count fun r => { r with duplicatesSkipped := r.duplicatesSkipped + 1 }
      else reconcileFill m f).run { s with result := scanned f s.result } := by
  have hvalid : (Prog.lift f.validate : Prog Reconciling Err Unit).run s = (.ok (), s) := by
    rw [Prog.run_lift, FillReport.validate_eq_ok.mpr hf]
  rw [reconcileMissingFill, Prog.run_bind_ok hvalid]
  rfl

theorem wellFormed_of_reconcileMissingFill
    (hrun : (reconcileMissingFill m start f).run s = (.ok (), s')) : f.WellFormed := by
  unfold reconcileMissingFill at hrun
  obtain ⟨u, s₁, hvalid, -⟩ := Prog.run_bind_eq_ok.mp hrun
  exact FillReport.validate_eq_ok.mp (congrArg Prod.fst hvalid)

theorem accounted_reconcileFill (hc : Reachable s.cache) (hf : f.WellFormed)
    (hnew : ¬ Known s.cache f)
    (hrun : (reconcileFill m f).run { s with result := scanned f s.result } = (.ok (), s')) :
    Accounted start [f] s s' := by
  rw [reconcileFill, Prog.run_get_bind] at hrun
  split at hrun
  · next hdeferred =>
      cases hrun
      have hdone := (deferredFillExists_iff hc.consistent).mp hdeferred
      refine .skipped hc hf rfl (.inr (.inr hdone)) fun hs => ?_
      simp only [ReconciliationResult.Balanced, scanned] at hs ⊢
      omega
  · obtain ⟨stored, s₁, happly, hrun⟩ := Prog.run_bind_eq_ok.mp hrun
    obtain ⟨hfill, hs₁⟩ := Prod.mk.inj (happly : (_, _) = _)
    have hfill : (applyFill m f).run s.cache = (.ok stored, s₁.cache) :=
      Prod.ext hfill (congrArg Reconciling.cache hs₁)
    have hresult : s₁.result = scanned f s.result := (congrArg Reconciling.result hs₁).symm
    have hreach : Reachable s₁.cache := by
      have hkept := keeps_reachable_applyFill (m := m) (f := f) s.cache hc
      rwa [hfill] at hkept
    have heffect : FillEffect s.cache f s₁.cache := by
      have he := fillEffect_applyFill m s.cache f
      rwa [hfill] at he
    rw [Prog.run_get_bind] at hrun
    -- either way the report is counted once and the cache is that of the fill
    suffices h : Handled s₁.cache f ∧ s'.cache = s₁.cache ∧
        (s.result.Balanced → s'.result.Balanced) by
      obtain ⟨hdone, hcache, hbalanced⟩ := h
      exact ⟨List.forall_mem_singleton.mpr hf, hcache ▸ hreach,
        fun g hg => hcache ▸ heffect.handled hg,
        List.forall_mem_singleton.mpr (.inr (hcache ▸ hdone)), hbalanced⟩
    obtain ⟨rfl, hknown⟩ | ⟨rfl, hdeferred⟩ := handled_applyFill hc hf hnew hfill
    · cases hrun
      refine ⟨.inl hknown, rfl, fun hs => ?_⟩
      simp only [ReconciliationResult.Balanced, hresult, scanned] at hs ⊢
      omega
    · rw [if_neg Bool.false_ne_true,
        if_pos ((deferredFillExists_iff hreach.consistent).mpr hdeferred)] at hrun
      cases hrun
      refine ⟨.inr hdeferred, rfl, fun hs => ?_⟩
      simp only [ReconciliationResult.Balanced, hresult, scanned] at hs ⊢
      omega

theorem accounted_reconcileMissingFill (hc : Reachable s.cache)
    (hrun : (reconcileMissingFill m start f).run s = (.ok (), s')) :
    Accounted start [f] s s' := by
  have hf := wellFormed_of_reconcileMissingFill hrun
  rw [run_reconcileMissingFill hf] at hrun
  split_ifs at hrun with hold hknown
  · cases hrun
    refine .skipped hc hf rfl (.inl hold) fun hs => ?_
    simp only [ReconciliationResult.Balanced, scanned] at hs ⊢
    omega
  · cases hrun
    refine .skipped hc hf rfl (.inr (.inl hknown)) fun hs => ?_
    simp only [ReconciliationResult.Balanced, scanned] at hs ⊢
    omega
  · exact accounted_reconcileFill hc hf hknown hrun

theorem accounted_forEach (hc : Reachable s.cache)
    (hrun : (Prog.forEach (reconcileMissingFill m start) fs).run s = (.ok (), s')) :
    Accounted start fs s s' := by
  induction fs generalizing s with
  | nil =>
    cases hrun
    exact ⟨List.forall_mem_nil _, hc, fun _ => id, List.forall_mem_nil _, id⟩
  | cons f fs ih =>
    rw [Prog.forEach_cons] at hrun
    obtain ⟨u, s₁, hfirst, hrest⟩ := Prog.run_bind_eq_ok.mp hrun
    have hone := accounted_reconcileMissingFill hc hfirst
    exact hone.cons (ih hone.reachable hrest)

/-! ### A second pass -/

/-- A pass that finds nothing to do. -/
def Idle (s s' : Reconciling) : Prop :=
  s'.cache = s.cache ∧ s'.result.fillsApplied = s.result.fillsApplied ∧
    s'.result.fillsDeferred = s.result.fillsDeferred

theorem idle_reconcileMissingFill (hc : Reachable s.cache) (hf : f.WellFormed)
    (hdone : Outdated start f ∨ Handled s.cache f) :
    ∃ s', (reconcileMissingFill m start f).run s = (.ok (), s') ∧ Idle s s' := by
  rw [run_reconcileMissingFill hf]
  split_ifs with hold hknown
  · exact ⟨_, rfl, rfl, rfl, rfl⟩
  · exact ⟨_, rfl, rfl, rfl, rfl⟩
  · have hdeferred : deferredFillExists s.cache f = true :=
      (deferredFillExists_iff hc.consistent).mpr ((hdone.resolve_left hold).resolve_left hknown)
    rw [reconcileFill, Prog.run_get_bind, if_pos hdeferred]
    exact ⟨_, rfl, rfl, rfl, rfl⟩

theorem idle_forEach (hc : Reachable s.cache) (hfs : ∀ f ∈ fs, f.WellFormed)
    (hdone : ∀ f ∈ fs, Outdated start f ∨ Handled s.cache f) :
    ∃ s', (Prog.forEach (reconcileMissingFill m start) fs).run s = (.ok (), s') ∧
      Idle s s' := by
  induction fs generalizing s with
  | nil => exact ⟨s, rfl, rfl, rfl, rfl⟩
  | cons f fs ih =>
    obtain ⟨hf, hfs⟩ := List.forall_mem_cons.mp hfs
    obtain ⟨hfdone, hdone⟩ := List.forall_mem_cons.mp hdone
    obtain ⟨s₁, hfirst, hcache, happlied, hdeferred⟩ :=
      idle_reconcileMissingFill (m := m) hc hf hfdone
    rw [← hcache] at hc hdone
    obtain ⟨s₂, hrest, hcache', happlied', hdeferred'⟩ := ih hc hfs hdone
    refine ⟨s₂, ?_, hcache'.trans hcache, happlied'.trans happlied,
      hdeferred'.trans hdeferred⟩
    rw [Prog.forEach_cons, Prog.run_bind_ok hfirst, hrest]

/-- A pass that succeeds has counted every report once. Repeated, with whatever
result it starts from, it applies and defers nothing and keeps the cache. -/
theorem reconcileMissingFills_settles (hc : Reachable s.cache)
    (hrun : (reconcileMissingFills m fs start).run s = (.ok (), s')) :
    s'.result.reportsScanned = s'.result.fillsApplied + s'.result.fillsDeferred +
        s'.result.duplicatesSkipped + s'.result.lookbackSkipped ∧
      ∀ r, ∃ result,
        (reconcileMissingFills m fs start).run ⟨s'.cache, r⟩ = (.ok (), ⟨s'.cache, result⟩) ∧
          result.fillsApplied = 0 ∧ result.fillsDeferred = 0 := by
  have hpass : Accounted start fs { s with result := { caseID := "TC-REC02" } } s' :=
    accounted_forEach hc hrun
  refine ⟨hpass.balanced rfl, fun r => ?_⟩
  obtain ⟨s₂, hagain, hcache, happlied, hdeferred⟩ :=
    idle_forEach (m := m) (s := ⟨s'.cache, { caseID := "TC-REC02" }⟩) hpass.reachable
      hpass.wellFormed hpass.settled
  obtain ⟨cache, result⟩ := s₂
  obtain rfl : cache = s'.cache := hcache
  exact ⟨result, hagain, happlied, hdeferred⟩

end

/-- A fill of a known order, one of an unknown order, and the first again. -/
def sampleReports : List FillReport :=
  [Account.sampleFill1, { Account.sampleFill2 with orderID := "order-2" }, Account.sampleFill1]

/-- A cache that knows one order. -/
def oneOrder : Cache := @afterCalls exactDecimals {} new [.report Account.sampleReport]

/-- The state after a first pass over the sample reports. -/
def firstPass : Reconciling :=
  ((@reconcileMissingFills exactDecimals {} sampleReports 0).run ⟨oneOrder, {}⟩).2

theorem reconcileMissingFills_settles_sample :
    firstPass.result.reportsScanned = 3 ∧ firstPass.result.fillsApplied = 1 ∧
      firstPass.result.fillsDeferred = 1 ∧
      firstPass.result.reportsScanned = firstPass.result.fillsApplied +
        firstPass.result.fillsDeferred + firstPass.result.duplicatesSkipped +
        firstPass.result.lookbackSkipped ∧
      ∀ r, ∃ result, (@reconcileMissingFills exactDecimals {} sampleReports 0).run
        ⟨firstPass.cache, r⟩ = (.ok (), ⟨firstPass.cache, result⟩) ∧
          result.fillsApplied = 0 ∧ result.fillsDeferred = 0 := by
  let _ : DecimalPackage := exactDecimals
  have hok : ((reconcileMissingFills {} sampleReports 0).run ⟨oneOrder, {}⟩).1 = .ok () := by
    decide +kernel
  refine ⟨by decide +kernel, by decide +kernel, by decide +kernel, ?_⟩
  exact reconcileMissingFills_settles (s := ⟨oneOrder, {}⟩) (reachable_afterCalls .new _)
    (Prod.ext hok rfl)

end Exchanges.Execution
