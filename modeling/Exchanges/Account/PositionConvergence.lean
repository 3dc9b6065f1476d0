import Exchanges.Account.PositionRepair
import Exchanges.Cache.PositionIndexes

/-!
Whether repairing the positions once is enough.

The venue's reports are stored, the repairs generated for them are stored too,
and the repair is asked again. A position that the venue does not report is
flattened under its own id, and stays flat. A position that has its own id in the
reports is the report. What remains are the cached positions that meet a report
by venue position id only: for them the repair is the report, which is stored
under the report's id, so that such a position is repaired again and again unless
it agreed from the beginning.
-/

namespace Exchanges.Account

open Exchanges.Lib Exchanges.Model Exchanges.Cache

/-! ### Stored positions are valid -/

theorem position_of_foldl_removePosition (ps : List PositionStatusReport) {c : Cache}
    {k : AccountID × PositionID} {p : PositionStatusReport}
    (hget : (ps.foldl removePosition c).positions.get k = some p) :
    c.positions.get k = some p := by
  induction ps generalizing c with
  | nil => exact hget
  | cons q ps ih =>
    have hget' : (c.positions.delete (q.accountID, q.positionID)).get k = some p := ih hget
    rw [OrdMap.get_delete] at hget'
    split at hget'
    · cases hget'
    · exact hget'

theorem position_wellFormed {c : Cache} (hc : Reachable c) :
    ∀ k p, c.positions.get k = some p → p.WellFormed := by
  induction hc with
  | new =>
    intro k p hget
    cases (OrdMap.get_empty _).symm.trans hget
  | putInstrument _ hput ih =>
    simp only [Cache.putInstrument, except_seq_eq_ok] at hput
    obtain ⟨-, hput⟩ := hput
    cases hput
    exact ih
  | putOrder _ hput ih =>
    obtain ⟨-, rfl⟩ := putOrder_eq_ok.mp hput
    rwa [positions_storeOrder]
  | putFill _ hput ih =>
    simp only [Cache.putFill, except_seq_eq_ok] at hput
    obtain ⟨-, hput⟩ := hput
    split at hput <;> cases hput <;> exact ih
  | putDeferredFill _ hput ih =>
    simp only [Cache.putDeferredFill, except_seq_eq_ok] at hput
    obtain ⟨-, hput⟩ := hput
    split at hput <;> cases hput <;> exact ih
  | @putPosition c c' position _ hput ih =>
    simp only [Cache.putPosition, except_seq_eq_ok] at hput
    obtain ⟨hvalid, hput⟩ := hput
    cases hput
    intro k p hget
    rw [positions_storePosition, OrdMap.get_put] at hget
    split at hget
    · cases hget
      exact PositionStatusReport.validate_eq_ok.mp hvalid
    · exact ih k p hget
  | @purge c a policy _ ih =>
    intro k p hget
    rw [(purge_samePositions c a policy).positions] at hget
    exact ih k p (position_of_foldl_removePosition _ hget)
  | putBar bar _ ih =>
    obtain ⟨bars, hbars⟩ := putBar_eq _ bar
    rw [hbars]
    exact ih
  | _ => assumption

/-! ### Which report is about a position -/

/-- Valid reports of one account and instrument in which no two share a position
id or a venue position id. -/
structure VenueReports (a : AccountID) (inst : InstrumentID)
    (reports : List PositionStatusReport) : Prop where
  wellFormed : ∀ r ∈ reports, r.WellFormed
  accountID : ∀ r ∈ reports, r.accountID = a
  instrumentID : ∀ r ∈ reports, r.instrumentID = inst
  positionIDs : (reports.map (·.positionID)).Nodup
  venueIDs : reports.Pairwise fun r r' =>
    r.venuePositionID = r'.venuePositionID → r.venuePositionID = ""

section Matching

variable {a : AccountID} {inst : InstrumentID} {reports : List PositionStatusReport}
  {p r : PositionStatusReport}

theorem VenueReports.eq_of_positionID (h : VenueReports a inst reports)
    {r' : PositionStatusReport} (hr : r ∈ reports) (hr' : r' ∈ reports)
    (heq : r.positionID = r'.positionID) : r = r' :=
  List.inj_on_of_nodup_map h.positionIDs hr hr' heq

theorem VenueReports.eq_of_venueID (h : VenueReports a inst reports)
    {r' : PositionStatusReport} (hr : r ∈ reports) (hr' : r' ∈ reports)
    (hne : r.venuePositionID ≠ "") (heq : r.venuePositionID = r'.venuePositionID) : r = r' := by
  have hsymm : Std.Symm fun r r' : PositionStatusReport =>
      r.venuePositionID = r'.venuePositionID → r.venuePositionID = "" :=
    ⟨fun x y hxy heq' => heq'.trans (hxy heq'.symm)⟩
  by_contra hdistinct
  exact hne (h.venueIDs.forall hr hr' hdistinct heq)

theorem VenueReports.matchPosition_eq (h : VenueReports a inst reports)
    (p : PositionStatusReport) : matchPosition reports a inst p =
      (reports.reverse.find? fun report =>
        decide (p.positionID ≠ "" ∧ report.positionID = p.positionID)).or
      (reports.reverse.find? fun report =>
        decide (p.venuePositionID ≠ "" ∧ report.venuePositionID = p.venuePositionID)) := by
  have hall : (reports.filter fun report =>
      decide (report.accountID = a ∧ report.instrumentID = inst)) = reports :=
    List.filter_eq_self.2 fun r hr => decide_eq_true ⟨h.accountID r hr, h.instrumentID r hr⟩
  rw [matchPosition, hall]

/-- The only match is the first. -/
theorem find?_eq_some_of_unique {α : Type} {q : α → Bool} {xs : List α} {x : α} (hx : x ∈ xs)
    (hq : q x = true) (hunique : ∀ y ∈ xs, q y = true → y = x) : xs.find? q = some x := by
  cases hfind : xs.find? q with
  | none => exact absurd hq (List.find?_eq_none.1 hfind x hx)
  | some y => rw [hunique y (List.mem_of_find?_eq_some hfind) (List.find?_some hfind)]

/-- A report is the match of the position stored under its id. -/
theorem VenueReports.matchPosition_reported (h : VenueReports a inst reports) (hr : r ∈ reports) :
    matchPosition reports a inst r = some r := by
  have hfind : (reports.reverse.find? fun report =>
      decide (r.positionID ≠ "" ∧ report.positionID = r.positionID)) = some r := by
    refine find?_eq_some_of_unique (List.mem_reverse.2 hr)
      (decide_eq_true ⟨(h.wellFormed r hr).positionID_ne, rfl⟩) fun r' hr' hsame => ?_
    exact h.eq_of_positionID (List.mem_reverse.1 hr') hr (of_decide_eq_true hsame).2
  rw [h.matchPosition_eq, hfind, Option.some_or]

/-- A position under another id is matched by its venue position id. -/
theorem VenueReports.matchPosition_unreported (h : VenueReports a inst reports)
    (hp : ∀ r ∈ reports, r.positionID ≠ p.positionID) :
    matchPosition reports a inst p = some r ↔
      r ∈ reports ∧ p.venuePositionID ≠ "" ∧ r.venuePositionID = p.venuePositionID := by
  have hnone : (reports.reverse.find? fun report =>
      decide (p.positionID ≠ "" ∧ report.positionID = p.positionID)) = none := by
    rw [List.find?_eq_none]
    intro r' hr' hsame
    exact hp r' (List.mem_reverse.1 hr') (of_decide_eq_true hsame).2
  rw [h.matchPosition_eq, hnone, Option.none_or]
  constructor
  · intro hfind
    exact ⟨List.mem_reverse.1 (List.mem_of_find?_eq_some hfind),
      by simpa using List.find?_some hfind⟩
  · rintro ⟨hr, hne, hvenue⟩
    refine find?_eq_some_of_unique (List.mem_reverse.2 hr) (decide_eq_true ⟨hne, hvenue⟩)
      fun r' hr' hsame => ?_
    obtain ⟨-, hvenue'⟩ := of_decide_eq_true hsame
    exact h.eq_of_venueID (List.mem_reverse.1 hr') hr (hvenue' ▸ hne) (hvenue'.trans hvenue.symm)

end Matching

/-! ### The repairs of one call -/

/-- The repairs of the positions of an instrument. -/
def repairsFor (now : Time) (a : AccountID) (inst : InstrumentID)
    (reports : List PositionStatusReport) (c : Cache) : List PositionStatusReport :=
  (c.positionsForInstrument inst).filterMap (positionRepair now reports a inst)

section Repairs

variable {a : AccountID} {inst : InstrumentID} {reports : List PositionStatusReport}
  {p g : PositionStatusReport} {now : Time} {maxAttempts : ℤ} {c : Cache}

theorem generated_repairPosition (hmax : maxAttempts ≤ 0) (s : PositionRepairs) :
    (s.repairPosition now a inst reports maxAttempts p).generated.map Prod.snd =
      s.generated.map Prod.snd ++ (positionRepair now reports a inst p).toList := by
  by_cases haccount : p.accountID = a
  · rw [PositionRepairs.repairPosition_eq haccount]
    cases positionRepair now reports a inst p with
    | none => exact (List.append_nil _).symm
    | some repair =>
      dsimp only
      rw [PositionRepairs.appendPositionRepair_granted fun hpos => absurd hpos (not_lt.2 hmax),
        List.map_append]
      rfl
  · rw [PositionRepairs.repairPosition, positionRepair, if_pos haccount, if_pos haccount]
    exact (List.append_nil _).symm

theorem generated_foldl (hmax : maxAttempts ≤ 0) (ps : List PositionStatusReport) :
    ∀ s : PositionRepairs,
      (ps.foldl (PositionRepairs.repairPosition now a inst reports maxAttempts) s).generated.map
        Prod.snd = s.generated.map Prod.snd ++ ps.filterMap (positionRepair now reports a inst) := by
  induction ps with
  | nil => exact fun s => (List.append_nil _).symm
  | cons p ps ih =>
    intro s
    rw [List.foldl_cons, ih, generated_repairPosition hmax, List.append_assoc]
    cases hrepair : positionRepair now reports a inst p with
    | none => simp [hrepair]
    | some repair => simp [hrepair]

/-- The reports that a call generates; none if it fails. -/
def repairReports (clock : Time) (accountID : AccountID) (instrumentID : InstrumentID)
    (reports : List PositionStatusReport) (policy : PositionRepairPolicy)
    (attempts : OrdMap PositionRepairKey Nat) (c : Cache) : List PositionStatusReport :=
  (repairsOf attempts (repairPositionReports clock accountID instrumentID reports policy
    attempts c)).generated.map Prod.snd

theorem repairReports_of_checks {clock : Time} {policy : PositionRepairPolicy}
    {attempts : OrdMap PositionRepairKey Nat} (hmax : policy.maxAttempts ≤ 0) (ha : a ≠ "")
    (hinst : inst.validate = .ok ()) :
    repairReports clock a inst reports policy attempts c =
      repairsFor (if policy.now = 0 then clock else policy.now) a inst reports c := by
  have hrun : repairPositionReports clock a inst reports policy attempts c =
      .ok ((c.positionsForInstrument inst).foldl (PositionRepairs.repairPosition
        (if policy.now = 0 then clock else policy.now) a inst reports policy.maxAttempts)
        { attempts := attempts }) := by
    simp only [repairPositionReports, reject, ha, if_false, hinst]
    rfl
  rw [repairReports, hrun]
  exact generated_foldl hmax _ _

theorem repairReports_of_not_checks {clock : Time} {policy : PositionRepairPolicy}
    {attempts : OrdMap PositionRepairKey Nat} (h : ¬ (a ≠ "" ∧ inst.validate = .ok ())) :
    repairReports clock a inst reports policy attempts c = [] := by
  rw [repairReports]
  cases hrun : repairPositionReports clock a inst reports policy attempts c with
  | error err => rfl
  | ok repairs =>
    simp only [repairPositionReports, except_seq_eq_ok, reject_eq_ok] at hrun
    exact absurd ⟨hrun.1, hrun.2.1⟩ h

/-- Nothing is generated exactly if every position of the account agrees. -/
theorem repairsFor_eq_nil (hc : Reachable c) :
    repairsFor now a inst reports c = [] ↔
      ∀ p, c.position a p.positionID = some p → p.instrumentID = inst →
        agreesWithVenue reports a inst p = true := by
  rw [repairsFor, List.filterMap_eq_nil_iff]
  constructor
  · intro h p hget hinst
    obtain ⟨haccount, -⟩ := hc.consistent.keyed.positions a _ p hget
    have hmem := (mem_positionsForInstrument hc).2 ⟨haccount ▸ hget, hinst⟩
    exact (positionRepair_eq_none_iff haccount).1 (h p hmem)
  · intro h p hmem
    obtain ⟨hget, hinst⟩ := (mem_positionsForInstrument hc).1 hmem
    by_cases haccount : p.accountID = a
    · exact (positionRepair_eq_none_iff haccount).2 (h p (haccount ▸ hget) hinst)
    · rw [positionRepair, if_pos haccount]

end Repairs

/-! ### Storing the reports and the repairs -/

/-- `PutPosition` for each of the positions. -/
def storePositions (ps : List PositionStatusReport) : Prog Cache Err Unit :=
  Prog.forEach (fun p => Prog.update (·.putPosition p)) ps

/-- The position as a report that flattens it. -/
def flattened (now : Time) (p : PositionStatusReport) : PositionStatusReport :=
  { p with side := .flat, quantity := 0, timestamp := now }

/-- The position meets no report under its own id. -/
def Unreported (reports : List PositionStatusReport) (p : PositionStatusReport) : Prop :=
  ∀ r ∈ reports, r.positionID ≠ p.positionID

/-- A cached position that meets a report by venue position id only agrees with
it. -/
def AgreesByVenueID (c : Cache) (a : AccountID) (inst : InstrumentID)
    (reports : List PositionStatusReport) : Prop :=
  ∀ p, c.position a p.positionID = some p → p.instrumentID = inst → Unreported reports p →
    ∀ r ∈ reports, p.venuePositionID ≠ "" → r.venuePositionID = p.venuePositionID →
      p.side = r.side ∧ p.quantity = r.quantity

section Rounds

variable {a : AccountID} {inst : InstrumentID} {reports ps : List PositionStatusReport}
  {p q r g : PositionStatusReport} {now : Time} {c : Cache} {i : PositionID}

theorem reachable_foldl_storePosition (hc : Reachable c) (hps : ∀ p ∈ ps, p.WellFormed) :
    Reachable (ps.foldl storePosition c) := by
  induction ps generalizing c with
  | nil => exact hc
  | cons p ps ih =>
    obtain ⟨hp, hrest⟩ := List.forall_mem_cons.1 hps
    exact ih (hc.storePosition hp) hrest

/-- If all that is written under an id is one position, and it is written or was
there before, it is stored. -/
theorem position_foldl_eq (hq : q.accountID = a) (hid : q.positionID = i)
    (hwrites : ∀ g ∈ ps, g.positionID = i → g = q)
    (h : c.position a i = some q ∨ ∃ g ∈ ps, g.positionID = i) :
    (ps.foldl storePosition c).position a i = some q := by
  induction ps generalizing c with
  | nil =>
    rcases h with h | ⟨g, hg, -⟩
    · exact h
    · cases hg
  | cons g ps ih =>
    obtain ⟨hfirst, hrest⟩ := List.forall_mem_cons.1 hwrites
    refine ih hrest ?_
    by_cases hgid : g.positionID = i
    · left
      rw [hfirst hgid, Cache.position, positions_storePosition, hq, hid, OrdMap.get_put_self]
    · refine h.imp (fun hget => ?_) ?_
      · rw [Cache.position, positions_storePosition,
          OrdMap.get_put_of_ne _ fun heq => hgid (Prod.mk.inj heq).2.symm]
        exact hget
      · rintro ⟨g', hg', hgid'⟩
        rcases List.mem_cons.1 hg' with rfl | hg'
        · exact absurd hgid' hgid
        · exact ⟨g', hg', hgid'⟩

theorem VenueReports.mem_of_match (h : VenueReports a inst reports)
    (hmatch : matchPosition reports a inst p = some r) : r ∈ reports := by
  rw [h.matchPosition_eq, Option.or_eq_some_iff] at hmatch
  rcases hmatch with hfind | ⟨-, hfind⟩
  · exact List.mem_reverse.1 (List.mem_of_find?_eq_some hfind)
  · exact List.mem_reverse.1 (List.mem_of_find?_eq_some hfind)

variable (hc : Reachable c) (h : VenueReports a inst reports)
include hc h

theorem position_reported (hr : r ∈ reports) :
    (reports.foldl storePosition c).position a r.positionID = some r := by
  have hholds := (holds_foldl_storePosition hc.consistent.keyed h.positionIDs r hr).1
  rwa [h.accountID r hr] at hholds

/-- A repair is one of the reports, or flattens a position that no report is
about. -/
theorem mem_repairsFor (hg : g ∈ repairsFor now a inst reports (reports.foldl storePosition c)) :
    g ∈ reports ∨ ∃ p, (reports.foldl storePosition c).position a p.positionID = some p ∧
      p.instrumentID = inst ∧ Unreported reports p ∧ matchPosition reports a inst p = none ∧
      ¬ (p.side = .flat ∨ p.quantity = 0) ∧ g = flattened now p := by
  have hc₁ := reachable_foldl_storePosition hc h.wellFormed
  obtain ⟨p, hmem, hrepair⟩ := List.mem_filterMap.1 hg
  obtain ⟨hget, hinst⟩ := (mem_positionsForInstrument hc₁).1 hmem
  rw [positionRepair] at hrepair
  split at hrepair
  · cases hrepair
  · next haccount =>
      rw [not_not] at haccount
      rw [haccount] at hget
      cases hmatch : matchPosition reports a inst p with
      | some report =>
        rw [hmatch] at hrepair
        dsimp only at hrepair
        split at hrepair
        · cases hrepair
        · cases hrepair
          exact .inl (h.mem_of_match hmatch)
      | none =>
        rw [hmatch] at hrepair
        dsimp only at hrepair
        split at hrepair
        · cases hrepair
        · next hflat =>
            cases hrepair
            refine .inr ⟨p, hget, hinst, fun r hr heq => ?_, hmatch, hflat, rfl⟩
            rw [← heq, position_reported hc h hr] at hget
            rw [← Option.some.inj hget, h.matchPosition_reported hr] at hmatch
            cases hmatch

theorem repairsFor_wellFormed (now : Time) :
    ∀ g ∈ repairsFor now a inst reports (reports.foldl storePosition c), g.WellFormed := by
  intro g hg
  have hc₁ := reachable_foldl_storePosition hc h.wellFormed
  rcases mem_repairsFor hc h hg with hr | ⟨p, hget, -, -, -, -, rfl⟩
  · exact h.wellFormed g hr
  · obtain ⟨h1, h2, h3, h4, -⟩ := position_wellFormed hc₁ _ p hget
    exact ⟨h1, h2, h3, h4, .inr (.inr (.inr rfl))⟩

/-- After the repairs the reports are still stored. -/
theorem position_repaired_reported (hr : r ∈ reports) :
    ((repairsFor now a inst reports (reports.foldl storePosition c)).foldl storePosition
      (reports.foldl storePosition c)).position a r.positionID = some r := by
  refine position_foldl_eq (h.accountID r hr) rfl (fun g hg hid => ?_)
    (.inl (position_reported hc h hr))
  rcases mem_repairsFor hc h hg with hg | ⟨p, -, -, hunreported, -, -, rfl⟩
  · exact h.eq_of_positionID hg hr hid
  · exact absurd hid.symm (hunreported r hr)

/-- After the repairs, a position that no report is about is flat, and any other
that has no report under its id is as it was. -/
theorem position_repaired_unreported (now : Time) (hp : c.position a p.positionID = some p)
    (hinst : p.instrumentID = inst) (hunreported : Unreported reports p) :
    ((repairsFor now a inst reports (reports.foldl storePosition c)).foldl storePosition
      (reports.foldl storePosition c)).position a p.positionID =
        some (if matchPosition reports a inst p = none ∧ ¬ (p.side = .flat ∨ p.quantity = 0) then
          flattened now p else p) := by
  have hc₁ := reachable_foldl_storePosition hc h.wellFormed
  have hp₁ : (reports.foldl storePosition c).position a p.positionID = some p := by
    rw [position_foldl_storePosition hunreported, hp]
  obtain ⟨haccount, -⟩ := hc.consistent.keyed.positions a _ p hp
  have hwritten : ∀ g ∈ repairsFor now a inst reports (reports.foldl storePosition c),
      g.positionID = p.positionID → (matchPosition reports a inst p = none ∧
        ¬ (p.side = .flat ∨ p.quantity = 0)) ∧ g = flattened now p := by
    intro g hg hid
    rcases mem_repairsFor hc h hg with hg | ⟨p', hget, -, -, hmatch, hflat, rfl⟩
    · exact absurd hid (hunreported g hg)
    · have hid' : p'.positionID = p.positionID := hid
      rw [hid', hp₁] at hget
      obtain rfl := Option.some.inj hget
      exact ⟨⟨hmatch, hflat⟩, rfl⟩
  split
  · next hmissing =>
      refine position_foldl_eq haccount rfl (fun g hg hid => (hwritten g hg hid).2)
        (.inr ⟨flattened now p, ?_, rfl⟩)
      refine List.mem_filterMap.2 ⟨p, (mem_positionsForInstrument hc₁).2
        ⟨haccount ▸ hp₁, hinst⟩, ?_⟩
      rw [positionRepair, if_neg (not_not.2 haccount), hmissing.1]
      exact if_neg hmissing.2
  · next hmatched =>
      rw [position_foldl_storePosition fun g hg hid => hmatched (hwritten g hg hid).1]
      exact hp₁

/-- Only positions that were stored before are repaired. -/
theorem stored_of_repaired (hunreported : ∀ r ∈ reports, r.positionID ≠ i)
    (hp : ((repairsFor now a inst reports (reports.foldl storePosition c)).foldl storePosition
      (reports.foldl storePosition c)).position a i = some p) (hinst : p.instrumentID = inst) :
    ∃ q, c.position a i = some q ∧ q.instrumentID = inst := by
  by_cases hwritten : ∃ g ∈ repairsFor now a inst reports (reports.foldl storePosition c),
      g.positionID = i
  · obtain ⟨g, hg, rfl⟩ := hwritten
    rcases mem_repairsFor hc h hg with hg | ⟨q, hget, hqinst, -, -, -, rfl⟩
    · exact absurd rfl (hunreported g hg)
    · have hsame : (reports.foldl storePosition c).position a q.positionID =
          c.position a q.positionID := position_foldl_storePosition hunreported
      exact ⟨q, hsame.symm.trans hget, hqinst⟩
  · rw [position_foldl_storePosition fun g hg hid => hwritten ⟨g, hg, hid⟩,
      position_foldl_storePosition hunreported] at hp
    exact ⟨p, hp, hinst⟩

/-- After the repairs everything agrees exactly if the positions that meet a
report by venue position id only agreed before. -/
theorem agrees_repaired_iff :
    (∀ p, ((repairsFor now a inst reports (reports.foldl storePosition c)).foldl storePosition
        (reports.foldl storePosition c)).position a p.positionID = some p →
      p.instrumentID = inst → agreesWithVenue reports a inst p = true) ↔
      AgreesByVenueID c a inst reports := by
  constructor
  · intro hagrees p hp hinst hunreported r hr hne hvenue
    have hmatch := (h.matchPosition_unreported hunreported).2 ⟨hr, hne, hvenue⟩
    have hkept := position_repaired_unreported hc h now hp hinst hunreported
    rw [if_neg fun hmissing => by rw [hmatch] at hmissing; cases hmissing.1] at hkept
    have hmatches := hagrees p hkept hinst
    rw [agreesWithVenue, hmatch] at hmatches
    exact of_decide_eq_true hmatches
  · intro hvenue p hp hinst
    by_cases hreported : ∃ r ∈ reports, r.positionID = p.positionID
    · obtain ⟨r, hr, hid⟩ := hreported
      rw [← hid, position_repaired_reported hc h hr] at hp
      obtain rfl := Option.some.inj hp
      rw [agreesWithVenue, h.matchPosition_reported hr]
      exact decide_eq_true ⟨rfl, rfl⟩
    · have hunreported : Unreported reports p := fun r hr hid => hreported ⟨r, hr, hid⟩
      obtain ⟨q, hq, hqinst⟩ := stored_of_repaired hc h hunreported hp hinst
      obtain ⟨-, hid⟩ := hc.consistent.keyed.positions a _ q hq
      rw [← hid] at hq hp
      have hqunreported : Unreported reports q := fun r hr heq => hunreported r hr (heq.trans hid)
      rw [position_repaired_unreported hc h now hq hqinst hqunreported] at hp
      obtain rfl := Option.some.inj hp
      split
      · next hmissing =>
          -- The flat position has the ids of the one it replaces.
          have hmatch : matchPosition reports a inst (flattened now q) = none := hmissing.1
          rw [agreesWithVenue, hmatch]
          exact decide_eq_true (.inl rfl)
      · next hkept =>
          rw [agreesWithVenue]
          cases hmatch : matchPosition reports a inst q with
          | none =>
            refine decide_eq_true ?_
            by_contra hflat
            exact hkept ⟨hmatch, hflat⟩
          | some r =>
            obtain ⟨hr, hne, heq⟩ := (h.matchPosition_unreported hqunreported).1 hmatch
            exact decide_eq_true (hvenue q hq hqinst hqunreported r hr hne heq)

/-- From any cache, with the reports stored and then the repairs generated for
them, a second call generates nothing exactly if every cached position of the
account and instrument that meets a report by venue position id only agrees with
it in side and quantity. -/
theorem repair_converges_iff (clock clock' : Time) (policy policy' : PositionRepairPolicy)
    (hmax : policy.maxAttempts ≤ 0) (hmax' : policy'.maxAttempts ≤ 0)
    (attempts attempts' : OrdMap PositionRepairKey Nat) :
    ∃ c₁ c₂, (storePositions reports).run c = (.ok (), c₁) ∧
      (storePositions (repairReports clock a inst reports policy attempts c₁)).run c₁ =
        (.ok (), c₂) ∧
      (repairReports clock' a inst reports policy' attempts' c₂ = [] ↔
        AgreesByVenueID c a inst reports) := by
  refine ⟨reports.foldl storePosition c, (repairReports clock a inst reports policy attempts
    (reports.foldl storePosition c)).foldl storePosition (reports.foldl storePosition c),
    run_putPositions h.wellFormed, ?_⟩
  by_cases hchecks : a ≠ "" ∧ inst.validate = .ok ()
  · rw [repairReports_of_checks hmax hchecks.1 hchecks.2]
    have hwf := repairsFor_wellFormed hc h (if policy.now = 0 then clock else policy.now)
    have hc₁ := reachable_foldl_storePosition hc h.wellFormed
    refine ⟨run_putPositions hwf, ?_⟩
    rw [repairReports_of_checks hmax' hchecks.1 hchecks.2,
      repairsFor_eq_nil (reachable_foldl_storePosition hc₁ hwf)]
    exact agrees_repaired_iff hc h
  · rw [repairReports_of_not_checks hchecks, repairReports_of_not_checks hchecks]
    refine ⟨rfl, iff_of_true rfl fun p _ _ _ r hr => absurd ?_ hchecks⟩
    have hr' := h.wellFormed r hr
    exact ⟨h.accountID r hr ▸ hr'.accountID_ne, h.instrumentID r hr ▸ hr'.instrument⟩

end Rounds

/-- The venue reports under the id "p-2" what the cache holds under "p-1". -/
def sampleVenueReport : PositionStatusReport :=
  { samplePosition with positionID := "p-2", venuePositionID := "v-1", quantity := 3 }

theorem venueReports_sample : VenueReports "acct" samplePerp [sampleVenueReport] := by
  refine ⟨?_, by simp [sampleVenueReport, samplePosition],
    by simp [sampleVenueReport, samplePosition], by simp, by simp⟩
  intro r hr
  rw [List.mem_singleton.1 hr]
  exact ⟨by decide, by decide, by decide +kernel, le_refl _, .inr (.inl rfl)⟩

/-- A position that the venue does not know is flattened once. -/
theorem repair_converges_iff_unmatched :
    ∃ c₁ c₂, (storePositions [sampleVenueReport]).run (new.storePosition samplePosition) =
        (.ok (), c₁) ∧
      (storePositions (repairReports 5 "acct" samplePerp [sampleVenueReport] {} ∅ c₁)).run c₁ =
        (.ok (), c₂) ∧
      repairReports 6 "acct" samplePerp [sampleVenueReport] {} ∅ c₂ = [] := by
  have hc : Reachable (new.storePosition samplePosition) :=
    Reachable.storePosition .new samplePosition_wellFormed
  obtain ⟨c₁, c₂, hstore, hrepair, hiff⟩ := repair_converges_iff hc venueReports_sample 5 6
    {} {} (le_refl 0) (le_refl 0) ∅ ∅
  refine ⟨c₁, c₂, hstore, hrepair, hiff.2 fun p hp _ _ r _ hne => absurd ?_ hne⟩
  rw [Cache.position, positions_storePosition, OrdMap.get_put] at hp
  split at hp
  · rw [← Option.some.inj hp]
    rfl
  · cases (OrdMap.get_empty _).symm.trans hp

/-- The position is repaired by the report of "p-2", and is repaired again. -/
theorem venue_id_repaired_again :
    let c := new.storePosition { samplePosition with venuePositionID := "v-1" }
    let c₁ := ((storePositions [sampleVenueReport]).run c).2
    let generated := repairReports 5 "acct" samplePerp [sampleVenueReport] {} ∅ c₁
    let c₂ := ((storePositions generated).run c₁).2
    generated = [sampleVenueReport] ∧
      repairReports 6 "acct" samplePerp [sampleVenueReport] {} ∅ c₂ = [sampleVenueReport] := by
  decide +kernel

end Exchanges.Account
