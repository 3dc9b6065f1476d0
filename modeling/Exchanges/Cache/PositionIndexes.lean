import Exchanges.Cache.PositionReports
import Exchanges.Lib.Trace

/-!
The lookups of positions over sequences of `PutPosition` and `Purge`.

The index by strategy is exact in every cache. The indexes by instrument and by venue
id lead to one position only, and two things go wrong with them. A position that
changes its instrument leaves the old entry behind. And an entry is deleted with the
position that it leads to, or with the venue id that this position gives up, although
another stored position has the same instrument or venue id. A sequence in which
neither happens passes through coherent caches only, and no other sequence does.
-/

namespace Exchanges.Cache

open Exchanges.Lib Exchanges.Model

variable {c c' : Cache} {a : AccountID} {p q : PositionStatusReport}

def positionKey (p : PositionStatusReport) : AccountID × PositionID :=
  (p.accountID, p.positionID)

/-- What holds of the positions of every cache. -/
structure PositionsKept (c : Cache) : Prop where
  keyed : ∀ k p, c.positions.get k = some p → positionKey p = k
  venues : IndexSound c.positions.get (·.venuePositionID) (· ≠ "") c.positionVenues
  strategies : IndexesAll c.positions.get (·.metadata.strategyID) "" c.positionStrategies

/-- What the lookups by instrument and by venue id need. -/
structure PositionsFound (c : Cache) : Prop where
  instrument_sound : IndexSound c.positions.get (·.instrumentID) (fun _ => True) c.positionInst
  instrument_complete :
    IndexComplete c.positions.get (·.instrumentID) (fun _ => True) c.positionInst
  venue_complete : IndexComplete c.positions.get (·.venuePositionID) (· ≠ "") c.positionVenues

/-! ### Storing a position -/

theorem view_storePosition (c : Cache) (p : PositionStatusReport) :
    (c.storePosition p).positions.get =
      Function.update c.positions.get (positionKey p) (some p) := by
  funext k
  rw [positions_storePosition, OrdMap.get_put, Function.update_apply]
  rfl

theorem positionVenues_replaceKey (c : Cache) (p : PositionStatusReport) :
    (c.storePosition p).positionVenues = replaceKey (· ≠ "") c.positionVenues p.accountID
      p.positionID ((c.positions.get (positionKey p)).map (·.venuePositionID))
      p.venuePositionID := by
  rw [positionVenues_storePosition, replaceKey, addOrderID, ite_not]
  unfold dropVenue Cache.position positionKey
  cases c.positions.get (p.accountID, p.positionID) <;> rfl

theorem PositionsKept.storePosition (h : PositionsKept c) (p : PositionStatusReport) :
    PositionsKept (c.storePosition p) := by
  refine ⟨fun k q hget => ?_, ?_, ?_⟩
  · rw [view_storePosition, Function.update_apply] at hget
    split at hget
    · next heq =>
        cases hget
        exact heq.symm
    · exact h.keyed k q hget
  · rw [view_storePosition, positionVenues_replaceKey]
    exact h.venues.replace
  · rw [view_storePosition, positionStrategies_storePosition]
    cases hget : c.position p.accountID p.positionID with
    | none => exact h.strategies.add hget
    | some e =>
      have hkey := h.keyed _ e hget
      obtain ⟨haccount, hid⟩ := Prod.mk.inj hkey
      have hhidden := (h.strategies.remove hget).add (v := p) (Function.update_self ..)
      rw [Function.update_idem] at hhidden
      dsimp only
      rw [haccount, hid]
      exact hhidden

theorem PositionsFound.storePosition_iff (h : PositionsFound c) (p : PositionStatusReport) :
    PositionsFound (c.storePosition p) ↔ ∀ e, c.position p.accountID p.positionID = some e →
      (e.instrumentID ≠ p.instrumentID →
        c.positionInst.get (p.accountID, e.instrumentID) ≠ some p.positionID) ∧
      (e.venuePositionID ≠ "" → e.venuePositionID ≠ p.venuePositionID →
        ∀ j, Carries c.positions.get (·.venuePositionID) p.accountID e.venuePositionID j →
          j = p.positionID) := by
  have hsound := h.instrument_sound.put_iff (a := p.accountID) (i := p.positionID) (v := p) trivial
  have hcomplete := h.venue_complete.replace_iff (a := p.accountID) (i := p.positionID) (v := p)
  constructor
  · rintro ⟨hinstrument, -, hvenue⟩ e he
    rw [view_storePosition, positionInst_storePosition] at hinstrument
    rw [view_storePosition, positionVenues_replaceKey] at hvenue
    exact ⟨hsound.mp hinstrument e he, hcomplete.mp hvenue e he⟩
  · intro hall
    refine ⟨?_, ?_, ?_⟩
    · rw [view_storePosition, positionInst_storePosition]
      exact hsound.mpr fun e he => (hall e he).1
    · rw [view_storePosition, positionInst_storePosition]
      exact h.instrument_complete.put
    · rw [view_storePosition, positionVenues_replaceKey]
      exact hcomplete.mpr fun e he => (hall e he).2

/-! ### Removing positions -/

theorem removePositionID_eq {K : Type} [Ord K] [Std.TransOrd K] [Std.LawfulEqOrd K]
    [DecidableEq K] (ids : OrdMap (AccountID × K) PositionID) (a : AccountID) (k : K)
    (i : PositionID) : removePositionID ids a k i = forgetKey ids a k i := by
  rw [removePositionID, forgetKey]
  cases hget : ids.get (a, k) with
  | none =>
    have hdelete : ids.delete (a, k) = ids := by
      refine OrdMap.ext_get fun x => ?_
      rw [OrdMap.get_delete]
      split
      · next heq => rw [heq, hget]
      · rfl
    rw [hdelete, ite_self, ite_self]
  | some j => simp

theorem view_removePosition (c : Cache) (p : PositionStatusReport) :
    (c.removePosition p).positions.get = Function.update c.positions.get (positionKey p) none := by
  funext k
  simp only [removePosition, OrdMap.get_delete, Function.update_apply]
  rfl

theorem get_positionVenues_removePosition (h : PositionsKept c)
    (hget : c.positions.get (positionKey p) = some p) {b : AccountID} {k : VenuePositionID}
    {j : PositionID} : (c.removePosition p).positionVenues.get (b, k) = some j ↔
      c.positionVenues.get (b, k) = some j ∧ (b, j) ≠ positionKey p := by
  rw [removePosition]
  dsimp only
  split
  · next hempty =>
      refine ⟨fun hleads => ⟨hleads, fun heq => ?_⟩, fun hleads => hleads.1⟩
      obtain ⟨hnamed, hcarries⟩ := h.venues b k j hleads
      exact hnamed ((hcarries.key_eq hget heq).trans hempty)
  · rw [removePositionID_eq]
    exact h.venues.get_forgetKey hget

theorem PositionsKept.removePosition (h : PositionsKept c)
    (hget : c.positions.get (positionKey p) = some p) : PositionsKept (c.removePosition p) := by
  refine ⟨fun k q hq => ?_, ?_, ?_⟩
  · rw [view_removePosition, Function.update_apply] at hq
    split at hq
    · cases hq
    · exact h.keyed k q hq
  · rw [view_removePosition]
    exact h.venues.hide (fun x (hx : ¬ x = positionKey p) => Function.update_of_ne hx _ _)
      fun b k j => (get_positionVenues_removePosition h hget).mp
  · rw [view_removePosition]
    exact h.strategies.remove hget

/-- The cache after some positions were removed. -/
structure Removed (c : Cache) (ps : List PositionStatusReport) (c' : Cache) : Prop where
  gone : ∀ k, k ∈ ps.map positionKey → c'.positions.get k = none
  seen : ∀ k, k ∉ ps.map positionKey → c'.positions.get k = c.positions.get k
  instruments : ∀ b k j, c'.positionInst.get (b, k) = some j ↔
    c.positionInst.get (b, k) = some j ∧ (b, j) ∉ ps.map positionKey
  venues : ∀ b k j, c'.positionVenues.get (b, k) = some j ↔
    c.positionVenues.get (b, k) = some j ∧ (b, j) ∉ ps.map positionKey

theorem removed_nil : Removed c [] c :=
  ⟨nofun, fun _ _ => rfl, fun b k j => by simp, fun b k j => by simp⟩

/-- Removing one more position, first of all. -/
theorem Removed.cons {ps : List PositionStatusReport} (h : PositionsKept c)
    (hsound : IndexSound c.positions.get (·.instrumentID) (fun _ => True) c.positionInst)
    (hget : c.positions.get (positionKey p) = some p)
    (hrest : Removed (c.removePosition p) ps c') : Removed c (p :: ps) c' := by
  have hinstruments : ∀ b k j, (c.removePosition p).positionInst.get (b, k) = some j ↔
      c.positionInst.get (b, k) = some j ∧ (b, j) ≠ positionKey p := by
    intro b k j
    rw [removePosition]
    dsimp only
    rw [removePositionID_eq]
    exact hsound.get_forgetKey hget
  have hvenues := fun b k j => @get_positionVenues_removePosition c p h hget b k j
  refine ⟨fun k hk => ?_, fun k hk => ?_, fun b k j => ?_, fun b k j => ?_⟩
  · by_cases hps : k ∈ ps.map positionKey
    · exact hrest.gone k hps
    · rw [hrest.seen k hps, view_removePosition]
      rw [List.map_cons, List.mem_cons, or_iff_left hps] at hk
      rw [hk, Function.update_self]
  · rw [List.map_cons, List.mem_cons, not_or] at hk
    rw [hrest.seen k hk.2, view_removePosition, Function.update_of_ne hk.1]
  · rw [hrest.instruments, hinstruments, List.map_cons, List.mem_cons, not_or, and_assoc]
  · rw [hrest.venues, hvenues, List.map_cons, List.mem_cons, not_or, and_assoc]

/-- Removing several stored positions, one after the other. -/
theorem foldl_removePosition (ps : List PositionStatusReport)
    (hdistinct : (ps.map positionKey).Nodup) {c : Cache} (h : PositionsKept c)
    (hstored : ∀ p ∈ ps, c.positions.get (positionKey p) = some p) :
    PositionsKept (ps.foldl Cache.removePosition c) ∧
      (IndexSound c.positions.get (·.instrumentID) (fun _ => True) c.positionInst →
        Removed c ps (ps.foldl Cache.removePosition c)) := by
  induction ps generalizing c with
  | nil => exact ⟨h, fun _ => removed_nil⟩
  | cons p ps ih =>
    rw [List.map_cons, List.nodup_cons] at hdistinct
    have hget := hstored p List.mem_cons_self
    obtain ⟨hkept, hremoved⟩ := ih hdistinct.2 (h.removePosition hget) fun q hq => by
      have hne : positionKey q ≠ positionKey p := fun heq =>
        hdistinct.1 (heq ▸ List.mem_map_of_mem hq)
      rw [view_removePosition, Function.update_of_ne hne]
      exact hstored q (List.mem_cons_of_mem p hq)
    refine ⟨hkept, fun hsound => .cons h hsound hget (hremoved ?_)⟩
    have hone := Removed.cons h hsound hget removed_nil
    exact hsound.hide (fun k hk => hone.seen k hk) fun b k j => (hone.instruments b k j).mp

/-! ### Purging -/

/-- The positions that a purge removes. -/
def purgedPositions (c : Cache) (a : AccountID) (policy : PurgePolicy) :
    List PositionStatusReport :=
  closedPositionsToPurge (c.positions.row a) policy.closedPositionsLimit

/-- The two caches have the same positions and indexes of positions. -/
structure SamePositions (c c' : Cache) : Prop where
  positions : c'.positions = c.positions
  positionInst : c'.positionInst = c.positionInst
  positionVenues : c'.positionVenues = c.positionVenues
  positionStrategies : c'.positionStrategies = c.positionStrategies

theorem SamePositions.kept (h : SamePositions c c') : PositionsKept c' ↔ PositionsKept c := by
  constructor
  · rintro ⟨h1, h2, h3⟩
    rw [h.positions] at h1 h2 h3
    exact ⟨h1, h.positionVenues ▸ h2, h.positionStrategies ▸ h3⟩
  · rintro ⟨h1, h2, h3⟩
    refine ⟨?_, ?_, ?_⟩ <;> rw [h.positions]
    · exact h1
    · rw [h.positionVenues]; exact h2
    · rw [h.positionStrategies]; exact h3

theorem SamePositions.foldl_removePosition (ps : List PositionStatusReport) {c c' : Cache}
    (h : SamePositions c c') : SamePositions (ps.foldl Cache.removePosition c)
      (ps.foldl Cache.removePosition c') := by
  induction ps generalizing c c' with
  | nil => exact h
  | cons p ps ih =>
    refine ih ⟨?_, ?_, ?_, ?_⟩
    · simp only [Cache.removePosition, h.positions]
    · simp only [Cache.removePosition, h.positionInst]
    · simp only [Cache.removePosition, h.positionVenues]
    · simp only [Cache.removePosition, h.positionStrategies]

/-- Of the positions, a purge changes no more than the removals do. -/
theorem purge_samePositions (c : Cache) (a : AccountID) (policy : PurgePolicy) :
    SamePositions ((c.purgedPositions a policy).foldl Cache.removePosition c)
      (c.purge a policy).1 := by
  have horders : ∀ os : List OrderStatusReport, SamePositions c (os.foldl removeOrder c) := fun os =>
    List.foldlRecOn os removeOrder ⟨rfl, rfl, rfl, rfl⟩ fun _ hb _ _ => ⟨hb.1, hb.2, hb.3, hb.4⟩
  have hhistory : ∀ b : Cache, SamePositions b
      (b.purgeAccountHistory a policy.accountSnapshotsLimit).1 := by
    intro b
    simp only [purgeAccountHistory]
    split
    · split <;> exact ⟨rfl, rfl, rfl, rfl⟩
    · exact ⟨rfl, rfl, rfl, rfl⟩
  have hpurged := horders (closedOrdersToPurge (c.orders.row a) policy.closedOrdersLimit)
  have hremoved := hpurged.foldl_removePosition (c.purgedPositions a policy)
  rw [purge]
  dsimp only
  rw [hpurged.positions]
  obtain ⟨h1, h2, h3, h4⟩ := hhistory ((c.purgedPositions a policy).foldl Cache.removePosition
    ((closedOrdersToPurge (c.orders.row a) policy.closedOrdersLimit).foldl removeOrder c))
  exact ⟨h1.trans hremoved.1, h2.trans hremoved.2, h3.trans hremoved.3, h4.trans hremoved.4⟩

theorem mem_purgedPositions (h : PositionsKept c) {policy : PurgePolicy}
    (hp : p ∈ c.purgedPositions a policy) :
    p.accountID = a ∧ c.positions.get (positionKey p) = some p := by
  have hsorted := mem_of_mem_dropNewest hp
  rw [List.mem_insertionSort] at hsorted
  obtain ⟨i, hi⟩ := OrdMap.mem_row.mp (List.mem_filter.mp hsorted).1
  have hkey := h.keyed _ p hi
  exact ⟨(Prod.mk.inj hkey).1, hkey ▸ hi⟩

theorem nodup_purgedPositions (h : PositionsKept c) (policy : PurgePolicy) :
    ((c.purgedPositions a policy).map positionKey).Nodup := by
  have hrow : (c.positions.row a).Pairwise fun p q => positionKey p ≠ positionKey q := by
    rw [OrdMap.row, List.pairwise_map]
    refine (c.positions.rowEntries_pairwise a).imp_of_mem ?_
    intro e e' he he' hlt heq
    rw [h.keyed _ _ (OrdMap.mem_rowEntries.mp he).2, h.keyed _ _ (OrdMap.mem_rowEntries.mp he').2]
      at heq
    rw [heq] at hlt
    simp at hlt
  have hperm := List.perm_insertionSort positionUpdatedLE
    ((c.positions.row a).filter fun p => !positionIsOpen p)
  rw [List.Nodup, List.pairwise_map]
  exact pairwise_dropNewest ((hperm.pairwise_iff fun hne => Ne.symm hne).mpr (hrow.filter _))

/-! ### Coherence -/

/-- What the lookups of an account's positions are meant to answer. -/
structure Coherent (c : Cache) (a : AccountID) : Prop where
  /-- A position of an instrument is found if there is one. -/
  instrument : ∀ i p, c.position a i = some p →
    ∃ q, c.positionByInstrument a p.instrumentID = some q
  /-- Nothing else is found. -/
  instrument_of : ∀ k q, c.positionByInstrument a k = some q →
    c.position a q.positionID = some q ∧ q.instrumentID = k
  venue : ∀ i p, c.position a i = some p → p.venuePositionID ≠ "" →
    ∃ q, c.positionByVenueID a p.venuePositionID = some q ∧
      c.position a q.positionID = some q ∧ q.venuePositionID = p.venuePositionID
  strategy : ∀ s p, p ∈ c.positionsByStrategy a s ↔
    s ≠ "" ∧ c.position a p.positionID = some p ∧ p.metadata.strategyID = s
  strategy_nodup : ∀ s, (c.positionsByStrategy a s).Nodup
  residuals : (c.snapshot a).residuals.inconsistentPositionMappings = 0

theorem mem_positionsByStrategy (h : PositionsKept c) {s : StrategyID} :
    p ∈ c.positionsByStrategy a s ↔
      s ≠ "" ∧ c.position a p.positionID = some p ∧ p.metadata.strategyID = s := by
  rw [positionsByStrategy, sortPositions, List.mem_insertionSort, List.mem_filterMap]
  constructor
  · rintro ⟨i, hi, hget⟩
    obtain ⟨⟨⟩, hindex⟩ := OrdMap.mem_rowKeys.mp hi
    obtain ⟨hs, q, hq, hstrategy⟩ := (h.strategies a s i).mp hindex
    cases hget.symm.trans hq
    have hid : p.positionID = i := (Prod.mk.inj (h.keyed _ p hget)).2
    exact ⟨hs, by rw [hid]; exact hget, hstrategy⟩
  · rintro ⟨hs, hget, hstrategy⟩
    exact ⟨p.positionID, OrdMap.mem_rowKeys.mpr ⟨(),
      (h.strategies a s _).mpr ⟨hs, p, hget, hstrategy⟩⟩, hget⟩

theorem nodup_positionsByStrategy (h : PositionsKept c) (s : StrategyID) :
    (c.positionsByStrategy a s).Nodup := by
  have hkeys : (c.positionStrategies.rowKeys (a, s)).Nodup :=
    (c.positionStrategies.rowKeys_pairwise (a, s)).imp fun hlt heq => by
      rw [heq] at hlt
      simp at hlt
  rw [positionsByStrategy, sortPositions]
  refine (List.perm_insertionSort _ _).nodup_iff.mpr (hkeys.filterMap ?_)
  intro i j p hi hj
  have hi := h.keyed _ p hi
  rw [h.keyed _ p hj] at hi
  exact (Prod.mk.inj hi).2.symm

theorem danglingPositions_eq_zero {ids : List PositionID} :
    c.danglingPositions a ids = 0 ↔ ∀ i ∈ ids, ∃ p, c.position a i = some p := by
  rw [danglingPositions, List.countP_eq_zero]
  refine forall₂_congr fun i _ => ?_
  rw [Bool.not_eq_true, Option.isNone_eq_false_iff, Option.isSome_iff_exists]
  rfl

theorem coherent_iff (h : PositionsKept c) : (∀ a, c.Coherent a) ↔ PositionsFound c := by
  constructor
  · intro hall
    refine ⟨fun a k i hget => ⟨trivial, ?_⟩, fun a k i _ => ?_, fun a k i hk => ?_⟩
    · -- the entry leads to a stored position, and the lookup answers with it
      have hzero : c.danglingPositions a (c.positionInst.row a) = 0 := by
        have hsum := (hall a).residuals
        simp only [snapshot, residuals] at hsum
        omega
      obtain ⟨q, hq⟩ := danglingPositions_eq_zero.mp hzero i (OrdMap.mem_row.mpr ⟨k, hget⟩)
      refine ⟨q, hq, ((hall a).instrument_of k q ?_).2⟩
      rw [positionByInstrument, hget]
      exact hq
    · rintro ⟨p, hp, rfl⟩
      obtain ⟨q, hq⟩ := (hall a).instrument i p hp
      obtain ⟨j, hj, -⟩ := Option.bind_eq_some_iff.mp hq
      exact ⟨j, hj⟩
    · rintro ⟨p, hp, rfl⟩
      obtain ⟨q, hq, -⟩ := (hall a).venue i p hp hk
      obtain ⟨j, hj, -⟩ := Option.bind_eq_some_iff.mp hq
      exact ⟨j, hj⟩
  · intro hfound a
    refine ⟨fun i p hp => ?_, fun k q hq => ?_, fun i p hp hk => ?_,
      fun s p => mem_positionsByStrategy h, nodup_positionsByStrategy h, ?_⟩
    · obtain ⟨j, hj⟩ := hfound.instrument_complete a p.instrumentID i trivial ⟨p, hp, rfl⟩
      obtain ⟨-, q, hq, -⟩ := hfound.instrument_sound a _ j hj
      exact ⟨q, Option.bind_eq_some_iff.mpr ⟨j, hj, hq⟩⟩
    · obtain ⟨j, hj, hget⟩ := Option.bind_eq_some_iff.mp hq
      obtain ⟨-, q', hq', hkey⟩ := hfound.instrument_sound a k j hj
      cases hget.symm.trans hq'
      have hid : q.positionID = j := (Prod.mk.inj (h.keyed _ q hget)).2
      exact ⟨by rw [hid]; exact hget, hkey⟩
    · obtain ⟨j, hj⟩ := hfound.venue_complete a p.venuePositionID i hk ⟨p, hp, rfl⟩
      obtain ⟨-, q, hq, hkey⟩ := h.venues a _ j hj
      have hid : q.positionID = j := (Prod.mk.inj (h.keyed _ q hq)).2
      exact ⟨q, Option.bind_eq_some_iff.mpr ⟨j, hj, hq⟩, by rw [hid]; exact hq, hkey⟩
    · have hinstruments : c.danglingPositions a (c.positionInst.row a) = 0 := by
        refine danglingPositions_eq_zero.mpr fun i hi => ?_
        obtain ⟨k, hk⟩ := OrdMap.mem_row.mp hi
        obtain ⟨-, q, hq, -⟩ := hfound.instrument_sound a k i hk
        exact ⟨q, hq⟩
      have hvenues : c.danglingPositions a (c.positionVenues.row a) = 0 := by
        refine danglingPositions_eq_zero.mpr fun i hi => ?_
        obtain ⟨k, hk⟩ := OrdMap.mem_row.mp hi
        obtain ⟨-, q, hq, -⟩ := h.venues a k i hk
        exact ⟨q, hq⟩
      have hstrategies : c.danglingPositions a ((c.positionStrategies.entries.filter
          fun e => decide (e.1.1.1 = a)).map fun e => e.1.2) = 0 := by
        refine danglingPositions_eq_zero.mpr fun i hi => ?_
        obtain ⟨⟨⟨⟨b, s⟩, j⟩, ⟨⟩⟩, he, rfl⟩ := List.mem_map.mp hi
        obtain ⟨hmem, hb⟩ := List.mem_filter.mp he
        cases of_decide_eq_true hb
        obtain ⟨-, q, hq, -⟩ := (h.strategies _ _ _).mp (OrdMap.mem_entries.mp hmem)
        exact ⟨q, hq⟩
      simp only [snapshot, residuals, hinstruments, hvenues, hstrategies]

/-! ### Sequences of calls -/

/-- A call that changes positions. -/
inductive PositionCall where
  | put (position : PositionStatusReport)
  | purge (accountID : AccountID) (policy : PurgePolicy)

/-- A call that fails changes nothing. -/
def positionCall (c : Cache) : PositionCall → Cache
  | .put position => (c.putPosition position).toOption.getD c
  | .purge accountID policy => (c.purge accountID policy).1

def afterCalls (calls : List PositionCall) : Cache := calls.foldl positionCall new

/-- A position that is put again keeps its instrument, unless the lookup by instrument
answers with another one; and it keeps its venue id, unless no other position has it. A
purge removes the position that a lookup answers with only if it removes all positions
that the lookup might answer with. -/
def Careful (c : Cache) : PositionCall → Prop
  | .put p => p.validate = .ok () → ∀ e, c.position p.accountID p.positionID = some e →
      (e.instrumentID ≠ p.instrumentID →
        c.positionByInstrument p.accountID e.instrumentID ≠ some e) ∧
      (e.venuePositionID ≠ "" → e.venuePositionID ≠ p.venuePositionID →
        ∀ i q, c.position p.accountID i = some q → q.venuePositionID = e.venuePositionID → q = e)
  | .purge a policy => ∀ p ∈ c.purgedPositions a policy,
      (c.positionByInstrument a p.instrumentID = some p →
        ∀ i q, c.position a i = some q → q.instrumentID = p.instrumentID →
          q ∈ c.purgedPositions a policy) ∧
      (p.venuePositionID ≠ "" → c.positionByVenueID a p.venuePositionID = some p →
        ∀ i q, c.position a i = some q → q.venuePositionID = p.venuePositionID →
          q ∈ c.purgedPositions a policy)

theorem positionCall_put (c : Cache) (p : PositionStatusReport) :
    c.positionCall (.put p) = if p.validate = .ok () then c.storePosition p else c := by
  rw [positionCall, putPosition]
  cases p.validate <;> rfl

theorem PositionsKept.positionCall (h : PositionsKept c) (call : PositionCall) :
    PositionsKept (c.positionCall call) := by
  cases call with
  | put p =>
    rw [positionCall_put]
    split
    · exact h.storePosition p
    · exact h
  | purge a policy =>
    refine (purge_samePositions c a policy).kept.mpr ?_
    exact (Cache.foldl_removePosition _ (nodup_purgedPositions h policy) h
      fun p hp => (mem_purgedPositions h hp).2).1

/-- A lookup answers with a stored position exactly if its index leads to it. -/
theorem lookup_iff {K : Type} [Ord K] [Std.TransOrd K] [Std.LawfulEqOrd K]
    {ids : OrdMap (AccountID × K) PositionID} (h : PositionsKept c) {i : PositionID} {k : K}
    (hp : c.position a i = some p) :
    ((ids.get (a, k)).bind fun j => c.positions.get (a, j)) = some p ↔
      ids.get (a, k) = some i := by
  rw [Option.bind_eq_some_iff]
  constructor
  · rintro ⟨j, hj, hget⟩
    have hkeys := (h.keyed _ p hget).symm.trans (h.keyed _ p hp)
    rw [hj, (Prod.mk.inj hkeys).2]
  · intro hj
    exact ⟨i, hj, hp⟩

theorem found_put_iff (h : PositionsKept c) (hfound : PositionsFound c)
    (p : PositionStatusReport) :
    PositionsFound (c.positionCall (.put p)) ↔ c.Careful (.put p) := by
  rw [positionCall_put, Careful]
  by_cases hvalid : p.validate = .ok ()
  · rw [if_pos hvalid, hfound.storePosition_iff, forall_prop_of_true hvalid]
    refine forall₂_congr fun e he => and_congr ?_ ?_
    · exact imp_congr_right fun _ => not_congr (lookup_iff h he).symm
    · refine imp_congr_right fun _ => imp_congr_right fun _ => ?_
      constructor
      · intro hall i q hq hvenue
        rw [hall i ⟨q, hq, hvenue⟩] at hq
        exact Option.some.inj (hq.symm.trans he)
      · rintro hall j ⟨q, hq, hvenue⟩
        cases hall j q hq hvenue
        exact (Prod.mk.inj ((h.keyed _ e hq).symm.trans (h.keyed _ e he))).2
  · rw [if_neg hvalid]
    exact iff_of_true hfound fun hv => absurd hv hvalid

/-- What a purge needs of an index, said with the lookup. -/
theorem purge_lookup_iff {K : Type} [Ord K] [Std.TransOrd K] [Std.LawfulEqOrd K]
    {ids : OrdMap (AccountID × K) PositionID} {key : PositionStatusReport → K} {named : K → Prop}
    {ps : List PositionStatusReport} (h : PositionsKept c)
    (hsound : IndexSound c.positions.get key named ids)
    (hps : ∀ p ∈ ps, p.accountID = a ∧ c.positions.get (positionKey p) = some p) :
    (∀ b k i, named k → ids.get (b, k) = some i → (b, i) ∈ ps.map positionKey →
        ∀ j, Carries c.positions.get key b k j → (b, j) ∈ ps.map positionKey) ↔
      ∀ p ∈ ps, named (key p) →
        ((ids.get (a, key p)).bind fun i => c.positions.get (a, i)) = some p →
        ∀ i q, c.position a i = some q → key q = key p → q ∈ ps := by
  constructor
  · intro hall p hp hnamed hlookup i q hq hkey
    obtain ⟨rfl, hstored⟩ := hps p hp
    have hleads := (lookup_iff h hstored).mp hlookup
    obtain ⟨q', hq', heq⟩ := List.mem_map.mp
      (hall _ _ _ hnamed hleads (List.mem_map_of_mem hp) i ⟨q, hq, hkey⟩)
    have hstored' := (hps q' hq').2
    rw [heq] at hstored'
    cases hstored'.symm.trans hq
    exact hq'
  · rintro hall b k i hnamed hleads hmem j ⟨q, hq, hkey⟩
    obtain ⟨p, hp, heq⟩ := List.mem_map.mp hmem
    obtain ⟨rfl, rfl⟩ := Prod.mk.inj heq
    obtain ⟨rfl, hstored⟩ := hps p hp
    obtain ⟨-, p', hp', rfl⟩ := hsound _ _ _ hleads
    cases hstored.symm.trans hp'
    have hq' := hall p hp hnamed ((lookup_iff h hstored).mpr hleads) j q hq hkey
    exact List.mem_map.mpr ⟨q, hq', h.keyed _ q hq⟩

theorem found_purge_iff (h : PositionsKept c) (hfound : PositionsFound c) (a : AccountID)
    (policy : PurgePolicy) :
    PositionsFound (c.positionCall (.purge a policy)) ↔ c.Careful (.purge a policy) := by
  have hps := fun p (hp : p ∈ c.purgedPositions a policy) => mem_purgedPositions h hp
  have hsame := purge_samePositions c a policy
  have hremoved := (Cache.foldl_removePosition _ (nodup_purgedPositions h policy) h
    fun p hp => (hps p hp).2).2 hfound.instrument_sound
  have hsound := hfound.instrument_sound.hide (fun k hk => hremoved.seen k hk)
    fun b k j => (hremoved.instruments b k j).mp
  have hinstrument := (hfound.instrument_complete.hide_iff hremoved.gone hremoved.seen
    hremoved.instruments).trans (purge_lookup_iff h hfound.instrument_sound hps)
  have hvenue := (hfound.venue_complete.hide_iff hremoved.gone hremoved.seen
    hremoved.venues).trans (purge_lookup_iff h h.venues hps)
  have hcareful : c.Careful (.purge a policy) ↔ _ ∧ _ := forall₂_and
  rw [hcareful]
  constructor
  · rintro ⟨-, hcomplete, hcomplete'⟩
    rw [positionCall, hsame.positions, hsame.positionInst] at hcomplete
    rw [positionCall, hsame.positions, hsame.positionVenues] at hcomplete'
    exact ⟨fun p hp => hinstrument.mp hcomplete p hp trivial, hvenue.mp hcomplete'⟩
  · rintro ⟨hc, hc'⟩
    rw [positionCall]
    refine ⟨?_, ?_, ?_⟩
    · rw [hsame.positions, hsame.positionInst]
      exact hsound
    · rw [hsame.positions, hsame.positionInst]
      exact hinstrument.mpr fun p hp _ => hc p hp
    · rw [hsame.positions, hsame.positionVenues]
      exact hvenue.mpr hc'

theorem found_positionCall_iff (h : PositionsKept c) (hfound : PositionsFound c)
    (call : PositionCall) : PositionsFound (c.positionCall call) ↔ c.Careful call := by
  cases call with
  | put p => exact found_put_iff h hfound p
  | purge a policy => exact found_purge_iff h hfound a policy

theorem positionsKept_new : PositionsKept new := by
  refine ⟨fun k p hget => ?_, fun a k i hget => ?_, IndexesAll.empty⟩
  · cases (OrdMap.get_empty _).symm.trans hget
  · cases (OrdMap.get_empty _).symm.trans hget

theorem positionsFound_new : PositionsFound new := by
  refine ⟨fun a k i hget => ?_, ?_, ?_⟩
  · cases (OrdMap.get_empty _).symm.trans hget
  · rintro a k i - ⟨p, hget, -⟩
    cases (OrdMap.get_empty _).symm.trans hget
  · rintro a k i - ⟨p, hget, -⟩
    cases (OrdMap.get_empty _).symm.trans hget

theorem kept_afterCalls (calls : List PositionCall) : PositionsKept (afterCalls calls) :=
  List.foldlRecOn calls Cache.positionCall positionsKept_new fun _ h call _ => h.positionCall call

/-- The lookups are right in every cache that a sequence of calls passes through if and
only if every one of the calls is careful. -/
theorem coherent_throughout_iff (calls : List PositionCall) :
    Throughout (fun done => ∀ a, (afterCalls done).Coherent a) calls ↔
      Along (fun done call => (afterCalls done).Careful call) calls := by
  induction calls using List.reverseRecOn with
  | nil =>
    have hnew := (coherent_iff positionsKept_new).mpr positionsFound_new
    exact iff_of_true (throughout_nil.mpr hnew) along_nil
  | append_singleton calls call ih =>
    rw [throughout_concat, along_concat, ← ih]
    refine and_congr_right fun hbefore => ?_
    have hkept := kept_afterCalls calls
    have hfound := (coherent_iff hkept).mp (hbefore calls (List.prefix_refl _))
    rw [coherent_iff (kept_afterCalls _), afterCalls, List.foldl_concat]
    exact found_positionCall_iff hkept hfound call

/-! ### A position that changes its instrument -/

def btcPosition : PositionStatusReport where
  accountID := "acct"
  instrumentID := ⟨"BTC-USDT-PERP", "BINANCE"⟩
  positionID := "position"
  side := .long
  quantity := 1

def ethPosition : PositionStatusReport :=
  { btcPosition with instrumentID := ⟨"ETH-USDT-PERP", "BINANCE"⟩ }

/-- The old instrument still leads to the position, which is of another one. -/
theorem old_instrument_found :
    (afterCalls [.put btcPosition, .put ethPosition]).positionByInstrument "acct"
      btcPosition.instrumentID = some ethPosition ∧
    ¬ (afterCalls [.put btcPosition, .put ethPosition]).Coherent "acct" := by
  have hfound : (afterCalls [.put btcPosition, .put ethPosition]).positionByInstrument "acct"
      btcPosition.instrumentID = some ethPosition := by decide +kernel
  refine ⟨hfound, fun h => ?_⟩
  exact absurd (h.instrument_of _ _ hfound).2 (by decide)

end Exchanges.Cache
