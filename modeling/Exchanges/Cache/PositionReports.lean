import Exchanges.Cache.Consistency

/-!
Storing a list of positions twice.

The second time the cache already holds the positions, so only the two indexes
that lead to one position, by instrument and by venue id, are written. The
instrument index comes out as before. The venue index need not: the first time,
a position that gives up its venue id takes the id's entry along, even if
another position of the list had just been stored under it.
-/

namespace Exchanges.Cache

open Exchanges.Lib Exchanges.Model

variable {c : Cache} {a : AccountID} {p q : PositionStatusReport}

/-! ### What one position changes -/

/-- Forget the venue id of the cached position if the new one has another. -/
def dropVenue (cached : Option PositionStatusReport)
    (venues : OrdMap (AccountID × VenuePositionID) PositionID) (p : PositionStatusReport) :
    OrdMap (AccountID × VenuePositionID) PositionID :=
  match cached with
  | none => venues
  | some e =>
    if e.venuePositionID ≠ "" ∧ e.venuePositionID ≠ p.venuePositionID then
      venues.delete (p.accountID, e.venuePositionID)
    else venues

theorem positionVenues_storePosition (c : Cache) (p : PositionStatusReport) :
    (c.storePosition p).positionVenues =
      addOrderID (dropVenue (c.position p.accountID p.positionID) c.positionVenues p)
        p.accountID p.venuePositionID p.positionID := by
  unfold storePosition removeExistingPosition dropVenue Cache.position
  cases c.positions.get (p.accountID, p.positionID) <;> rfl

theorem positionStrategies_storePosition (c : Cache) (p : PositionStatusReport) :
    (c.storePosition p).positionStrategies =
      addOrderIndex (match c.position p.accountID p.positionID with
        | none => c.positionStrategies
        | some e => removeOrderIndex c.positionStrategies e.accountID e.metadata.strategyID
            e.positionID) p.accountID p.metadata.strategyID p.positionID := by
  unfold storePosition removeExistingPosition Cache.position
  cases c.positions.get (p.accountID, p.positionID) <;> rfl

/-- The position is stored, and found by its strategy. -/
def Holds (c : Cache) (p : PositionStatusReport) : Prop :=
  c.position p.accountID p.positionID = some p ∧
    (p.metadata.strategyID ≠ "" → c.positionStrategies.get
      ((p.accountID, p.metadata.strategyID), p.positionID) = some ())

theorem holds_storePosition_self (c : Cache) (p : PositionStatusReport) :
    Holds (c.storePosition p) p := by
  refine ⟨?_, fun hne => ?_⟩
  · rw [Cache.position, positions_storePosition, OrdMap.get_put_self]
  · rw [positionStrategies_storePosition, addOrderIndex, if_neg hne, OrdMap.get_put_self]

/-- Storing a position keeps the others. -/
theorem Holds.storePosition (hc : Keyed c) (h : Holds c p)
    (hne : p.positionID ≠ q.positionID) : Holds (c.storePosition q) p := by
  obtain ⟨hget, hstrategy⟩ := h
  have hkey : (p.accountID, p.positionID) ≠ (q.accountID, q.positionID) :=
    fun heq => hne (Prod.mk.inj heq).2
  refine ⟨?_, fun hs => ?_⟩
  · rw [Cache.position, positions_storePosition, OrdMap.get_put_of_ne _ hkey]
    exact hget
  · have hne' : ∀ b s, ((p.accountID, p.metadata.strategyID), p.positionID) ≠
        ((b, s), q.positionID) := fun b s heq => hne (Prod.mk.inj heq).2
    have hkept : (match c.position q.accountID q.positionID with
        | none => c.positionStrategies
        | some e => removeOrderIndex c.positionStrategies e.accountID e.metadata.strategyID
            e.positionID).get ((p.accountID, p.metadata.strategyID), p.positionID) = some () := by
      cases hq : c.position q.accountID q.positionID with
      | none => exact hstrategy hs
      | some e =>
        dsimp only
        rw [removeOrderIndex]
        split
        · exact hstrategy hs
        · rw [(hc.positions _ _ e hq).2, OrdMap.get_delete_of_ne _ (hne' _ _)]
          exact hstrategy hs
    rw [positionStrategies_storePosition, addOrderIndex]
    split
    · exact hkept
    · rw [OrdMap.get_put_of_ne _ (hne' _ _)]
      exact hkept

/-! ### Storing a list -/

section Lists

variable {ps : List PositionStatusReport}

theorem Keyed.foldl_storePosition (h : Keyed c) (ps : List PositionStatusReport) :
    Keyed (ps.foldl Cache.storePosition c) :=
  List.foldlRecOn ps Cache.storePosition h fun _ hb p _ => hb.storePosition p

theorem run_putPositions {ps : List PositionStatusReport} (hps : ∀ p ∈ ps, p.WellFormed) :
    (Prog.forEach (fun p => Prog.update (·.putPosition p)) ps : Prog Cache Err Unit).run c =
      (.ok (), ps.foldl storePosition c) := by
  refine Prog.run_forEach_foldl ps fun pre p post hsplit => ?_
  have hp : p.WellFormed := hps p (by simp [hsplit])
  refine Prog.run_update_ok ?_
  rw [putPosition, PositionStatusReport.validate_eq_ok.mpr hp]
  rfl

/-- A position whose id is not in the list is left as it was. -/
theorem position_foldl_storePosition {i : PositionID} (hi : ∀ p ∈ ps, p.positionID ≠ i) :
    (ps.foldl storePosition c).position a i = c.position a i := by
  induction ps generalizing c with
  | nil => rfl
  | cons p ps ih =>
    obtain ⟨hp, hps⟩ := List.forall_mem_cons.mp hi
    rw [List.foldl_cons, ih hps, Cache.position, positions_storePosition,
      OrdMap.get_put_of_ne _ fun heq => hp (Prod.mk.inj heq).2.symm]
    rfl

/-- Afterwards the cache holds every position of the list. -/
theorem holds_foldl_storePosition (hc : Keyed c) (hids : (ps.map (·.positionID)).Nodup) :
    ∀ p ∈ ps, Holds (ps.foldl storePosition c) p := by
  induction ps using List.reverseRecOn with
  | nil => simp
  | append_singleton ps q ih =>
    rw [List.map_append, List.nodup_append] at hids
    obtain ⟨hps, -, hdisjoint⟩ := hids
    rw [List.foldl_append]
    intro p hp
    rcases List.mem_append.mp hp with hp | hp
    · refine (ih hps p hp).storePosition (hc.foldl_storePosition ps) ?_
      exact hdisjoint _ (List.mem_map_of_mem hp) _ (by simp)
    · rw [List.mem_singleton.mp hp]
      exact holds_storePosition_self _ q

end Lists

end Exchanges.Cache
