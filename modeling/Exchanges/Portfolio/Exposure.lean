import Exchanges.Cache.Rates
import Exchanges.Portfolio.Basic

/-!
Net positions and exposures, by account, by venue and by instrument.

What is asked for one account is read through the index of positions by
instrument, which names one position. What is asked for all accounts scans every
position. An account with several positions in an instrument, or one whose
position has moved to another instrument, is seen differently by the two.
Exposures are converted at a rate that may depend on the order in which the
instruments are visited. `net_sums_agree_iff` says when none of this matters.
-/

namespace Exchanges.Portfolio

open Exchanges.Lib Exchanges.Model

set_option linter.unusedSectionVars false

/-! ### Conversion -/

section

variable [DecimalPackage]

/-- The rate that was set, or the inverse of the one that was set for the other
direction. -/
def explicitRate (p : Portfolio) (source target : Currency) : Option Decimal :=
  (p.conversions.get (source, target)).filter (0 < ·) <|>
    ((p.conversions.get (target, source)).filter (0 < ·)).map (DecimalPackage.div 1)

/-- `instruments` are the cached instruments in the order in which this call
visits them. -/
def exchangeRate (p : Portfolio) (instruments : List Instrument) (source target : Currency) :
    Option Decimal :=
  p.explicitRate source target <|> instruments.findSome? (p.cache.instrumentRate source target)

def convertAmount (p : Portfolio) (instruments : List Instrument) (amount : Decimal)
    (source target : Currency) : Option Decimal :=
  if source = "" ∨ target = "" then none
  else if source = target then some amount
  else (p.exchangeRate instruments source target).map (amount * ·)

/-! ### Positions -/

/-- The signed quantity of a position, unless it is flat. -/
def netOf (position : PositionStatusReport) : Decimal :=
  if position.side = .flat ∨ position.quantity = 0 then 0 else signedPosition position

def netPosition (p : Portfolio) (accountID : AccountID) (instrumentID : InstrumentID) : Decimal :=
  if accountID ≠ "" then
    match p.cache.positionByInstrument accountID instrumentID with
    | none => 0
    | some position => netOf position
  else
    (p.cache.positionsForInstrument instrumentID).foldl (fun total position =>
      if position.side = .flat ∨ position.quantity = 0 then total
      else total + signedPosition position) 0

/-- The positions in an instrument of one account, or of all of them. -/
def positionsForInstrument (p : Portfolio) (accountID : AccountID)
    (instrumentID : InstrumentID) : List PositionStatusReport :=
  if accountID ≠ "" then (p.cache.positionByInstrument accountID instrumentID).toList
  else p.cache.positionsForInstrument instrumentID

/-! ### Exposures -/

/-- The price at which a position is valued. -/
def exposurePrice (p : Portfolio) (position : PositionStatusReport) : Decimal :=
  let mark := (p.marks.get (position.accountID, position.instrumentID)).getD 0
  if 0 < mark then mark else position.entryPrice

def signedExposure (p : Portfolio) (instruments : List Instrument)
    (position : PositionStatusReport) (inst : Instrument) (target : Currency) : Option Decimal :=
  if position.side = .flat ∨ position.quantity = 0 then none
  else if ¬ 0 < p.exposurePrice position then none
  else
    let value := signedPosition position * p.exposurePrice position
    if target = "" ∨ settlementCurrency inst = target then some value
    else p.convertAmount instruments value (settlementCurrency inst) target

/-- The orders in which one call visits the instruments: in its own loop, and in
the conversion of each exposure. -/
structure Visits where
  instruments : List Instrument
  rates : Instrument → PositionStatusReport → List Instrument

/-- The cached instruments are visited, each of them once. -/
structure Visits.Of (v : Visits) (c : Cache) : Prop where
  instruments : v.instruments.Perm c.instrumentList
  rates : ∀ inst position, (v.rates inst position).Perm c.instrumentList

def netExposuresByInstrument (p : Portfolio) (v : Visits) (accountID : AccountID)
    (target : Currency) : OrdMap InstrumentID Decimal :=
  v.instruments.foldl (fun values inst =>
    let total := (p.positionsForInstrument accountID inst.id).foldl (fun total position =>
      match p.signedExposure (v.rates inst position) position inst target with
      | none => total
      | some value => total + value) 0
    if total ≠ 0 then values.put inst.id total else values) ∅

def netExposuresByAccount (p : Portfolio) (v : Visits) (target : Currency) :
    OrdMap AccountID Decimal :=
  v.instruments.foldl (fun values inst =>
    (p.positionsForInstrument "" inst.id).foldl (fun values position =>
      match p.signedExposure (v.rates inst position) position inst target with
      | none => values
      | some value => values.addTo position.accountID value) values) ∅

def netExposuresByVenue (p : Portfolio) (v : Visits) (target : Currency) :
    OrdMap Venue Decimal :=
  v.instruments.foldl (fun values inst =>
    (p.positionsForInstrument "" inst.id).foldl (fun values position =>
      match p.signedExposure (v.rates inst position) position inst target with
      | none => values
      | some value => values.addTo inst.id.venue value) values) ∅

/-! ### Everything is a sum over positions -/

variable {p : Portfolio} {target : Currency}

theorem netPosition_all (p : Portfolio) (i : InstrumentID) :
    p.netPosition "" i = ((p.cache.positionsForInstrument i).map netOf).sum := by
  have hfold (qs : List PositionStatusReport) : ∀ total : Decimal,
      qs.foldl (fun total q => if q.side = .flat ∨ q.quantity = 0 then total
        else total + signedPosition q) total = total + (qs.map netOf).sum := by
    induction qs with
    | nil => exact fun total => (add_zero total).symm
    | cons q qs ih =>
      intro total
      rw [List.foldl_cons, ih, List.map_cons, List.sum_cons, netOf]
      split
      · rw [zero_add]
      · rw [add_assoc]
  rw [netPosition, if_neg (not_not.mpr rfl), hfold, zero_add]

/-- The positions that the index names for an instrument. -/
def indexed (p : Portfolio) (accounts : List AccountID) (i : InstrumentID) :
    List PositionStatusReport :=
  accounts.filterMap fun a => p.cache.positionByInstrument a i

theorem netPosition_each (p : Portfolio) {accounts : List AccountID} (hnamed : "" ∉ accounts)
    (i : InstrumentID) :
    (accounts.map fun a => p.netPosition a i).sum = ((p.indexed accounts i).map netOf).sum := by
  unfold indexed
  induction accounts with
  | nil => rfl
  | cons a accounts ih =>
    obtain ⟨ha, hrest⟩ := not_or.mp (List.mem_cons.not.mp hnamed)
    rw [List.map_cons, List.sum_cons, ih hrest, netPosition, if_pos fun h => ha h.symm,
      List.filterMap_cons]
    cases p.cache.positionByInstrument a i with
    | none => exact zero_add _
    | some q => rfl

/-- An instrument together with a position that is valued in its currency. -/
abbrev Item := Instrument × PositionStatusReport

/-- What a loop over the instruments and their positions comes to. -/
def items (p : Portfolio) (a : AccountID) (instruments : List Instrument) : List Item :=
  instruments.flatMap fun inst => (p.positionsForInstrument a inst.id).map (Prod.mk inst)

def exposureOf (p : Portfolio) (target : Currency) (instruments : List Instrument) (x : Item) :
    Decimal :=
  (p.signedExposure instruments x.2 x.1 target).getD 0

/-- The sum of the exposures that a call sees. -/
def exposureSum (p : Portfolio) (target : Currency) (rates : Item → List Instrument)
    (xs : List Item) : Decimal :=
  (xs.map fun x => p.exposureOf target (rates x) x).sum

theorem total_foldl_items {K : Type} [Ord K] [Std.TransOrd K] [Std.LawfulEqOrd K]
    [DecidableEq K] (key : Item → K) (v : Visits) :
    (v.instruments.foldl (fun values inst =>
      (p.positionsForInstrument "" inst.id).foldl (fun values position =>
        match p.signedExposure (v.rates inst position) position inst target with
        | none => values
        | some value => values.addTo (key (inst, position)) value) values)
      (∅ : OrdMap K Decimal)).total =
        p.exposureSum target (fun x => v.rates x.1 x.2) (p.items "" v.instruments) := by
  have hitems := OrdMap.total_foldl_addTo key
    (fun x : Item => p.signedExposure (v.rates x.1 x.2) x.2 x.1 target)
    (p.items "" v.instruments) ∅
  rw [OrdMap.total_empty, zero_add, items, List.foldl_flatMap] at hitems
  simp only [List.foldl_map] at hitems
  refine Eq.trans ?_ hitems
  congr 3
  funext values inst
  congr 1
  funext values position
  cases p.signedExposure (v.rates inst position) position inst target <;> rfl

theorem total_byAccount (p : Portfolio) (v : Visits) (target : Currency) :
    (p.netExposuresByAccount v target).total =
      p.exposureSum target (fun x => v.rates x.1 x.2) (p.items "" v.instruments) :=
  total_foldl_items (fun x => x.2.accountID) v

theorem total_byVenue (p : Portfolio) (v : Visits) (target : Currency) :
    (p.netExposuresByVenue v target).total =
      p.exposureSum target (fun x => v.rates x.1 x.2) (p.items "" v.instruments) :=
  total_foldl_items (fun x => x.1.id.venue) v

theorem total_byInstrument (v : Visits) (hids : (v.instruments.map (·.id)).Nodup)
    (a : AccountID) :
    (p.netExposuresByInstrument v a target).total =
      p.exposureSum target (fun x => v.rates x.1 x.2) (p.items a v.instruments) := by
  have hfold (inst : Instrument) (qs : List PositionStatusReport) : ∀ total : Decimal,
      qs.foldl (fun total q =>
        match p.signedExposure (v.rates inst q) q inst target with
        | none => total
        | some value => total + value) total =
        total + (qs.map fun q => p.exposureOf target (v.rates inst q) (inst, q)).sum := by
    induction qs with
    | nil => exact fun total => (add_zero total).symm
    | cons q qs ih =>
      intro total
      rw [List.foldl_cons, ih, List.map_cons, List.sum_cons, exposureOf, ← add_assoc]
      cases p.signedExposure (v.rates inst q) q inst target with
      | none => exact congrArg (· + _) (add_zero total).symm
      | some value => rfl
  have htotal := OrdMap.total_foldl_put (fun inst : Instrument => inst.id)
    (fun inst => ((p.positionsForInstrument a inst.id).map fun q =>
      p.exposureOf target (v.rates inst q) (inst, q)).sum) v.instruments ∅ hids
    fun inst _ => OrdMap.get_empty inst.id
  rw [OrdMap.total_empty, zero_add] at htotal
  unfold netExposuresByInstrument
  simp only [hfold, zero_add]
  rw [htotal, exposureSum, items, List.map_flatMap, List.flatMap, List.sum_flatten, List.map_map]
  simp only [List.map_map]
  rfl

/-! ### When an exposure does not depend on the order of the instruments -/

/-- The rate of an exposure is looked for among the instruments. -/
structure Converts (p : Portfolio) (target : Currency) (x : Item) : Prop where
  not_flat : ¬ (x.2.side = .flat ∨ x.2.quantity = 0)
  price_pos : 0 < p.exposurePrice x.2
  target_ne : target ≠ ""
  currency_ne : settlementCurrency x.1 ≠ "" ∧ settlementCurrency x.1 ≠ target
  not_set : p.explicitRate (settlementCurrency x.1) target = none

theorem exposureOf_of_converts {x : Item} (h : p.Converts target x) (l : List Instrument) :
    p.exposureOf target l x = signedPosition x.2 * p.exposurePrice x.2 *
      (l.findSome? (p.cache.instrumentRate (settlementCurrency x.1) target)).getD 0 := by
  rw [exposureOf, signedExposure, if_neg h.not_flat, if_neg (not_not.mpr h.price_pos)]
  dsimp only
  rw [if_neg (not_or.mpr ⟨h.target_ne, h.currency_ne.2⟩), convertAmount,
    if_neg (not_or.mpr ⟨h.currency_ne.1, h.target_ne⟩), if_neg h.currency_ne.2, exchangeRate,
    h.not_set]
  change ((l.findSome? _).map _).getD 0 = _
  cases l.findSome? (p.cache.instrumentRate (settlementCurrency x.1) target) with
  | none => exact (mul_zero _).symm
  | some rate => rfl

theorem exposureOf_of_not_converts {x : Item} (h : ¬ p.Converts target x)
    (l l' : List Instrument) : p.exposureOf target l x = p.exposureOf target l' x := by
  unfold exposureOf signedExposure
  split
  · rfl
  · next hopen =>
      split
      · rfl
      · next hprice =>
          dsimp only
          split
          · rfl
          · next hother =>
              obtain ⟨htarget, hne⟩ := not_or.mp hother
              unfold convertAmount
              split
              · rfl
              · next hnamed =>
                  rw [exchangeRate, exchangeRate]
                  cases hset : p.explicitRate (settlementCurrency x.1) target with
                  | some rate => rfl
                  | none =>
                    exact absurd ⟨hopen, not_not.mp hprice, htarget,
                      ⟨(not_or.mp hnamed).1, hne⟩, hset⟩ h

theorem signedPosition_ne_zero {q : PositionStatusReport}
    (h : ¬ (q.side = .flat ∨ q.quantity = 0)) : signedPosition q ≠ 0 := by
  have hquantity := (not_or.mp h).2
  unfold signedPosition
  split
  · exact neg_ne_zero.mpr hquantity
  · exact hquantity

/-- An exposure is the same in every order exactly if the instruments that could
give its rate agree. -/
theorem exposureOf_perm_iff {x : Item} :
    (∀ l l' : List Instrument, l.Perm p.cache.instrumentList → l'.Perm p.cache.instrumentList →
        p.exposureOf target l x = p.exposureOf target l' x) ↔
      (p.Converts target x → p.cache.RatesAgree (settlementCurrency x.1) target) := by
  by_cases hx : p.Converts target x
  · have hvalue : signedPosition x.2 * p.exposurePrice x.2 ≠ 0 :=
      mul_ne_zero (signedPosition_ne_zero hx.not_flat) hx.price_pos.ne'
    simp only [exposureOf_of_converts hx, mul_right_inj' hvalue, hx, forall_const]
    exact findSome?_perm_iff (g := fun rate => rate.getD 0) fun a b heq => heq
  · exact ⟨fun _ h => absurd h hx, fun _ l l' _ _ => exposureOf_of_not_converts hx l l'⟩

/-! ### The two ways to see the positions -/

/-- Every account that has a position is listed once. -/
structure Lists (accounts : List AccountID) (c : Cache) : Prop where
  nodup : accounts.Nodup
  named : "" ∉ accounts
  complete : ∀ a id position, c.positions.get (a, id) = some position → a ∈ accounts

/-- Every position of a cached instrument. -/
def scanned (p : Portfolio) : List Item := p.items "" p.cache.instrumentList

/-- The positions that the index names for the cached instruments. -/
def named (p : Portfolio) (accounts : List AccountID) : List Item :=
  accounts.flatMap fun a => p.items a p.cache.instrumentList

theorem items_perm {l l' : List Instrument} (h : l.Perm l') (a : AccountID) :
    (p.items a l).Perm (p.items a l') := h.flatMap_right _

theorem exposureSum_perm {xs ys : List Item} (h : xs.Perm ys) (rates : Item → List Instrument) :
    p.exposureSum target rates xs = p.exposureSum target rates ys := (h.map _).sum_eq

theorem account_of_mem_items (hc : Cache.Keyed p.cache) {a : AccountID} (ha : a ≠ "")
    {l : List Instrument} {x : Item} (hx : x ∈ p.items a l) : x.2.accountID = a := by
  obtain ⟨inst, -, hx⟩ := List.mem_flatMap.mp hx
  obtain ⟨q, hq, rfl⟩ := List.mem_map.mp hx
  rw [positionsForInstrument, if_pos ha, Option.mem_toList, Cache.positionByInstrument] at hq
  obtain ⟨id, -, hget⟩ := Option.bind_eq_some_iff.mp hq
  exact (hc.positions a id q hget).1

theorem items_nodup (hc : Cache.Consistent p.cache) (hfiled : Cache.Filed p.cache)
    (a : AccountID) : (p.items a p.cache.instrumentList).Nodup := by
  have hinstruments := (Cache.instrumentList_ids_nodup hfiled).of_map
  refine List.nodup_flatMap.mpr ⟨fun inst _ => ?_, hinstruments.imp fun hne => ?_⟩
  · refine List.Nodup.map (fun q q' heq => (Prod.mk.inj heq).2) ?_
    unfold positionsForInstrument
    split
    · cases p.cache.positionByInstrument a inst.id <;> simp
    · exact Cache.positionsForInstrument_nodup hc.keyed inst.id
  · intro x hx hx'
    obtain ⟨q, -, rfl⟩ := List.mem_map.mp hx
    obtain ⟨q', -, heq⟩ := List.mem_map.mp hx'
    exact hne (Prod.mk.inj heq).1.symm

theorem named_nodup (hc : Cache.Consistent p.cache) (hfiled : Cache.Filed p.cache)
    {accounts : List AccountID} (haccounts : accounts.Nodup) (hnamed : "" ∉ accounts) :
    (p.named accounts).Nodup := by
  refine List.nodup_flatMap.mpr ⟨fun a _ => items_nodup hc hfiled a, ?_⟩
  refine haccounts.imp_of_mem fun {a b} ha hb hne x hx hx' => hne ?_
  rw [← account_of_mem_items hc.keyed (fun h => hnamed (h ▸ ha)) hx,
    ← account_of_mem_items hc.keyed (fun h => hnamed (h ▸ hb)) hx']

theorem indexed_nodup (hc : Cache.Keyed p.cache) {accounts : List AccountID}
    (haccounts : accounts.Nodup) (i : InstrumentID) : (p.indexed accounts i).Nodup := by
  refine List.Nodup.filterMap (fun a b q hq hq' => ?_) haccounts
  obtain ⟨id, -, hget⟩ := Option.bind_eq_some_iff.mp hq
  obtain ⟨id', -, hget'⟩ := Option.bind_eq_some_iff.mp hq'
  exact (hc.positions a id q hget).1.symm.trans (hc.positions b id' q hget').1

/-! ### When the sums agree -/

/-- The net position of all accounts is the sum of theirs, and the exposures come
to the same by account, by venue, and by instrument for one account after the
other, in whatever orders the instruments are visited. -/
structure SumsAgree (p : Portfolio) (accounts : List AccountID) : Prop where
  positions : ∀ i, p.netPosition "" i = (accounts.map fun a => p.netPosition a i).sum
  exposures : ∀ target (v v' : Visits) (w : AccountID → Visits), v.Of p.cache → v'.Of p.cache →
    (∀ a, (w a).Of p.cache) →
      (p.netExposuresByAccount v target).total = (p.netExposuresByVenue v' target).total ∧
      (p.netExposuresByVenue v' target).total =
        (accounts.map fun a => (p.netExposuresByInstrument (w a) a target).total).sum

/-- The positions that the index does not name come to as much as those that it
names for another instrument than their own, in quantity and in value, and rates
that have to be looked for can be found in one way only. -/
structure Netted (p : Portfolio) (accounts : List AccountID) : Prop where
  quantities : ∀ i,
    (((p.cache.positionsForInstrument i).filter (· ∉ p.indexed accounts i)).map netOf).sum =
      (((p.indexed accounts i).filter (· ∉ p.cache.positionsForInstrument i)).map netOf).sum
  rates : ∀ target x, x ∈ p.scanned ∨ x ∈ p.named accounts → p.Converts target x →
    p.cache.RatesAgree (settlementCurrency x.1) target
  exposures : ∀ target,
    p.exposureSum target (fun _ => p.cache.instrumentList)
        (p.scanned.filter (· ∉ p.named accounts)) =
      p.exposureSum target (fun _ => p.cache.instrumentList)
        ((p.named accounts).filter (· ∉ p.scanned))

section Agreement

variable {accounts : List AccountID}

/-- The exposures of one account after the other are those of the positions that
the index names. -/
theorem sum_byInstrument (hc : Cache.Consistent p.cache) (hfiled : Cache.Filed p.cache)
    (hnamed : "" ∉ accounts) (w : AccountID → Visits) (hw : ∀ a, (w a).Of p.cache) :
    (accounts.map fun a => (p.netExposuresByInstrument (w a) a target).total).sum =
      p.exposureSum target (fun x => (w x.2.accountID).rates x.1 x.2) (p.named accounts) := by
  have heach : ∀ a ∈ accounts, (p.netExposuresByInstrument (w a) a target).total =
      p.exposureSum target (fun x => (w x.2.accountID).rates x.1 x.2)
        (p.items a p.cache.instrumentList) := by
    intro a ha
    have hids : ((w a).instruments.map (·.id)).Nodup :=
      (((hw a).instruments.map _).nodup_iff).mpr (Cache.instrumentList_ids_nodup hfiled)
    rw [total_byInstrument (w a) hids, exposureSum_perm (items_perm (hw a).instruments a)]
    refine congrArg List.sum (List.map_congr_left fun x hx => ?_)
    dsimp only
    rw [account_of_mem_items hc.keyed (fun h => hnamed (h ▸ ha)) hx]
  rw [List.map_congr_left heach, exposureSum, named, List.map_flatMap, List.flatMap,
    List.sum_flatten, List.map_map]
  rfl

theorem exposures_agree_iff (hc : Cache.Consistent p.cache) (hfiled : Cache.Filed p.cache)
    (haccounts : Lists accounts p.cache) (target : Currency) :
    (∀ (v v' : Visits) (w : AccountID → Visits), v.Of p.cache → v'.Of p.cache →
      (∀ a, (w a).Of p.cache) →
        (p.netExposuresByAccount v target).total = (p.netExposuresByVenue v' target).total ∧
        (p.netExposuresByVenue v' target).total =
          (accounts.map fun a => (p.netExposuresByInstrument (w a) a target).total).sum) ↔
      (∀ x, x ∈ p.scanned ∨ x ∈ p.named accounts → p.Converts target x →
        p.cache.RatesAgree (settlementCurrency x.1) target) ∧
      p.exposureSum target (fun _ => p.cache.instrumentList) p.scanned =
        p.exposureSum target (fun _ => p.cache.instrumentList) (p.named accounts) := by
  have hscanned : p.scanned.Nodup := items_nodup hc hfiled ""
  have hnamed := named_nodup hc hfiled haccounts.nodup haccounts.named
  have hsettled {xs : List Item} (hxs : xs.Nodup) := @sum_choice_iff _ _ _ _ _ xs hxs
    (fun l : List Instrument => l.Perm p.cache.instrumentList) (p.exposureOf target)
  have hscan {v : Visits} (hv : v.Of p.cache) :
      p.exposureSum target (fun x => v.rates x.1 x.2) (p.items "" v.instruments) =
        p.exposureSum target (fun x => v.rates x.1 x.2) p.scanned :=
    exposureSum_perm (items_perm hv.instruments "") _
  have hperm := List.Perm.refl p.cache.instrumentList
  constructor
  · intro h
    -- any choice of orders is the choice of some visit
    have hsums {r s t : Item → List Instrument} (hr : ∀ x, (r x).Perm p.cache.instrumentList)
        (hs : ∀ x, (s x).Perm p.cache.instrumentList)
        (ht : ∀ x, (t x).Perm p.cache.instrumentList) :
        p.exposureSum target r p.scanned = p.exposureSum target s p.scanned ∧
          p.exposureSum target s p.scanned = p.exposureSum target t (p.named accounts) := by
      have hv : (Visits.mk p.cache.instrumentList fun i q => r (i, q)).Of p.cache :=
        ⟨hperm, fun i q => hr (i, q)⟩
      have hv' : (Visits.mk p.cache.instrumentList fun i q => s (i, q)).Of p.cache :=
        ⟨hperm, fun i q => hs (i, q)⟩
      have hw : (Visits.mk p.cache.instrumentList fun i q => t (i, q)).Of p.cache :=
        ⟨hperm, fun i q => ht (i, q)⟩
      have hboth := h _ _ (fun _ => _) hv hv' fun _ => hw
      rwa [total_byAccount, total_byVenue, sum_byInstrument hc hfiled haccounts.named _ fun _ => hw]
        at hboth
    refine ⟨fun x hx => exposureOf_perm_iff.mp fun l l' hl hl' => ?_,
      (hsums (fun _ => hperm) (fun _ => hperm) fun _ => hperm).2⟩
    rcases hx with hx | hx
    · exact (hsettled hscanned).mp (fun r s hr hs => (hsums hr hs fun _ => hperm).1)
        x hx l l' hl hl'
    · refine (hsettled hnamed).mp (fun r s hr hs => ?_) x hx l l' hl hl'
      exact (hsums (fun _ => hperm) (fun _ => hperm) hr).2.symm.trans
        (hsums (fun _ => hperm) (fun _ => hperm) hs).2
  · rintro ⟨hrates, hsame⟩ v v' w hv hv' hw
    have hstays {xs : List Item} (hxs : xs.Nodup)
        (hin : ∀ x ∈ xs, x ∈ p.scanned ∨ x ∈ p.named accounts) {r : Item → List Instrument}
        (hr : ∀ x, (r x).Perm p.cache.instrumentList) :
        p.exposureSum target r xs = p.exposureSum target (fun _ => p.cache.instrumentList) xs :=
      (hsettled hxs).mpr (fun x hx l l' hl hl' =>
        exposureOf_perm_iff.mpr (hrates x (hin x hx)) l l' hl hl') r _ hr fun _ => hperm
    have hv₁ := hstays hscanned (fun x hx => .inl hx) (r := fun x => v.rates x.1 x.2)
      fun x => hv.rates x.1 x.2
    have hv₂ := hstays hscanned (fun x hx => .inl hx) (r := fun x => v'.rates x.1 x.2)
      fun x => hv'.rates x.1 x.2
    have hw₁ := hstays hnamed (fun x hx => .inr hx)
      (r := fun x => (w x.2.accountID).rates x.1 x.2) fun x => (hw _).rates x.1 x.2
    rw [total_byAccount, total_byVenue, sum_byInstrument hc hfiled haccounts.named w hw, hscan hv,
      hscan hv', hv₁, hv₂, hw₁]
    exact ⟨rfl, hsame⟩

/-- Net positions and exposures add up exactly if what the index leaves out is what
it adds, and no rate is ambiguous. -/
theorem net_sums_agree_iff (hp : p.cache.Reachable) (haccounts : Lists accounts p.cache) :
    p.SumsAgree accounts ↔ p.Netted accounts := by
  have hc := hp.consistent
  have hfiled := hp.filed
  have hpositions (i : InstrumentID) :
      p.netPosition "" i = (accounts.map fun a => p.netPosition a i).sum ↔
        (((p.cache.positionsForInstrument i).filter (· ∉ p.indexed accounts i)).map netOf).sum =
          (((p.indexed accounts i).filter
            (· ∉ p.cache.positionsForInstrument i)).map netOf).sum := by
    rw [netPosition_all, netPosition_each p haccounts.named]
    exact sum_eq_iff (Cache.positionsForInstrument_nodup hc.keyed i)
      (indexed_nodup hc.keyed haccounts.nodup i) netOf
  have hexposures (target : Currency) :
      p.exposureSum target (fun _ => p.cache.instrumentList) p.scanned =
          p.exposureSum target (fun _ => p.cache.instrumentList) (p.named accounts) ↔
        p.exposureSum target (fun _ => p.cache.instrumentList)
            (p.scanned.filter (· ∉ p.named accounts)) =
          p.exposureSum target (fun _ => p.cache.instrumentList)
            ((p.named accounts).filter (· ∉ p.scanned)) := by
    exact sum_eq_iff (items_nodup hc hfiled "")
      (named_nodup hc hfiled haccounts.nodup haccounts.named)
      (p.exposureOf target p.cache.instrumentList)
  constructor
  · intro h
    have hagree := fun target =>
      (exposures_agree_iff hc hfiled haccounts target).mp (h.exposures target)
    exact ⟨fun i => (hpositions i).mp (h.positions i), fun target => (hagree target).1,
      fun target => (hexposures target).mp (hagree target).2⟩
  · intro h
    exact ⟨fun i => (hpositions i).mpr (h.quantities i), fun target =>
      (exposures_agree_iff hc hfiled haccounts target).mpr
        ⟨h.rates target, (hexposures target).mpr (h.exposures target)⟩⟩

end Agreement

end

/-! ### An account with two positions in one instrument -/

def hedgedPerp : Instrument :=
  { id := ⟨"BTC-USDT-PERP", "BINANCE"⟩, rawSymbol := "BTCUSDT", type := .perp, base := "BTC"
    quote := "USDT", settle := "USDT", priceTick := 1, sizeTick := 1, status := .trading }

/-- A position entered at 100. -/
def hedgeLeg (id : PositionID) (side : PositionSide) (quantity : Decimal) :
    PositionStatusReport :=
  { accountID := "acct", instrumentID := hedgedPerp.id, positionID := id, side := side
    quantity := quantity, entryPrice := 100, timestamp := 1 }

/-- Long 5 and then short 2. -/
def hedgedPortfolio : Portfolio :=
  new ((({ Cache.new with
    instruments := (∅ : OrdMap InstrumentID Instrument).put hedgedPerp.id hedgedPerp } :
      Cache).storePosition (hedgeLeg "long" .long 5)).storePosition (hedgeLeg "short" .short 2))

theorem reachable_hedgedPortfolio : hedgedPortfolio.cache.Reachable := by
  have hleg (id : PositionID) (side : PositionSide) (quantity : Decimal)
      (h : (hedgeLeg id side quantity).validate = .ok ()) :=
    PositionStatusReport.validate_eq_ok.mp h
  have hinst : hedgedPerp.validate = .ok () := by decide +kernel
  exact ((Cache.Reachable.new.storeInstrument hinst).storePosition (hleg _ _ _ (by decide +kernel))).storePosition
      (hleg _ _ _ (by decide +kernel))

theorem lists_hedgedPortfolio : Lists ["acct"] hedgedPortfolio.cache := by
  refine ⟨List.nodup_singleton _, by decide, fun a id q hget => ?_⟩
  have hpositions : hedgedPortfolio.cache.positions =
      ((∅ : OrdMap (AccountID × PositionID) PositionStatusReport).put ("acct", "long")
        (hedgeLeg "long" .long 5)).put ("acct", "short") (hedgeLeg "short" .short 2) := by
    unfold hedgedPortfolio new
    dsimp only
    rw [Cache.positions_storePosition, Cache.positions_storePosition]
    rfl
  rw [hpositions, OrdMap.get_put] at hget
  split at hget
  · next heq => simp [(Prod.mk.inj heq).1]
  · rw [OrdMap.get_put] at hget
    split at hget
    · next heq => simp [(Prod.mk.inj heq).1]
    · cases (OrdMap.get_empty _).symm.trans hget

theorem net_sums_agree_iff_hedged :
    @SumsAgree exactDecimals hedgedPortfolio ["acct"] ↔
      @Netted exactDecimals hedgedPortfolio ["acct"] :=
  @net_sums_agree_iff exactDecimals _ _ reachable_hedgedPortfolio lists_hedgedPortfolio

/-- All accounts together hold 3, worth 300, and the only account says that it
holds -2, worth -200. -/
theorem net_sums_differ_hedged :
    let visits : Visits := ⟨[hedgedPerp], fun _ _ => [hedgedPerp]⟩
    hedgedPortfolio.netPosition "" hedgedPerp.id = 3 ∧
      hedgedPortfolio.netPosition "acct" hedgedPerp.id = -2 ∧
      (@netExposuresByAccount exactDecimals hedgedPortfolio visits "USDT").total = 300 ∧
      (@netExposuresByVenue exactDecimals hedgedPortfolio visits "USDT").total = 300 ∧
      (@netExposuresByInstrument exactDecimals hedgedPortfolio visits "acct" "USDT").total =
        -200 := by
  decide +kernel

end Exchanges.Portfolio
