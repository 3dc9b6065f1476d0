import Exchanges.Lib.Index
import Exchanges.Cache.Snapshots

/-!
The six order indexes stay in step with the stored orders.

`OrderIndexes view c` says that the indexes of `c` describe the orders that
`view` shows. Of a cache at rest the view is the primary map itself
(`OrdersIndexed`). Inside `putOrder` it is not: the order about to be replaced
is out of the indexes while it still is in the map. `Storing` describes these
states, and the eviction steps keep it.
-/

namespace Exchanges.Cache

open Exchanges.Lib Exchanges.Model

/-- The orders shown to the indexes, by account and order id. -/
abbrev OrderView := AccountID × OrderID → Option OrderStatusReport

/-- The indexes of `c` describe the orders shown by `view`. -/
structure OrderIndexes (view : OrderView) (c : Cache) : Prop where
  /-- An order is shown under its own account and id. -/
  keyed : ∀ a i o, view (a, i) = some o → o.accountID = a ∧ o.orderID = i ∧ i ≠ ""
  clients : IndexesOne view (·.clientOrderID) "" c.orderClients
  venues : IndexesOne view (·.venueOrderID) "" c.orderVenues
  strategies : IndexesAll view (·.metadata.strategyID) "" c.orderStrategies
  positions : IndexesAll view (·.positionID) "" c.orderPositions
  lists : IndexesAll view (·.orderListID) "" c.orderLists
  execSpawns : IndexesAll view (·.metadata.execSpawnID) "" c.orderExecSpawns

/-- The indexes describe the stored orders. -/
def OrdersIndexed (c : Cache) : Prop := OrderIndexes c.orders.get c

theorem ordersIndexed_new : OrdersIndexed new := by
  have hview : (new.orders.get : OrderView) = fun _ => none := by
    funext k
    exact OrdMap.get_empty k
  unfold OrdersIndexed
  rw [hview]
  exact ⟨fun a i o h => by simp at h, .empty, .empty, .empty, .empty, .empty, .empty⟩

/-! ### Removing and adding one order -/

namespace OrderIndexes

variable {view : OrderView} {c : Cache} {a : AccountID} {i : OrderID} {o : OrderStatusReport}

theorem remove (h : OrderIndexes view c) (hv : view (a, i) = some o) :
    OrderIndexes (Function.update view (a, i) none) (c.removeOrderIndexes o) := by
  obtain ⟨rfl, rfl, -⟩ := h.keyed a i o hv
  refine ⟨?_, h.clients.remove hv, h.venues.remove hv, h.strategies.remove hv,
    h.positions.remove hv, h.lists.remove hv, h.execSpawns.remove hv⟩
  intro b j p hp
  by_cases heq : (b, j) = (o.accountID, o.orderID)
  · rw [heq, Function.update_self] at hp
    cases hp
  · rw [Function.update_of_ne heq] at hp
    exact h.keyed b j p hp

theorem add (h : OrderIndexes view c) (hid : o.orderID ≠ "")
    (hnone : view (o.accountID, o.orderID) = none)
    (hclient : o.clientOrderID ≠ "" →
      c.orderClients.get (o.accountID, o.clientOrderID) = none)
    (hvenue : o.venueOrderID ≠ "" →
      c.orderVenues.get (o.accountID, o.venueOrderID) = none) :
    OrderIndexes (Function.update view (o.accountID, o.orderID) (some o))
      (c.insertOrder o) := by
  refine ⟨?_, h.clients.add hnone hclient, h.venues.add hnone hvenue,
    h.strategies.add hnone, h.positions.add hnone, h.lists.add hnone,
    h.execSpawns.add hnone⟩
  intro b j p hp
  by_cases heq : (b, j) = (o.accountID, o.orderID)
  · rw [heq, Function.update_self] at hp
    obtain ⟨rfl, rfl⟩ := Prod.mk.inj heq
    rw [← Option.some.inj hp]
    exact ⟨rfl, rfl, hid⟩
  · rw [Function.update_of_ne heq] at hp
    exact h.keyed b j p hp

end OrderIndexes

/-! ### Storing an order -/

/-- The order stored under `(a, i)` is being replaced: the indexes no longer
describe it, and describe every other stored order. -/
structure Storing (a : AccountID) (i : OrderID) (view : OrderView) (c : Cache) : Prop where
  indexes : OrderIndexes view c
  hidden : view (a, i) = none
  agree : ∀ k ≠ (a, i), c.orders.get k = view k

/-- The view without the order of account `a` that carries `k`; nothing carries
the empty key. -/
def OrderView.without (view : OrderView) (a : AccountID) (key : OrderStatusReport → String)
    (k : String) : OrderView :=
  fun p => (view p).filter fun o => !decide (k ≠ "" ∧ p.1 = a ∧ key o = k)

variable {k : String} {key : OrderStatusReport → String} {ids : OrdMap (AccountID × String) OrderID}
  {keep : ℤ}

theorem OrderView.without_eq_some {view : OrderView} {a : AccountID} {p : AccountID × OrderID}
    {o : OrderStatusReport} : view.without a key k p = some o ↔
      view p = some o ∧ ¬ (k ≠ "" ∧ p.1 = a ∧ key o = k) := by
  simp only [without, Option.filter_eq_some_iff, Bool.not_eq_true', decide_eq_false_iff_not]

/-- Hiding orders makes no order carry a key that it did not carry before. -/
theorem OrderView.carries_of_without {view : OrderView} {a b : AccountID}
    {key f : OrderStatusReport → String} {k k' : String} {i : OrderID}
    (h : Carries (view.without a key k) f b k' i) : Carries view f b k' i := by
  obtain ⟨v, hv, hkey⟩ := h
  exact ⟨v, (without_eq_some.mp hv).1, hkey⟩

variable {c : Cache} {a : AccountID} {i : OrderID}

theorem storing_removeExistingIndexes (h : OrdersIndexed c) :
    Storing a i (Function.update c.orders.get (a, i) none) (c.removeExistingIndexes a i) := by
  unfold removeExistingIndexes
  cases hget : c.orders.get (a, i) with
  | none =>
    have hsame : Function.update c.orders.get (a, i) none = c.orders.get := by
      rw [← hget, Function.update_eq_self]
    rw [hsame]
    exact ⟨h, hget, fun _ _ => rfl⟩
  | some existing =>
    refine ⟨h.remove hget, Function.update_self .., ?_⟩
    intro k hk
    rw [Function.update_of_ne hk]
    rfl

/-- Nobody but the order that the index leads to carries a key. -/
theorem without_eq_update {view : OrderView} {j : OrderID}
    (h : IndexesOne view key "" ids) (hget : ids.get (a, k) = some j) :
    view.without a key k = Function.update view (a, j) none := by
  obtain ⟨hk, hc⟩ := (h a k j).mp hget
  funext p
  ext o
  rw [OrderView.without_eq_some]
  by_cases hp : p = (a, j)
  · obtain ⟨v, hv, hkey⟩ := hc
    subst hp
    rw [hv, Function.update_self]
    constructor
    · rintro ⟨⟨⟩, hnot⟩
      exact absurd ⟨hk, rfl, hkey⟩ hnot
    · intro hnone
      cases hnone
  · rw [Function.update_of_ne hp]
    refine ⟨And.left, fun hv => ⟨hv, ?_⟩⟩
    rintro ⟨-, rfl, hkey⟩
    exact hp (by rw [← h.unique hk ⟨o, hv, hkey⟩ hc])

/-- No order carries a key that the index does not know. -/
theorem without_eq_self {view : OrderView}
    (h : IndexesOne view key "" ids) (hget : ids.get (a, k) = none) :
    view.without a key k = view := by
  funext p
  ext o
  rw [OrderView.without_eq_some]
  refine ⟨And.left, fun hv => ⟨hv, ?_⟩⟩
  rintro ⟨hk, rfl, hkey⟩
  have hsome := (h p.1 k p.2).mpr ⟨hk, o, hv, hkey⟩
  rw [hget] at hsome
  cases hsome

/-- Dropping the order stored under another id keeps the indexes right. -/
theorem storing_evictOrder {view : OrderView} (h : Storing a i view c) (j : OrderID) :
    Storing a i (Function.update view (a, j) none) (c.evictOrder a i (some j)) := by
  simp only [evictOrder]
  split
  · next hj =>
      have hne : (a, j) ≠ (a, i) := fun heq => hj.2 (Prod.mk.inj heq).2
      have hagree := h.agree (a, j) hne
      cases hget : c.orders.get (a, j) with
      | none =>
        have hsame : Function.update view (a, j) none = view := by
          rw [← hget, hagree, Function.update_eq_self]
        rw [hsame]
        exact h
      | some o =>
        have hv : view (a, j) = some o := by rw [← hagree, hget]
        refine ⟨?_, ?_, ?_⟩
        · obtain ⟨h1, h2, h3, h4, h5, h6, h7⟩ := h.indexes.remove hv
          exact ⟨h1, h2, h3, h4, h5, h6, h7⟩
        · rw [Function.update_of_ne hne.symm, h.hidden]
        · intro k hk
          change (c.orders.delete (a, j)).get k = _
          rw [OrdMap.get_delete, Function.update_apply]
          split
          · rfl
          · exact h.agree k hk
  · next hj =>
      -- the id is empty, which no shown order has, or the one being stored
      have hnone : view (a, j) = none := by
        by_cases hempty : j = ""
        · cases hv : view (a, j) with
          | none => rfl
          | some o => exact absurd hempty (h.indexes.keyed a j o hv).2.2
        · have hji : j = i := by
            by_contra hne
            exact hj ⟨hempty, hne⟩
          rw [hji, h.hidden]
      have hsame : Function.update view (a, j) none = view := by
        rw [← hnone, Function.update_eq_self]
      rw [hsame]
      exact h

/-- Dropping the order that a key leads to hides whoever carries the key. -/
theorem storing_evict {view : OrderView} (h : Storing a i view c)
    (hids : IndexesOne view key "" ids) (k : String) :
    Storing a i (view.without a key k) (c.evictOrder a i (ids.get (a, k))) := by
  cases hget : ids.get (a, k) with
  | none =>
    rw [without_eq_self hids hget]
    exact h
  | some j =>
    rw [without_eq_update hids hget]
    exact storing_evictOrder h j

theorem without_empty (view : OrderView) (a : AccountID) (key : OrderStatusReport → String) :
    view.without a key "" = view := by
  funext p
  ext o
  simp [OrderView.without_eq_some]

/-- An order without the key evicts nobody. -/
theorem storing_evictKey {view : OrderView} (h : Storing a i view c)
    (hids : IndexesOne view key "" ids) (k : String) : Storing a i (view.without a key k)
      (if k = "" then c else c.evictOrder a i (ids.get (a, k))) := by
  split
  · next hempty =>
      rw [hempty, without_empty]
      exact h
  · exact storing_evict h hids k

/-- The orders left when `o` is about to be written: those that do not share
its order id, client order id or venue order id. -/
def othersThan (view : OrderView) (o : OrderStatusReport) : OrderView :=
  let view : OrderView := Function.update view (o.accountID, o.orderID) none
  let view := view.without o.accountID (·.clientOrderID) o.clientOrderID
  view.without o.accountID (·.venueOrderID) o.venueOrderID

theorem storing_storeOrder (h : OrdersIndexed c) (o : OrderStatusReport) :
    Storing o.accountID o.orderID (othersThan c.orders.get o)
      (((c.removeExistingIndexes o.accountID o.orderID).evictClientOrderID o).evictVenueOrderID
        o) := by
  have hremoved := storing_removeExistingIndexes (a := o.accountID) (i := o.orderID) h
  have hevicted := storing_evictKey hremoved hremoved.indexes.clients o.clientOrderID
  exact storing_evictKey hevicted hevicted.indexes.venues o.venueOrderID

/-- Storing an order: what the primary map holds afterwards. -/
theorem orders_storeOrder (h : OrdersIndexed c) (o : OrderStatusReport) :
    (c.storeOrder o).orders.get =
      Function.update (othersThan c.orders.get o) (o.accountID, o.orderID) (some o) := by
  funext k
  change (OrdMap.put _ _ _).get k = _
  rw [OrdMap.get_put, Function.update_apply]
  split
  · rfl
  · next hk => exact (storing_storeOrder h o).agree k hk

/-- Once its order is hidden, a key is free. -/
theorem free_of_not_carried {view : OrderView}
    (h : IndexesOne view key "" ids) (hnot : ∀ j, ¬ Carries view key a k j) :
    ids.get (a, k) = none := by
  cases hget : ids.get (a, k) with
  | none => rfl
  | some j => exact absurd ((h a k j).mp hget).2 (hnot j)

theorem not_carries_without {view : OrderView}
    (hk : k ≠ "") (j : OrderID) : ¬ Carries (view.without a key k) key a k j := by
  rintro ⟨v, hv, hkey⟩
  exact (OrderView.without_eq_some.mp hv).2 ⟨hk, rfl, hkey⟩

theorem ordersIndexed_storeOrder (h : OrdersIndexed c) {o : OrderStatusReport}
    (hid : o.orderID ≠ "") : OrdersIndexed (c.storeOrder o) := by
  have hst := storing_storeOrder h o
  have hclient : o.clientOrderID ≠ "" → _ := fun hne =>
    free_of_not_carried hst.indexes.clients fun j hc =>
      not_carries_without hne j (OrderView.carries_of_without (f := (·.clientOrderID)) hc)
  have hvenue : o.venueOrderID ≠ "" → _ := fun hne =>
    free_of_not_carried hst.indexes.venues fun j => not_carries_without hne j
  have hadd := hst.indexes.add hid hst.hidden hclient hvenue
  unfold OrdersIndexed
  rw [orders_storeOrder h]
  exact hadd

theorem ordersIndexed_putOrder (h : OrdersIndexed c) {o : OrderStatusReport} {c' : Cache}
    (hput : c.putOrder o = .ok c') : OrdersIndexed c' := by
  simp only [putOrder, except_seq_eq_ok] at hput
  obtain ⟨hvalid, hc'⟩ := hput
  cases hc'
  exact ordersIndexed_storeOrder h (OrderStatusReport.validate_eq_ok.mp hvalid).orderID_ne

/-- The two orders carry the same client order id or the same venue order id. -/
def SharesID (o e : OrderStatusReport) : Prop :=
  o.clientOrderID ≠ "" ∧ e.clientOrderID = o.clientOrderID ∨
    o.venueOrderID ≠ "" ∧ e.venueOrderID = o.venueOrderID

instance (o e : OrderStatusReport) : Decidable (SharesID o e) := by
  unfold SharesID; infer_instance

/-- Storing an order keeps another one unless they share an id. -/
theorem order_storeOrder_other (h : OrdersIndexed c) {o e : OrderStatusReport}
    (hne : (a, i) ≠ (o.accountID, o.orderID)) : (c.storeOrder o).orders.get (a, i) = some e ↔
      c.orders.get (a, i) = some e ∧ ¬ (a = o.accountID ∧ SharesID o e) := by
  rw [orders_storeOrder h, Function.update_of_ne hne]
  simp only [othersThan, OrderView.without_eq_some, Function.update_of_ne hne, SharesID]
  tauto

/-- No two stored orders of an account share an id. -/
theorem not_sharesID_of_stored (h : OrdersIndexed c) {j : OrderID} {o e : OrderStatusReport}
    (ho : c.orders.get (a, j) = some o) (he : c.orders.get (a, i) = some e) (hne : i ≠ j) :
    ¬ SharesID o e := by
  rintro (⟨hk, hsame⟩ | ⟨hk, hsame⟩)
  · exact hne (h.clients.unique hk ⟨e, he, hsame⟩ ⟨o, ho, rfl⟩)
  · exact hne (h.venues.unique hk ⟨e, he, hsame⟩ ⟨o, ho, rfl⟩)

/-- Storing a newer version of an order, under the same ids, leaves the others
alone. -/
theorem order_storeOrder_version (h : OrdersIndexed c) {o o' : OrderStatusReport}
    (ho : c.orders.get (o'.accountID, o'.orderID) = some o)
    (hclient : o'.clientOrderID = o.clientOrderID) (hvenue : o'.venueOrderID = o.venueOrderID)
    (hne : (a, i) ≠ (o'.accountID, o'.orderID)) :
    (c.storeOrder o').orders.get (a, i) = c.orders.get (a, i) := by
  ext e
  rw [order_storeOrder_other h hne]
  refine ⟨fun he => he.1, fun he => ⟨he, ?_⟩⟩
  rintro ⟨rfl, hshares⟩
  refine not_sharesID_of_stored h ho he (fun heq => hne (by rw [heq])) ?_
  rwa [SharesID, hclient, hvenue] at hshares

theorem addOrderID_removeOrderID {a : AccountID}
    {i : OrderID} (h : k ≠ "" → ids.get (a, k) = some i) :
    addOrderID (removeOrderID ids a k) a k i = ids := by
  unfold addOrderID removeOrderID
  by_cases hk : k = ""
  · simp [hk]
  · rw [if_neg hk, if_neg hk]
    exact OrdMap.put_delete_eq_self (h hk)

theorem addOrderIndex_removeOrderIndex {index : OrdMap ((AccountID × String) × OrderID) Unit}
    {a : AccountID} {i : OrderID}
    (h : k ≠ "" → index.get ((a, k), i) = some ()) :
    addOrderIndex (removeOrderIndex index a k i) a k i = index := by
  unfold addOrderIndex removeOrderIndex
  by_cases hk : k = ""
  · simp [hk]
  · rw [if_neg hk, if_neg hk]
    exact OrdMap.put_delete_eq_self (h hk)

theorem get_removeOrderID_self (ids : OrdMap (AccountID × String) OrderID) (a : AccountID)
    (hk : k ≠ "") : (removeOrderID ids a k).get (a, k) = none := by
  rw [removeOrderID, if_neg hk, OrdMap.get_delete_self]

/-- Storing an order that is stored already changes nothing. -/
theorem storeOrder_eq_self (h : OrdersIndexed c) {o : OrderStatusReport}
    (hget : c.orders.get (o.accountID, o.orderID) = some o) : c.storeOrder o = c := by
  have hremoved : c.removeExistingIndexes o.accountID o.orderID = c.removeOrderIndexes o := by
    rw [removeExistingIndexes, hget]
  -- its own ids are out of the way, so nothing is evicted
  have hclient : (c.removeOrderIndexes o).evictClientOrderID o = c.removeOrderIndexes o := by
    unfold evictClientOrderID
    split
    · rfl
    · next hk =>
        have hnone := get_removeOrderID_self c.orderClients o.accountID hk
        change evictOrder _ _ _ ((removeOrderID c.orderClients _ _).get _) = _
        rw [hnone]
        rfl
  have hvenue : (c.removeOrderIndexes o).evictVenueOrderID o = c.removeOrderIndexes o := by
    unfold evictVenueOrderID
    split
    · rfl
    · next hk =>
        have hnone := get_removeOrderID_self c.orderVenues o.accountID hk
        change evictOrder _ _ _ ((removeOrderID c.orderVenues _ _).get _) = _
        rw [hnone]
        rfl
  rw [storeOrder, hremoved, hclient, hvenue, insertOrder, addOrderIndexes, removeOrderIndexes]
  dsimp only
  rw [OrdMap.put_eq_self hget,
    addOrderID_removeOrderID fun hk => (h.clients _ _ _).mpr ⟨hk, o, hget, rfl⟩,
    addOrderID_removeOrderID fun hk => (h.venues _ _ _).mpr ⟨hk, o, hget, rfl⟩,
    addOrderIndex_removeOrderIndex fun hk => (h.strategies _ _ _).mpr ⟨hk, o, hget, rfl⟩,
    addOrderIndex_removeOrderIndex fun hk => (h.positions _ _ _).mpr ⟨hk, o, hget, rfl⟩,
    addOrderIndex_removeOrderIndex fun hk => (h.lists _ _ _).mpr ⟨hk, o, hget, rfl⟩,
    addOrderIndex_removeOrderIndex fun hk => (h.execSpawns _ _ _).mpr ⟨hk, o, hget, rfl⟩]

/-! ### Purging -/

theorem ordersIndexed_removeOrder (h : OrdersIndexed c) {o : OrderStatusReport}
    (hget : c.orders.get (o.accountID, o.orderID) = some o) :
    OrdersIndexed (c.removeOrder o) := by
  have hview : (c.removeOrder o).orders.get =
      Function.update c.orders.get (o.accountID, o.orderID) none := by
    funext k
    simp only [removeOrder, removeOrderIndexes, OrdMap.get_delete, Function.update_apply]
  obtain ⟨h1, h2, h3, h4, h5, h6, h7⟩ := h.remove hget
  unfold OrdersIndexed
  rw [hview]
  exact ⟨h1, h2, h3, h4, h5, h6, h7⟩

theorem order_removeOrder_of_ne {o p : OrderStatusReport} (hne : p.orderID ≠ o.orderID) :
    (c.removeOrder o).orders.get (p.accountID, p.orderID) =
      c.orders.get (p.accountID, p.orderID) :=
  OrdMap.get_delete_of_ne _ fun heq => hne (Prod.mk.inj heq).2

/-- Removing several stored orders, one after the other. -/
theorem ordersIndexed_foldl_removeOrder (os : List OrderStatusReport)
    (hdistinct : os.Pairwise fun o p => o.orderID ≠ p.orderID) :
    ∀ {c : Cache}, OrdersIndexed c →
      (∀ o ∈ os, c.orders.get (o.accountID, o.orderID) = some o) →
      OrdersIndexed (os.foldl removeOrder c) := by
  induction os with
  | nil => exact fun h _ => h
  | cons o os ih =>
    intro c h hstored
    obtain ⟨hne, hrest⟩ := List.pairwise_cons.mp hdistinct
    refine ih hrest (ordersIndexed_removeOrder h (hstored o List.mem_cons_self)) ?_
    intro p hp
    rw [order_removeOrder_of_ne (hne p hp).symm]
    exact hstored p (List.mem_cons_of_mem o hp)

/-- The orders of an account are stored under their own ids. -/
theorem OrderIndexes.get_of_mem_row (h : OrdersIndexed c) {o : OrderStatusReport}
    (ho : o ∈ c.orders.row a) : c.orders.get (o.accountID, o.orderID) = some o := by
  obtain ⟨i, hi⟩ := OrdMap.mem_row.mp ho
  obtain ⟨rfl, rfl, -⟩ := h.keyed a i o hi
  exact hi

/-- No two orders of an account have the same id. -/
theorem OrderIndexes.row_distinct (h : OrdersIndexed c) :
    (c.orders.row a).Pairwise fun o p => o.orderID ≠ p.orderID := by
  rw [OrdMap.row, List.pairwise_map]
  refine (c.orders.rowEntries_pairwise a).imp_of_mem ?_
  intro e e' he he' hlt heq
  obtain ⟨-, hget⟩ := OrdMap.mem_rowEntries.mp he
  obtain ⟨-, hget'⟩ := OrdMap.mem_rowEntries.mp he'
  have hid := (h.keyed e.1.1 e.1.2 e.2 hget).2.1
  have hid' := (h.keyed e'.1.1 e'.1.2 e'.2 hget').2.1
  rw [← hid, ← hid', heq] at hlt
  simp at hlt

theorem mem_of_mem_dropNewest {α : Type} {xs : List α} {x : α}
    (h : x ∈ dropNewest keep xs) : x ∈ xs := by
  unfold dropNewest at h
  split at h
  · cases h
  · exact List.mem_of_mem_take h

theorem pairwise_dropNewest {α : Type} {r : α → α → Prop} {xs : List α}
    (h : xs.Pairwise r) : (dropNewest keep xs).Pairwise r := by
  unfold dropNewest
  split
  · exact .nil
  · exact h.sublist (List.take_sublist ..)

theorem mem_of_mem_closedOrdersToPurge {orders : List OrderStatusReport}
    {o : OrderStatusReport} (h : o ∈ closedOrdersToPurge orders keep) : o ∈ orders := by
  have hsorted := mem_of_mem_dropNewest h
  rw [List.mem_insertionSort] at hsorted
  exact (List.mem_filter.mp hsorted).1

theorem closedOrdersToPurge_distinct {orders : List OrderStatusReport}
    (h : orders.Pairwise fun o p => o.orderID ≠ p.orderID) :
    (closedOrdersToPurge orders keep).Pairwise fun o p => o.orderID ≠ p.orderID := by
  apply pairwise_dropNewest
  have hperm := List.perm_insertionSort orderUpdatedLE (orders.filter orderIsClosed)
  exact (hperm.pairwise_iff fun hne => Ne.symm hne).mpr (h.filter _)

/-- What holds when the orders are removed, and does not depend on positions and accounts,
holds after the purge. -/
theorem purge_keeps {P : Cache → Prop} {policy : PurgePolicy}
    (horders : P ((closedOrdersToPurge (c.orders.row a) policy.closedOrdersLimit).foldl
      removeOrder c))
    (hposition : ∀ c p, P c → P (removePosition c p))
    (haccounts : ∀ c accounts history, P c →
      P { c with accounts := accounts, accountHistory := history }) :
    P (c.purge a policy).1 := by
  have hpositions : ∀ ps : List PositionStatusReport, P (ps.foldl removePosition
      ((closedOrdersToPurge (c.orders.row a) policy.closedOrdersLimit).foldl removeOrder c)) :=
    fun ps => List.foldlRecOn ps removePosition horders fun c h p _ => hposition c p h
  change P (purgeAccountHistory _ _ _).1
  unfold purgeAccountHistory
  dsimp only
  split
  · split <;> exact haccounts _ _ _ (hpositions _)
  · exact hpositions _

theorem ordersIndexed_purge (h : OrdersIndexed c) (policy : PurgePolicy) :
    OrdersIndexed (c.purge a policy).1 := by
  refine purge_keeps (ordersIndexed_foldl_removeOrder _
    (closedOrdersToPurge_distinct (OrderIndexes.row_distinct h)) h
    fun _ ho => OrderIndexes.get_of_mem_row h (mem_of_mem_closedOrdersToPurge ho)) ?_ ?_
  · rintro _ _ ⟨h1, h2, h3, h4, h5, h6, h7⟩
    exact ⟨h1, h2, h3, h4, h5, h6, h7⟩
  · rintro _ _ _ ⟨h1, h2, h3, h4, h5, h6, h7⟩
    exact ⟨h1, h2, h3, h4, h5, h6, h7⟩

/-! ### What the lookups answer -/

section Lookups

variable (h : OrdersIndexed c)
include h

theorem bind_orders_eq_some {ids : OrdMap (AccountID × String) OrderID}
    {key : OrderStatusReport → String} (hids : IndexesOne c.orders.get key "" ids)
    {k : String} {o : OrderStatusReport} :
    (ids.get (a, k)).bind (fun i => c.orders.get (a, i)) = some o ↔
      k ≠ "" ∧ key o = k ∧ c.orders.get (a, o.orderID) = some o := by
  rw [Option.bind_eq_some_iff]
  constructor
  · rintro ⟨i, hi, ho⟩
    obtain ⟨hk, v, hv, hkey⟩ := (hids a k i).mp hi
    rw [ho] at hv
    cases hv
    obtain ⟨-, rfl, -⟩ := h.keyed a i o ho
    exact ⟨hk, hkey, ho⟩
  · rintro ⟨hk, hkey, ho⟩
    exact ⟨o.orderID, (hids a k _).mpr ⟨hk, o, ho, hkey⟩, ho⟩

theorem mem_ordersByIDSet {index : OrdMap ((AccountID × String) × OrderID) Unit}
    {key : OrderStatusReport → String} (hindex : IndexesAll c.orders.get key "" index)
    {k : String} {o : OrderStatusReport} :
    o ∈ c.ordersByIDSet a (index.rowKeys (a, k)) ↔
      k ≠ "" ∧ key o = k ∧ c.orders.get (a, o.orderID) = some o := by
  simp only [ordersByIDSet, sortOrders, List.mem_insertionSort, List.mem_filterMap,
    OrdMap.mem_rowKeys]
  constructor
  · rintro ⟨i, ⟨⟨⟩, hi⟩, ho⟩
    obtain ⟨hk, v, hv, hkey⟩ := (hindex a k i).mp hi
    rw [ho] at hv
    cases hv
    obtain ⟨-, rfl, -⟩ := h.keyed a i o ho
    exact ⟨hk, hkey, ho⟩
  · rintro ⟨hk, hkey, ho⟩
    exact ⟨o.orderID, ⟨(), (hindex a k _).mpr ⟨hk, o, ho, hkey⟩⟩, ho⟩

theorem ordersByIDSet_sorted {ids : List OrderID}
    (hids : ids.Pairwise fun i j => compare i j = .lt) :
    (c.ordersByIDSet a ids).Pairwise fun o p => o.orderID < p.orderID := by
  have htotal : Std.Total fun o p : OrderStatusReport => o.orderID ≤ p.orderID :=
    ⟨fun o p => le_total o.orderID p.orderID⟩
  have htrans : IsTrans OrderStatusReport fun o p => o.orderID ≤ p.orderID :=
    ⟨fun _ _ _ => le_trans⟩
  have hsorted := List.pairwise_insertionSort
    (fun o p : OrderStatusReport => o.orderID ≤ p.orderID)
    (ids.filterMap fun i => c.orders.get (a, i))
  -- the ids differ, so the sorted list is strictly increasing
  have hdistinct : (ids.filterMap fun i => c.orders.get (a, i)).Pairwise
      fun o p => o.orderID ≠ p.orderID := by
    rw [List.pairwise_filterMap]
    refine hids.imp ?_
    intro i j hlt o ho p hp heq
    rw [(h.keyed a i o ho).2.1, (h.keyed a j p hp).2.1] at heq
    rw [heq] at hlt
    simp at hlt
  have hperm := List.perm_insertionSort
    (fun o p : OrderStatusReport => o.orderID ≤ p.orderID)
    (ids.filterMap fun i => c.orders.get (a, i))
  have hne := (hperm.pairwise_iff fun hne => Ne.symm hne).mpr hdistinct
  exact (hsorted.and hne).imp fun hle => lt_of_le_of_ne hle.1 hle.2

end Lookups

theorem danglingOrders_eq_zero (hids : IndexesOne c.orders.get key "" ids) :
    c.danglingOrders a (ids.row a) = 0 := by
  rw [danglingOrders, List.countP_eq_zero]
  intro i hi
  obtain ⟨k, hk⟩ := OrdMap.mem_row.mp hi
  obtain ⟨-, v, hv, -⟩ := (hids a k i).mp hk
  simp [hv]

/-! ### Every reachable cache -/

/-- The operations that store and remove orders. -/
inductive OrderOp where
  | putOrder (order : OrderStatusReport)
  | purge (accountID : AccountID) (policy : PurgePolicy)

/-- An order that is refused leaves the cache as it was. -/
def OrderOp.apply (c : Cache) : OrderOp → Cache
  | .putOrder order =>
    match c.putOrder order with
    | .ok c' => c'
    | .error _ => c
  | .purge accountID policy => (c.purge accountID policy).1

/-- The cache after a sequence of operations on an empty cache. -/
def afterOps (ops : List OrderOp) : Cache := ops.foldl OrderOp.apply new

theorem ordersIndexed_apply (h : OrdersIndexed c) (op : OrderOp) :
    OrdersIndexed (op.apply c) := by
  cases op with
  | putOrder order =>
    change OrdersIndexed (match c.putOrder order with | .ok c' => c' | .error _ => c)
    split
    · next hput => exact ordersIndexed_putOrder h hput
    · exact h
  | purge accountID policy => exact ordersIndexed_purge h policy

theorem ordersIndexed_afterOps (ops : List OrderOp) : OrdersIndexed (afterOps ops) :=
  List.foldlRecOn ops OrderOp.apply ordersIndexed_new fun _ h op _ => ordersIndexed_apply h op

/-- The order is stored in the account. -/
def Stored (c : Cache) (a : AccountID) (o : OrderStatusReport) : Prop :=
  ∃ i, c.order a i = some o

/-- A list holds the stored orders with the given key, in the order of their
ids. -/
def ListsExactly (c : Cache) (a : AccountID) (key : OrderStatusReport → String) (k : String)
    (os : List OrderStatusReport) : Prop :=
  (∀ o, o ∈ os ↔ Stored c a o ∧ key o = k) ∧ os.Pairwise fun o p => o.orderID < p.orderID

/-- What the lookups of an account promise. -/
structure LookupsExact (c : Cache) (a : AccountID) : Prop where
  clientOrderID_unique : ∀ i j o p, c.order a i = some o → c.order a j = some p →
    o.clientOrderID ≠ "" → o.clientOrderID = p.clientOrderID → i = j
  venueOrderID_unique : ∀ i j o p, c.order a i = some o → c.order a j = some p →
    o.venueOrderID ≠ "" → o.venueOrderID = p.venueOrderID → i = j
  orderByClientID : ∀ k o, k ≠ "" →
    (c.orderByClientID a k = some o ↔ Stored c a o ∧ o.clientOrderID = k)
  orderByVenueID : ∀ k o, k ≠ "" →
    (c.orderByVenueID a k = some o ↔ Stored c a o ∧ o.venueOrderID = k)
  ordersByStrategy : ∀ k, k ≠ "" →
    ListsExactly c a (·.metadata.strategyID) k (c.ordersByStrategy a k)
  ordersByPositionID : ∀ k, k ≠ "" →
    ListsExactly c a (·.positionID) k (c.ordersByPositionID a k)
  ordersByOrderListID : ∀ k, k ≠ "" →
    ListsExactly c a (·.orderListID) k (c.ordersByOrderListID a k)
  ordersByExecSpawnID : ∀ k, k ≠ "" →
    ListsExactly c a (·.metadata.execSpawnID) k (c.ordersByExecSpawnID a k)
  mappings_consistent : (c.snapshot a).residuals.inconsistentOrderMappings = 0

theorem stored_iff (h : OrdersIndexed c) {o : OrderStatusReport} :
    Stored c a o ↔ c.orders.get (a, o.orderID) = some o := by
  constructor
  · rintro ⟨i, hi⟩
    obtain ⟨-, rfl, -⟩ := h.keyed a i o hi
    exact hi
  · intro hget
    exact ⟨o.orderID, hget⟩

theorem listsExactly_of_indexesAll (h : OrdersIndexed c)
    {index : OrdMap ((AccountID × String) × OrderID) Unit}
    (hindex : IndexesAll c.orders.get key "" index)
    (hk : k ≠ "") :
    ListsExactly c a key k (c.ordersByIDSet a (index.rowKeys (a, k))) := by
  refine ⟨fun o => ?_, ordersByIDSet_sorted h (index.rowKeys_pairwise (a, k))⟩
  rw [mem_ordersByIDSet h hindex, stored_iff h]
  tauto

theorem lookup_iff_of_indexesOne (h : OrdersIndexed c)
    (hids : IndexesOne c.orders.get key "" ids) (hk : k ≠ "")
    (o : OrderStatusReport) :
    (ids.get (a, k)).bind (fun i => c.orders.get (a, i)) = some o ↔
      Stored c a o ∧ key o = k := by
  rw [bind_orders_eq_some h hids, stored_iff h]
  tauto

/-- After any operations on an empty cache, every lookup of every account is
exact. -/
theorem lookupsExact_afterOps (ops : List OrderOp) (a : AccountID) :
    LookupsExact (afterOps ops) a := by
  have h := ordersIndexed_afterOps ops
  refine ⟨?_, ?_, ?_, ?_, ?_, ?_, ?_, ?_, ?_⟩
  · intro i j o p hi hj hne heq
    exact h.clients.unique hne ⟨o, hi, rfl⟩ ⟨p, hj, heq.symm⟩
  · intro i j o p hi hj hne heq
    exact h.venues.unique hne ⟨o, hi, rfl⟩ ⟨p, hj, heq.symm⟩
  · exact fun k o hk => lookup_iff_of_indexesOne h h.clients hk o
  · exact fun k o hk => lookup_iff_of_indexesOne h h.venues hk o
  · exact fun k hk => listsExactly_of_indexesAll h h.strategies hk
  · exact fun k hk => listsExactly_of_indexesAll h h.positions hk
  · exact fun k hk => listsExactly_of_indexesAll h h.lists hk
  · exact fun k hk => listsExactly_of_indexesAll h h.execSpawns hk
  · change _ + _ = 0
    rw [danglingOrders_eq_zero h.clients, danglingOrders_eq_zero h.venues]

end Exchanges.Cache
