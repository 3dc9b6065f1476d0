import Exchanges.Cache.OrderIndexes
import Exchanges.Lib.Sorting

/-!
What a purge leaves in the cache.

The orders to purge are taken from the row of one account, so the primary map
loses exactly their keys. The indexes describe the primary map before and after
(`ordersIndexed_purge`), and every lookup follows from it. Which closed orders go
is a matter of rank: the sort key, the time of the last update and then the id,
orders the stored orders of an account strictly.
-/

namespace Exchanges.Cache

open Exchanges.Lib Exchanges.Model

variable {c : Cache} {a : AccountID}

/-! ### The orders that go -/

/-- `p` was updated after `o`; of one instant, the greater id counts as later. -/
def UpdatedAfter (o p : OrderStatusReport) : Prop :=
  o.lastUpdatedTime < p.lastUpdatedTime ∨
    o.lastUpdatedTime = p.lastUpdatedTime ∧ o.orderID < p.orderID

instance : DecidableRel UpdatedAfter := fun o p => by unfold UpdatedAfter; infer_instance

theorem orderUpdatedLE_iff {o p : OrderStatusReport} :
    orderUpdatedLE o p ↔ o.lastUpdatedTime < p.lastUpdatedTime ∨
      o.lastUpdatedTime = p.lastUpdatedTime ∧ o.orderID ≤ p.orderID := by
  unfold orderUpdatedLE
  split
  · next heq => simp [heq]
  · next hne => simp [hne]

theorem UpdatedAfter.asymm {o p : OrderStatusReport} (h : UpdatedAfter o p) :
    ¬ UpdatedAfter p o := by
  rintro (hlt | ⟨heq, hid⟩)
  · rcases h with hlt' | ⟨heq', -⟩
    · exact lt_asymm hlt hlt'
    · exact hlt.ne heq'.symm
  · rcases h with hlt' | ⟨-, hid'⟩
    · exact hlt'.ne heq.symm
    · exact lt_asymm hid hid'

instance : Std.Total orderUpdatedLE where
  total o p := by
    rw [orderUpdatedLE_iff, orderUpdatedLE_iff]
    rcases lt_trichotomy o.lastUpdatedTime p.lastUpdatedTime with h | h | h
    · exact .inl (.inl h)
    · exact (le_total o.orderID p.orderID).imp (fun hid => .inr ⟨h, hid⟩)
        fun hid => .inr ⟨h.symm, hid⟩
    · exact .inr (.inl h)

instance : IsTrans OrderStatusReport orderUpdatedLE where
  trans o p q := by
    rw [orderUpdatedLE_iff, orderUpdatedLE_iff, orderUpdatedLE_iff]
    rintro (h | ⟨h, hid⟩) (h' | ⟨h', hid'⟩)
    · exact .inl (h.trans h')
    · exact .inl (h' ▸ h)
    · exact .inl (h ▸ h')
    · exact .inr ⟨h.trans h', hid.trans hid'⟩

/-- The closed orders of an account are strictly sorted before they are purged. -/
theorem pairwise_updatedAfter {orders : List OrderStatusReport}
    (h : orders.Pairwise fun o p => o.orderID ≠ p.orderID) :
    (orders.insertionSort orderUpdatedLE).Pairwise UpdatedAfter := by
  have hperm := List.perm_insertionSort orderUpdatedLE orders
  have hne := (hperm.pairwise_iff fun hne => Ne.symm hne).mpr h
  refine ((List.pairwise_insertionSort orderUpdatedLE orders).and hne).imp ?_
  rintro o p ⟨hle, hid⟩
  rcases orderUpdatedLE_iff.1 hle with hlt | ⟨heq, hle⟩
  · exact .inl hlt
  · exact .inr ⟨heq, lt_of_le_of_ne hle hid⟩

variable {o : OrderStatusReport} {b : AccountID} {i : OrderID} {policy : PurgePolicy}

theorem mem_closedOrdersToPurge {orders : List OrderStatusReport} {keep : ℤ}
    (h : orders.Pairwise fun o p => o.orderID ≠ p.orderID) :
    o ∈ closedOrdersToPurge orders keep ↔ (o ∈ orders ∧ orderIsClosed o) ∧
      0 ≤ keep ∧ keep ≤ (orders.filter orderIsClosed).countP fun p => UpdatedAfter o p := by
  have hperm := List.perm_insertionSort orderUpdatedLE (orders.filter orderIsClosed)
  have hsorted := pairwise_updatedAfter (h.filter orderIsClosed)
  rw [closedOrdersToPurge, ← List.mem_filter, ← hperm.mem_iff, ← hperm.countP_eq, dropNewest]
  set sorted := (orders.filter orderIsClosed).insertionSort orderUpdatedLE
  constructor
  · intro hmem
    split at hmem
    · cases hmem
    · next hkeep =>
        rw [not_or, not_lt, not_le] at hkeep
        have ho := List.mem_of_mem_take hmem
        have hrank := (mem_take_sub_iff (fun _ _ hlt => hlt.asymm) hsorted ho keep.toNat).1 hmem
        exact ⟨ho, hkeep.1, by omega⟩
  · rintro ⟨ho, hnonneg, hrank⟩
    have hself : ¬ UpdatedAfter o o := fun hlt => hlt.asymm hlt
    have hbound : sorted.countP (fun p => UpdatedAfter o p) < sorted.length := by
      refine lt_of_le_of_ne List.countP_le_length fun heq => hself ?_
      simpa using List.countP_eq_length.1 heq o ho
    rw [if_neg (by omega)]
    exact (mem_take_sub_iff (fun _ _ hlt => hlt.asymm) hsorted ho keep.toNat).2 (by omega)

/-! ### The orders that stay -/

theorem orders_foldl_removeOrder (os : List OrderStatusReport) (c : Cache) :
    (os.foldl removeOrder c).orders =
      (os.map fun o => (o.accountID, o.orderID)).foldl OrdMap.delete c.orders := by
  induction os generalizing c with
  | nil => rfl
  | cons o os ih => exact ih (c.removeOrder o)

/-- A purge deletes the keys of the orders it chose. -/
theorem orders_purge (policy : PurgePolicy) :
    (c.purge a policy).1.orders =
      ((closedOrdersToPurge (c.orders.row a) policy.closedOrdersLimit).map fun o =>
        (o.accountID, o.orderID)).foldl OrdMap.delete c.orders := by
  rw [← orders_foldl_removeOrder]
  exact purge_keeps (P := fun c' => c'.orders = _) rfl (fun _ _ h => h) fun _ _ _ h => h

/-- The stored closed orders of the account that were updated after `o`. -/
def laterClosed (c : Cache) (a : AccountID) (o : OrderStatusReport) : Nat :=
  (c.closedOrders a).countP fun p => UpdatedAfter o p

/-- The purge chooses a stored order exactly if it is a closed order of the
account with at least as many later ones as are to be kept. -/
theorem mem_closedOrdersToPurge_row (h : OrdersIndexed c) {limit : ℤ} (ho : c.order b i = some o) :
    o ∈ closedOrdersToPurge (c.orders.row a) limit ↔ b = a ∧ orderIsClosed o ∧
      0 ≤ limit ∧ limit ≤ c.laterClosed a o := by
  have hlater : c.laterClosed a o =
      ((c.orders.row a).filter orderIsClosed).countP fun p => UpdatedAfter o p :=
    (List.perm_insertionSort _ _).countP_eq _
  have hrow : o ∈ c.orders.row a ↔ b = a := by
    rw [OrdMap.mem_row]
    constructor
    · rintro ⟨j, hj⟩
      exact (h.keyed b i o ho).1.symm.trans (h.keyed a j o hj).1
    · rintro rfl
      exact ⟨i, ho⟩
  rw [mem_closedOrdersToPurge (OrderIndexes.row_distinct h), hrow, hlater, and_assoc]

theorem order_purge_eq_none_iff (h : OrdersIndexed c) (ho : c.order b i = some o) :
    (c.purge a policy).1.order b i = none ↔
      o ∈ closedOrdersToPurge (c.orders.row a) policy.closedOrdersLimit := by
  obtain ⟨haccount, hid, -⟩ := h.keyed b i o ho
  have hkey : (b, i) ∈ (closedOrdersToPurge (c.orders.row a) policy.closedOrdersLimit).map
      (fun o => (o.accountID, o.orderID)) ↔
      o ∈ closedOrdersToPurge (c.orders.row a) policy.closedOrdersLimit := by
    rw [List.mem_map]
    constructor
    · rintro ⟨p, hp, hsame⟩
      have hget := OrderIndexes.get_of_mem_row h (mem_of_mem_closedOrdersToPurge hp)
      rw [hsame, show c.orders.get (b, i) = some o from ho] at hget
      exact Option.some.inj hget ▸ hp
    · exact fun hmem => ⟨o, hmem, by rw [haccount, hid]⟩
  rw [order, orders_purge, OrdMap.get_foldl_delete, ← hkey]
  split
  · next hmem => exact ⟨fun _ => hmem, fun _ => rfl⟩
  · next hnot =>
      rw [show c.orders.get (b, i) = some o from ho]
      exact ⟨fun hsome => (by cases hsome), fun hmem => absurd hmem hnot⟩

/-- A purge changes no order: it is stored as before, or gone. -/
theorem order_of_order_purge (ho : (c.purge a policy).1.order b i = some o) :
    c.order b i = some o := by
  rw [order, orders_purge, OrdMap.get_foldl_delete] at ho
  split at ho
  · cases ho
  · exact ho

theorem order_purge_iff (h : OrdersIndexed c) :
    (c.purge a policy).1.order b i = some o ↔ c.order b i = some o ∧
      ¬ (b = a ∧ orderIsClosed o ∧ 0 ≤ policy.closedOrdersLimit ∧
        policy.closedOrdersLimit ≤ c.laterClosed a o) := by
  constructor
  · intro hafter
    have ho := order_of_order_purge hafter
    refine ⟨ho, fun hgone => ?_⟩
    rw [(order_purge_eq_none_iff h ho).2 ((mem_closedOrdersToPurge_row h ho).2 hgone)] at hafter
    cases hafter
  · rintro ⟨ho, hnot⟩
    cases hafter : (c.purge a policy).1.order b i with
    | none =>
      have hchosen := (order_purge_eq_none_iff h ho).1 hafter
      exact absurd ((mem_closedOrdersToPurge_row h ho).1 hchosen) hnot
    | some p =>
      rw [order_of_order_purge hafter] at ho
      exact ho

/-! ### The lookups of an order that stays -/

/-- The order is stored in `c'`, and each of its keys leads to it as in `c`. -/
structure FoundAsBefore (c c' : Cache) (b : AccountID) (o : OrderStatusReport) : Prop where
  order : c'.order b o.orderID = some o
  byClientID : c'.orderByClientID b o.clientOrderID = c.orderByClientID b o.clientOrderID
  byVenueID : c'.orderByVenueID b o.venueOrderID = c.orderByVenueID b o.venueOrderID
  byStrategy : o ∈ c'.ordersByStrategy b o.metadata.strategyID ↔
    o ∈ c.ordersByStrategy b o.metadata.strategyID
  byPositionID : o ∈ c'.ordersByPositionID b o.positionID ↔ o ∈ c.ordersByPositionID b o.positionID
  byOrderListID : o ∈ c'.ordersByOrderListID b o.orderListID ↔
    o ∈ c.ordersByOrderListID b o.orderListID
  byExecSpawnID : o ∈ c'.ordersByExecSpawnID b o.metadata.execSpawnID ↔
    o ∈ c.ordersByExecSpawnID b o.metadata.execSpawnID

/-- An order that both caches store is found in the same ways in both. -/
theorem foundAsBefore {c c' : Cache} (h : OrdersIndexed c) (h' : OrdersIndexed c')
      (ho : c.order b o.orderID = some o)
    (ho' : c'.order b o.orderID = some o) : FoundAsBefore c c' b o := by
  have hone : ∀ {ids ids' : OrdMap (AccountID × String) OrderID}
      {key : OrderStatusReport → String}, IndexesOne c.orders.get key "" ids →
      IndexesOne c'.orders.get key "" ids' →
      (ids'.get (b, key o)).bind (fun i => c'.orders.get (b, i)) =
        (ids.get (b, key o)).bind fun i => c.orders.get (b, i) := by
    intro ids ids' key hids hids'
    by_cases hk : key o = ""
    · have hnone : ids.get (b, key o) = none :=
        Option.eq_none_iff_forall_ne_some.2 fun i hi => ((hids b (key o) i).1 hi).1 hk
      have hnone' : ids'.get (b, key o) = none :=
        Option.eq_none_iff_forall_ne_some.2 fun i hi => ((hids' b (key o) i).1 hi).1 hk
      rw [hnone, hnone']
      rfl
    · rw [(bind_orders_eq_some h hids).2 ⟨hk, rfl, ho⟩, (bind_orders_eq_some h' hids').2 ⟨hk, rfl, ho'⟩]
  have hall : ∀ {index index' : OrdMap ((AccountID × String) × OrderID) Unit}
      {key : OrderStatusReport → String}, IndexesAll c.orders.get key "" index →
      IndexesAll c'.orders.get key "" index' →
      (o ∈ c'.ordersByIDSet b (index'.rowKeys (b, key o)) ↔
        o ∈ c.ordersByIDSet b (index.rowKeys (b, key o))) := by
    intro index index' key hindex hindex'
    rw [mem_ordersByIDSet h hindex, mem_ordersByIDSet h' hindex']
    exact ⟨fun hk => ⟨hk.1, hk.2.1, ho⟩, fun hk => ⟨hk.1, hk.2.1, ho'⟩⟩
  exact ⟨ho', hone h.clients h'.clients, hone h.venues h'.venues, hall h.strategies h'.strategies,
    hall h.positions h'.positions, hall h.lists h'.lists, hall h.execSpawns h'.execSpawns⟩

/-! ### The number of orders that go -/

theorem mem_ordersOf (h : OrdersIndexed c) :
    o ∈ c.ordersOf a ↔ c.order a o.orderID = some o := by
  rw [ordersOf, sortOrders, List.mem_insertionSort, OrdMap.mem_row]
  exact stored_iff h

theorem closedOrders_purge_count (h : OrdersIndexed c) (policy : PurgePolicy) :
    (c.purge a policy).2.closedOrders =
      (c.ordersOf a).countP fun o => ((c.purge a policy).1.order a o.orderID).isNone := by
  have hdistinct := OrderIndexes.row_distinct (a := a) h
  have hnodup : (c.ordersOf a).Nodup := by
    refine (List.perm_insertionSort _ _).nodup_iff.2 (hdistinct.imp ?_)
    rintro o p hne rfl
    exact hne rfl
  have hchosen : (closedOrdersToPurge (c.orders.row a) policy.closedOrdersLimit).Nodup := by
    refine (closedOrdersToPurge_distinct hdistinct).imp ?_
    rintro o p hne rfl
    exact hne rfl
  rw [List.countP_eq_length_filter]
  refine List.Perm.length_eq ((List.perm_ext_iff_of_nodup hchosen (hnodup.filter _)).2 fun o => ?_)
  rw [List.mem_filter, Option.isNone_iff_eq_none, mem_ordersOf h]
  constructor
  · intro hmem
    have ho : c.order a o.orderID = some o := by
      have hrow := mem_of_mem_closedOrdersToPurge hmem
      obtain ⟨i, hi⟩ := OrdMap.mem_row.1 hrow
      exact (stored_iff h).1 ⟨i, hi⟩
    exact ⟨ho, (order_purge_eq_none_iff h ho).2 hmem⟩
  · rintro ⟨ho, hnone⟩
    exact (order_purge_eq_none_iff h ho).1 hnone

theorem mem_closedOrders (h : OrdersIndexed c) :
    o ∈ c.closedOrders a ↔ c.order a o.orderID = some o ∧ orderIsClosed o := by
  rw [closedOrders, sortOrders, List.mem_insertionSort, List.mem_filter, OrdMap.mem_row]
  exact and_congr_left' (stored_iff h)

/-- What a purge of account `a` that keeps `limit` closed orders makes of `c`:
`c'`, with `count` orders fewer. -/
structure PurgedTo (c : Cache) (a : AccountID) (limit : ℤ) (c' : Cache) (count : Nat) : Prop where
  /-- The open orders and the orders of the other accounts stay. -/
  kept : ∀ b i o, c.order b i = some o → o.status.isOpen ∨ b ≠ a →
    o.orderID = i ∧ FoundAsBefore c c' b o
  /-- The closed orders that stay have fewer than `limit` later ones. -/
  closed : 0 ≤ limit → ∀ o, o ∈ c'.closedOrders a ↔
    o ∈ c.closedOrders a ∧ (c.laterClosed a o : ℤ) < limit
  unlimited : limit < 0 → ∀ b i, c'.order b i = c.order b i
  count_eq : count = (c.ordersOf a).countP fun o => (c'.order a o.orderID).isNone

/-- Whatever orders were put and purged before: a purge keeps every open order
and every order of the other accounts under all its keys, leaves the latest
closed orders of the account up to the limit, and counts those it removes. -/
theorem purge_afterOps (ops : List OrderOp) (a : AccountID) (policy : PurgePolicy) :
    PurgedTo (afterOps ops) a policy.closedOrdersLimit ((afterOps ops).purge a policy).1
      ((afterOps ops).purge a policy).2.closedOrders := by
  have h := ordersIndexed_afterOps ops
  have h' := ordersIndexed_purge (a := a) h policy
  refine ⟨fun b i o ho hstays => ?_, fun hlimit o => ?_, fun hlimit b i => ?_,
    closedOrders_purge_count h policy⟩
  · obtain ⟨-, rfl, -⟩ := h.keyed b i o ho
    refine ⟨rfl, foundAsBefore h h' ho ((order_purge_iff h).2 ⟨ho, ?_⟩)⟩
    rintro ⟨hb, hclosed, -⟩
    rcases hstays with hopen | hother
    · rw [orderIsClosed, hopen] at hclosed
      simp at hclosed
    · exact hother hb
  · rw [mem_closedOrders h', mem_closedOrders h, order_purge_iff h, ← not_le]
    tauto
  · ext o
    rw [order_purge_iff h]
    exact and_iff_left fun hgone => absurd hgone.2.2.1 (not_le.2 hlimit)

/-- A second purge finds nothing left to remove. -/
theorem purge_again (ops : List OrderOp) (a : AccountID) (policy : PurgePolicy) :
    (((afterOps ops).purge a policy).1.purge a policy).1.orders =
      ((afterOps ops).purge a policy).1.orders := by
  have h := ordersIndexed_afterOps ops
  have h' := ordersIndexed_purge (a := a) h policy
  -- of the closed orders that stay, none has more later ones than before
  have hfewer : ∀ o, ((afterOps ops).purge a policy).1.laterClosed a o ≤
      (afterOps ops).laterClosed a o := by
    intro o
    refine (List.subperm_of_subset ?_ fun p hp => ?_).countP_le _
    · refine (List.perm_insertionSort _ _).nodup_iff.2
        (((OrderIndexes.row_distinct h').imp ?_).filter _)
      rintro o p hne rfl
      exact hne rfl
    · rw [mem_closedOrders h', order_purge_iff h] at hp
      exact (mem_closedOrders h).2 ⟨hp.1.1, hp.2⟩
  refine OrdMap.ext_get fun k => Option.ext fun o => ?_
  refine (order_purge_iff h').trans (and_iff_left_of_imp fun ho => ?_)
  rintro ⟨hb, hclosed, hlimit, hmany⟩
  exact ((order_purge_iff h).1 ho).2 ⟨hb, hclosed, hlimit, hmany.trans (by exact_mod_cast hfewer o)⟩

end Exchanges.Cache
