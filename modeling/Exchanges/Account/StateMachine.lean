import Exchanges.Model.Order

/-!
The order state machine: which status an order may move to.
-/

namespace Exchanges.Account

open Exchanges.Model OrderStatus

/-- For each status, the statuses a report may name and the status the order
then takes. The two differ in one entry: a submission seen while an update is
pending leaves the update pending. -/
def orderStateTransitions : OrderStatus → List (OrderStatus × OrderStatus)
  | initialized =>
    [(denied, denied), (emulated, emulated), (released, released), (submitted, submitted),
      (rejected, rejected), (accepted, accepted), (canceled, canceled), (expired, expired),
      (triggered, triggered)]
  | emulated => [(canceled, canceled), (expired, expired), (released, released)]
  | released => [(denied, denied), (submitted, submitted), (canceled, canceled)]
  | submitted =>
    [(pendingUpdate, pendingUpdate), (pendingCancel, pendingCancel), (rejected, rejected),
      (canceled, canceled), (accepted, accepted), (partiallyFilled, partiallyFilled),
      (filled, filled)]
  | accepted =>
    [(rejected, rejected), (triggered, triggered), (pendingUpdate, pendingUpdate),
      (pendingCancel, pendingCancel), (partiallyFilled, partiallyFilled), (filled, filled),
      (canceled, canceled), (expired, expired)]
  | canceled => [(partiallyFilled, partiallyFilled), (filled, filled)]
  | triggered =>
    [(rejected, rejected), (pendingUpdate, pendingUpdate), (pendingCancel, pendingCancel),
      (partiallyFilled, partiallyFilled), (filled, filled), (canceled, canceled),
      (expired, expired)]
  | pendingUpdate =>
    [(rejected, rejected), (accepted, accepted), (canceled, canceled), (expired, expired),
      (triggered, triggered), (submitted, pendingUpdate), (pendingUpdate, pendingUpdate),
      (pendingCancel, pendingCancel), (partiallyFilled, partiallyFilled), (filled, filled)]
  | pendingCancel =>
    [(rejected, rejected), (pendingCancel, pendingCancel), (canceled, canceled),
      (expired, expired), (accepted, accepted), (partiallyFilled, partiallyFilled),
      (filled, filled)]
  | partiallyFilled =>
    [(pendingUpdate, pendingUpdate), (pendingCancel, pendingCancel), (filled, filled),
      (canceled, canceled), (expired, expired), (partiallyFilled, partiallyFilled)]
  | _ => []

def nextOrderStatus (source target : OrderStatus) : Option OrderStatus :=
  if source = target then some target
  else if target = unset then none
  else if source = unset then some target
  else (orderStateTransitions source).lookup target

def canOrderTransition (source target : OrderStatus) : Bool :=
  (nextOrderStatus source target).isSome

/-- A change of status is in the table, unless there is no change or no status
before. -/
theorem mem_orderStateTransitions {source target next : OrderStatus}
    (h : nextOrderStatus source target = some next) :
    source = next ∨ source = unset ∨ (target, next) ∈ orderStateTransitions source := by
  unfold nextOrderStatus at h
  split_ifs at h with heq hunset
  · cases h
    exact .inl heq
  · exact .inr (.inl ‹_›)
  · obtain ⟨before, after, happend, -⟩ := List.lookup_eq_some_iff.mp h
    exact .inr (.inr (by simp [happend]))

/-- An order takes the status that is asked for, but for the one entry. -/
theorem nextOrderStatus_eq {source target next : OrderStatus}
    (h : nextOrderStatus source target = some next) :
    next = target ∨ target = submitted ∧ next = pendingUpdate := by
  have hentry : ∀ entry ∈ orderStateTransitions source,
      entry.2 = entry.1 ∨ entry.1 = submitted ∧ entry.2 = pendingUpdate := by
    cases source <;> simp [orderStateTransitions]
  unfold nextOrderStatus at h
  split_ifs at h
  · exact .inl (Option.some.inj h).symm
  · exact .inl (Option.some.inj h).symm
  · obtain ⟨before, after, happend, -⟩ := List.lookup_eq_some_iff.mp h
    exact hentry (target, next) (by simp [happend])

theorem nextOrderStatus_ne_unset {source target next : OrderStatus} (ht : target ≠ unset)
    (h : nextOrderStatus source target = some next) : next ≠ unset := by
  obtain rfl | ⟨-, rfl⟩ := nextOrderStatus_eq h
  · exact ht
  · decide

/-- The statuses that the table lets become partially filled. -/
def fillableStatuses : List OrderStatus :=
  [submitted, accepted, canceled, triggered, pendingUpdate, pendingCancel, partiallyFilled]

theorem fill_allowed {source next : OrderStatus} (hnext : next = partiallyFilled ∨ next = filled)
    (hs : source ≠ unset) : (∃ target, nextOrderStatus source target = some next) ↔
      source ∈ fillableStatuses ∨ source = next := by
  constructor
  · rintro ⟨target, h⟩
    obtain rfl | hunset | hmem := mem_orderStateTransitions h
    · exact .inr rfl
    · exact absurd hunset hs
    · left
      rcases hnext with rfl | rfl <;>
        cases source <;> simp [orderStateTransitions, fillableStatuses] at hmem ⊢
  · rintro (hmem | rfl)
    · refine ⟨next, ?_⟩
      simp only [fillableStatuses, List.mem_cons, List.not_mem_nil, or_false] at hmem
      rcases hnext with rfl | rfl <;>
        rcases hmem with rfl | rfl | rfl | rfl | rfl | rfl | rfl <;> rfl
    · exact ⟨source, if_pos rfl⟩

end Exchanges.Account
