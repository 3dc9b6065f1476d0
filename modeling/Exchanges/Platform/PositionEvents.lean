import Exchanges.Account.PositionWrites
import Exchanges.Lib.Monitor
import Exchanges.Platform.PositionFeed
import Exchanges.Portfolio.Atomicity

/-!
What the node announces of a position.

A position is opened, changed any number of times, and closed. The node derives these
events from position reports, by comparing a report with the cached position. A fill
changes the cached position as well, and nothing is announced then. So a position that
a fill opens is never announced as opened, and the report that follows announces a
change, or a closing, or nothing. An event with a negative quantity is not valid and is
not published either, although the position has been stored by then.

`lifecycle_announced_iff` says that the events are right exactly if no fill opens or
closes the position, and no negative quantity is involved where a report does.
-/

namespace Exchanges.Platform

open Exchanges.Lib Exchanges.Model Exchanges.Portfolio

set_option linter.unusedSectionVars false

/-! ### The events of a position -/

/-- The event that is published about a position, if this is one. -/
def positionEvent (a : AccountID) (x : PositionID) (event : ExecutionEvent) :
    Option PositionEventKind :=
  event.positionLifecycle.bind fun lifecycle =>
    if lifecycle.accountID = a ∧ lifecycle.positionID = x then some lifecycle.kind else none

def positionEvents (a : AccountID) (x : PositionID) (published : List ExecutionEvent) :
    List PositionEventKind :=
  published.filterMap (positionEvent a x)

/-- The order of events: a position that is not open can be opened, and one that is open
can change or be closed. -/
def positionMonitor : Bool → PositionEventKind → Option Bool
  | false, .opened => some true
  | true, .changed => some true
  | true, .closed => some false
  | _, _ => none

def isFlat (position : Option PositionStatusReport) : Bool :=
  isFlatPosition ((position.map (·.side)).getD .flat) ((position.map (·.quantity)).getD 0)

/-- The cached position is flat. A position that is not cached is. -/
def flatAt (n : Node) (a : AccountID) (x : PositionID) : Bool := isFlat (n.cache.position a x)

/-- What follows a filled order leaves positions and their events alone. -/
structure LeavesPositions (progress : OrderStatusReport → Prog Node Err Unit) : Prop extends
    LeavesBooks progress where
  silent : ∀ order n a x, positionEvents a x ((progress order).run n).2.published =
    positionEvents a x n.published

section

variable [DecimalPackage] (progress : OrderStatusReport → Prog Node Err Unit) (a : AccountID)
  (x : PositionID)

/-- The events of the position that a delivery adds to those published before. -/
def announced (n : Node) (d : Delivery) : List PositionEventKind :=
  (positionEvents a x (deliver progress n d).published).drop
    (positionEvents a x n.published).length

/-- A delivery is announced as an opening exactly if it takes the cached position from
flat to not flat, and as a closing exactly if it takes it from not flat to flat. -/
def AnnouncedRight (n : Node) (d : Delivery) : Prop :=
  (.opened ∈ announced progress a x n d ↔
    flatAt n a x = true ∧ flatAt (deliver progress n d) a x = false) ∧
  (.closed ∈ announced progress a x n d ↔
    flatAt n a x = false ∧ flatAt (deliver progress n d) a x = true)

/-- The events of the deliveries come in the right order, and each opening and closing
is announced when it takes place. -/
def LifecycleAnnounced (n : Node) (ds : List Delivery) : Prop :=
  ((announcements (deliver progress) (announced progress a x) n ds).foldlM positionMonitor
    false).isSome = true ∧
  MeetsEach (AnnouncedRight progress a x) (deliver progress) n ds

/-- The fill is valid, has not been applied before, and leads to a valid position. -/
def Counts (n : Node) (f : FillReport) : Prop :=
  f.WellFormed ∧ n.portfolio.hasAppliedFill f = false ∧
    (nextPosition n.cache (withDefaultSide f)).WellFormed

/-- A fill that counts leaves a flat position flat and an open one open. A valid report
that opens or closes the position has no negative quantity, and neither has the cached
position. -/
def Announceable (n : Node) : Delivery → Prop
  | .fill f => Counts n f →
      (flatAt n a x = true ↔ signedAt n a x + fillSignedQuantity f = 0)
  | .position r => r.WellFormed → flatAt n a x ≠ isFlat (some r) →
      0 ≤ r.quantity ∧ 0 ≤ ((n.cache.position a x).map (·.quantity)).getD 0

end

/-! ### Events that agree with the position -/

/-- There is at most one event, and it is one that the change of the position allows. -/
inductive Truthful : Bool → Bool → List PositionEventKind → Prop
  | silent (was is : Bool) : Truthful was is []
  | opened : Truthful true false [.opened]
  | changed : Truthful false false [.changed]
  | closed : Truthful false true [.closed]

theorem Truthful.right_iff {was is : Bool} {kinds : List PositionEventKind}
    (h : Truthful was is kinds) :
    (.opened ∈ kinds ↔ was = true ∧ is = false) ∧ (.closed ∈ kinds ↔ was = false ∧ is = true) ↔
      (was ≠ is → kinds ≠ []) := by
  cases h with
  | silent => cases was <;> cases is <;> simp
  | opened | changed | closed => simp

theorem Truthful.follows {was is : Bool} {kinds : List PositionEventKind}
    (h : Truthful was is kinds) (htold : was ≠ is → kinds ≠ []) :
    kinds.foldlM positionMonitor (!was) = some (!is) := by
  cases h with
  | silent =>
    have heq : was = is := by
      by_contra hne
      exact htold hne rfl
    rw [heq]
    rfl
  | opened | changed | closed => rfl

section Steps

variable [DecimalPackage] {progress : OrderStatusReport → Prog Node Err Unit} {n : Node}
  {a : AccountID} {x : PositionID} {r : PositionStatusReport} {f : FillReport}

theorem announced_eq {d : Delivery} {kinds : List PositionEventKind}
    (h : positionEvents a x (deliver progress n d).published =
      positionEvents a x n.published ++ kinds) : announced progress a x n d = kinds := by
  rw [announced, h, List.drop_left]

theorem announced_of_silent {d : Delivery}
    (h : positionEvents a x (deliver progress n d).published = positionEvents a x n.published) :
    announced progress a x n d = [] :=
  announced_eq (h.trans (List.append_nil _).symm)

/-! ### A report -/

/-- An event about a valid report that tells a transition which has taken place. -/
theorem validate_derived {lifecycle : PositionLifecycleEvent} (hr : r.WellFormed)
    (haccount : lifecycle.accountID = r.accountID)
    (hinstrument : lifecycle.instrumentID = r.instrumentID)
    (hposition : lifecycle.positionID = r.positionID) (hreport : lifecycle.report = some r)
    (hkind : lifecycle.validateKind = .ok ()) :
    lifecycle.validate = .ok () ↔ 0 ≤ lifecycle.quantity ∧ 0 ≤ lifecycle.previousQuantity := by
  have hset : lifecycle.kind ≠ .unset := by
    intro hunset
    rw [PositionLifecycleEvent.validateKind, hunset] at hkind
    cases hkind
  have hvalid := PositionStatusReport.validate_eq_ok.mpr hr
  simp [PositionLifecycleEvent.validate, except_seq_eq_ok, reject_eq_ok, haccount, hinstrument,
    hposition, hreport, hkind, hset, hr.accountID_ne, hr.positionID_ne, hr.instrument, hvalid]

/-- A report causes no event, or one that tells the change from the cached position to
the reported one. That event is valid if there is no negative quantity. -/
theorem newPositionLifecycleEvent_cases (hr : r.WellFormed)
    (previous : Option PositionStatusReport) :
    newPositionLifecycleEvent previous r = none ∧ isFlat previous = isFlat (some r) ∨
      ∃ lifecycle, newPositionLifecycleEvent previous r = some lifecycle ∧
        lifecycle.accountID = r.accountID ∧ lifecycle.positionID = r.positionID ∧
        Truthful (isFlat previous) (isFlat (some r)) [lifecycle.kind] ∧
        (lifecycle.validate = .ok () ↔
          0 ≤ r.quantity ∧ 0 ≤ (previous.map (·.quantity)).getD 0) := by
  unfold newPositionLifecycleEvent
  dsimp only
  cases hwas : isFlat previous <;> cases his : isFlat (some r) <;> unfold isFlat at hwas his <;>
    dsimp only [Option.map_some, Option.getD_some] at his <;> rw [hwas, his]
  · -- both are open, and the event is a change unless the two are the same
    rw [if_neg (fun h => Bool.false_ne_true h.1), if_neg Bool.false_ne_true,
      if_neg Bool.false_ne_true]
    split
    · exact .inl ⟨rfl, rfl⟩
    · refine .inr ⟨_, rfl, rfl, rfl, .changed, validate_derived hr rfl rfl rfl rfl ?_⟩
      simp [PositionLifecycleEvent.validateKind, hwas, his, reject]
  · refine .inr ⟨_, rfl, rfl, rfl, .closed, validate_derived hr rfl rfl rfl rfl ?_⟩
    simp [PositionLifecycleEvent.validateKind, hwas, his, reject]
  · refine .inr ⟨_, rfl, rfl, rfl, .opened, validate_derived hr rfl rfl rfl rfl ?_⟩
    simp [PositionLifecycleEvent.validateKind, hwas, his, reject]
  · exact .inl ⟨rfl, rfl⟩

theorem validate_ofLifecycle (lifecycle : PositionLifecycleEvent) :
    ({ positionLifecycle := some lifecycle } : ExecutionEvent).validate = lifecycle.validate := by
  unfold ExecutionEvent.validate
  cases hvalid : lifecycle.validate with
  | ok u => simp [ExecutionEvent.checkPayload, ExecutionEvent.payloadCount, hvalid, reject]
  | error err =>
    simp only [ExecutionEvent.checkPayload, hvalid]
    rfl

/-- An event is published if it is valid. -/
theorem published_applyLifecycle (lifecycle : Option PositionLifecycleEvent) (n : Node) :
    ((Node.applyLifecycle lifecycle).run n).2.published = n.published ++
      (lifecycle.filter (·.validate = .ok ())).toList.map
        fun lifecycle => { positionLifecycle := some lifecycle } := by
  cases lifecycle with
  | none => exact (List.append_nil _).symm
  | some lifecycle =>
    have happly : (Account.apply { positionLifecycle := some lifecycle }).run n.cache =
        (lifecycle.validate, n.cache) := by
      rw [Account.apply, validate_ofLifecycle]
      cases lifecycle.validate <;> rfl
    cases hvalid : lifecycle.validate with
    | ok u =>
      rw [hvalid] at happly
      rw [Node.applyLifecycle, Prog.run_bind_ok (Node.run_onCache happly)]
      simp [Node.publish, Option.filter, hvalid]
    | error err =>
      rw [hvalid] at happly
      rw [Node.applyLifecycle, Prog.run_bind_error (Node.run_onCache happly)]
      simp [Option.filter, hvalid]

/-- After a valid report comes the event that it causes. -/
theorem published_deliver_position (hr : r.WellFormed) :
    (deliver progress n (.position r)).published = n.published ++ .ofPosition r ::
      ((newPositionLifecycleEvent (n.cache.position r.accountID r.positionID) r).filter
        (·.validate = .ok ())).toList.map
          fun lifecycle => { positionLifecycle := some lifecycle } := by
  have hevent : (Node.applyEvent (.ofPosition r)).run n = (.ok (), { n with
      portfolio := { n.portfolio with cache := n.cache.storePosition r },
      published := n.published ++ [.ofPosition r] }) := by
    rw [Node.applyEvent, Prog.run_bind_ok (Node.run_onCache (run_apply_ofPosition hr))]
    rfl
  rw [deliver, Delivery.event, Node.applyAndPublish, Prog.run_get_bind, Prog.run_bind_ok hevent]
  exact (published_applyLifecycle _ _).trans (List.append_assoc ..)

/-- A report that is not valid is refused. -/
theorem deliver_position_invalid (hr : ¬ r.WellFormed) :
    deliver progress n (.position r) = n := by
  have hvalid : ∃ err, (ExecutionEvent.ofPosition r).validate = .error err := by
    cases h : r.validate with
    | ok u => exact absurd (PositionStatusReport.validate_eq_ok.mp h) hr
    | error err =>
      refine ⟨err, ?_⟩
      simp only [ExecutionEvent.validate, ExecutionEvent.ofPosition,
        ExecutionEvent.checkPayload, h]
      rfl
  obtain ⟨err, hvalid⟩ := hvalid
  have happly : (Account.apply (.ofPosition r)).run n.cache = (.error err, n.cache) := by
    rw [Account.apply, Prog.run_bind_error (by rw [Prog.run_lift, hvalid])]
  rw [deliver, Delivery.event, Node.applyAndPublish, Prog.run_get_bind, Node.applyEvent,
    Prog.run_bind_error (Prog.run_bind_error (Node.run_onCache happly))]
  rfl

theorem flatAt_deliver_position (hprogress : LeavesPositions progress) (hr : r.WellFormed) :
    flatAt (deliver progress n (.position r)) r.accountID r.positionID = isFlat (some r) := by
  have hbooks := congrArg Books.positions
    (books_deliver_position (n := n) hprogress.toLeavesBooks hr)
  have hposition : (deliver progress n (.position r)).cache.position r.accountID r.positionID =
      some r := by
    change (books (deliver progress n (.position r))).positions.get _ = some r
    rw [hbooks, OrdMap.get_put_self]
  rw [flatAt, hposition]

variable (progress) in
/-- What is announced after a valid report, and when it is. -/
theorem announced_position (hr : r.WellFormed) :
    (isFlat (n.cache.position r.accountID r.positionID) = isFlat (some r) ∧
        announced progress r.accountID r.positionID n (.position r) = []) ∨
      ∃ kind, Truthful (isFlat (n.cache.position r.accountID r.positionID)) (isFlat (some r))
          [kind] ∧
        announced progress r.accountID r.positionID n (.position r) =
          if 0 ≤ r.quantity ∧
              0 ≤ ((n.cache.position r.accountID r.positionID).map (·.quantity)).getD 0
          then [kind] else [] := by
  have hpublished : (deliver progress n (.position r)).published = _ :=
    published_deliver_position hr
  obtain ⟨hnone, hflat⟩ | ⟨lifecycle, hsome, haccount, hposition, hkind, hvalid⟩ :=
    newPositionLifecycleEvent_cases hr (n.cache.position r.accountID r.positionID)
  · rw [hnone] at hpublished
    refine .inl ⟨hflat, announced_of_silent ?_⟩
    rw [hpublished, positionEvents, List.filterMap_append]
    exact List.append_nil _
  · rw [hsome] at hpublished
    refine .inr ⟨lifecycle.kind, hkind, announced_eq ?_⟩
    rw [hpublished, positionEvents, List.filterMap_append]
    refine congrArg (List.filterMap _ n.published ++ ·) ?_
    by_cases hok : lifecycle.validate = .ok ()
    · rw [if_pos (hvalid.mp hok)]
      simp [List.filterMap_cons, positionEvent, ExecutionEvent.ofPosition, Option.filter, hok,
        haccount, hposition]
    · rw [if_neg fun h => hok (hvalid.mpr h)]
      simp [positionEvent, ExecutionEvent.ofPosition, Option.filter, hok]

/-! ### A fill -/

/-- A fill causes no event. -/
theorem announced_fill (hprogress : LeavesPositions progress) :
    announced progress a x n (.fill f) = [] := by
  refine announced_of_silent ?_
  have hevent : Prog.Keeps (fun m : Node => positionEvents a x m.published =
      positionEvents a x n.published) (Node.applyEvent (.ofFill f)) := by
    refine Prog.Keeps.bind (fun m hm => hm) fun _ => Prog.Keeps.bind (fun m hm => hm) fun _ =>
      .modify fun m hm => ?_
    rw [positionEvents, List.filterMap_append]
    exact (List.append_nil _).trans hm
  have hrun : Prog.Keeps (fun m : Node => positionEvents a x m.published =
      positionEvents a x n.published) (Node.applyAndPublish progress (.ofFill f)) := by
    refine Prog.Keeps.get.bind fun m => hevent.bind fun _ => Prog.Keeps.get.bind fun m' => ?_
    cases Node.progressed m'.cache (.ofFill f) with
    | none => exact .pure ()
    | some order =>
      exact Prog.Keeps.bind (fun k hk => (hprogress.silent order k a x).trans hk)
        fun _ => .pure ()
  exact hrun n rfl

/-- The portfolio stores no position for a fill that does not count. -/
theorem positions_applyFill_refused {p : Portfolio} (h : ¬ (f.WellFormed ∧
    p.hasAppliedFill f = false ∧ (nextPosition p.cache (withDefaultSide f)).WellFormed)) :
    ((Portfolio.applyFill f).run p).2.cache.positions = p.cache.positions := by
  by_cases hf : f.WellFormed
  · cases hnew : p.hasAppliedFill f with
    | true => rw [run_applyFill_applied hf hnew]
    | false =>
      have hposition : ¬ (nextPosition p.cache (withDefaultSide f)).WellFormed :=
        fun hposition => h ⟨hf, hnew, hposition⟩
      rw [← hasAppliedFill_withDefaultSide] at hnew
      obtain ⟨c, hsame, hrun⟩ := run_applyFillAccounting_new (withDefaultSide_wellFormed hf)
        hnew (p.cache.positionByInstrument (withDefaultSide f).accountID
          (withDefaultSide f).instrumentID) (nextPosition p.cache (withDefaultSide f))
      obtain ⟨err, herror⟩ := run_putPosition_error
        (p := { p with cache := c }.entered (withDefaultSide f) _) hposition
      rw [run_applyFill hf, hrun, Prog.run_bind_error herror, (entered_fields _ _ _).2.2]
      exact hsame.positions
  · obtain ⟨err, hrun⟩ := run_applyFill_invalid (p := p) hf
    rw [hrun]

/-- A fill that does not count leaves the positions alone. -/
theorem positions_deliver_not_counts (hprogress : LeavesPositions progress)
    (h : ¬ Counts n f) :
    (books (deliver progress n (.fill f))).positions = (books n).positions := by
  have happly : ((Account.apply (.ofFill f)).run n.cache).2.positions = n.cache.positions :=
    (Account.keepsPositions_apply_fill f n.cache ⟨rfl, rfl⟩).1
  rw [deliver, books_applyAndPublish hprogress.toLeavesBooks, Delivery.event, Node.applyEvent]
  rcases hrun : (Account.apply (.ofFill f)).run n.cache with ⟨result, c⟩
  rw [hrun] at happly
  cases result with
  | error err =>
    rw [Prog.run_bind_error (Node.run_onCache hrun)]
    exact happly
  | ok =>
    have hfill := positions_applyFill_refused (p := { n.portfolio with cache := c }) (f := f)
      fun hc => h ⟨hc.1, hc.2.1, by rw [← nextPosition_congr happly]; exact hc.2.2⟩
    rw [Prog.run_bind_ok (Node.run_onCache hrun)]
    dsimp only [ExecutionEvent.ofFill]
    rcases hrun' : (Portfolio.applyFill f).run { n.portfolio with cache := c } with ⟨result, p⟩
    rw [hrun'] at hfill
    cases result with
    | ok =>
      rw [Prog.run_bind_ok (Node.run_onPortfolio hrun')]
      exact hfill.trans happly
    | error err =>
      rw [Prog.run_bind_error (Node.run_onPortfolio hrun')]
      exact hfill.trans happly

/-- A fill that counts makes the position flat exactly if it takes away what there is. -/
theorem flatAt_deliver_counts (hprogress : LeavesPositions progress)
    (hn : Cache.Reachable n.cache) (h : Counts n f) :
    flatAt (deliver progress n (.fill f)) f.accountID (fillPositionID f) = true ↔
      signedAt n f.accountID (fillPositionID f) + fillSignedQuantity f = 0 := by
  obtain ⟨hf, hnew, hposition⟩ := h
  have hbooks := congrArg Books.positions
    (books_deliver_new hprogress.toLeavesBooks hn hf hnew hposition)
  have hget : (deliver progress n (.fill f)).cache.position f.accountID (fillPositionID f) =
      some (nextPosition n.cache (withDefaultSide f)) := by
    change (books (deliver progress n (.fill f))).positions.get _ = _
    rw [hbooks, OrdMap.get_put_self]
  obtain ⟨haccount, -, hid, -⟩ := withDefaultSide_ids f
  have hnet := isNet_nextPosition (c := n.cache) (withDefaultSide_wellFormed hf).quantity_pos
  rw [haccount, hid, fillSignedQuantity_withDefaultSide] at hnet
  change IsNet _ (signedAt n f.accountID (fillPositionID f) + fillSignedQuantity f) at hnet
  rw [flatAt, hget]
  simp only [isFlat, isFlatPosition, Option.map_some, Option.getD_some, hnet.1, hnet.2,
    decide_eq_true_eq, abs_eq_zero, sideFromSigned_eq_flat]
  constructor
  · rintro (hunset | hzero | hzero)
    · unfold sideFromSigned at hunset
      split_ifs at hunset
    · exact hzero
    · exact hzero
  · exact fun hzero => .inr (.inl hzero)

/-! ### Sequences of deliveries -/

/-- A delivery is announced by at most one event, which agrees with what it does. -/
theorem truthful_deliver (hprogress : LeavesPositions progress) (hn : Cache.Reachable n.cache)
    {d : Delivery} (hd : d.accountID = a ∧ d.positionID = x) :
    Truthful (flatAt n a x) (flatAt (deliver progress n d) a x) (announced progress a x n d) ∧
      (Announceable a x n d ↔ (flatAt n a x ≠ flatAt (deliver progress n d) a x →
        announced progress a x n d ≠ [])) := by
  obtain ⟨rfl, rfl⟩ := hd
  cases d with
  | fill f =>
    dsimp only [Delivery.accountID, Delivery.positionID]
    rw [announced_fill hprogress]
    refine ⟨.silent _ _, ?_⟩
    by_cases h : Counts n f
    · rw [Announceable, ← flatAt_deliver_counts hprogress hn h, ← Bool.eq_iff_iff]
      exact ⟨fun heq hne => absurd (heq h) hne, fun htold _ => not_not.mp fun hne => htold hne rfl⟩
    · have hpositions := positions_deliver_not_counts hprogress h
      have hflat : flatAt (deliver progress n (.fill f)) f.accountID (fillPositionID f) =
          flatAt n f.accountID (fillPositionID f) :=
        congrArg isFlat (congrArg (OrdMap.get · (f.accountID, fillPositionID f)) hpositions)
      rw [hflat]
      exact iff_of_true (fun hcounts => absurd hcounts h) fun hne => absurd rfl hne
  | position r =>
    dsimp only [Delivery.accountID, Delivery.positionID]
    by_cases hr : r.WellFormed
    · rw [flatAt_deliver_position hprogress hr]
      obtain ⟨hflat, hannounced⟩ | ⟨kind, hkind, hannounced⟩ :=
        announced_position progress (n := n) hr
      · rw [hannounced]
        exact ⟨.silent _ _, iff_of_true (fun _ hne => absurd hflat hne) fun hne =>
          absurd hflat hne⟩
      · rw [hannounced]
        split
        · next hquantities =>
            exact ⟨hkind, iff_of_true (fun _ _ => hquantities) fun _ => List.cons_ne_nil _ _⟩
        · next hquantities =>
            refine ⟨.silent _ _, fun h hne => absurd (h hr hne) hquantities, fun htold _ hne => ?_⟩
            exact absurd rfl (htold hne)
    · rw [deliver_position_invalid hr, announced_of_silent (by rw [deliver_position_invalid hr])]
      exact ⟨.silent _ _, iff_of_true (fun h => absurd h hr) fun hne => absurd rfl hne⟩

variable {ds : List Delivery}

/-- The events of a position that is flat to begin with form openings, changes and
closings in turn, each opening and closing when the cached position is opened or closed,
exactly if every delivery is one that the node can announce. -/
theorem lifecycle_announced_iff (hprogress : LeavesPositions progress)
    (hn : Cache.Reachable n.cache) (hflat : flatAt n a x = true)
    (hds : ∀ d ∈ ds, d.accountID = a ∧ d.positionID = x) :
    LifecycleAnnounced progress a x n ds ↔
      MeetsEach (Announceable a x) (deliver progress) n ds := by
  have hstep (m : Node) (d : Delivery) (hm : Cache.Reachable m.cache)
      (_ : d.accountID = a ∧ d.positionID = x) :
      Cache.Reachable (deliver progress m d).cache :=
    reachable_deliver hprogress.toLeavesBooks hm
  have hsame : MeetsEach (AnnouncedRight progress a x) (deliver progress) n ds ↔
      MeetsEach (Announceable a x) (deliver progress) n ds := by
    refine meetsEach_congr hstep (fun m d hm hd => ?_) hn hds
    obtain ⟨htruthful, hannounceable⟩ := truthful_deliver hprogress hm hd
    exact htruthful.right_iff.trans hannounceable.symm
  rw [← hsame]
  refine ⟨And.right, fun hright => ⟨?_, hright⟩⟩
  -- the monitor believes that the position is open exactly if it is
  have hfollows : (announcements (deliver progress) (announced progress a x) n ds).foldlM
      positionMonitor (!flatAt n a x) = some (!flatAt (ds.foldl (deliver progress) n) a x) := by
    refine foldlM_announcements hstep (fun m : Node => !flatAt m a x)
      (fun m d hm hd hright => ?_) hn hds hright
    obtain ⟨htruthful, -⟩ := truthful_deliver hprogress hm hd
    exact htruthful.follows (htruthful.right_iff.mp hright)
  rw [hflat, Bool.not_true] at hfollows
  rw [hfollows]
  rfl

end Steps

/-! ### A position of five -/

theorem leavesPositions_quiet : LeavesPositions fun _ => pure () :=
  ⟨⟨fun _ _ => rfl, fun _ => .pure ()⟩, fun _ _ _ _ => rfl⟩

/-- The position is opened and closed by reports. -/
theorem lifecycle_announced_iff_reports :
    @LifecycleAnnounced exactDecimals (fun _ => pure ()) "acct" "BTC-USDT-PERP.BINANCE" {}
        [.position sampleReport, .position { sampleReport with side := .flat, quantity := 0 }] ↔
      MeetsEach (@Announceable exactDecimals "acct" "BTC-USDT-PERP.BINANCE")
        (@deliver exactDecimals fun _ => pure ()) {}
        [.position sampleReport, .position { sampleReport with side := .flat, quantity := 0 }] :=
  @lifecycle_announced_iff exactDecimals _ _ _ _ _ leavesPositions_quiet .new rfl (by
    intro d hd
    simp only [List.mem_cons, List.not_mem_nil, or_false] at hd
    rcases hd with rfl | rfl <;> exact ⟨rfl, rfl⟩)

/-- A fill opens the position and nothing is announced. Then a report flattens it, and a
position that was never announced as opened is announced as closed. -/
theorem closed_before_opened :
    flatAt {} "acct" "BTC-USDT-PERP.BINANCE" = true ∧
      flatAt (@deliver exactDecimals (fun _ => pure ()) {} (.fill sampleFill)) "acct"
        "BTC-USDT-PERP.BINANCE" = false ∧
      announcements (@deliver exactDecimals fun _ => pure ())
        (@announced exactDecimals (fun _ => pure ()) "acct" "BTC-USDT-PERP.BINANCE") {}
        [.fill sampleFill, .position { sampleReport with side := .flat, quantity := 0 }] =
          [.closed] ∧
      ¬ @LifecycleAnnounced exactDecimals (fun _ => pure ()) "acct" "BTC-USDT-PERP.BINANCE" {}
        [.fill sampleFill, .position { sampleReport with side := .flat, quantity := 0 }] := by
  have hannouncements : announcements (@deliver exactDecimals fun _ => pure ())
      (@announced exactDecimals (fun _ => pure ()) "acct" "BTC-USDT-PERP.BINANCE") {}
      [.fill sampleFill, .position { sampleReport with side := .flat, quantity := 0 }] =
        [.closed] := by decide +kernel
  refine ⟨by decide +kernel, by decide +kernel, hannouncements, fun h => ?_⟩
  have haccepted := h.1
  rw [hannouncements] at haccepted
  cases haccepted

end Exchanges.Platform
