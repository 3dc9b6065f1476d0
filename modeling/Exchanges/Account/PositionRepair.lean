import Exchanges.Account.Repair
import Exchanges.Lib.Budget

/-!
Repairing the cached positions of an instrument, with a limit on the attempts.

`repairPositionReports` compares each cached position with the venue's report
about it. The reconciler counts, for each position, the repairs it has generated
since the position was last found in agreement; at the limit a discrepancy is
listed as unresolved instead. A cache stores one position under an id, so a call
meets a position at most once, and seen from one position a sequence of calls is
a run of `Lib.Budget`, whatever happens to the other positions.
-/

namespace Exchanges.Account

open Exchanges.Lib Exchanges.Model Exchanges.Cache

/-! ### The program -/

abbrev PositionRepairKey := (AccountID × InstrumentID) × PositionID

def positionRepairKeyFor (position : PositionStatusReport) : PositionRepairKey :=
  ((position.accountID, position.instrumentID), position.positionID)

structure PositionRepairPolicy where
  maxAttempts : ℤ := 0
  now : Time := 0

inductive DiscrepancyKind where
  | sideMismatch
  | quantityMismatch
  | reportMismatch
  | missingFromVenue
  deriving DecidableEq, Repr

def positionDiscrepancyKind (cached venue : PositionStatusReport) : DiscrepancyKind :=
  if cached.side ≠ venue.side then .sideMismatch
  else if cached.quantity ≠ venue.quantity then .quantityMismatch
  else .reportMismatch

structure PositionRepairDiscrepancy where
  kind : DiscrepancyKind
  accountID : AccountID
  instrumentID : InstrumentID
  positionID : PositionID
  attempts : Nat
  reason : String
  deriving DecidableEq, Repr

def unresolvedDiscrepancy (cached : PositionStatusReport) (kind : DiscrepancyKind)
    (attempts : Nat) : PositionRepairDiscrepancy where
  kind := kind
  accountID := cached.accountID
  instrumentID := cached.instrumentID
  positionID := cached.positionID
  attempts := attempts
  reason := "position discrepancy unresolved after " ++ toString attempts ++ " repair attempts"

def PositionRepairDiscrepancy.key (d : PositionRepairDiscrepancy) : PositionRepairKey :=
  ((d.accountID, d.instrumentID), d.positionID)

/-- The attempts that the reconciler has counted, and the result of the call so
far. Each repair is kept with the key of the cached position it is for, which
the code does not write down. -/
structure PositionRepairs where
  attempts : OrdMap PositionRepairKey Nat := ∅
  generated : List (PositionRepairKey × PositionStatusReport) := []
  unresolved : List PositionRepairDiscrepancy := []

namespace PositionRepairs

def attemptsFor (s : PositionRepairs) (key : PositionRepairKey) : Nat :=
  (s.attempts.get key).getD 0

def clearPositionRepairAttempt (s : PositionRepairs) (key : PositionRepairKey) :
    PositionRepairs :=
  { s with attempts := s.attempts.delete key }

def appendPositionRepair (s : PositionRepairs) (cached repair : PositionStatusReport)
    (kind : DiscrepancyKind) (maxAttempts : ℤ) : PositionRepairs :=
  let key := positionRepairKeyFor cached
  let attempts := s.attemptsFor key
  if 0 < maxAttempts ∧ maxAttempts ≤ attempts then
    { s with unresolved := s.unresolved ++ [unresolvedDiscrepancy cached kind attempts] }
  else
    { s with
      attempts := s.attempts.put key (attempts + 1)
      generated := s.generated ++ [(key, repair)] }

/-- One position of the loop. -/
def repairPosition (now : Time) (accountID : AccountID) (instrumentID : InstrumentID)
    (reports : List PositionStatusReport) (maxAttempts : ℤ) (s : PositionRepairs)
    (position : PositionStatusReport) : PositionRepairs :=
  if position.accountID ≠ accountID then s
  else
    match matchPosition reports accountID instrumentID position with
    | some report =>
      if positionsMatch position report then
        s.clearPositionRepairAttempt (positionRepairKeyFor position)
      else s.appendPositionRepair position report (positionDiscrepancyKind position report)
        maxAttempts
    | none =>
      if position.side = .flat ∨ position.quantity = 0 then
        s.clearPositionRepairAttempt (positionRepairKeyFor position)
      else
        s.appendPositionRepair position
          { position with side := .flat, quantity := 0, timestamp := now }
          .missingFromVenue maxAttempts

end PositionRepairs

/-- `clock` is what the wall clock shows. -/
def repairPositionReports (clock : Time) (accountID : AccountID) (instrumentID : InstrumentID)
    (reports : List PositionStatusReport) (policy : PositionRepairPolicy)
    (attempts : OrdMap PositionRepairKey Nat) (c : Cache) : Except Err PositionRepairs := do
  reject (accountID = "") (invalidOrder "account id is required")
  instrumentID.validate
  let now := if policy.now = 0 then clock else policy.now
  return (c.positionsForInstrument instrumentID).foldl
    (PositionRepairs.repairPosition now accountID instrumentID reports policy.maxAttempts)
    { attempts := attempts }

/-- A call that fails changes no attempts and generates nothing. -/
def repairsOf (attempts : OrdMap PositionRepairKey Nat) :
    Except Err PositionRepairs → PositionRepairs
  | .ok repairs => repairs
  | .error _ => { attempts := attempts }

/-! ### One position of the loop -/

/-- The cached position is as the venue reports it: matched by a report with the
same side and quantity, or flat and not reported. -/
def agreesWithVenue (reports : List PositionStatusReport) (accountID : AccountID)
    (instrumentID : InstrumentID) (position : PositionStatusReport) : Bool :=
  match matchPosition reports accountID instrumentID position with
  | some report => positionsMatch position report
  | none => decide (position.side = .flat ∨ position.quantity = 0)

namespace PositionRepairs

variable {s : PositionRepairs} {p : PositionStatusReport} {key : PositionRepairKey}
  {now : Time} {a : AccountID} {inst : InstrumentID} {reports : List PositionStatusReport}
  {maxAttempts : ℤ}

/-- The number of repairs generated for a position. -/
def generatedFor (s : PositionRepairs) (key : PositionRepairKey) : Nat :=
  s.generated.countP fun entry => entry.1 = key

/-- The discrepancies listed for a position. -/
def unresolvedFor (s : PositionRepairs) (key : PositionRepairKey) :
    List PositionRepairDiscrepancy :=
  s.unresolved.filter fun d => d.key = key

/-- All that concerns one position. -/
def seenFrom (key : PositionRepairKey) (s : PositionRepairs) :
    Nat × Nat × List PositionRepairDiscrepancy :=
  (s.attemptsFor key, s.generatedFor key, s.unresolvedFor key)

theorem seenFrom_clear_of_ne {other : PositionRepairKey} (h : key ≠ other) :
    seenFrom key (s.clearPositionRepairAttempt other) = seenFrom key s := by
  have hget : (s.attempts.delete other).get key = s.attempts.get key :=
    OrdMap.get_delete_of_ne _ h
  simp only [seenFrom, attemptsFor, clearPositionRepairAttempt, hget]
  rfl

theorem seenFrom_clear_self :
    seenFrom key (s.clearPositionRepairAttempt key) =
      (0, s.generatedFor key, s.unresolvedFor key) := by
  have hget : (s.attempts.delete key).get key = none := OrdMap.get_delete_self _ key
  simp only [seenFrom, attemptsFor, clearPositionRepairAttempt, hget]
  rfl

variable {kind : DiscrepancyKind} {repair : PositionStatusReport}

theorem seenFrom_append_of_ne (h : key ≠ positionRepairKeyFor p) :
    seenFrom key (s.appendPositionRepair p repair kind maxAttempts) = seenFrom key s := by
  unfold appendPositionRepair
  dsimp only
  split
  · simp only [seenFrom, attemptsFor, generatedFor, unresolvedFor, List.filter_append]
    rw [List.filter_cons_of_neg, List.filter_nil, List.append_nil]
    rw [decide_eq_true_eq]
    exact h.symm
  · simp only [seenFrom, attemptsFor, generatedFor, unresolvedFor, List.countP_append]
    rw [show ∀ n, (s.attempts.put (positionRepairKeyFor p) n).get key = s.attempts.get key from
      fun n => OrdMap.get_put_of_ne _ h n, List.countP_cons_of_neg (by simpa using h.symm),
      List.countP_nil, Nat.add_zero]

/-- A position leaves alone what concerns the others, and one of another account
leaves alone everything. -/
theorem seenFrom_repairPosition_of_ne (h : p.accountID = a → key ≠ positionRepairKeyFor p) :
    seenFrom key (s.repairPosition now a inst reports maxAttempts p) = seenFrom key s := by
  unfold repairPosition
  split
  · rfl
  · next haccount =>
    have h := h (not_not.1 haccount)
    split
    · split
      · exact seenFrom_clear_of_ne h
      · exact seenFrom_append_of_ne h
    · split
      · exact seenFrom_clear_of_ne h
      · exact seenFrom_append_of_ne h

theorem appendPositionRepair_granted
    (h : 0 < maxAttempts → (s.attemptsFor (positionRepairKeyFor p) : ℤ) < maxAttempts) :
    s.appendPositionRepair p repair kind maxAttempts =
      { s with
        attempts := s.attempts.put (positionRepairKeyFor p)
          (s.attemptsFor (positionRepairKeyFor p) + 1)
        generated := s.generated ++ [(positionRepairKeyFor p, repair)] } :=
  if_neg fun hrefused => absurd (h hrefused.1) (not_lt.2 hrefused.2)

theorem seenFrom_append_granted
    (h : 0 < maxAttempts → (s.attemptsFor (positionRepairKeyFor p) : ℤ) < maxAttempts) :
    seenFrom (positionRepairKeyFor p) (s.appendPositionRepair p repair kind maxAttempts) =
      (s.attemptsFor (positionRepairKeyFor p) + 1, s.generatedFor (positionRepairKeyFor p) + 1,
        s.unresolvedFor (positionRepairKeyFor p)) := by
  rw [appendPositionRepair_granted h]
  simp only [seenFrom, attemptsFor, generatedFor, unresolvedFor, OrdMap.get_put_self,
    Option.getD_some, List.countP_append]
  rw [List.countP_cons_of_pos (by simp), List.countP_nil]

theorem seenFrom_append_refused
    (h : 0 < maxAttempts ∧ maxAttempts ≤ s.attemptsFor (positionRepairKeyFor p)) :
    seenFrom (positionRepairKeyFor p) (s.appendPositionRepair p repair kind maxAttempts) =
      (s.attemptsFor (positionRepairKeyFor p), s.generatedFor (positionRepairKeyFor p),
        s.unresolvedFor (positionRepairKeyFor p) ++
          [unresolvedDiscrepancy p kind (s.attemptsFor (positionRepairKeyFor p))]) := by
  unfold appendPositionRepair
  dsimp only
  rw [if_pos h]
  simp only [seenFrom, attemptsFor, generatedFor, unresolvedFor, List.filter_append]
  rw [List.filter_cons_of_pos, List.filter_nil]
  rw [decide_eq_true_eq]
  rfl

/-- What kind of disagreement there is. -/
def discrepancyKind (reports : List PositionStatusReport) (accountID : AccountID)
    (instrumentID : InstrumentID) (position : PositionStatusReport) : DiscrepancyKind :=
  match matchPosition reports accountID instrumentID position with
  | some report => positionDiscrepancyKind position report
  | none => .missingFromVenue

/-- A position of the account is cleared, or gets the report that repairs it. -/
theorem repairPosition_eq (haccount : p.accountID = a) :
    s.repairPosition now a inst reports maxAttempts p =
      match positionRepair now reports a inst p with
      | none => s.clearPositionRepairAttempt (positionRepairKeyFor p)
      | some repair => s.appendPositionRepair p repair (discrepancyKind reports a inst p)
          maxAttempts := by
  unfold repairPosition positionRepair discrepancyKind
  rw [if_neg (not_not.2 haccount), if_neg (not_not.2 haccount)]
  cases matchPosition reports a inst p with
  | some report =>
    dsimp only
    by_cases hmatch : positionsMatch p report = true
    · rw [if_pos hmatch, if_pos hmatch]
    · rw [if_neg hmatch, if_neg hmatch]
  | none =>
    dsimp only
    by_cases hflat : p.side = .flat ∨ p.quantity = 0
    · rw [if_pos hflat, if_pos hflat]
    · rw [if_neg hflat, if_neg hflat]

end PositionRepairs

/-- Nothing is to be repaired exactly if there is agreement. -/
theorem positionRepair_eq_none_iff {now : Time} {reports : List PositionStatusReport}
    {a : AccountID} {inst : InstrumentID} {p : PositionStatusReport} (haccount : p.accountID = a) :
    positionRepair now reports a inst p = none ↔ agreesWithVenue reports a inst p = true := by
  unfold positionRepair agreesWithVenue
  rw [if_neg (not_not.2 haccount)]
  cases matchPosition reports a inst p with
  | some report =>
    dsimp only
    split
    · next hmatch => simp [hmatch]
    · next hmatch => simp [hmatch]
  | none =>
    dsimp only
    split
    · next hflat => simp [hflat]
    · next hflat => simp [hflat]

/-! ### A call, seen from one position -/

theorem mem_positionsForInstrument {c : Cache} (hc : Reachable c) {inst : InstrumentID}
    {p : PositionStatusReport} : p ∈ c.positionsForInstrument inst ↔
      c.position p.accountID p.positionID = some p ∧ p.instrumentID = inst := by
  rw [positionsForInstrument, List.mem_insertionSort, List.mem_filter, List.mem_map,
    decide_eq_true_eq]
  refine and_congr_left fun _ => ⟨?_, fun hget => ⟨_, OrdMap.mem_entries.2 hget, rfl⟩⟩
  rintro ⟨⟨⟨b, i⟩, q⟩, hentry, rfl⟩
  have hget := OrdMap.mem_entries.1 hentry
  obtain ⟨rfl, rfl⟩ := hc.consistent.keyed.positions b i q hget
  exact hget

/-- No two positions of a cache have the same key. -/
theorem nodup_positionsForInstrument {c : Cache} (hc : Reachable c) (inst : InstrumentID) :
    ((c.positionsForInstrument inst).map positionRepairKeyFor).Nodup := by
  have hentries : (c.positions.entries.map Prod.snd).Nodup := by
    refine List.Nodup.map_on ?_ c.positions.entries_nodup
    rintro ⟨⟨b, i⟩, q⟩ h ⟨⟨b', i'⟩, q'⟩ h' heq
    have hkeyed := hc.consistent.keyed.positions b i q (OrdMap.mem_entries.1 h)
    have hkeyed' := hc.consistent.keyed.positions b' i' q' (OrdMap.mem_entries.1 h')
    obtain rfl : q = q' := heq
    rw [← hkeyed.1, ← hkeyed.2, ← hkeyed'.1, ← hkeyed'.2]
  have hnodup : (c.positionsForInstrument inst).Nodup :=
    (List.perm_insertionSort _ _).nodup_iff.2 (hentries.filter _)
  refine List.Nodup.map_on (fun p hp q hq heq => ?_) hnodup
  have hget := ((mem_positionsForInstrument hc).1 hp).1
  have hget' := ((mem_positionsForInstrument hc).1 hq).1
  obtain ⟨howner, hid⟩ := Prod.mk.inj heq
  rw [(Prod.mk.inj howner).1, hid, hget'] at hget
  exact (Option.some.inj hget).symm

/-- A call of the reconciler, with the cache it finds. -/
structure RepairCall where
  clock : Time
  accountID : AccountID
  instrumentID : InstrumentID
  reports : List PositionStatusReport
  now : Time
  cache : Cache
  reachable : Reachable cache

namespace RepairCall

def run (call : RepairCall) (limit : Nat) (attempts : OrdMap PositionRepairKey Nat) :
    PositionRepairs :=
  repairsOf attempts (repairPositionReports call.clock call.accountID call.instrumentID
    call.reports { maxAttempts := limit, now := call.now } attempts call.cache)

/-- The call passes its checks and is about the account and instrument of the
position. -/
def Concerns (call : RepairCall) (key : PositionRepairKey) : Prop :=
  call.accountID ≠ "" ∧ call.instrumentID.validate = .ok () ∧
    key.1 = (call.accountID, call.instrumentID)

instance (call : RepairCall) (key : PositionRepairKey) : Decidable (call.Concerns key) := by
  unfold Concerns
  infer_instance

/-- How the call finds a position: not at all, in agreement with the reports, or
in disagreement. -/
def finding (call : RepairCall) (key : PositionRepairKey) : Budget.Finding :=
  if call.Concerns key then
    match call.cache.position key.1.1 key.2 with
    | none => .unseen
    | some p =>
      if p.instrumentID ≠ key.1.2 then .unseen
      else if agreesWithVenue call.reports call.accountID call.instrumentID p then .agrees
      else .differs
  else .unseen

variable {call : RepairCall} {limit : Nat} {attempts : OrdMap PositionRepairKey Nat}
  {key : PositionRepairKey}

/-- What has been counted for a position. -/
def countOf (attempts : OrdMap PositionRepairKey Nat) (key : PositionRepairKey) : Nat :=
  (attempts.get key).getD 0

theorem run_of_checks (haccount : call.accountID ≠ "")
    (hinst : call.instrumentID.validate = .ok ()) :
    call.run limit attempts = (call.cache.positionsForInstrument call.instrumentID).foldl
      (PositionRepairs.repairPosition (if call.now = 0 then call.clock else call.now)
        call.accountID call.instrumentID call.reports limit) { attempts := attempts } := by
  simp only [run, repairPositionReports, reject, haccount, if_false, hinst]
  rfl

theorem run_of_not_checks (h : ¬ (call.accountID ≠ "" ∧ call.instrumentID.validate = .ok ())) :
    call.run limit attempts = { attempts := attempts } := by
  have herror : ∀ repairs, repairPositionReports call.clock call.accountID call.instrumentID
      call.reports { maxAttempts := limit, now := call.now } attempts call.cache ≠ .ok repairs := by
    intro repairs hok
    simp only [repairPositionReports, except_seq_eq_ok, reject_eq_ok] at hok
    exact h ⟨hok.1, hok.2.1⟩
  rw [run]
  cases hresult : repairPositionReports call.clock call.accountID call.instrumentID
      call.reports { maxAttempts := limit, now := call.now } attempts call.cache with
  | ok repairs => exact absurd hresult (herror repairs)
  | error err => rfl

theorem seenFrom_foldl_of_ne {now : Time} {a : AccountID} {inst : InstrumentID}
    {reports : List PositionStatusReport} {maxAttempts : ℤ} (ps : List PositionStatusReport)
    (h : ∀ p ∈ ps, p.accountID = a → key ≠ positionRepairKeyFor p) :
    ∀ s : PositionRepairs, PositionRepairs.seenFrom key
      (ps.foldl (PositionRepairs.repairPosition now a inst reports maxAttempts) s) =
        PositionRepairs.seenFrom key s := by
  induction ps with
  | nil => exact fun _ => rfl
  | cons p ps ih =>
    intro s
    obtain ⟨hfirst, hrest⟩ := List.forall_mem_cons.1 h
    rw [List.foldl_cons, ih hrest, PositionRepairs.seenFrom_repairPosition_of_ne hfirst]

theorem finding_of_stored {p : PositionStatusReport} (haccount : p.accountID = call.accountID)
    (hmem : p ∈ call.cache.positionsForInstrument call.instrumentID)
    (hchecks : call.accountID ≠ "" ∧ call.instrumentID.validate = .ok ()) :
    call.finding (positionRepairKeyFor p) =
      if agreesWithVenue call.reports call.accountID call.instrumentID p then .agrees
      else .differs := by
  obtain ⟨hget, hinst⟩ := (mem_positionsForInstrument call.reachable).1 hmem
  have hconcerns : call.Concerns (positionRepairKeyFor p) :=
    ⟨hchecks.1, hchecks.2, by rw [← haccount, ← hinst]; rfl⟩
  rw [finding, if_pos hconcerns]
  simp only [positionRepairKeyFor, hget, ne_eq, not_true_eq_false, if_false]

/-- A call that sees a position finds it in the cache. -/
theorem exists_of_finding (h : call.finding key ≠ .unseen) :
    (call.accountID ≠ "" ∧ call.instrumentID.validate = .ok ()) ∧
      ∃ p ∈ call.cache.positionsForInstrument call.instrumentID,
        p.accountID = call.accountID ∧ positionRepairKeyFor p = key := by
  rw [finding] at h
  split at h
  · next hconcerns =>
      refine ⟨⟨hconcerns.1, hconcerns.2.1⟩, ?_⟩
      cases hget : call.cache.position key.1.1 key.2 with
      | none => simp [hget] at h
      | some p =>
        obtain ⟨haccount, hid⟩ := call.reachable.consistent.keyed.positions _ _ p hget
        by_cases hinst : p.instrumentID = key.1.2
        · have hkey : positionRepairKeyFor p = key := by
            rw [positionRepairKeyFor, haccount, hinst, hid]
          refine ⟨p, (mem_positionsForInstrument call.reachable).2 ⟨?_, ?_⟩, ?_, hkey⟩
          · rw [haccount, hid]
            exact hget
          · rw [hinst, hconcerns.2.2]
          · rw [haccount, hconcerns.2.2]
        · simp [hget, hinst] at h
  · exact absurd rfl h

/-- A call that does not find the position leaves alone what concerns it. -/
theorem seenFrom_run_unseen (limit : Nat) (attempts : OrdMap PositionRepairKey Nat)
    (h : call.finding key = .unseen) :
    PositionRepairs.seenFrom key (call.run limit attempts) = (countOf attempts key, 0, []) := by
  by_cases hchecks : call.accountID ≠ "" ∧ call.instrumentID.validate = .ok ()
  · rw [run_of_checks hchecks.1 hchecks.2]
    refine (seenFrom_foldl_of_ne _ fun p hp haccount heq => ?_) _
    rw [heq, finding_of_stored haccount hp hchecks] at h
    split at h <;> cases h
  · rw [run_of_not_checks hchecks]
    rfl

/-- A call that finds the position handles it once. -/
theorem seenFrom_run_seen (limit : Nat) (attempts : OrdMap PositionRepairKey Nat)
    (h : call.finding key ≠ .unseen) :
    ∃ p, p.accountID = call.accountID ∧ positionRepairKeyFor p = key ∧
      call.finding key =
        (if agreesWithVenue call.reports call.accountID call.instrumentID p then .agrees
        else .differs) ∧
      ∃ s : PositionRepairs,
        PositionRepairs.seenFrom key s = (countOf attempts key, 0, []) ∧
        PositionRepairs.seenFrom key (call.run limit attempts) =
          PositionRepairs.seenFrom key
            (s.repairPosition (if call.now = 0 then call.clock else call.now) call.accountID
              call.instrumentID call.reports limit p) := by
  obtain ⟨hchecks, p, hmem, haccount, rfl⟩ := exists_of_finding h
  refine ⟨p, haccount, rfl, finding_of_stored haccount hmem hchecks, ?_⟩
  have hnodup := nodup_positionsForInstrument call.reachable call.instrumentID
  rw [run_of_checks hchecks.1 hchecks.2]
  obtain ⟨before, after, hsplit⟩ := List.append_of_mem hmem
  rw [hsplit, List.map_append, List.map_cons, List.nodup_append, List.nodup_cons] at hnodup
  obtain ⟨-, ⟨hafter, -⟩, hbefore⟩ := hnodup
  rw [hsplit, List.foldl_append, List.foldl_cons]
  refine ⟨before.foldl (PositionRepairs.repairPosition
    (if call.now = 0 then call.clock else call.now) call.accountID call.instrumentID call.reports
    limit) { attempts := attempts }, ?_, ?_⟩
  · refine (seenFrom_foldl_of_ne _ fun q hq _ heq => ?_) _
    exact hbefore _ (List.mem_map_of_mem hq) _ List.mem_cons_self heq.symm
  · refine (seenFrom_foldl_of_ne _ fun q hq _ heq => ?_) _
    exact hafter (heq ▸ List.mem_map_of_mem hq)

/-- Seen from one position, a call is a round of the budget; at the limit the
discrepancy is listed with the count. -/
theorem run_spec (hlimit : 1 ≤ limit) (call : RepairCall)
    (attempts : OrdMap PositionRepairKey Nat) (key : PositionRepairKey) :
    (call.run limit attempts).attemptsFor key =
        Budget.spend limit (countOf attempts key) (call.finding key) ∧
      (call.run limit attempts).generatedFor key =
        Budget.grant limit (countOf attempts key) (call.finding key) ∧
      (call.finding key = .differs → limit ≤ countOf attempts key →
        ∃ d, (call.run limit attempts).unresolvedFor key = [d] ∧
          d.attempts = countOf attempts key) := by
  by_cases hunseen : call.finding key = .unseen
  · have hseen := seenFrom_run_unseen limit attempts hunseen
    simp only [PositionRepairs.seenFrom, Prod.mk.injEq] at hseen
    rw [hunseen]
    exact ⟨hseen.1, hseen.2.1, fun h => nomatch h⟩
  obtain ⟨p, haccount, rfl, hfinding, s, hbefore, hseen⟩ := seenFrom_run_seen limit attempts hunseen
  rw [PositionRepairs.repairPosition_eq haccount] at hseen
  simp only [PositionRepairs.seenFrom, Prod.mk.injEq] at hbefore
  obtain ⟨hcount, hgenerated, hunresolved⟩ := hbefore
  by_cases hagrees : agreesWithVenue call.reports call.accountID call.instrumentID p = true
  · rw [(positionRepair_eq_none_iff haccount).2 hagrees] at hseen
    have hclear := hseen.trans PositionRepairs.seenFrom_clear_self
    simp only [PositionRepairs.seenFrom, Prod.mk.injEq] at hclear
    rw [hfinding, if_pos hagrees]
    exact ⟨hclear.1, hclear.2.1.trans hgenerated, fun h => nomatch h⟩
  · obtain ⟨repair, hrepair⟩ : ∃ repair, positionRepair
        (if call.now = 0 then call.clock else call.now) call.reports call.accountID
          call.instrumentID p = some repair :=
      Option.ne_none_iff_exists'.1 fun hnone =>
        hagrees ((positionRepair_eq_none_iff haccount).1 hnone)
    rw [hrepair] at hseen
    rw [hfinding, if_neg hagrees, Budget.spend, Budget.grant, ← hcount]
    by_cases hlt : s.attemptsFor (positionRepairKeyFor p) < limit
    · have hgranted := hseen.trans (PositionRepairs.seenFrom_append_granted fun _ => by
        exact_mod_cast hlt)
      simp only [PositionRepairs.seenFrom, Prod.mk.injEq] at hgranted
      rw [if_pos hlt, if_pos hlt]
      refine ⟨hgranted.1, ?_, fun _ hle => absurd hlt (not_lt.2 hle)⟩
      rw [hgranted.2.1, hgenerated]
    · have hrefused := hseen.trans (PositionRepairs.seenFrom_append_refused
        ⟨by exact_mod_cast hlimit, by exact_mod_cast not_lt.1 hlt⟩)
      simp only [PositionRepairs.seenFrom, Prod.mk.injEq] at hrefused
      rw [if_neg hlt, if_neg hlt]
      rw [hunresolved, List.nil_append] at hrefused
      exact ⟨hrefused.1, hrefused.2.1.trans hgenerated, fun _ _ =>
        ⟨unresolvedDiscrepancy p _ (s.attemptsFor (positionRepairKeyFor p)), hrefused.2.2, rfl⟩⟩

end RepairCall

/-! ### Many calls -/

open RepairCall

/-- What a new reconciler has counted after some calls. -/
def attemptsAfter (limit : Nat) (calls : List RepairCall) : OrdMap PositionRepairKey Nat :=
  calls.foldl (fun attempts call => (call.run limit attempts).attempts) ∅

/-- The repairs that some calls generate for a position. -/
def repairsIn (limit : Nat) (key : PositionRepairKey) :
    OrdMap PositionRepairKey Nat → List RepairCall → Nat
  | _, [] => 0
  | attempts, call :: calls =>
    (call.run limit attempts).generatedFor key +
      repairsIn limit key (call.run limit attempts).attempts calls

section Calls

variable {limit : Nat} {key : PositionRepairKey}

theorem countOf_foldl (hlimit : 1 ≤ limit) (calls : List RepairCall) :
    ∀ attempts : OrdMap PositionRepairKey Nat,
      countOf (calls.foldl (fun attempts call => (call.run limit attempts).attempts) attempts) key =
        Budget.spent limit (countOf attempts key) (calls.map (·.finding key)) := by
  induction calls with
  | nil => exact fun _ => rfl
  | cons call calls ih =>
    intro attempts
    have hcall := (call.run_spec hlimit attempts key).1
    rw [List.foldl_cons, ih, List.map_cons, Budget.spent, Budget.spent, List.foldl_cons, ← hcall]
    rfl

theorem repairsIn_eq (hlimit : 1 ≤ limit) (calls : List RepairCall) :
    ∀ attempts : OrdMap PositionRepairKey Nat, repairsIn limit key attempts calls =
      Budget.granted limit (countOf attempts key) (calls.map (·.finding key)) := by
  induction calls with
  | nil => exact fun _ => rfl
  | cons call calls ih =>
    intro attempts
    obtain ⟨hcount, hgenerated, -⟩ := call.run_spec hlimit attempts key
    rw [repairsIn, ih, List.map_cons, Budget.granted, hgenerated, ← hcount]
    rfl

/-- For every limit and every calls on a new reconciler: in a stretch of calls
that never finds the position in agreement, at most as many repairs as the limit
are generated for it; and once they are, a call that finds it in disagreement
generates nothing for it and lists it as unresolved with as many attempts. -/
theorem repairs_bounded (hlimit : 1 ≤ limit) (before stretch : List RepairCall)
    (key : PositionRepairKey) (hstretch : ∀ call ∈ stretch, call.finding key ≠ .agrees) :
    repairsIn limit key (attemptsAfter limit before) stretch ≤ limit ∧
      (repairsIn limit key (attemptsAfter limit before) stretch = limit →
        ∀ call : RepairCall, call.finding key = .differs →
          (call.run limit (attemptsAfter limit (before ++ stretch))).generatedFor key = 0 ∧
          ∃ d, (call.run limit (attemptsAfter limit (before ++ stretch))).unresolvedFor key = [d] ∧
            d.attempts = limit) := by
  have hfindings : ∀ f ∈ stretch.map (·.finding key), f ≠ Budget.Finding.agrees := by
    intro f hf
    obtain ⟨call, hcall, rfl⟩ := List.mem_map.1 hf
    exact hstretch call hcall
  have hstart : countOf (attemptsAfter limit before) key ≤ limit := by
    rw [attemptsAfter, countOf_foldl hlimit]
    exact Budget.spent_le _ (Nat.zero_le limit)
  have hend := Budget.spent_le (stretch.map (·.finding key)) hstart
  have hgrown : Budget.spent limit (countOf (attemptsAfter limit before) key) _ = _ :=
    Budget.spent_eq_add_granted hfindings _
  rw [repairsIn_eq hlimit]
  refine ⟨by omega, fun hall call hdiffers => ?_⟩
  have hcount : countOf (attemptsAfter limit (before ++ stretch)) key = limit := by
    rw [attemptsAfter, List.foldl_append, ← attemptsAfter, countOf_foldl hlimit]
    omega
  obtain ⟨-, hgenerated, hunresolved⟩ := call.run_spec hlimit
    (attemptsAfter limit (before ++ stretch)) key
  obtain ⟨d, hd, hattempts⟩ := hunresolved hdiffers hcount.ge
  rw [hdiffers, hcount, Budget.grant, if_neg (lt_irrefl limit)] at hgenerated
  exact ⟨hgenerated, d, hd, hattempts.trans hcount⟩

end Calls

/-- A long position that the venue does not report. -/
def samplePosition : PositionStatusReport :=
  { accountID := "acct", instrumentID := samplePerp, positionID := "p-1", side := .long
    quantity := 2 }

theorem samplePosition_wellFormed : samplePosition.WellFormed :=
  ⟨by decide, by decide, by decide +kernel, le_refl _, .inr (.inl rfl)⟩

def sampleCall : RepairCall where
  clock := 5
  accountID := "acct"
  instrumentID := samplePerp
  reports := []
  now := 0
  cache := new.storePosition samplePosition
  reachable := Reachable.storePosition .new samplePosition_wellFormed

/-- After one repair, which is all the limit allows, the position is listed. -/
theorem repairs_bounded_once :
    (sampleCall.run 1 (attemptsAfter 1 [sampleCall])).generatedFor
        (positionRepairKeyFor samplePosition) = 0 ∧
      ∃ d, (sampleCall.run 1 (attemptsAfter 1 [sampleCall])).unresolvedFor
        (positionRepairKeyFor samplePosition) = [d] ∧ d.attempts = 1 := by
  have hdiffers : sampleCall.finding (positionRepairKeyFor samplePosition) = .differs := by
    decide +kernel
  refine (repairs_bounded (le_refl 1) [] [sampleCall] (positionRepairKeyFor samplePosition)
    fun call hcall => ?_).2 (by decide +kernel) sampleCall hdiffers
  rw [List.mem_singleton.1 hcall, hdiffers]
  exact fun h => nomatch h

end Exchanges.Account
