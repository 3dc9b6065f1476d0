import Exchanges.Backtest.Positions

/-!
The map of accounts, and the order in which it is enumerated.

The accounts that have had an order accepted are kept in a map, and the open
orders are matched and expired account by account, in the order in which the map
happens to be enumerated. Accounts compete for the same quantities, trade
numbers and random numbers, so that with two accounts the order matters. With
one account there is only one order.
-/

namespace Exchanges.Backtest

open Exchanges.Lib Exchanges.Lib.Prog Exchanges.Model Relation
open Exchanges.Account (samplePerp)

set_option linter.unusedSectionVars false

/-- All orders were accepted for one account. -/
def OnlyFor (a : AccountID) (r : Runtime) : Prop :=
  ∀ t report eligible, .accepted t report eligible ∈ r.trace → report.accountID = a

/-- The accounts of the map are those of accepted orders. -/
def Registered (r : Runtime) : Prop :=
  ∀ b, (r.accounts.get b).isSome = true →
    ∃ t report eligible, .accepted t report eligible ∈ r.trace ∧ report.accountID = b

theorem Registered.eq_of_onlyFor {r : Runtime} {a b : AccountID} (h : Registered r)
    (honly : OnlyFor a r) (hb : (r.accounts.get b).isSome = true) : b = a := by
  obtain ⟨t, report, eligible, hmem, rfl⟩ := h b hb
  exact honly t report eligible hmem

section Accounts

variable [DecimalPackage] {cfg : Config} {V : OrderStatusReport → Prop}
  {G : Runtime → Matched → Prop} {r r' : Runtime} {a : AccountID}

theorem Plain.registered_of (h : Plain cfg V r r') (hr : Registered r) : Registered r' := by
  have hsame : ∀ {r' : Runtime}, r'.accounts = r.accounts → (∃ entries,
      r'.trace = r.trace ++ entries) → Registered r' := by
    rintro r' haccounts ⟨entries, htrace⟩ b hb
    rw [haccounts] at hb
    obtain ⟨t, report, eligible, hmem, hid⟩ := hr b hb
    exact ⟨t, report, eligible, by simp [htrace, hmem], hid⟩
  cases h with
  | internal same => exact hsame same.accounts ⟨[], by simp [same.trace]⟩
  | listed list =>
    obtain ⟨_, _, heq⟩ := indexOrderList_eq list r
    rw [heq]
    exact hsame rfl ⟨_, rfl⟩
  | registered report =>
    intro b hb
    change ((r.accounts.put report.accountID ()).get b).isSome = true at hb
    rw [OrdMap.get_put] at hb
    split_ifs at hb with hnew
    · exact ⟨r.currentTime, report, eligibleTime cfg r, by simp [register], hnew.symm⟩
    · obtain ⟨t, old, eligible, hmem, hid⟩ := hr b hb
      exact ⟨t, old, eligible, by simp [register, hmem], hid⟩
  | released key => exact hsame rfl ⟨[], by simp⟩
  | account snapshot => exact hsame rfl ⟨[], by simp⟩
  | consumed id price pos => exact hsame rfl ⟨[], (List.append_nil _).symm⟩
  | _ => exact hsame rfl ⟨_, rfl⟩

theorem stable_registered (events : List Event) :
    Stable Registered (Move (Step cfg V G) events) := by
  intro r r' hmove hr
  have hgrow : r'.accounts = r.accounts → Registered r' := by
    intro haccounts b hb
    rw [haccounts] at hb
    obtain ⟨matched, ⟨entries, htrace, -⟩, -⟩ := hmove.extends
    obtain ⟨t, report, eligible, hmem, hid⟩ := hr b hb
    exact ⟨t, report, eligible, by simp [htrace, hmem], hid⟩
  cases hmove with
  | step step =>
    cases step with
    | plain step => exact step.registered_of hr
    | @filled m drawn fits guard =>
      refine hgrow ?_
      obtain ⟨pf, heq⟩ := booked_eq r m drawn
      rw [heq]
  | clock tick t due => exact hgrow rfl
  | @market event now =>
    refine hgrow ?_
    obtain ⟨_, _, heq⟩ := rememberEvent_eq event r
    rw [Runtime.withMarket, heq]

/-- What was accepted for one account at the end was so before. -/
theorem onlyFor_reflects {events : List Event} (hmove : Move (Step cfg V G) events r r')
    (h : OnlyFor a r') : OnlyFor a r := by
  obtain ⟨matched, ⟨entries, htrace, -⟩, -⟩ := hmove.extends
  intro t report eligible hmem
  exact h t report eligible (by simp [htrace, hmem])

/-! ### One pass -/

/-- What a pass does with one account. -/
def visit (f : AccountID → Prog Runtime Err Unit) (b : AccountID) : Prog Runtime Err Unit := do
  let now ← Prog.get
  if (now.accounts.get b).isSome then f b else pure ()

theorem run_visit_absent {f : AccountID → Prog Runtime Err Unit} {b : AccountID} {s : Runtime}
    (h : ¬ (s.accounts.get b).isSome = true) : (visit f b).run s = (.ok (), s) := by
  rw [visit, run_get_bind, if_neg h, run_pure]

theorem run_forEach_visit_absent {f : AccountID → Prog Runtime Err Unit} {s : Runtime}
    (ids : List AccountID) (h : ∀ b ∈ ids, ¬ (s.accounts.get b).isSome = true) :
    (forEach (visit f) ids).run s = (.ok (), s) := by
  induction ids with
  | nil => rfl
  | cons b ids ih =>
    have hfirst : (visit f b).run s = (.ok (), s) := run_visit_absent (h b List.mem_cons_self)
    rw [forEach, run_bind_ok hfirst]
    exact ih fun c hc => h c (List.mem_cons_of_mem b hc)

section Pass

variable {M : Runtime → Runtime → Prop} {J : Runtime → Prop}
  {f : AccountID → Prog Runtime Err Unit}
  (hreflects : ∀ s s', M s s' → OnlyFor a s' → OnlyFor a s)
  (hJ : Stable J M) (hregistered : ∀ s, J s → Registered s) (hf : ∀ b, Goes J M (f b))

include hf in
theorem goes_visit (b : AccountID) : Goes J M (visit f b) := by
  refine Goes.get_bind fun s hs => ?_
  split_ifs
  · exact hf b s hs
  · exact .refl

include hreflects hJ hregistered hf

/-- If all orders are accepted for one account, a pass visits that account and
nothing else happens. -/
theorem run_forEach_visit {s : Runtime} (hs : J s) (ids : List AccountID)
    (hnodup : ids.Nodup) (hcovers : (s.accounts.get a).isSome = true → a ∈ ids)
    (hend : OnlyFor a ((forEach (visit f) ids).run s).2 ∨ OnlyFor a ((visit f a).run s).2) :
    (forEach (visit f) ids).run s = (visit f a).run s := by
  have hgoes : ∀ ids, Goes J M (forEach (visit f) ids) :=
    fun ids => Goes.forEach hJ fun b _ => goes_visit hf b
  have honly : OnlyFor a s := by
    rcases hend with hend | hend
    · exact reflects_star hreflects (hgoes ids s hs) hend
    · exact reflects_star hreflects (goes_visit hf a s hs) hend
  induction ids with
  | nil =>
    have habsent : ¬ (s.accounts.get a).isSome = true := fun hsome => by simpa using hcovers hsome
    exact (run_visit_absent habsent).symm
  | cons b ids ih =>
    rw [List.nodup_cons] at hnodup
    rw [forEach] at hend ⊢
    by_cases hb : b = a
    · subst hb
      match hrun : (visit f b).run s with
      | (.error err, s') => exact run_bind_error hrun
      | (.ok (), s') =>
        rw [run_bind_ok hrun] at hend ⊢
        have hs' := hJ.star ((goes_visit hf b s hs : Follows M _ s).of_run hrun) hs
        have honly' : OnlyFor b s' := by
          rcases hend with hend | hend
          · exact reflects_star hreflects (hgoes ids s' hs') hend
          · rwa [hrun] at hend
        refine run_forEach_visit_absent ids fun d hd hsome => hnodup.1 ?_
        rwa [← (hregistered s' hs').eq_of_onlyFor honly' hsome]
    · have hskip : (visit f b).run s = (.ok (), s) :=
        run_visit_absent fun hsome => hb ((hregistered s hs).eq_of_onlyFor honly hsome)
      rw [run_bind_ok hskip] at hend ⊢
      refine ih hnodup.2 (fun hsome => ?_) hend
      exact (List.mem_cons.mp (hcovers hsome)).resolve_left fun heq => hb heq.symm

theorem agrees_forEachAccount (hpasses : ∀ s : Runtime, M s { s with passes := s.passes + 1 })
    (e e' : Enumeration) {s : Runtime} (hs : J s) :
    Agrees M (OnlyFor a) (forEachAccount e f) (forEachAccount e' f) s := by
  have hs₁ := hJ _ _ (hpasses s) hs
  have hcovers : ∀ e : Enumeration, (s.accounts.get a).isSome = true →
      a ∈ e.visits s.passes (s.accounts.entries.map (·.1)) := by
    intro e hsome
    obtain ⟨u, hu⟩ := Option.isSome_iff_exists.mp hsome
    exact e.covers _ _ (List.mem_map.mpr ⟨(a, u), OrdMap.mem_entries.mpr hu, rfl⟩)
  have hrun : ∀ e : Enumeration, (forEachAccount e f).run s =
      (forEach (visit f) (e.visits s.passes (s.accounts.entries.map (·.1)))).run
        { s with passes := s.passes + 1 } := fun _ => rfl
  have hfollows : Follows M (forEach (visit f)
      (e.visits s.passes (s.accounts.entries.map (·.1)))) { s with passes := s.passes + 1 } :=
    Goes.forEach hJ (fun b _ => goes_visit hf b) _ hs₁
  refine ⟨?_, fun hend => ?_⟩
  · unfold Follows
    rw [hrun]
    exact (ReflTransGen.single (hpasses s)).trans hfollows
  · rw [hrun] at hend ⊢
    rw [hrun]
    have hfirst := run_forEach_visit hreflects hJ hregistered hf hs₁ _ (e.nodup _ _) (hcovers e) (.inl hend)
    rw [hfirst] at hend
    rw [hfirst]
    exact run_forEach_visit hreflects hJ hregistered hf hs₁ _ (e'.nodup _ _) (hcovers e') (.inr hend)

end Pass

/-- If all orders of a run are accepted for one account, the run does not depend
on how the map of accounts is enumerated. -/
theorem result_enumeratedBy (setup : Setup) (e : Enumeration) (c : Cache) (p : Portfolio)
    (honly : OnlyFor a (setup.result c p)) :
    (setup.enumeratedBy e).result c p = setup.result c p := by
  have hground : Ground setup.cfg (fun _ _ => True) (fun r => Consumed r ∧ Registered r)
      (AnyStep setup.cfg fun _ => True) :=
    { ground_consumed setup.cfg _ with
      modified := fun _ _ _ _ => trivial
      stored := fun _ _ => trivial
      consumed := fun hr => hr.1
      stable := (ground_consumed setup.cfg _).stable.and fun r r' hstep =>
        stable_registered setup.events r r' (.step hstep) }
  have hclosed := hground.closed setup.strategies setup.depth
  have hstable := (stable_consumed setup.cfg (fun _ => True) (fun _ _ => True)
    setup.events).and (stable_registered setup.events)
  have hinit : Consumed (initial c p) ∧ Registered (initial c p) :=
    ⟨fun _ _ => le_rfl, fun b hb => by simp [initial] at hb⟩
  have hpass : ∀ (deadline : Time) (f : AccountID → Prog Runtime Err Unit),
      (∀ b, Goes (fun r => (Consumed r ∧ Registered r) ∧ r.currentTime ≤ deadline)
        (Until (AnyStep setup.cfg fun _ => True) setup.events deadline) (f b)) →
      ∀ s, (Consumed s ∧ Registered s) ∧ s.currentTime ≤ deadline →
        Agrees (Until (AnyStep setup.cfg fun _ => True) setup.events deadline) (OnlyFor a)
          (forEachAccount setup.enumeration f) (forEachAccount e f) s := by
    intro deadline f hf s hs
    refine agrees_forEachAccount (fun r r' hmove => onlyFor_reflects hmove.1)
      (stable_until hstable deadline) (fun s hs => hs.1.2) hf (fun s => ⟨?_, id⟩) _ _ hs
    have hsame : Same s { s with passes := s.passes + 1 } :=
      ⟨rfl, rfl, rfl, rfl, rfl, rfl, rfl, rfl, rfl, rfl, rfl⟩
    exact .step (.plain (.internal hsame (.of_eq rfl)))
  have hagrees := agrees_run hclosed hstable (fun _ _ _ _ h => h) Step.currentTime
    (fun r r' hmove => onlyFor_reflects hmove) hpass hinit rfl
  exact congrArg Prod.snd (hagrees.2 honly)

end Accounts

/-! ### Two accounts that compete -/

/-- The enumeration against the order of the account ids. -/
def Enumeration.reversed : Enumeration where
  visits _ ids := ids.dedup.reverse
  nodup _ ids := List.nodup_reverse.mpr ids.nodup_dedup
  covers _ _ := fun _ h => List.mem_reverse.mpr (List.mem_dedup.mpr h)

/-- A strategy that has some accounts buy at the start, before there is a
book. -/
def buyAtStart (accounts : List AccountID) : Strategy :=
  { Strategy.answering "buyer" (fun _ => []) fun _ => [] with
    onStart := fun _ => .issue (accounts.map fun a => .submitOrder { sampleBuy with accountID := a }) }

/-- A book with a unit for one of them. -/
def competingSetup (accounts : List AccountID) : Setup :=
  { strategies := [buyAtStart accounts], events := [sampleAsks 1 [⟨100, 1⟩]], depth := 2, timers := 1 }

/-- The accounts of the fills, in their order. -/
def filledAccounts (trace : List Entry) : List AccountID :=
  trace.filterMap fun
    | .filled _ _ _ m => some m.fill.accountID
    | _ => none

def Entry.acceptedFor (a : AccountID) : Entry → Bool
  | .accepted _ report _ => decide (report.accountID = a)
  | _ => true

theorem result_enumeratedBy_single :
    filledAccounts (@Setup.result exactDecimals (competingSetup ["acct"]) Cache.new
        (Portfolio.new Cache.new)).trace = ["acct"] ∧
      @Setup.result exactDecimals ((competingSetup ["acct"]).enumeratedBy .reversed) Cache.new
        (Portfolio.new Cache.new) =
        @Setup.result exactDecimals (competingSetup ["acct"]) Cache.new
          (Portfolio.new Cache.new) := by
  refine ⟨by decide +kernel, ?_⟩
  refine @result_enumeratedBy exactDecimals "acct" (competingSetup ["acct"]) .reversed Cache.new
    (Portfolio.new Cache.new) ?_
  intro t report eligible hmem
  have hall : (@Setup.result exactDecimals (competingSetup ["acct"]) Cache.new
      (Portfolio.new Cache.new)).trace.all (Entry.acceptedFor "acct") = true := by
    decide +kernel
  exact of_decide_eq_true (List.all_eq_true.mp hall _ hmem)

/-- The account that comes first gets the fill. -/
theorem result_enumeratedBy_fails_two_accounts :
    filledAccounts (@Setup.result exactDecimals (competingSetup ["acct", "rival"]) Cache.new
        (Portfolio.new Cache.new)).trace = ["acct"] ∧
      filledAccounts (@Setup.result exactDecimals
        ((competingSetup ["acct", "rival"]).enumeratedBy .reversed) Cache.new
        (Portfolio.new Cache.new)).trace = ["rival"] :=
  ⟨by decide +kernel, by decide +kernel⟩

end Exchanges.Backtest
