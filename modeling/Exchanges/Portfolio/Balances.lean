import Exchanges.Portfolio.Basic
import Mathlib.Data.Rat.Encodable

/-!
What the balance deltas of a fill do to an account.

A delta finds the balance of its currency, completes the amounts its text leaves
out, and writes all three amounts back. The deltas of a map name every currency
once, so no delta meets what another one wrote: each stored balance is changed
by its own delta only, and the currencies without a balance are appended. That
closed form, `applied`, holds for every order of the deltas, and the properties
of the updated account are read off it.
-/

set_option linter.unusedSectionVars false

namespace Exchanges.Portfolio

open Exchanges.Lib Exchanges.Model

/-- Decimals survive printing and parsing, and the empty text is no decimal. -/
class ReadsBack [DecimalPackage] : Prop where
  parse_print : ∀ x : Decimal, DecimalPackage.parse (DecimalPackage.print x) = some x
  parse_blank : DecimalPackage.parse "" = none

/-- A package that writes a decimal as its number in an enumeration, in strokes. -/
abbrev tallies : DecimalPackage where
  div x y := x / y
  parse text := if text = "" then none else Encodable.decode (text.length - 1)
  print x := String.ofList (List.replicate (Encodable.encode x + 1) '|')

theorem readsBack_tallies : @ReadsBack tallies := by
  refine @ReadsBack.mk tallies (fun x => ?_) rfl
  have hne : String.ofList (List.replicate (Encodable.encode x + 1) '|') ≠ "" := by
    intro h
    simpa using congrArg String.length h
  refine (if_neg hne).trans ?_
  simp [DecimalPackage.print]

section Amounts

variable [DecimalPackage]

/-- The amounts of a balance, with none if they cannot be read. -/
def amountsOf (b : Balance) : BalanceAmounts :=
  match b.amounts with
  | .ok a => a
  | .error _ => ⟨0, 0, 0⟩

/-- What an account holds of a currency. -/
def held (balances : List Balance) (currency : Currency) : BalanceAmounts :=
  match balances.find? (·.currency = currency) with
  | some b => amountsOf b
  | none => ⟨0, 0, 0⟩

variable {b : Balance} {balances : List Balance} {currency : Currency} {delta : Decimal}
  {deltas : List (Currency × Decimal)}

theorem validate_balance_iff :
    b.validate = .ok () ↔ b.currency ≠ "" ∧ b.amounts = .ok (amountsOf b) ∧
      0 ≤ (amountsOf b).total ∧ 0 ≤ (amountsOf b).locked ∧ 0 ≤ (amountsOf b).free ∧
      (amountsOf b).total - (amountsOf b).locked = (amountsOf b).free := by
  unfold Balance.validate amountsOf
  cases h : b.amounts with
  | error e => simp [except_bind_eq_ok]
  | ok a => simp [except_bind_eq_ok, and_assoc]

theorem validate_account_iff {account : AccountSnapshot} :
    account.validate = .ok () ↔ account.accountID ≠ "" ∧ account.type.validate = .ok () ∧
      (∀ b ∈ account.balances, b.validate = .ok ()) ∧
      ∀ m ∈ account.margins, m.validate = .ok () := by
  simp only [AccountSnapshot.validate, except_seq_eq_ok, reject_eq_ok, checkAll_eq_ok, ne_eq]

/-- The balance that a delta of its currency leaves behind. -/
def credited (b : Balance) (delta : Decimal) : Balance :=
  { currency := b.currency
    free := DecimalPackage.print ((amountsOf b).free + delta)
    locked := DecimalPackage.print (amountsOf b).locked
    total := DecimalPackage.print ((amountsOf b).total + delta) }

/-- The balance of a currency that had none. -/
def opened (currency : Currency) (delta : Decimal) : Balance :=
  { currency := currency
    free := DecimalPackage.print delta
    total := DecimalPackage.print delta }

section ReadsBack

variable [ReadsBack]

theorem print_ne_blank (x : Decimal) : DecimalPackage.print x ≠ "" := by
  intro h
  have hread := ReadsBack.parse_print x
  rw [h, ReadsBack.parse_blank] at hread
  cases hread

theorem parseOptionalDecimal_print (x : Decimal) (name : String) :
    parseOptionalDecimal (DecimalPackage.print x) name = .ok x := by
  simp [parseOptionalDecimal, print_ne_blank, ReadsBack.parse_print]

theorem amounts_of_read {b : Balance} {total locked free : Decimal}
    (htotal : parseOptionalDecimal b.total "total" = .ok total)
    (hlocked : parseOptionalDecimal b.locked "locked" = .ok locked)
    (hfree : parseOptionalDecimal b.free "free" = .ok free) :
    b.amounts = .ok (b.complete total locked free) := by
  simp only [Balance.amounts, htotal, hlocked, hfree]
  rfl

theorem amounts_credited (b : Balance) (delta : Decimal) :
    (credited b delta).amounts = .ok
      ⟨(amountsOf b).total + delta, (amountsOf b).locked, (amountsOf b).free + delta⟩ := by
  rw [amounts_of_read (parseOptionalDecimal_print _ _) (parseOptionalDecimal_print _ _)
    (parseOptionalDecimal_print _ _)]
  simp [Balance.complete, credited, print_ne_blank]

theorem amounts_opened (currency : Currency) (delta : Decimal) :
    (opened currency delta).amounts = .ok ⟨delta, 0, delta⟩ := by
  have hblank : parseOptionalDecimal (opened currency delta).locked "locked" = .ok 0 := rfl
  rw [amounts_of_read (parseOptionalDecimal_print _ _) hblank (parseOptionalDecimal_print _ _)]
  simp [Balance.complete, opened, print_ne_blank]

theorem amountsOf_credited (b : Balance) (delta : Decimal) :
    amountsOf (credited b delta) =
      ⟨(amountsOf b).total + delta, (amountsOf b).locked, (amountsOf b).free + delta⟩ := by
  rw [amountsOf, amounts_credited]

theorem amountsOf_opened (currency : Currency) (delta : Decimal) :
    amountsOf (opened currency delta) = ⟨delta, 0, delta⟩ := by
  rw [amountsOf, amounts_opened]

theorem validate_credited {b : Balance} {delta : Decimal} (hb : b.validate = .ok ())
    (hfree : 0 ≤ (amountsOf b).free + delta) : (credited b delta).validate = .ok () := by
  obtain ⟨hcurrency, -, htotal, hlocked, -, hsum⟩ := validate_balance_iff.1 hb
  refine validate_balance_iff.2 ⟨hcurrency, ?_⟩
  rw [amountsOf_credited, amounts_credited]
  exact ⟨rfl, by dsimp only; linarith, hlocked, hfree, by dsimp only; linarith⟩

theorem validate_opened {currency : Currency} {delta : Decimal} (hcurrency : currency ≠ "")
    (hdelta : 0 ≤ delta) : (opened currency delta).validate = .ok () := by
  refine validate_balance_iff.2 ⟨hcurrency, ?_⟩
  rw [amountsOf_opened, amounts_opened]
  exact ⟨rfl, hdelta, le_rfl, hdelta, sub_zero _⟩

end ReadsBack

/-! ### One delta -/

theorem applyBalanceDelta_missing (hmissing : currency ∉ balances.map (·.currency)) :
    applyBalanceDelta balances currency delta =
      if delta < 0 then .error (invalidAccount ("missing balance for " ++ currency))
      else .ok (balances ++ [opened currency delta]) := by
  induction balances with
  | nil => rfl
  | cons b rest ih =>
    simp only [List.map_cons, List.mem_cons, not_or] at hmissing
    rw [applyBalanceDelta, if_neg (Ne.symm hmissing.1), ih hmissing.2]
    split <;> rfl

/-- A delta of a stored currency changes that balance alone. -/
theorem applyBalanceDelta_held (delta : Decimal) (hvalid : ∀ b ∈ balances, b.validate = .ok ())
    (hone : (balances.map (·.currency)).Nodup) (hb : b ∈ balances) :
    (0 ≤ (amountsOf b).free + delta →
      applyBalanceDelta balances b.currency delta = .ok (balances.map fun x =>
        if x.currency = b.currency then credited x delta else x)) ∧
    (¬ 0 ≤ (amountsOf b).free + delta →
      ∃ e, applyBalanceDelta balances b.currency delta = .error e) := by
  induction balances with
  | nil => cases hb
  | cons x rest ih =>
    rw [List.map_cons, List.nodup_cons] at hone
    by_cases hx : x.currency = b.currency
    · -- The first balance of the currency is the only one.
      obtain rfl : b = x := by
        rcases List.mem_cons.1 hb with rfl | hrest
        · rfl
        · exact absurd (List.mem_map.2 ⟨b, hrest, hx.symm⟩) hone.1
      obtain ⟨-, hamounts, -, hlocked, -, hsum⟩ := validate_balance_iff.1 (hvalid _ hb)
      have hothers : rest.map (fun x => if x.currency = b.currency then credited x delta else x)
          = rest := by
        refine (List.map_congr_left fun y hy => if_neg fun hsame => ?_).trans (List.map_id rest)
        exact hone.1 (List.mem_map.2 ⟨y, hy, hsame⟩)
      rw [applyBalanceDelta, if_pos rfl, hamounts]
      refine ⟨fun hfree => ?_, fun hfree => ⟨_, if_pos (.inr (not_le.1 hfree))⟩⟩
      have hcovered : ¬ ((amountsOf b).total + delta < 0 ∨ (amountsOf b).free + delta < 0) := by
        rw [not_or, not_lt, not_lt]
        exact ⟨by linarith, hfree⟩
      rw [List.map_cons, if_pos rfl, hothers]
      exact if_neg hcovered
    · have hrest : b ∈ rest := by
        rcases List.mem_cons.1 hb with rfl | hrest
        · exact absurd rfl hx
        · exact hrest
      obtain ⟨hok, herror⟩ := ih (fun y hy => hvalid y (.tail _ hy)) hone.2 hrest
      rw [applyBalanceDelta, if_neg hx]
      constructor
      · intro hfree
        rw [hok hfree, List.map_cons, if_neg hx]
        rfl
      · intro hfree
        obtain ⟨e, he⟩ := herror hfree
        exact ⟨e, by rw [he]; rfl⟩

/-! ### All the deltas -/

/-- The delta of a currency. -/
def deltaOf (deltas : List (Currency × Decimal)) (currency : Currency) : Decimal :=
  match deltas.find? (·.1 = currency) with
  | some entry => entry.2
  | none => 0

theorem deltaOf_cons (entry : Currency × Decimal) (deltas : List (Currency × Decimal))
    (currency : Currency) :
    deltaOf (entry :: deltas) currency =
      if entry.1 = currency then entry.2 else deltaOf deltas currency := by
  unfold deltaOf
  by_cases h : entry.1 = currency <;> simp [h]

theorem deltaOf_of_notMem (h : currency ∉ deltas.map Prod.fst) : deltaOf deltas currency = 0 := by
  have hnone : deltas.find? (·.1 = currency) = none := by
    rw [List.find?_eq_none]
    intro entry hentry hsame
    exact h (List.mem_map.2 ⟨entry, hentry, by simpa using hsame⟩)
  rw [deltaOf, hnone]

theorem deltaOf_of_mem {entry : Currency × Decimal}
    (hkeys : (deltas.map Prod.fst).Nodup) (h : entry ∈ deltas) :
    deltaOf deltas entry.1 = entry.2 := by
  induction deltas with
  | nil => cases h
  | cons first rest ih =>
    rw [List.map_cons, List.nodup_cons] at hkeys
    rw [deltaOf_cons]
    rcases List.mem_cons.1 h with rfl | hrest
    · exact if_pos rfl
    · rw [if_neg fun hsame => hkeys.1 (List.mem_map.2 ⟨entry, hrest, hsame.symm⟩)]
      exact ih hkeys.2 hrest

theorem deltaOf_perm {deltas others : List (Currency × Decimal)}
    (hkeys : (deltas.map Prod.fst).Nodup) (hperm : others.Perm deltas) (currency : Currency) :
    deltaOf others currency = deltaOf deltas currency := by
  by_cases h : currency ∈ deltas.map Prod.fst
  · obtain ⟨entry, hentry, rfl⟩ := List.mem_map.1 h
    rw [deltaOf_of_mem hkeys hentry,
      deltaOf_of_mem ((hperm.map Prod.fst).nodup_iff.2 hkeys) (hperm.mem_iff.2 hentry)]
  · rw [deltaOf_of_notMem h, deltaOf_of_notMem fun hmem => h ((hperm.map Prod.fst).mem_iff.1 hmem)]

/-- A stored balance after all the deltas. -/
def moved (deltas : List (Currency × Decimal)) (b : Balance) : Balance :=
  if deltaOf deltas b.currency = 0 then b else credited b (deltaOf deltas b.currency)

/-- The balances that the deltas add. -/
def added (deltas : List (Currency × Decimal)) (currencies : List Currency) : List Balance :=
  (deltas.filter fun entry => entry.2 ≠ 0 ∧ entry.1 ∉ currencies).map fun entry =>
    opened entry.1 entry.2

/-- The balances after all the deltas. -/
def applied (balances : List Balance) (deltas : List (Currency × Decimal)) : List Balance :=
  balances.map (moved deltas) ++ added deltas (balances.map (·.currency))

@[simp] theorem currency_moved (deltas : List (Currency × Decimal)) (b : Balance) :
    (moved deltas b).currency = b.currency := by
  unfold moved
  split <;> rfl

theorem moved_of_notMem (h : b.currency ∉ deltas.map Prod.fst) : moved deltas b = b :=
  if_pos (deltaOf_of_notMem h)

theorem moved_cons {entry : Currency × Decimal}
    (hkeys : entry.1 ∉ deltas.map Prod.fst) (hentry : entry.2 ≠ 0) :
    moved (entry :: deltas) b =
      moved deltas (if b.currency = entry.1 then credited b entry.2 else b) := by
  by_cases h : b.currency = entry.1
  · have hcredited : (credited b entry.2).currency ∉ deltas.map Prod.fst := h ▸ hkeys
    rw [if_pos h, moved_of_notMem hcredited, moved, deltaOf_cons, if_pos h.symm, if_neg hentry]
  · rw [if_neg h, moved, moved, deltaOf_cons, if_neg (Ne.symm h)]

theorem added_cons (entry : Currency × Decimal) (deltas : List (Currency × Decimal))
    (currencies : List Currency) :
    added (entry :: deltas) currencies =
      if entry.2 ≠ 0 ∧ entry.1 ∉ currencies then
        opened entry.1 entry.2 :: added deltas currencies
      else added deltas currencies := by
  unfold added
  by_cases h : entry.2 ≠ 0 ∧ entry.1 ∉ currencies
  · rw [if_pos h, List.filter_cons_of_pos (by simpa using h), List.map_cons]
  · rw [if_neg h, List.filter_cons_of_neg (by simpa using h)]

/-- A currency that no delta names may be stored or not. -/
theorem added_append (h : currency ∉ deltas.map Prod.fst) (currencies : List Currency) :
    added deltas (currencies ++ [currency]) = added deltas currencies := by
  unfold added
  congr 1
  refine List.filter_congr fun entry hentry => ?_
  have hne : entry.1 ≠ currency := fun hsame => h (List.mem_map.2 ⟨entry, hentry, hsame⟩)
  simp [hne]

theorem applied_cons_zero (hkeys : currency ∉ deltas.map Prod.fst) (balances : List Balance) :
    applied balances ((currency, 0) :: deltas) = applied balances deltas := by
  have hmoved : moved ((currency, 0) :: deltas) = moved deltas := by
    funext b
    have hdelta : deltaOf ((currency, 0) :: deltas) b.currency = deltaOf deltas b.currency := by
      rw [deltaOf_cons]
      split
      · next h => rw [← show currency = b.currency from h, deltaOf_of_notMem hkeys]
      · rfl
    rw [moved, moved, hdelta]
  rw [applied, applied, hmoved, added_cons, if_neg fun h => h.1 rfl]

/-- The debit, if it is one, is covered by the free amount of a stored balance. -/
def CoversEntry (balances : List Balance) (entry : Currency × Decimal) : Prop :=
  entry.2 < 0 → ∃ b ∈ balances, b.currency = entry.1 ∧ 0 ≤ (amountsOf b).free + entry.2

/-- Every debit is covered. -/
def Covered (balances : List Balance) (deltas : List (Currency × Decimal)) : Prop :=
  ∀ entry ∈ deltas, CoversEntry balances entry

/-- Only the balances of the currencies to be debited matter. -/
theorem Covered.of_others {balances others : List Balance} (h : Covered balances deltas)
    (hkeys : currency ∉ deltas.map Prod.fst)
    (hothers : ∀ b ∈ balances, b.currency ≠ currency → b ∈ others) : Covered others deltas := by
  intro entry hentry hnegative
  obtain ⟨b, hb, hcurrency, hfree⟩ := h entry hentry hnegative
  refine ⟨b, hothers b hb fun hsame => ?_, hcurrency, hfree⟩
  exact hkeys (List.mem_map.2 ⟨entry, hentry, hcurrency.symm.trans hsame⟩)

/-- What one delta hands to the deltas of the other currencies. -/
structure StepsTo (balances : List Balance) (entry : Currency × Decimal)
    (next : List Balance) : Prop where
  valid : ∀ b ∈ next, b.validate = .ok ()
  one : (next.map (·.currency)).Nodup
  applied_eq : ∀ rest : List (Currency × Decimal), entry.1 ∉ rest.map Prod.fst →
    applied next rest = applied balances (entry :: rest)
  covered : ∀ rest : List (Currency × Decimal), entry.1 ∉ rest.map Prod.fst →
    (Covered next rest ↔ Covered balances rest)

variable [ReadsBack]

theorem stepsTo_held (hvalid : ∀ b ∈ balances, b.validate = .ok ())
    (hone : (balances.map (·.currency)).Nodup) (hb : b ∈ balances) (hdelta : delta ≠ 0)
    (hfree : 0 ≤ (amountsOf b).free + delta) :
    StepsTo balances (b.currency, delta) (balances.map fun x =>
      if x.currency = b.currency then credited x delta else x) := by
  have hcurrencies : (balances.map fun x =>
      if x.currency = b.currency then credited x delta else x).map (·.currency) =
      balances.map (·.currency) := by
    rw [List.map_map]
    refine List.map_congr_left fun x _ => ?_
    simp only [Function.comp_apply]
    split <;> rfl
  constructor
  · intro y hy
    obtain ⟨x, hx, rfl⟩ := List.mem_map.1 hy
    split
    · next hsame =>
        obtain rfl := List.inj_on_of_nodup_map hone hx hb hsame
        exact validate_credited (hvalid _ hx) hfree
    · exact hvalid x hx
  · exact hcurrencies ▸ hone
  · intro rest hkeys
    rw [applied, applied, hcurrencies, List.map_map, added_cons,
      if_neg fun h => h.2 (List.mem_map.2 ⟨b, hb, rfl⟩)]
    congr 1
    exact List.map_congr_left fun x _ => (moved_cons hkeys hdelta).symm
  · intro rest hkeys
    refine ⟨fun h => h.of_others hkeys fun y hy hne => ?_,
      fun h => h.of_others hkeys fun x hx hne => List.mem_map.2 ⟨x, hx, if_neg hne⟩⟩
    obtain ⟨x, hx, rfl⟩ := List.mem_map.1 hy
    by_cases hsame : x.currency = b.currency
    · rw [if_pos hsame] at hne
      exact absurd hsame hne
    · rwa [if_neg hsame]

theorem stepsTo_missing (hvalid : ∀ b ∈ balances, b.validate = .ok ())
    (hone : (balances.map (·.currency)).Nodup)
    (hmissing : currency ∉ balances.map (·.currency)) (hname : currency ≠ "")
    (hdelta : 0 < delta) :
    StepsTo balances (currency, delta) (balances ++ [opened currency delta]) := by
  have hcurrencies : (balances ++ [opened currency delta]).map (·.currency) =
      balances.map (·.currency) ++ [currency] := by
    rw [List.map_append]
    rfl
  constructor
  · intro x hx
    rcases List.mem_append.1 hx with hx | hx
    · exact hvalid x hx
    · rw [List.mem_singleton.1 hx]
      exact validate_opened hname hdelta.le
  · rw [hcurrencies]
    simpa using hone.concat hmissing
  · intro rest hkeys
    have hopened : (opened currency delta).currency ∉ rest.map Prod.fst := hkeys
    have hmoved : balances.map (moved ((currency, delta) :: rest)) =
        balances.map (moved rest) := by
      refine List.map_congr_left fun x hx => ?_
      rw [moved_cons hkeys hdelta.ne', if_neg fun hsame => hmissing (List.mem_map.2 ⟨x, hx, hsame⟩)]
    rw [applied, applied, hcurrencies, added_append hkeys, added_cons,
      if_pos ⟨hdelta.ne', hmissing⟩, List.map_append, List.map_singleton,
      moved_of_notMem hopened, hmoved, List.append_assoc]
    rfl
  · intro rest hkeys
    refine ⟨fun h => h.of_others hkeys fun x hx hne => ?_,
      fun h => h.of_others hkeys fun x hx _ => List.mem_append_left _ hx⟩
    rcases List.mem_append.1 hx with hx | hx
    · exact hx
    · exact absurd (by rw [List.mem_singleton.1 hx]; rfl) hne

/-- One delta is applied exactly when it is covered. -/
theorem applyBalanceDelta_spec (hvalid : ∀ b ∈ balances, b.validate = .ok ())
    (hone : (balances.map (·.currency)).Nodup) (hname : currency ≠ "") (hdelta : delta ≠ 0) :
    (CoversEntry balances (currency, delta) → ∃ next,
      applyBalanceDelta balances currency delta = .ok next ∧
      StepsTo balances (currency, delta) next) ∧
    (¬ CoversEntry balances (currency, delta) →
      ∃ e, applyBalanceDelta balances currency delta = .error e) := by
  by_cases hstored : currency ∈ balances.map (·.currency)
  · obtain ⟨b, hb, rfl⟩ := List.mem_map.1 hstored
    obtain ⟨hok, herror⟩ := applyBalanceDelta_held delta hvalid hone hb
    have hcovers : CoversEntry balances (b.currency, delta) ↔ 0 ≤ (amountsOf b).free + delta := by
      refine ⟨fun h => ?_, fun hfree _ => ⟨b, hb, rfl, hfree⟩⟩
      by_cases hnegative : delta < 0
      · obtain ⟨x, hx, hsame, hcover⟩ := h hnegative
        exact List.inj_on_of_nodup_map hone hx hb hsame ▸ hcover
      · have hnonneg := (validate_balance_iff.1 (hvalid b hb)).2.2.2.2.1
        linarith
    rw [hcovers]
    exact ⟨fun hfree => ⟨_, hok hfree, stepsTo_held hvalid hone hb hdelta hfree⟩, herror⟩
  · rw [applyBalanceDelta_missing hstored]
    by_cases hnegative : delta < 0
    · rw [if_pos hnegative]
      refine ⟨fun h => ?_, fun _ => ⟨_, rfl⟩⟩
      obtain ⟨x, hx, hsame, -⟩ := h hnegative
      exact absurd (List.mem_map.2 ⟨x, hx, hsame⟩) hstored
    · rw [if_neg hnegative]
      refine ⟨fun _ => ⟨_, rfl, ?_⟩, fun h => absurd (fun hlt => absurd hlt hnegative) h⟩
      exact stepsTo_missing hvalid hone hstored hname
        (lt_of_le_of_ne (not_lt.1 hnegative) (Ne.symm hdelta))

/-- The deltas are applied exactly when every debit is covered. The induction is
on the deltas that are left; the currency just handled is not among them. -/
theorem applyBalanceDeltas_spec (hvalid : ∀ b ∈ balances, b.validate = .ok ())
    (hone : (balances.map (·.currency)).Nodup) (hkeys : (deltas.map Prod.fst).Nodup)
    (hnames : ∀ entry ∈ deltas, entry.1 ≠ "") :
    (Covered balances deltas →
      applyBalanceDeltas balances deltas = .ok (applied balances deltas) ∧
      ∀ b ∈ applied balances deltas, b.validate = .ok ()) ∧
    (¬ Covered balances deltas → ∃ e, applyBalanceDeltas balances deltas = .error e) := by
  induction deltas generalizing balances with
  | nil =>
    have happlied : applied balances [] = balances := by
      rw [applied, show balances.map (moved []) = balances from
        (List.map_congr_left fun _ _ => rfl).trans (List.map_id balances)]
      exact List.append_nil balances
    rw [happlied]
    exact ⟨fun _ => ⟨rfl, hvalid⟩, fun h => absurd (fun _ hentry => nomatch hentry) h⟩
  | cons entry rest ih =>
    obtain ⟨currency, delta⟩ := entry
    rw [List.map_cons, List.nodup_cons] at hkeys
    obtain ⟨hname, hrestNames⟩ := List.forall_mem_cons.1 hnames
    have hcons : Covered balances ((currency, delta) :: rest) ↔
        CoversEntry balances (currency, delta) ∧ Covered balances rest := List.forall_mem_cons
    rw [hcons]
    by_cases hzero : delta = 0
    · subst hzero
      have hcovers : CoversEntry balances (currency, 0) := fun hlt => absurd hlt (lt_irrefl _)
      rw [applyBalanceDeltas, if_pos rfl, applied_cons_zero hkeys.1]
      obtain ⟨hok, herror⟩ := ih hvalid hone hkeys.2 hrestNames
      exact ⟨fun h => hok h.2, fun h => herror fun hrest => h ⟨hcovers, hrest⟩⟩
    rw [applyBalanceDeltas, if_neg hzero]
    obtain ⟨hok, herror⟩ := applyBalanceDelta_spec hvalid hone hname hzero
    by_cases hcovers : CoversEntry balances (currency, delta)
    · obtain ⟨next, hnext, hsteps⟩ := hok hcovers
      obtain ⟨hok', herror'⟩ := ih hsteps.valid hsteps.one hkeys.2 hrestNames
      rw [hsteps.covered rest hkeys.1, hsteps.applied_eq rest hkeys.1] at hok'
      rw [hsteps.covered rest hkeys.1] at herror'
      rw [hnext]
      exact ⟨fun h => hok' h.2, fun h => herror' fun hrest => h ⟨hcovers, hrest⟩⟩
    · obtain ⟨e, he⟩ := herror hcovers
      exact ⟨fun h => absurd h.1 hcovers, fun _ => ⟨e, by rw [he]; rfl⟩⟩

/-! ### The updated account -/

theorem accountWithBalanceDeltas_spec {account : AccountSnapshot}
    (hvalid : account.validate = .ok ())
    (hone : (account.balances.map (·.currency)).Nodup) (hkeys : (deltas.map Prod.fst).Nodup)
    (hnames : ∀ entry ∈ deltas, entry.1 ≠ "") :
    (Covered account.balances deltas →
      accountWithBalanceDeltas account deltas =
        .ok { account with balances := applied account.balances deltas } ∧
      AccountSnapshot.validate
        { account with balances := applied account.balances deltas } = .ok ()) ∧
    (¬ Covered account.balances deltas →
      ∃ e, accountWithBalanceDeltas account deltas = .error e) := by
  obtain ⟨hid, htype, hbalances, hmargins⟩ := validate_account_iff.1 hvalid
  obtain ⟨hok, herror⟩ := applyBalanceDeltas_spec hbalances hone hkeys hnames
  rw [accountWithBalanceDeltas]
  constructor
  · intro hcovered
    obtain ⟨happlied, hall⟩ := hok hcovered
    have hupdated : AccountSnapshot.validate
        { account with balances := applied account.balances deltas } = .ok () :=
      validate_account_iff.2 ⟨hid, htype, hall, hmargins⟩
    refine ⟨?_, hupdated⟩
    exact except_bind_eq_ok.2 ⟨_, happlied, except_bind_eq_ok.2 ⟨(), hupdated, rfl⟩⟩
  · intro hcovered
    obtain ⟨e, he⟩ := herror hcovered
    exact ⟨e, by rw [he]; rfl⟩

theorem find?_map_moved (balances : List Balance) (deltas : List (Currency × Decimal))
    (currency : Currency) :
    (balances.map (moved deltas)).find? (·.currency = currency) =
      (balances.find? (·.currency = currency)).map (moved deltas) := by
  rw [List.find?_map]
  simp only [Function.comp_def, currency_moved]

theorem find?_added {currencies : List Currency}
    (hkeys : (deltas.map Prod.fst).Nodup) (h : currency ∉ currencies) :
    (added deltas currencies).find? (·.currency = currency) =
      if deltaOf deltas currency = 0 then none
      else some (opened currency (deltaOf deltas currency)) := by
  induction deltas with
  | nil => rfl
  | cons entry rest ih =>
    rw [List.map_cons, List.nodup_cons] at hkeys
    rw [added_cons, deltaOf_cons]
    by_cases hsame : entry.1 = currency
    · subst hsame
      rw [if_pos rfl]
      by_cases hzero : entry.2 = 0
      · rw [if_neg fun h => h.1 hzero, if_pos hzero, ih hkeys.2,
          if_pos (deltaOf_of_notMem hkeys.1)]
      · rw [if_pos ⟨hzero, h⟩, if_neg hzero]
        exact List.find?_cons_of_pos (by simp [opened])
    · rw [if_neg hsame, ← ih hkeys.2]
      split
      · refine List.find?_cons_of_neg ?_
        rw [decide_eq_true_eq]
        exact hsame
      · rfl

theorem notMem_of_find?_eq_none (h : balances.find? (·.currency = currency) = none) :
    currency ∉ balances.map (·.currency) := by
  intro hmem
  obtain ⟨b, hb, hsame⟩ := List.mem_map.1 hmem
  exact List.find?_eq_none.1 h b hb (by simpa using hsame)

/-- What the updated account holds of each currency. -/
theorem held_applied (hkeys : (deltas.map Prod.fst).Nodup) (currency : Currency) :
    held (applied balances deltas) currency =
      ⟨(held balances currency).total + deltaOf deltas currency,
        (held balances currency).locked,
        (held balances currency).free + deltaOf deltas currency⟩ := by
  unfold held
  rw [applied, List.find?_append, find?_map_moved]
  cases hfind : balances.find? (·.currency = currency) with
  | some b =>
    have hcurrency : b.currency = currency := by simpa using List.find?_some hfind
    simp only [Option.map_some, Option.some_or, moved, hcurrency]
    split
    · next hzero => rw [hzero, add_zero, add_zero]
    · exact amountsOf_credited _ _
  | none =>
    have hmissing := notMem_of_find?_eq_none hfind
    simp only [Option.map_none, Option.none_or, find?_added hkeys hmissing, zero_add]
    by_cases hzero : deltaOf deltas currency = 0
    · rw [if_pos hzero, hzero]
    · rw [if_neg hzero]
      exact amountsOf_opened _ _

/-- The balance of a currency that the deltas do not name stays as it is. -/
theorem find?_applied_of_notMem (hkeys : (deltas.map Prod.fst).Nodup)
    (h : currency ∉ deltas.map Prod.fst) :
    (applied balances deltas).find? (·.currency = currency) =
      balances.find? (·.currency = currency) := by
  rw [applied, List.find?_append, find?_map_moved]
  cases hfind : balances.find? (·.currency = currency) with
  | some b =>
    have hcurrency : b.currency = currency := by simpa using List.find?_some hfind
    rw [Option.map_some, Option.some_or, moved_of_notMem (hcurrency ▸ h)]
  | none =>
    have hmissing := notMem_of_find?_eq_none hfind
    rw [Option.map_none, Option.none_or, find?_added hkeys hmissing,
      if_pos (deltaOf_of_notMem h)]

/-- Another order of the deltas moves only the balances that were added. -/
theorem applied_perm {deltas others : List (Currency × Decimal)}
    (hkeys : (deltas.map Prod.fst).Nodup) (hperm : others.Perm deltas) :
    (applied balances others).take balances.length =
        (applied balances deltas).take balances.length ∧
      ((applied balances others).drop balances.length).Perm
        ((applied balances deltas).drop balances.length) := by
  have hmoved : moved others = moved deltas := by
    funext b
    rw [moved, moved, deltaOf_perm hkeys hperm]
  have hadded : (added others (balances.map (·.currency))).Perm
      (added deltas (balances.map (·.currency))) := (hperm.filter _).map _
  have hlength : (balances.map (moved deltas)).length = balances.length := List.length_map _
  rw [applied, applied, hmoved, ← hlength, List.take_left, List.take_left, List.drop_left,
    List.drop_left]
  exact ⟨rfl, hadded⟩

/-- For a valid account with one balance per currency, and the entries of a map
from non-empty currencies to deltas in any order: the update succeeds exactly
when every debited currency has a balance whose free amount covers the debit.
Then the total and free amounts of each currency have changed by its delta, and
its locked amount has not; a currency that is not in the map keeps its balance;
the account is valid, and each balance has its total less its locked amount
free; and every other order of the entries gives the same account, up to the
order of the balances behind those that were there before. -/
theorem accountWithBalanceDeltas_exact {account : AccountSnapshot}
    {deltas : List (Currency × Decimal)} (hvalid : account.validate = .ok ())
    (hone : (account.balances.map (·.currency)).Nodup) (hkeys : (deltas.map Prod.fst).Nodup)
    (hnames : ∀ entry ∈ deltas, entry.1 ≠ "") :
    ((∃ updated, accountWithBalanceDeltas account deltas = .ok updated) ↔
      ∀ entry ∈ deltas, entry.2 < 0 → ∃ b ∈ account.balances, b.currency = entry.1 ∧
        ∃ a, b.amounts = .ok a ∧ 0 ≤ a.free + entry.2) ∧
    ∀ updated, accountWithBalanceDeltas account deltas = .ok updated →
      (∀ currency, held updated.balances currency =
        ⟨(held account.balances currency).total + deltaOf deltas currency,
          (held account.balances currency).locked,
          (held account.balances currency).free + deltaOf deltas currency⟩) ∧
      (∀ currency, currency ∉ deltas.map Prod.fst →
        updated.balances.find? (·.currency = currency) =
          account.balances.find? (·.currency = currency)) ∧
      updated.validate = .ok () ∧
      (∀ b ∈ updated.balances, ∃ a, b.amounts = .ok a ∧ a.total - a.locked = a.free) ∧
      { updated with balances := account.balances } = account ∧
      ∀ others : List (Currency × Decimal), others.Perm deltas →
        ∃ updated', accountWithBalanceDeltas account others = .ok updated' ∧
          { updated' with balances := updated.balances } = updated ∧
          updated'.balances.take account.balances.length =
            updated.balances.take account.balances.length ∧
          (updated'.balances.drop account.balances.length).Perm
            (updated.balances.drop account.balances.length) := by
  obtain ⟨hok, herror⟩ := accountWithBalanceDeltas_spec hvalid hone hkeys hnames
  have hbalances := (validate_account_iff.1 hvalid).2.2.1
  constructor
  · have hcovered : Covered account.balances deltas ↔
        ∀ entry ∈ deltas, entry.2 < 0 → ∃ b ∈ account.balances, b.currency = entry.1 ∧
          ∃ a, b.amounts = .ok a ∧ 0 ≤ a.free + entry.2 := by
      refine forall₂_congr fun entry _ => forall_congr' fun _ => exists_congr fun b =>
        and_congr_right fun hb => and_congr_right fun _ => ?_
      rw [(validate_balance_iff.1 (hbalances b hb)).2.1]
      simp
    rw [← hcovered]
    refine ⟨fun ⟨updated, hupdated⟩ => ?_, fun h => ⟨_, (hok h).1⟩⟩
    by_contra hnot
    obtain ⟨e, he⟩ := herror hnot
    rw [he] at hupdated
    cases hupdated
  · intro updated hupdated
    have hcovered : Covered account.balances deltas := by
      by_contra hnot
      obtain ⟨e, he⟩ := herror hnot
      rw [he] at hupdated
      cases hupdated
    obtain ⟨happlied, hupdatedValid⟩ := hok hcovered
    obtain rfl : { account with balances := applied account.balances deltas } = updated :=
      Except.ok.inj (happlied.symm.trans hupdated)
    refine ⟨held_applied hkeys, fun currency h => find?_applied_of_notMem hkeys h,
      hupdatedValid, fun b hb => ?_, rfl, fun others hperm => ?_⟩
    · obtain ⟨-, hamounts, -, -, -, hsum⟩ :=
        validate_balance_iff.1 ((validate_account_iff.1 hupdatedValid).2.2.1 b hb)
      exact ⟨_, hamounts, hsum⟩
    · obtain ⟨hokOthers, -⟩ := accountWithBalanceDeltas_spec hvalid hone
        ((hperm.map Prod.fst).nodup_iff.2 hkeys) fun entry hentry =>
          hnames entry (hperm.mem_iff.1 hentry)
      have hothers : Covered account.balances others := fun entry hentry =>
        hcovered entry (hperm.mem_iff.1 hentry)
      exact ⟨_, (hokOthers hothers).1, rfl, applied_perm hkeys hperm⟩

end Amounts

/-- Five units, of which two are spent. -/
theorem accountWithBalanceDeltas_exact_debit :
    ∃ updated, @accountWithBalanceDeltas tallies
        { accountID := "a", balances := [@opened tallies "USD" 5] } [("USD", -2)] = .ok updated ∧
      @held tallies updated.balances "USD" = ⟨3, 0, 3⟩ := by
  have hopened := @validate_opened tallies readsBack_tallies "USD" 5 (by decide) (by norm_num)
  have hvalid : @AccountSnapshot.validate tallies
      { accountID := "a", balances := [@opened tallies "USD" 5] } = .ok () := by
    refine (@validate_account_iff tallies _).2 ⟨by decide, rfl, fun b hb => ?_, nofun⟩
    rw [List.mem_singleton.1 hb]
    exact hopened
  have hfive : @held tallies [@opened tallies "USD" 5] "USD" = ⟨5, 0, 5⟩ :=
    @amountsOf_opened tallies readsBack_tallies "USD" 5
  obtain ⟨hiff, hall⟩ := @accountWithBalanceDeltas_exact tallies readsBack_tallies
    { accountID := "a", balances := [@opened tallies "USD" 5] } [("USD", -2)] hvalid
    (by simp) (by simp) (by simp)
  obtain ⟨updated, hupdated⟩ := hiff.2 fun entry hentry _ => by
    rw [List.mem_singleton.1 hentry]
    exact ⟨_, List.mem_singleton_self _, rfl, _,
      @amounts_opened tallies readsBack_tallies "USD" 5, by norm_num⟩
  refine ⟨updated, hupdated, ?_⟩
  rw [(hall updated hupdated).1 "USD", hfive]
  norm_num [deltaOf]

end Exchanges.Portfolio
