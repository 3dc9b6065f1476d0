import Exchanges.Lib.Trace
import Exchanges.Lib.Visits

/-!
The nonces of a lighter client, whose calls place, cancel and modify orders at once.

`GetNextNonce` counts up from a number that it asks the venue for. It holds the lock
while it asks. A call signs its transaction with the nonce that it was given and sends
it, over the websocket or over HTTP. The venue processes a transaction that carries the
nonce it expects, and expects the next one from then on; any transaction may be
rejected, or never be answered. When the websocket brings a rejection the client
forgets its number (`InvalidateNonce`) and asks again for the next call. Nothing of
the kind follows a failed HTTP request.

A number that is asked for while earlier nonces are still under way is given out
twice. And after an HTTP request that failed the client counts on, past the nonce that
the venue waits for.
-/

namespace Exchanges.Sdk

open Exchanges.Lib

set_option linter.unusedSectionVars false

inductive Transport where
  | websocket
  | http
  deriving DecidableEq

/-- What the venue has made of a transaction. -/
inductive Verdict where
  | pending
  | processed
  | rejected
  deriving DecidableEq

/-- How far a call is. -/
inductive LighterCall where
  | idle
  /-- The call holds the lock and has asked the venue for a nonce. -/
  | asking
  /-- The call has a nonce and has not signed yet. -/
  | holds (nonce : ℕ)
  /-- The transaction is signed and under way; the call waits, or has returned. -/
  | signed (nonce : ℕ) (verdict : Verdict) (waits : Bool)
  /-- The call ended before it signed anything. -/
  | failed
  deriving DecidableEq

namespace LighterCall

/-- The nonce of a transaction that is signed and not rejected. -/
def standing : LighterCall → Option ℕ
  | signed nonce .pending _ => some nonce
  | signed nonce .processed _ => some nonce
  | _ => none

/-- The nonce of a call, unless its transaction is rejected. -/
def live : LighterCall → Option ℕ
  | holds nonce => some nonce
  | call => call.standing

/-- The nonce may still be signed or processed. -/
def underWay : LighterCall → Bool
  | holds _ => true
  | signed _ .pending _ => true
  | _ => false

def isProcessed : LighterCall → Bool
  | signed _ .processed _ => true
  | _ => false

/-- The call is past `GetNextNonce`. -/
def begun : LighterCall → Bool
  | idle => false
  | asking => false
  | _ => true

theorem underWay_or_isProcessed {call : LighterCall} {n : ℕ}
    (h : call.live = some n) : call.underWay = true ∨ call.isProcessed = true := by
  cases call with
  | idle => cases h
  | asking => cases h
  | failed => cases h
  | holds nonce => exact .inl rfl
  | signed nonce verdict waits =>
    cases verdict with
    | pending => exact .inl rfl
    | processed => exact .inr rfl
    | rejected => cases h

end LighterCall

/-- What happens next. -/
inductive LighterEvent (ι : Type) where
  /-- A call takes a nonce from the counter. -/
  | take (i : ι)
  /-- A call asks the venue, and the venue answers with the nonce it expects. -/
  | ask (i : ι)
  /-- The request fails, or the answer cannot be read. -/
  | askFails (i : ι)
  /-- The answer is handed out. -/
  | handOut (i : ι)
  /-- Hashing or signing fails. -/
  | abandon (i : ι)
  | sign (i : ι)
  | process (i : ι)
  | reject (i : ι)
  /-- The call returns, with an error or without. -/
  | finish (i : ι) (error : Bool)

/-- A client and its venue. -/
structure LighterClient (ι : Type) where
  nonce : ℕ := 0
  nonceInit : Bool := false
  /-- The call that holds the lock, and the venue's answer to it. -/
  asked : Option (ι × ℕ) := none
  /-- The nonce that the venue expects. -/
  expected : ℕ := 0
  calls : ι → LighterCall := fun _ => .idle
  /-- An HTTP request has failed since the last nonce was handed out. -/
  requestFailed : Bool := false
  /-- The calls that have got a nonce since the venue was asked. -/
  since : List ι := []

namespace LighterClient

variable {ι : Type} [DecidableEq ι] (via : ι → Transport)

def setCall (s : LighterClient ι) (i : ι) (call : LighterCall) : LighterClient ι :=
  { s with calls := Function.update s.calls i call }

theorem calls_setCall (s : LighterClient ι) (i j : ι) (call : LighterCall) :
    (s.setCall i call).calls j = if j = i then call else s.calls j := by
  simp [setCall, Function.update_apply]

/-- The nonce that an event hands out. -/
def handed (s : LighterClient ι) : LighterEvent ι → Option ℕ
  | .take i =>
    if s.asked = none ∧ s.nonceInit = true ∧ s.calls i = .idle then some s.nonce else none
  | .handOut i => (s.asked.filter fun question => decide (question.1 = i)).map (·.2)
  | _ => none

/-- The end of a call. Only the websocket calls look at the answer. -/
def finish (s : LighterClient ι) (i : ι) (error : Bool) (nonce : ℕ) (verdict : Verdict) :
    LighterClient ι :=
  let returned := s.setCall i (.signed nonce verdict false)
  match via i with
  | .http => { returned with requestFailed := s.requestFailed || error }
  | .websocket =>
    if error = true ∧ verdict = .rejected then
      -- `InvalidateNonce` waits for the lock
      if s.asked = none then { returned with nonceInit := false } else s
    else returned

/-- An event that cannot happen changes nothing. -/
def step (s : LighterClient ι) : LighterEvent ι → LighterClient ι
  | .take i =>
    if s.asked = none ∧ s.nonceInit = true ∧ s.calls i = .idle then
      { s.setCall i (.holds s.nonce) with
        nonce := s.nonce + 1, requestFailed := false, since := s.since ++ [i] }
    else s
  | .ask i =>
    if s.asked = none ∧ s.nonceInit = false ∧ s.calls i = .idle then
      { s.setCall i .asking with asked := some (i, s.expected) }
    else s
  | .askFails i =>
    match s.asked with
    | none => s
    | some (j, _) => if j = i then { s.setCall i .failed with asked := none } else s
  | .handOut i =>
    match s.asked with
    | none => s
    | some (j, n) =>
      if j = i then
        { s.setCall i (.holds n) with
          nonce := n + 1, nonceInit := true, asked := none, requestFailed := false
          since := [i] }
      else s
  | .abandon i =>
    match s.calls i with
    | .holds _ => s.setCall i .failed
    | _ => s
  | .sign i =>
    match s.calls i with
    | .holds n => s.setCall i (.signed n .pending true)
    | _ => s
  | .process i =>
    match s.calls i with
    | .signed n .pending waits =>
      if n = s.expected then
        { s.setCall i (.signed n .processed waits) with expected := s.expected + 1 }
      else s
    | _ => s
  | .reject i =>
    match s.calls i with
    | .signed n .pending waits => s.setCall i (.signed n .rejected waits)
    | _ => s
  | .finish i error =>
    match s.calls i with
    | .signed n verdict true => s.finish via i error n verdict
    | _ => s

/-- A client that has not asked yet, and a venue that may have processed other
transactions before. -/
def start (expected : ℕ) : LighterClient ι := { expected := expected }

def after (s : LighterClient ι) (events : List (LighterEvent ι)) : LighterClient ι :=
  events.foldl (step via) s

/-! ### What the client is meant to do -/

/-- No two transactions that are signed and not rejected carry the same nonce. -/
def Unique (s : LighterClient ι) : Prop :=
  ∀ i j nonce, (s.calls i).standing = some nonce → (s.calls j).standing = some nonce → i = j

/-- The nonce that is handed out after a failed HTTP request is the one that the venue
expects. -/
def Expects (s : LighterClient ι) (event : LighterEvent ι) : Prop :=
  s.requestFailed = true → ∀ nonce, s.handed event = some nonce → nonce = s.expected

/-- The venue is asked only when no nonce is under way. -/
def AsksAlone (s : LighterClient ι) : LighterEvent ι → Prop
  | .ask _ => ∀ j, (s.calls j).underWay = false
  | _ => True

/-- After a failed HTTP request a nonce is taken from the counter only if the venue has
processed all transactions since it was asked. -/
def TakesAfter (s : LighterClient ι) : LighterEvent ι → Prop
  | .take i => s.requestFailed = true → (s.handed (.take i)).isSome = true →
      ∀ j ∈ s.since, (s.calls j).isProcessed = true
  | _ => True

/-! ### What an event can do -/

variable {via} {s s' : LighterClient ι} {e : LighterEvent ι} {i j : ι}

/-- A call goes on to `call`: it keeps its nonce or gives it up. -/
structure Fades (s : LighterClient ι) (i : ι) (call : LighterCall) : Prop where
  live : ∀ n, call.live = some n → (s.calls i).live = some n
  underWay : call.underWay = true → (s.calls i).underWay = true
  isProcessed : call.isProcessed = (s.calls i).isProcessed
  begun : call.begun = true

inductive Moves (s : LighterClient ι) : LighterEvent ι → LighterClient ι → Prop
  | stays (e : LighterEvent ι) : Moves s e s
  | take (i : ι) (hasked : s.asked = none) (hinit : s.nonceInit = true)
      (hidle : s.calls i = .idle) : Moves s (.take i)
        { s.setCall i (.holds s.nonce) with
          nonce := s.nonce + 1, requestFailed := false, since := s.since ++ [i] }
  | ask (i : ι) (hasked : s.asked = none) (hinit : s.nonceInit = false)
      (hidle : s.calls i = .idle) : Moves s (.ask i)
        { s.setCall i .asking with asked := some (i, s.expected) }
  | handOut (i : ι) (n : ℕ) (hasked : s.asked = some (i, n)) : Moves s (.handOut i)
        { s.setCall i (.holds n) with
          nonce := n + 1, nonceInit := true, asked := none, requestFailed := false
          since := [i] }
  | process (i : ι) (waits : Bool) (hcall : s.calls i = .signed s.expected .pending waits) :
      Moves s (.process i)
        { s.setCall i (.signed s.expected .processed waits) with expected := s.expected + 1 }
  | fades (e : LighterEvent ι) (i : ι) (call : LighterCall) (init failed : Bool)
      (asked : Option (ι × ℕ)) (hfades : Fades s i call)
      (hinit : init = true → s.nonceInit = true)
      (hasked : asked = none ∨ asked = s.asked ∧ s.calls i ≠ .asking) : Moves s e
        { s.setCall i call with nonceInit := init, asked := asked, requestFailed := failed }

theorem moves_finish {error : Bool} {n : ℕ} {verdict : Verdict}
    (hcall : s.calls i = .signed n verdict true) :
    Moves s (.finish i error) (s.finish via i error n verdict) := by
  have hfades : Fades s i (.signed n verdict false) := by
    refine ⟨?_, ?_, ?_, rfl⟩ <;> rw [hcall] <;> cases verdict <;>
      simp [LighterCall.live, LighterCall.standing, LighterCall.underWay, LighterCall.isProcessed]
  have hasked : s.asked = none ∨ s.asked = s.asked ∧ s.calls i ≠ .asking :=
    .inr ⟨rfl, by rw [hcall]; nofun⟩
  unfold LighterClient.finish
  dsimp only
  cases via i with
  | http => exact .fades _ i _ s.nonceInit _ s.asked hfades id hasked
  | websocket =>
    dsimp only
    split
    · split
      · exact .fades _ i _ false s.requestFailed s.asked hfades nofun hasked
      · exact .stays _
    · exact .fades _ i _ s.nonceInit s.requestFailed s.asked hfades id hasked

/-- An event does one of these things. -/
theorem moves_step (via : ι → Transport)
    (hasking : ∀ i n, s.asked = some (i, n) → s.calls i = .asking) (e : LighterEvent ι) : Moves s e (s.step via e) := by
  cases e with
  | take i =>
    dsimp only [step]
    split
    · next h => exact .take i h.1 h.2.1 h.2.2
    · exact .stays _
  | ask i =>
    dsimp only [step]
    split
    · next h => exact .ask i h.1 h.2.1 h.2.2
    · exact .stays _
  | askFails i =>
    dsimp only [step]
    split
    · exact .stays _
    · next j n hasked =>
        split
        · next heq =>
            rw [heq] at hasked
            refine .fades _ i _ s.nonceInit s.requestFailed none ⟨nofun, nofun, ?_, rfl⟩ id (.inl rfl)
            rw [hasking i n hasked]
            rfl
        · exact .stays _
  | handOut i =>
    dsimp only [step]
    split
    · exact .stays _
    · next j n hasked =>
        split
        · next heq =>
            rw [heq] at hasked
            exact .handOut i n hasked
        · exact .stays _
  | abandon i =>
    dsimp only [step]
    split
    · next n hcall =>
        refine .fades _ i _ s.nonceInit s.requestFailed s.asked ⟨nofun, nofun, ?_, rfl⟩ id
          (.inr ⟨rfl, by rw [hcall]; nofun⟩)
        rw [hcall]
        rfl
    · exact .stays _
  | sign i =>
    dsimp only [step]
    split
    · next n hcall =>
        refine .fades _ i _ s.nonceInit s.requestFailed s.asked ⟨?_, ?_, ?_, rfl⟩ id
          (.inr ⟨rfl, by rw [hcall]; nofun⟩)
        · intro k hk
          rw [hcall]
          exact hk
        · intro _
          rw [hcall]
          rfl
        · rw [hcall]
          rfl
    · exact .stays _
  | process i =>
    dsimp only [step]
    split
    · next n waits hcall =>
        split
        · next heq =>
            rw [heq] at hcall ⊢
            exact .process i waits hcall
        · exact .stays _
    · exact .stays _
  | reject i =>
    dsimp only [step]
    split
    · next n waits hcall =>
        refine .fades _ i _ s.nonceInit s.requestFailed s.asked ⟨nofun, nofun, ?_, rfl⟩ id
          (.inr ⟨rfl, by rw [hcall]; nofun⟩)
        rw [hcall]
        rfl
    · exact .stays _
  | finish i error =>
    dsimp only [step]
    split
    · next n verdict hcall => exact moves_finish hcall
    · exact .stays _

/-! ### The invariant -/

/-- A call whose nonce the venue has not counted. -/
def missing (s : LighterClient ι) (j : ι) : ℤ := if (s.calls j).isProcessed then 0 else 1

/-- The client and the venue, as long as the venue was asked only when no nonce was
under way. -/
structure Orderly (s : LighterClient ι) : Prop where
  asked : ∀ i n, s.asked = some (i, n) → s.calls i = .asking ∧ s.nonceInit = false ∧
    n = s.expected ∧ ∀ j, (s.calls j).underWay = false
  below : s.nonceInit = true → ∀ j n, (s.calls j).live = some n → n < s.nonce
  processed : ∀ j n, (s.calls j).isProcessed = true → (s.calls j).live = some n → n < s.expected
  distinct : ∀ i j n, (s.calls i).live = some n → (s.calls j).live = some n → i = j
  begun : ∀ j ∈ s.since, (s.calls j).begun = true
  nodup : s.since.Nodup
  listed : s.nonceInit = true → ∀ j, (s.calls j).underWay = true → j ∈ s.since
  /-- The counter is ahead of the venue by the nonces that it has not counted. -/
  count : s.nonceInit = true → (s.nonce : ℤ) = s.expected + (s.since.map s.missing).sum

theorem orderly_start (expected : ℕ) : Orderly (start expected : LighterClient ι) :=
  ⟨nofun, nofun, nofun, nofun, nofun, .nil, nofun, nofun⟩

theorem missing_setCall (s : LighterClient ι) (call : LighterCall) (j : ι) :
    (s.setCall i call).missing j =
      if j = i then if call.isProcessed then 0 else 1 else s.missing j := by
  unfold missing
  rw [calls_setCall]
  split <;> rfl

/-- A nonce that nobody has is handed out. -/
theorem Orderly.give (h : Orderly s) {n : ℕ}
    (hbelow : ∀ j k, (s.calls j).live = some k → k < n) {s' : LighterClient ι}
    (hcalls : ∀ j, s'.calls j = if j = i then .holds n else s.calls j)
    (hnonce : s'.nonce = n + 1) (hexpected : s'.expected = s.expected) (hasked : s'.asked = none)
    (hbegun : ∀ j ∈ s'.since, j = i ∨ j ∈ s.since) (hnodup : s'.since.Nodup)
    (hlisted : ∀ j, j = i ∨ (s.calls j).underWay = true → j ∈ s'.since)
    (hcount : ((n + 1 : ℕ) : ℤ) = s.expected + (s'.since.map s'.missing).sum) : Orderly s' := by
  refine ⟨fun j k hjk => ?_, fun _ j k hk => ?_, fun j k hp hk => ?_, fun j j' k hj hj' => ?_,
    fun j hj => ?_, hnodup, fun _ j hj => hlisted j ?_, fun _ => ?_⟩
  · rw [hasked] at hjk
    cases hjk
  · rw [hcalls] at hk
    rw [hnonce]
    split at hk
    · cases hk
      exact Nat.lt_succ_self n
    · exact Nat.lt_succ_of_lt (hbelow j k hk)
  · rw [hcalls] at hp hk
    split at hp
    · cases hp
    · next hne =>
        rw [if_neg hne] at hk
        rw [hexpected]
        exact h.processed j k hp hk
  · rw [hcalls] at hj hj'
    split at hj <;> split at hj'
    · next hi hi' => rw [hi, hi']
    · cases hj
      exact absurd (hbelow _ _ hj') (lt_irrefl _)
    · cases hj'
      exact absurd (hbelow _ _ hj) (lt_irrefl _)
    · exact h.distinct j j' k hj hj'
  · rw [hcalls]
    split
    · rfl
    · next hne => exact h.begun j ((hbegun j hj).resolve_left hne)
  · rw [hcalls] at hj
    split at hj
    · next heq => exact .inl heq
    · exact .inr hj
  · rw [hnonce, hexpected]
    exact hcount

theorem not_mem_since (h : Orderly s) (hidle : (s.calls i).begun = false) : i ∉ s.since := by
  intro hmem
  rw [h.begun i hmem] at hidle
  cases hidle

theorem Orderly.take (h : Orderly s) (hinit : s.nonceInit = true) (hasked : s.asked = none)
    (hidle : s.calls i = .idle) : Orderly
      { s.setCall i (.holds s.nonce) with
        nonce := s.nonce + 1, requestFailed := false, since := s.since ++ [i] } := by
  have hnew : i ∉ s.since := not_mem_since h (by rw [hidle]; rfl)
  refine h.give (h.below hinit) (fun j => calls_setCall s i j _) rfl rfl hasked ?_ ?_ ?_ ?_
  · intro j hj
    rcases List.mem_append.mp hj with hj | hj
    · exact .inr hj
    · exact .inl (List.mem_singleton.mp hj)
  · exact List.nodup_append.mpr ⟨h.nodup, List.nodup_singleton i, fun j hj k hk heq =>
      hnew (List.mem_singleton.mp hk ▸ heq ▸ hj)⟩
  · rintro j (rfl | hj)
    · exact List.mem_append_right _ List.mem_cons_self
    · exact List.mem_append_left _ (h.listed hinit j hj)
  · have hold : s.since.map (s.setCall i (.holds s.nonce)).missing = s.since.map s.missing := by
      refine List.map_congr_left fun j hj => ?_
      rw [missing_setCall, if_neg (ne_of_mem_of_not_mem hj hnew)]
    have hone : (s.setCall i (.holds s.nonce)).missing i = 1 := by
      rw [missing_setCall, if_pos rfl]
      rfl
    change _ = _ + ((s.since ++ [i]).map (s.setCall i (.holds s.nonce)).missing).sum
    rw [List.map_append, List.sum_append, hold, List.map_singleton, hone, List.sum_singleton]
    have hcount := h.count hinit
    push_cast
    omega

theorem Orderly.handOut (h : Orderly s) {n : ℕ} (hasked : s.asked = some (i, n)) : Orderly
      { s.setCall i (.holds n) with
        nonce := n + 1, nonceInit := true, asked := none, requestFailed := false
        since := [i] } := by
  obtain ⟨-, -, hn, hnone⟩ := h.asked i n hasked
  refine h.give ?_ (fun j => calls_setCall s i j _) rfl rfl rfl
    (fun j hj => .inl (List.mem_singleton.mp hj)) (List.nodup_singleton i) ?_ ?_
  · -- whatever has a nonce has been processed
    intro j k hk
    rcases LighterCall.underWay_or_isProcessed hk with hway | hprocessed
    · rw [hnone j] at hway
      cases hway
    · rw [hn]
      exact h.processed j k hprocessed hk
  · rintro j (rfl | hj)
    · exact List.mem_cons_self
    · rw [hnone j] at hj
      cases hj
  · have hone : (s.setCall i (.holds n)).missing i = 1 := by
      rw [missing_setCall, if_pos rfl]
      rfl
    change _ = _ + ([i].map (s.setCall i (.holds n)).missing).sum
    rw [List.map_singleton, hone, List.sum_singleton, hn]
    push_cast
    rfl

theorem Orderly.ask (h : Orderly s) (hinit : s.nonceInit = false) (hidle : s.calls i = .idle)
    (hnone : ∀ j, (s.calls j).underWay = false) :
    Orderly { s.setCall i .asking with asked := some (i, s.expected) } := by
  have hnew : i ∉ s.since := not_mem_since h (by rw [hidle]; rfl)
  have hcalls := fun j => calls_setCall s i j .asking
  have hlive : ∀ j n, ((s.setCall i .asking).calls j).live = some n →
      (s.calls j).live = some n := by
    intro j n hj
    rw [hcalls] at hj
    split at hj
    · cases hj
    · exact hj
  refine ⟨fun j n hjn => ?_, fun hcontra => ?_, fun j n hp hl => ?_, fun j k n hj hk => ?_,
    fun j hj => ?_, h.nodup, fun hcontra => ?_, fun hcontra => ?_⟩
  · cases hjn
    refine ⟨?_, hinit, rfl, fun k => ?_⟩
    · exact (hcalls i).trans (if_pos rfl)
    · change ((s.setCall i .asking).calls k).underWay = false
      rw [hcalls]
      split
      · rfl
      · exact hnone k
  · cases hinit.symm.trans hcontra
  · refine h.processed j n ?_ (hlive j n hl)
    change ((s.setCall i .asking).calls j).isProcessed = true at hp
    rw [hcalls] at hp
    split at hp
    · cases hp
    · exact hp
  · exact h.distinct j k n (hlive j n hj) (hlive k n hk)
  · change ((s.setCall i .asking).calls j).begun = true
    rw [hcalls, if_neg (ne_of_mem_of_not_mem hj hnew)]
    exact h.begun j hj
  · cases hinit.symm.trans hcontra
  · cases hinit.symm.trans hcontra

theorem Orderly.process (h : Orderly s) {waits : Bool}
    (hcall : s.calls i = .signed s.expected .pending waits) : Orderly
      { s.setCall i (.signed s.expected .processed waits) with expected := s.expected + 1 } := by
  have hcalls := fun j => calls_setCall s i j (.signed s.expected .processed waits)
  have hlive : ∀ j, ((s.setCall i (.signed s.expected .processed waits)).calls j).live =
      (s.calls j).live := by
    intro j
    rw [hcalls]
    split
    · next heq =>
        rw [heq, hcall]
        rfl
    · rfl
  have hway : (s.calls i).underWay = true := by
    rw [hcall]
    rfl
  refine ⟨fun j n hjn => ?_, fun hinit j n hj => ?_, fun j n hp hl => ?_, fun j k n hj hk => ?_,
    fun j hj => ?_, h.nodup, fun hinit j hj => ?_, fun hinit => ?_⟩
  · have hnone := (h.asked j n hjn).2.2.2 i
    rw [hway] at hnone
    cases hnone
  · change ((s.setCall i _).calls j).live = some n at hj
    rw [hlive] at hj
    exact h.below hinit j n hj
  · change ((s.setCall i _).calls j).isProcessed = true at hp
    change ((s.setCall i _).calls j).live = some n at hl
    change n < s.expected + 1
    rw [hlive] at hl
    rw [hcalls] at hp
    split at hp
    · next heq =>
        rw [heq, hcall] at hl
        cases hl
        exact Nat.lt_succ_self _
    · exact Nat.lt_succ_of_lt (h.processed j n hp hl)
  · change ((s.setCall i _).calls j).live = some n at hj
    change ((s.setCall i _).calls k).live = some n at hk
    rw [hlive] at hj hk
    exact h.distinct j k n hj hk
  · change ((s.setCall i _).calls j).begun = true
    rw [hcalls]
    split
    · rfl
    · exact h.begun j hj
  · change ((s.setCall i _).calls j).underWay = true at hj
    rw [hcalls] at hj
    split at hj
    · cases hj
    · exact h.listed hinit j hj
  · have hchange := sum_map_change h.nodup (h.listed hinit i hway)
      (f := s.missing) (g := (s.setCall i (.signed s.expected .processed waits)).missing)
      fun j _ hne => by rw [missing_setCall, if_neg hne]
    have hself : s.missing i = 1 := by
      rw [missing, hcall]
      rfl
    rw [missing_setCall, if_pos rfl, hself] at hchange
    change ((s.nonce : ℕ) : ℤ) = ((s.expected + 1 : ℕ) : ℤ) +
      (s.since.map (s.setCall i (.signed s.expected .processed waits)).missing).sum
    have hcount := h.count hinit
    simp only [LighterCall.isProcessed, if_true] at hchange
    rw [hchange]
    push_cast
    omega

theorem Orderly.fades (h : Orderly s) {call : LighterCall} {init failed : Bool}
    {asked : Option (ι × ℕ)} (hfades : Fades s i call) (hinit : init = true → s.nonceInit = true)
    (hasked : asked = none ∨ asked = s.asked ∧ s.calls i ≠ .asking) : Orderly
      { s.setCall i call with nonceInit := init, asked := asked, requestFailed := failed } := by
  have hcalls := fun j => calls_setCall s i j call
  have hlive : ∀ j n, ((s.setCall i call).calls j).live = some n → (s.calls j).live = some n := by
    intro j n hj
    rw [hcalls] at hj
    split at hj
    · next heq => exact heq ▸ hfades.live n hj
    · exact hj
  have hway : ∀ j, ((s.setCall i call).calls j).underWay = true →
      (s.calls j).underWay = true := by
    intro j hj
    rw [hcalls] at hj
    split at hj
    · next heq => exact heq ▸ hfades.underWay hj
    · exact hj
  have hprocessed : ∀ j, ((s.setCall i call).calls j).isProcessed = (s.calls j).isProcessed := by
    intro j
    rw [hcalls]
    split
    · next heq => exact heq ▸ hfades.isProcessed
    · rfl
  refine ⟨fun j n hjn => ?_, fun hi j n hj => h.below (hinit hi) j n (hlive j n hj),
    fun j n hp hl => h.processed j n (hprocessed j ▸ hp) (hlive j n hl),
    fun j k n hj hk => h.distinct j k n (hlive j n hj) (hlive k n hk), fun j hj => ?_, h.nodup,
    fun hi j hj => h.listed (hinit hi) j (hway j hj), fun hi => ?_⟩
  · rcases hasked with hnone | ⟨hsame, hne⟩
    · cases hnone.symm.trans hjn
    · obtain ⟨hcall, hfalse, hn, hnone⟩ := h.asked j n (hsame.symm.trans hjn)
      have hji : j ≠ i := fun heq => hne (heq ▸ hcall)
      refine ⟨((hcalls j).trans (if_neg hji)).trans hcall, ?_, hn, fun k => ?_⟩
      · cases init with
        | false => rfl
        | true => cases hfalse.symm.trans (hinit rfl)
      · by_contra hk
        have hk' := hway k (by simpa using hk)
        rw [hnone k] at hk'
        cases hk'
  · change ((s.setCall i call).calls j).begun = true
    rw [hcalls]
    split
    · exact hfades.begun
    · exact h.begun j hj
  · have hsame : (s.setCall i call).missing = s.missing := by
      funext j
      rw [missing, hprocessed, missing]
    change _ = _ + (s.since.map (s.setCall i call).missing).sum
    rw [hsame]
    exact h.count (hinit hi)

/-- An event keeps the invariant, if the venue is not asked too early. -/
theorem Orderly.step (h : Orderly s) (e : LighterEvent ι) (halone : s.AsksAlone e) :
    Orderly (s.step via e) := by
  have hmoves := moves_step via (fun i n hi => (h.asked i n hi).1) e
  generalize s.step via e = s' at hmoves ⊢
  cases hmoves with
  | stays => exact h
  | take i hasked hinit hidle => exact h.take hinit hasked hidle
  | ask i hasked hinit hidle => exact h.ask hinit hidle halone
  | handOut i n hasked => exact h.handOut hasked
  | process i waits hcall => exact h.process hcall
  | fades _ i call init failed asked hfades hinit hasked => exact h.fades hfades hinit hasked

/-! ### A run -/

theorem Orderly.unique (h : Orderly s) : s.Unique := by
  have hlive : ∀ {call : LighterCall} {n}, call.standing = some n → call.live = some n := by
    intro call n hn
    cases call with
    | holds nonce => cases hn
    | _ => exact hn
  intro i j n hi hj
  exact h.distinct i j n (hlive hi) (hlive hj)

/-- The counter is at the nonce that the venue expects exactly if the venue has counted
every nonce since it was asked. -/
theorem Orderly.nonce_eq_iff (h : Orderly s) (hinit : s.nonceInit = true) :
    s.nonce = s.expected ↔ ∀ j ∈ s.since, (s.calls j).isProcessed = true := by
  have hcount := h.count hinit
  constructor
  · intro heq j hj
    have hnonneg : ∀ x ∈ s.since.map s.missing, 0 ≤ x := by
      intro x hx
      obtain ⟨k, -, rfl⟩ := List.mem_map.mp hx
      unfold missing
      split <;> decide
    have hle := List.single_le_sum hnonneg _ (List.mem_map_of_mem hj)
    by_contra hmissing
    rw [missing, if_neg hmissing] at hle
    omega
  · intro hall
    have hzero : (s.since.map s.missing).sum = 0 := by
      refine List.sum_eq_zero fun x hx => ?_
      obtain ⟨j, hj, rfl⟩ := List.mem_map.mp hx
      rw [missing, hall j hj]
      rfl
    omega

theorem Orderly.expects_iff (h : Orderly s) (e : LighterEvent ι) :
    s.Expects e ↔ s.TakesAfter e := by
  cases e with
  | take i =>
    refine imp_congr_right fun _ => ?_
    dsimp only [handed]
    split
    · next henabled =>
        rw [← h.nonce_eq_iff henabled.2.1]
        simp
    · exact iff_of_true nofun nofun
  | handOut i =>
    refine iff_of_true (fun _ n hn => ?_) trivial
    obtain ⟨⟨j, k⟩, hquestion, rfl⟩ := Option.map_eq_some_iff.mp hn
    exact (h.asked j k (Option.filter_eq_some_iff.mp hquestion).1).2.2.1
  | _ => exact iff_of_true nofun trivial

theorem orderly_after {expected : ℕ} {events : List (LighterEvent ι)}
    (halone : Along (fun done e => ((start expected).after via done).AsksAlone e) events) :
    Orderly ((start expected).after via events) := by
  induction events using List.reverseRecOn with
  | nil => exact orderly_start expected
  | append_singleton events e ih =>
    obtain ⟨hbefore, he⟩ := along_concat.mp halone
    rw [after, List.foldl_concat]
    exact (ih hbefore).step e he

/-- In a run in which the venue is asked only when no nonce is under way, no two
transactions that are signed and not rejected ever carry the same nonce; and every
nonce that follows a failed HTTP request is the one that the venue expects exactly if,
whenever such a nonce is taken from the counter, the venue has processed all
transactions since it was asked. -/
theorem nonces_sound (via : ι → Transport) (expected : ℕ) (events : List (LighterEvent ι))
    (halone : Along (fun done e => ((start expected).after via done).AsksAlone e) events) :
    Throughout (fun done => ((start expected).after via done).Unique) events ∧
      (Along (fun done e => ((start expected).after via done).Expects e) events ↔
        Along (fun done e => ((start expected).after via done).TakesAfter e) events) := by
  refine ⟨fun done hdone => (orderly_after (halone.init hdone)).unique, ?_⟩
  have horderly : ∀ {done e}, done ++ [e] <+: events → Orderly ((start expected).after via done) :=
    fun hdone => orderly_after (halone.init ((List.prefix_append ..).trans hdone))
  constructor
  · intro hexpects done e hdone
    exact ((horderly hdone).expects_iff e).mp (hexpects done e hdone)
  · intro htakes done e hdone
    exact ((horderly hdone).expects_iff e).mpr (htakes done e hdone)

instance [Fintype ι] (s : LighterClient ι) : DecidablePred s.AsksAlone
  | .ask _ => inferInstanceAs (Decidable (∀ j, (s.calls j).underWay = false))
  | .take _ | .askFails _ | .handOut _ | .abandon _ | .sign _ | .process _ | .reject _
  | .finish .. => .isTrue trivial

end LighterClient

open LighterClient

/-- One transaction after the other, over the websocket. -/
def oneByOne : List (LighterEvent (Fin 3)) :=
  [.ask 0, .handOut 0, .sign 0, .process 0, .finish 0 false, .take 1, .sign 1]

theorem nonces_sound_one_by_one :
    Throughout (fun done => ((start 0).after (fun _ => .websocket) done).Unique) oneByOne ∧
      (Along (fun done e => ((start 0).after (fun _ => .websocket) done).Expects e) oneByOne ↔
        Along (fun done e => ((start 0).after (fun _ => .websocket) done).TakesAfter e)
          oneByOne) :=
  nonces_sound (fun _ => .websocket) 0 oneByOne (by decide +kernel)

/-- The second of two transactions is rejected while the first is under way. -/
def rejectedMeanwhile : LighterClient (Fin 3) :=
  (start 0).after (fun _ => .websocket)
    [.ask 0, .handOut 0, .sign 0, .take 1, .sign 1, .reject 1, .finish 1 true, .ask 2,
      .handOut 2, .sign 2]

/-- An HTTP request is refused. -/
def refusedRequest : LighterClient (Fin 3) :=
  (start 0).after (fun _ => .http) [.ask 0, .handOut 0, .sign 0, .reject 0, .finish 0 true]

/-- The third call gets the nonce of the first, which is signed and not rejected. And
after the refused request the next nonce is 1, where the venue expects 0. -/
theorem nonces_repeated_and_skipped :
    ¬ rejectedMeanwhile.Unique ∧ ¬ refusedRequest.Expects (.take 1) := by
  constructor
  · intro hunique
    have hfirst : (rejectedMeanwhile.calls 0).standing = some 0 := by decide +kernel
    have hthird : (rejectedMeanwhile.calls 2).standing = some 0 := by decide +kernel
    exact absurd (hunique 0 2 0 hfirst hthird) (by decide)
  · intro hexpects
    have hhanded : refusedRequest.handed (.take 1) = some 1 := by decide +kernel
    have hexpected := hexpects (by decide +kernel) 1 hhanded
    exact absurd hexpected (by decide +kernel)

end Exchanges.Sdk
