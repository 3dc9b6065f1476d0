import Exchanges.Lib.Trace

/-!
The nonces of a hyperliquid client, which any number of calls take at once.

`Client` and `WebsocketClient` have the same `GetNextNonce`, each on a counter of
its own. A call loads the counter, reads the clock, and tries to swap its
candidate in; it starts over when another call was faster. Every one of these is
one atomic action, and a schedule says which call acts next and what the clock
shows then. The clock is given from outside and need not be any good.

The counter is an `int64`. A call that finds it at the end of its range adds one to
it all the same, so that the numbers start again from the least.
-/

namespace Exchanges.Sdk

open Exchanges.Lib

/-- How far a call of `GetNextNonce` is. -/
inductive NonceCall where
  | idle
  /-- Before `LastNonce.Load`. -/
  | load
  /-- Before `time.Now`. -/
  | clock (last : Int64)
  /-- Before `CompareAndSwap`. -/
  | swap (last candidate : Int64)
  /-- The candidate is in; the call has yet to return it. -/
  | done (nonce : Int64)
  | returned (nonce : Int64)
  deriving DecidableEq

namespace NonceCall

/-- The nonce that a call has taken. -/
def taken : NonceCall → Option Int64
  | done nonce => some nonce
  | returned nonce => some nonce
  | _ => none

/-- A counter that was loaded can be added to, and a candidate is above it. -/
def Sound : NonceCall → Prop
  | clock last => last ≠ Int64.maxValue
  | swap last candidate => last < candidate
  | _ => True

end NonceCall

/-- A client, with the calls that are made on it. -/
structure NonceClient (ι : Type) where
  lastNonce : Int64 := 0
  calls : ι → NonceCall := fun _ => .idle

/-- What a call makes of the counter and the clock. -/
def nonceCandidate (last now : Int64) : Int64 := if now ≤ last then last + 1 else now

theorem lt_nonceCandidate {last : Int64} (now : Int64) (h : last ≠ Int64.maxValue) :
    last < nonceCandidate last now := by
  unfold nonceCandidate
  split
  · have hmax : last.toInt ≠ Int64.maxValue.toInt := fun heq => h (Int64.toInt_inj.mp heq)
    have hle := last.toInt_le
    have hge := last.le_toInt
    have hone : (1 : Int64).toInt = 1 := rfl
    rw [Int64.toInt_maxValue] at hmax hle
    rw [Int64.lt_iff_toInt_lt, Int64.toInt_add, hone]
    rw [Int.bmod_eq_of_le] <;> omega
  · next hlt => exact Int64.not_le.mp hlt

namespace NonceClient

variable {ι : Type} [DecidableEq ι]

def setCall (c : NonceClient ι) (i : ι) (call : NonceCall) : NonceClient ι :=
  { c with calls := Function.update c.calls i call }

theorem calls_setCall (c : NonceClient ι) (i j : ι) (call : NonceCall) :
    (c.setCall i call).calls j = if j = i then call else c.calls j := by
  simp [setCall, Function.update_apply]

/-- `CompareAndSwap`, and what follows it. -/
def compareAndSwap (c : NonceClient ι) (i : ι) (last candidate : Int64) : NonceClient ι :=
  if c.lastNonce = last then
    { c.setCall i (.done candidate) with lastNonce := candidate }
  else c.setCall i .load

/-- The next action of a call, at a moment when the clock shows the given time. -/
def act (c : NonceClient ι) (turn : ι × Int64) : NonceClient ι :=
  match c.calls turn.1 with
  | .idle => c.setCall turn.1 .load
  | .load => c.setCall turn.1 (.clock c.lastNonce)
  | .clock last => c.setCall turn.1 (.swap last (nonceCandidate last turn.2))
  | .swap last candidate => c.compareAndSwap turn.1 last candidate
  | .done nonce => c.setCall turn.1 (.returned nonce)
  | .returned _ => c

/-- The client after a schedule. -/
def after (schedule : List (ι × Int64)) : NonceClient ι := schedule.foldl act {}

theorem after_concat (schedule : List (ι × Int64)) (turn : ι × Int64) :
    after (schedule ++ [turn]) = (after schedule).act turn := by
  rw [after, List.foldl_concat, after]

/-- A call is about to load the greatest counter there is. -/
def Exhausted (c : NonceClient ι) (i : ι) : Prop :=
  c.lastNonce = Int64.maxValue ∧ c.calls i = .load

instance (c : NonceClient ι) (i : ι) : Decidable (Exhausted c i) :=
  inferInstanceAs (Decidable (_ ∧ _))

/-! ### One action -/

/-- What an action can do while the counter has room: a call goes on with the nonce
that it has, if any, or it takes one above the counter and moves the counter there. -/
theorem act_cases {c : NonceClient ι} {turn : ι × Int64} (hroom : ¬ Exhausted c turn.1)
    (hsound : (c.calls turn.1).Sound) :
    (∃ call : NonceCall, call.Sound ∧ call.taken = (c.calls turn.1).taken ∧
      c.act turn = c.setCall turn.1 call) ∨
    ∃ nonce, c.lastNonce < nonce ∧
      c.act turn = { c.setCall turn.1 (.done nonce) with lastNonce := nonce } := by
  unfold act
  cases hcall : c.calls turn.1 with
  | idle => exact .inl ⟨.load, trivial, rfl, rfl⟩
  | load => exact .inl ⟨.clock c.lastNonce, fun hmax => hroom ⟨hmax, hcall⟩, rfl, rfl⟩
  | clock last =>
    rw [hcall] at hsound
    exact .inl ⟨.swap last (nonceCandidate last turn.2), lt_nonceCandidate turn.2 hsound, rfl, rfl⟩
  | swap last candidate =>
    rw [hcall] at hsound
    dsimp only [compareAndSwap]
    split
    · next heq => exact .inr ⟨candidate, heq ▸ hsound, rfl⟩
    · exact .inl ⟨.load, trivial, rfl, rfl⟩
  | done nonce => exact .inl ⟨.returned nonce, trivial, rfl, rfl⟩
  | returned nonce =>
    refine .inl ⟨.returned nonce, trivial, rfl, ?_⟩
    change c = { c with calls := Function.update c.calls turn.1 (.returned nonce) }
    rw [← hcall, Function.update_eq_self]

/-- The state of a client whose counter has not overflowed. -/
structure Orderly (c : NonceClient ι) : Prop where
  sound : ∀ i, (c.calls i).Sound
  taken_le : ∀ i nonce, (c.calls i).taken = some nonce → nonce ≤ c.lastNonce
  distinct : ∀ i j nonce, (c.calls i).taken = some nonce →
    (c.calls j).taken = some nonce → i = j

theorem taken_setCall {c : NonceClient ι} {i : ι} {call : NonceCall}
    (h : call.taken = (c.calls i).taken) (j : ι) :
    ((c.setCall i call).calls j).taken = (c.calls j).taken := by
  rw [calls_setCall]
  split
  · next hj => rw [h, hj]
  · rfl

theorem Orderly.act {c : NonceClient ι} (h : Orderly c) {turn : ι × Int64}
    (hroom : ¬ Exhausted c turn.1) : Orderly (c.act turn) := by
  rcases act_cases hroom (h.sound turn.1) with ⟨call, hsound, htaken, heq⟩ | ⟨nonce, hlt, heq⟩
  · have hsame := taken_setCall htaken
    rw [heq]
    refine ⟨fun i => ?_, fun i nonce hi => ?_, fun i j nonce hi hj => ?_⟩
    · rw [calls_setCall]
      split
      · exact hsound
      · exact h.sound i
    · rw [hsame] at hi
      exact h.taken_le i nonce hi
    · rw [hsame] at hi hj
      exact h.distinct i j nonce hi hj
  · -- the new nonce is above the counter, so nobody else has it
    have hcall : ∀ i, (c.act turn).calls i = if i = turn.1 then .done nonce else c.calls i := by
      intro i
      rw [heq]
      exact calls_setCall c turn.1 i _
    have hlast : (c.act turn).lastNonce = nonce := by rw [heq]
    have hbelow : ∀ i n, (c.calls i).taken = some n → n < nonce := fun i n hi =>
      Int64.lt_of_le_of_lt (h.taken_le i n hi) hlt
    refine ⟨fun i => ?_, fun i n hi => ?_, fun i j n hi hj => ?_⟩
    · rw [hcall]
      split
      · trivial
      · exact h.sound i
    · rw [hcall] at hi
      rw [hlast]
      split at hi
      · cases hi
        exact Int64.le_refl _
      · exact Int64.le_of_lt (hbelow i n hi)
    · rw [hcall] at hi hj
      split at hi <;> split at hj
      · next hi' hj' => rw [hi', hj']
      · cases hi
        exact absurd (hbelow j nonce hj) (Int64.lt_irrefl)
      · cases hj
        exact absurd (hbelow i nonce hi) (Int64.lt_irrefl)
      · exact h.distinct i j n hi hj

/-- The counter is at `bound` or above, and what call `i` has taken is above it. -/
def Above (bound : Int64) (i : ι) (c : NonceClient ι) : Prop :=
  bound ≤ c.lastNonce ∧ ∀ nonce, (c.calls i).taken = some nonce → bound < nonce

theorem Above.act {c : NonceClient ι} {bound : Int64} {i : ι} (h : Above bound i c)
    (hc : Orderly c) {turn : ι × Int64} (hroom : ¬ Exhausted c turn.1) :
    Above bound i (c.act turn) := by
  rcases act_cases hroom (hc.sound turn.1) with ⟨call, -, htaken, heq⟩ | ⟨nonce, hlt, heq⟩
  · rw [heq]
    refine ⟨h.1, fun n hn => h.2 n ?_⟩
    rwa [taken_setCall htaken] at hn
  · have hnonce : bound < nonce := Int64.lt_of_le_of_lt h.1 hlt
    rw [heq]
    refine ⟨Int64.le_of_lt hnonce, fun n hn => ?_⟩
    change ((c.setCall turn.1 (.done nonce)).calls i).taken = some n at hn
    rw [calls_setCall] at hn
    split at hn
    · cases hn
      exact hnonce
    · exact h.2 n hn

/-! ### A schedule -/

/-- Along the schedule no call loads the greatest counter there is. -/
def HasRoom (schedule : List (ι × Int64)) : Prop :=
  Along (fun done turn => ¬ Exhausted (after done) turn.1) schedule

theorem orderly_after {schedule : List (ι × Int64)} (h : HasRoom schedule) :
    Orderly (after schedule) := by
  induction schedule using List.reverseRecOn with
  | nil => exact ⟨fun _ => trivial, nofun, nofun⟩
  | append_singleton schedule turn ih =>
    obtain ⟨hbefore, hturn⟩ := along_concat.mp h
    rw [after_concat]
    exact (ih hbefore).act hturn

theorem above_after {earlier rest : List (ι × Int64)} {bound : Int64} {i : ι}
    (h : HasRoom (earlier ++ rest)) (hbound : Above bound i (after earlier)) :
    Above bound i (after (earlier ++ rest)) := by
  induction rest using List.reverseRecOn with
  | nil => rwa [List.append_nil]
  | append_singleton rest turn ih =>
    rw [← List.append_assoc] at h ⊢
    obtain ⟨hbefore, hturn⟩ := along_concat.mp h
    rw [after_concat]
    exact (ih hbefore).act (orderly_after hbefore) hturn

/-- However the calls are interleaved and whatever the clock shows, no two calls get
the same nonce, and a call gets one above that of every call that had returned before
it started, unless a call finds the counter at the end of its range. -/
theorem nonces_increase {schedule : List (ι × Int64)} (h : HasRoom schedule) :
    (∀ i j nonce, (after schedule).calls i = .returned nonce →
      (after schedule).calls j = .returned nonce → i = j) ∧
    ∀ earlier, earlier <+: schedule → ∀ i j nonce nonce',
      (after earlier).calls i = .returned nonce → (after earlier).calls j = .idle →
      (after schedule).calls j = .returned nonce' → nonce < nonce' := by
  constructor
  · intro i j nonce hi hj
    exact (orderly_after h).distinct i j nonce (by rw [hi]; rfl) (by rw [hj]; rfl)
  · rintro earlier ⟨rest, rfl⟩ i j nonce nonce' hi hj hj'
    have hearlier : HasRoom earlier := h.init (List.prefix_append ..)
    have hle := (orderly_after hearlier).taken_le i nonce (by rw [hi]; rfl)
    have hstart : Above nonce j (after earlier) := by
      refine ⟨hle, fun n hn => ?_⟩
      rw [hj] at hn
      cases hn
    exact (above_after h hstart).2 nonce' (by rw [hj']; rfl)

end NonceClient

/-- One call that runs alone, at a time. -/
def soloCall (i : Nat) (now : Int64) : List (Nat × Int64) := List.replicate 5 (i, now)

theorem nonces_increase_twice :
    NonceClient.HasRoom (soloCall 0 5 ++ soloCall 1 3) ∧
      (NonceClient.after (soloCall 0 5)).calls 0 = .returned 5 ∧
      (NonceClient.after (soloCall 0 5 ++ soloCall 1 3)).calls 1 = .returned 6 ∧
      (5 : Int64) < 6 := by
  have hroom : NonceClient.HasRoom (soloCall 0 5 ++ soloCall 1 3) := by
    unfold NonceClient.HasRoom
    decide +kernel
  have hfirst : (NonceClient.after (soloCall 0 5)).calls 0 = .returned 5 := by decide +kernel
  have hidle : (NonceClient.after (soloCall 0 5)).calls 1 = .idle := by decide +kernel
  have hsecond : (NonceClient.after (soloCall 0 5 ++ soloCall 1 3)).calls 1 = .returned 6 := by
    decide +kernel
  exact ⟨hroom, hfirst, hsecond, (NonceClient.nonces_increase hroom).2 (soloCall 0 5)
    (List.prefix_append ..) 0 1 5 6 hfirst hidle hsecond⟩

/-- After a reading at the end of the range the nonces start again: the fourth call
gets the nonce of the first, which had returned before it started. -/
theorem nonces_repeat_after_overflow :
    let schedule := soloCall 0 5 ++ soloCall 1 Int64.maxValue ++ soloCall 2 5 ++ soloCall 3 5
    (NonceClient.after (soloCall 0 5)).calls 0 = .returned 5 ∧
      (NonceClient.after (soloCall 0 5)).calls 3 = .idle ∧
      (NonceClient.after schedule).calls 0 = .returned 5 ∧
      (NonceClient.after schedule).calls 3 = .returned 5 := by
  decide +kernel

end Exchanges.Sdk
