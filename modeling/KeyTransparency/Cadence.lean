import KeyTransparency.Directory

/-!
When the epochs of a directory end.

Update epochs and verification periods each end on a grid that begins at the start time.  A waking
may come late; then the grid times that were missed are skipped, and the next deadline is the first
one after the waking.
-/

namespace KeyTransparency

/-- The two transitions that are due at times. -/
inductive Transition
  | update
  | verification
deriving DecidableEq, Repr

structure Cadence where
  updatePeriod : Nat
  verificationPeriod : Nat
  nextUpdate : Nat
  nextVerification : Nat
deriving DecidableEq, Repr

namespace Cadence

/-- The cadence of two periods from a time on, in any unit of time. -/
def every (updatePeriod verificationPeriod now : Nat) : Cadence :=
  ⟨updatePeriod, verificationPeriod, now + updatePeriod, now + verificationPeriod⟩

/-- The cadence of a directory, in milliseconds. -/
def start (config : Config) (now : Nat) : Cadence :=
  every config.updatePeriodMs config.verificationPeriodMs now

/-- The first of `next`, `next + period`, … that is after `now`; for a period of zero, `next`. -/
def skipPast (period now next : Nat) : Nat :=
  if _ : 0 < period ∧ next ≤ now then skipPast period now (next + period) else next
termination_by now + 1 - next

/-- The deadline after `deadline`, with missed ones skipped. -/
def advance (deadline period now : Nat) : Nat := skipPast period now (deadline + period)

/-- The time to wake next. -/
def nextWake (c : Cadence) : Nat := min c.nextUpdate c.nextVerification

/-- What is due at `now`, the update first, and the deadlines after it. -/
def wake (c : Cadence) (now : Nat) : Cadence × List Transition :=
  let updateDue := c.nextUpdate ≤ now
  let verificationDue := c.nextVerification ≤ now
  ({ c with
      nextUpdate := if updateDue then advance c.nextUpdate c.updatePeriod now else c.nextUpdate
      nextVerification :=
        if verificationDue then advance c.nextVerification c.verificationPeriod now
        else c.nextVerification },
    (if updateDue then [.update] else []) ++ (if verificationDue then [.verification] else []))

end Cadence

namespace Directory

variable {σ : Type}

/-- A transition at its time; one that fails is passed over. -/
def applyTransition (dir : Directory σ) : Transition → Directory σ
  | .update => dir.sealUpdates.1
  | .verification => dir.advance.1

/-- Wakes at each deadline until the directory is as wanted, `limit` times at most. -/
def runUntil (wanted : Directory σ → Bool) : (limit : Nat) → Cadence → Directory σ → Directory σ
  | 0, _, dir => dir
  | limit + 1, cadence, dir =>
    if wanted dir then dir
    else
      let (cadence, due) := cadence.wake cadence.nextWake
      runUntil wanted limit cadence (due.foldl applyTransition dir)

end Directory

end KeyTransparency
