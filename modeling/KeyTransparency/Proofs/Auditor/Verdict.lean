import KeyTransparency.Auditor
import Mathlib.Logic.Basic

/-!
# What a verdict says

A digest is accepted when its update epoch is no lower than that of the digest before it and the two
stand in one of three relations, which the verdict names (`Continues`):

    check previous next proof = ok verdict ↔
      previous.updateEpoch ≤ next.updateEpoch ∧ Continues previous next proof verdict
                                                                        (check_eq_ok_iff_continues)

Within a period nothing compares the update logs but by their sizes, and over a gap nothing is compared
but the epochs.
-/

namespace KeyTransparency

namespace Auditor

/-- Both digests are of one period. -/
structure Extends (previous next : Digest) (proof : CheckpointProof) : Prop where
  epoch : next.verificationEpoch = previous.verificationEpoch
  log : Log.verifyConsistency previous.pendingLog next.pendingLog proof.log = .ok ()
  growth : next.updateLog.size =
    previous.updateLog.size + (next.pendingLog.size - previous.pendingLog.size)
  chain : next.chain = previous.chain
  settledRoot : next.settledRoot = previous.settledRoot
  recentRoot : next.recentRoot = previous.recentRoot
  history : checkHistory previous next proof = .ok ()

/-- The second digest is of the next period. -/
structure Settles (previous next : Digest) (proof : CheckpointProof) : Prop where
  epoch : next.verificationEpoch = previous.verificationEpoch + 1
  log : Log.verifyConsistency previous.pendingLog next.updateLog proof.log = .ok ()
  settledRoot : next.settledRoot = previous.recentRoot
  chain : next.chain = previous.expectedNextChain next
  history : checkHistory previous next proof = .ok ()

/-- There is a period between those of the two digests. -/
structure Skips (previous next : Digest) : Prop where
  later : previous.verificationEpoch < next.verificationEpoch
  notNext : next.verificationEpoch ≠ previous.verificationEpoch + 1

inductive Continues (previous next : Digest) (proof : CheckpointProof) : Verdict → Prop
  | extended (h : Extends previous next proof) : Continues previous next proof .extended
  | settled (h : Settles previous next proof) : Continues previous next proof .settled
  | reanchored (h : Skips previous next) : Continues previous next proof .reanchored

section

variable {previous next : Digest} {proof : CheckpointProof}

/-- What follows a refusal counts only if nothing is refused. -/
theorem refuse_eq_ok_iff {α : Type} {c : Prop} [Decidable c] {part : ProofSource}
    {fault : ProofFault} {rest : Except Error α} {a : α} :
    (if c then (do invalid part fault; rest) else rest) = .ok a ↔ ¬ c ∧ rest = .ok a :=
  check_eq_ok_iff

theorem lastRefuse_eq_ok_iff {c : Prop} [Decidable c] {part : ProofSource} {fault : ProofFault} :
    (if c then invalid part fault else pure () : Except Error Unit) = .ok () ↔ ¬ c :=
  lastCheck_eq_ok_iff

theorem checkWithinPeriod_eq_ok_iff :
    checkWithinPeriod previous next proof = .ok () ↔
      Log.verifyConsistency previous.pendingLog next.pendingLog proof.log = .ok () ∧
      next.updateLog.size =
        previous.updateLog.size + (next.pendingLog.size - previous.pendingLog.size) ∧
      next.chain = previous.chain ∧ next.settledRoot = previous.settledRoot ∧
      next.recentRoot = previous.recentRoot := by
  unfold checkWithinPeriod
  simp only [then_eq_ok_iff, refuse_eq_ok_iff, lastRefuse_eq_ok_iff, not_or, not_not]

theorem checkAcrossPeriod_eq_ok_iff :
    checkAcrossPeriod previous next proof = .ok () ↔
      Log.verifyConsistency previous.pendingLog next.updateLog proof.log = .ok () ∧
      next.settledRoot = previous.recentRoot ∧ next.chain = previous.expectedNextChain next := by
  unfold checkAcrossPeriod
  simp only [then_eq_ok_iff, refuse_eq_ok_iff, lastRefuse_eq_ok_iff, not_not]

/-- A history stays, and either has a proof of its continuation or is the same. -/
theorem checkHistory_eq_ok_iff :
    checkHistory previous next proof = .ok () ↔
      (previous.history = none ∧ next.history = none) ∨
      ∃ old new, previous.history = some old ∧ next.history = some new ∧
        ((proof.history = none ∧ old = new) ∨
          ∃ extension, proof.history = some extension ∧
            Forest.verifyExtension old new extension = .ok ()) := by
  unfold checkHistory
  cases previous.history with
  | none => cases next.history <;> simp [invalid]
  | some old =>
    cases next.history with
    | none => simp [invalid]
    | some new =>
      cases proof.history with
      | some extension => simp
      | none =>
        by_cases hsame : old = new
        · simp [hsame]
        · simp [hsame, invalid]

/-! ## The three answers -/

theorem extends_iff : Extends previous next proof ↔
    next.verificationEpoch = previous.verificationEpoch ∧
      checkWithinPeriod previous next proof = .ok () ∧ checkHistory previous next proof = .ok () := by
  rw [checkWithinPeriod_eq_ok_iff]
  constructor
  · intro h
    exact ⟨h.epoch, ⟨h.log, h.growth, h.chain, h.settledRoot, h.recentRoot⟩, h.history⟩
  · rintro ⟨hepoch, ⟨hlog, hgrowth, hchain, hsettled, hrecent⟩, hhistory⟩
    exact ⟨hepoch, hlog, hgrowth, hchain, hsettled, hrecent, hhistory⟩

theorem settles_iff : Settles previous next proof ↔
    next.verificationEpoch = previous.verificationEpoch + 1 ∧
      checkAcrossPeriod previous next proof = .ok () ∧ checkHistory previous next proof = .ok () := by
  rw [checkAcrossPeriod_eq_ok_iff]
  constructor
  · intro h
    exact ⟨h.epoch, ⟨h.log, h.settledRoot, h.chain⟩, h.history⟩
  · rintro ⟨hepoch, ⟨hlog, hsettled, hchain⟩, hhistory⟩
    exact ⟨hepoch, hlog, hsettled, hchain, hhistory⟩

/-- **What a check finds.** -/
theorem check_eq_ok_iff_continues {verdict : Verdict} :
    check previous next proof = .ok verdict ↔
      previous.updateEpoch ≤ next.updateEpoch ∧ Continues previous next proof verdict := by
  unfold check
  rw [refuse_eq_ok_iff, UInt64.not_lt, and_congr_right_iff]
  intro _
  constructor
  · intro h
    split at h
    · next hsame =>
      obtain ⟨hlogs, hhistory, hverdict⟩ := then_eq_ok_iff.1 h |>.imp_right then_eq_ok_iff.1
      cases hverdict
      exact .extended (extends_iff.2 ⟨hsame, hlogs, hhistory⟩)
    · next hother =>
      split at h
      · next hnext =>
        obtain ⟨hlogs, hhistory, hverdict⟩ := then_eq_ok_iff.1 h |>.imp_right then_eq_ok_iff.1
        cases hverdict
        exact .settled (settles_iff.2 ⟨hnext, hlogs, hhistory⟩)
      · next hnext =>
        split at h
        · next hlater =>
          cases h
          exact .reanchored ⟨hlater, hnext⟩
        · cases h
  · intro h
    cases h with
    | extended h =>
      obtain ⟨hsame, hlogs, hhistory⟩ := extends_iff.1 h
      rw [if_pos hsame, hlogs, hhistory]
      rfl
    | settled h =>
      obtain ⟨hnext, hlogs, hhistory⟩ := settles_iff.1 h
      have hother : next.verificationEpoch ≠ previous.verificationEpoch := by
        rw [hnext]
        simp
      rw [if_neg hother, if_pos hnext, hlogs, hhistory]
      rfl
    | reanchored h =>
      have hother : next.verificationEpoch ≠ previous.verificationEpoch :=
        (UInt64.ne_of_lt h.later).symm
      rw [if_neg hother, if_neg h.notNext, if_pos h.later]
      rfl

end

end Auditor

end KeyTransparency
