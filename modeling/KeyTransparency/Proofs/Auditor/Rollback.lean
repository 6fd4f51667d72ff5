import KeyTransparency.Proofs.Auditor.Run
import KeyTransparency.Proofs.Log.Climb

/-!
# No way back

The update epoch of the digest retained of a partition never goes back, and the verification epoch goes
back in one place only:

    accepted.digest.verificationEpoch < previous.verificationEpoch ↔ accepted.RollsOver
                                                              (verificationEpoch_lt_iff_rollsOver)

The next epoch is a sum of words.  After the last epoch that a word holds comes epoch 0, which is taken
for the next one and not for an earlier one (`last_epoch_rolls_over`); the last epoch is within reach of
everyone, over a gap.  Where the sum is checked, the auditor stops there instead, and only there:

    accepted.RollsOver ↔ overflows previous accepted.digest                   (overflows_iff_rollsOver)
-/

namespace KeyTransparency

/-- The last epoch that a word holds. -/
def lastEpoch : UInt64 := UInt64.ofNat (UInt64.size - 1)

theorem toNat_lastEpoch : lastEpoch.toNat = UInt64.size - 1 := rfl

theorem eq_lastEpoch_iff {epoch : UInt64} : epoch = lastEpoch ↔ epoch.toNat = UInt64.size - 1 := by
  rw [← UInt64.toNat_inj, toNat_lastEpoch]

theorem toNat_next_epoch (epoch : UInt64) :
    (epoch + 1).toNat = if epoch = lastEpoch then 0 else epoch.toNat + 1 := by
  have hlt := epoch.toNat_lt
  have hlast : epoch = lastEpoch ↔ epoch.toNat = 2 ^ 64 - 1 := eq_lastEpoch_iff
  rw [UInt64.toNat_add, UInt64.toNat_one]
  split
  · next hepoch =>
    have hword := hlast.1 hepoch
    omega
  · next hepoch =>
    have hother : epoch.toNat ≠ 2 ^ 64 - 1 := fun h => hepoch (hlast.2 h)
    omega

/-- The sum does not wrap but for the last epoch. -/
theorem toNat_next_epoch_eq_iff (epoch : UInt64) :
    (epoch + 1).toNat = epoch.toNat + 1 ↔ epoch ≠ lastEpoch := by
  rw [toNat_next_epoch]
  split <;> simp_all

theorem next_epoch_lt_iff {epoch : UInt64} : epoch + 1 < epoch ↔ epoch = lastEpoch := by
  rw [UInt64.lt_iff_toNat_lt, toNat_next_epoch]
  split
  · next hlast =>
    rw [hlast, toNat_lastEpoch]
    exact iff_of_true (by decide) rfl
  · next hother => exact iff_of_false (by omega) hother

theorem le_lastEpoch (epoch : UInt64) : epoch ≤ lastEpoch := by
  rw [UInt64.le_iff_toNat_le, toNat_lastEpoch]
  exact Nat.le_sub_one_of_lt epoch.toNat_lt

/-- The difference of the sizes as words is the growth of the log. -/
theorem Log.toNat_growth_of_verify {old new : LogDigest} {proof : ConsistencyProof}
    (h : verifyConsistency old new proof = .ok ()) (hnew : new.size < UInt64.size) :
    (UInt64.ofNat new.size - UInt64.ofNat old.size).toNat = new.size - old.size := by
  have hle := ConsistencyProof.size_le_of_verify h
  have hold : (UInt64.ofNat old.size).toNat = old.size := UInt64.toNat_ofNat_of_lt' (by omega)
  have hsize : (UInt64.ofNat new.size).toNat = new.size := UInt64.toNat_ofNat_of_lt' hnew
  have hword : UInt64.ofNat old.size ≤ UInt64.ofNat new.size := by
    rw [UInt64.le_iff_toNat_le, hold, hsize]
    exact hle
  rw [UInt64.toNat_sub_of_le _ _ hword, hold, hsize]

namespace Auditor

/-- Epoch 0 is accepted as the epoch after the last one. -/
def Acceptance.RollsOver (accepted : Acceptance) : Prop :=
  accepted.verdict = .settled ∧
    ∃ previous, accepted.previous = some previous ∧ previous.verificationEpoch = lastEpoch

section

variable {previous next : Digest} {proof : CheckpointProof} {verdict : Verdict}

/-- Of the three verdicts only that of the next period can lower the verification epoch. -/
theorem Continues.verificationEpoch_lt_iff (h : Continues previous next proof verdict) :
    next.verificationEpoch < previous.verificationEpoch ↔
      verdict = .settled ∧ previous.verificationEpoch = lastEpoch := by
  cases h with
  | extended h =>
    rw [h.epoch]
    exact iff_of_false (UInt64.lt_irrefl _) (by simp)
  | settled h =>
    rw [h.epoch, next_epoch_lt_iff]
    simp
  | reanchored h =>
    have hlater := h.later
    exact iff_of_false (fun hback => UInt64.lt_asymm hlater hback) (by simp)

end

section

variable {accepted : Acceptance} {previous : Digest}

theorem Acceptance.Sound.updateEpoch_le (h : accepted.Sound)
    (hprevious : accepted.previous = some previous) :
    previous.updateEpoch ≤ accepted.digest.updateEpoch := by
  unfold Acceptance.Sound at h
  rw [hprevious] at h
  exact h.1

theorem Acceptance.Sound.continues (h : accepted.Sound)
    (hprevious : accepted.previous = some previous) :
    Continues previous accepted.digest accepted.proof accepted.verdict := by
  unfold Acceptance.Sound at h
  rw [hprevious] at h
  exact h.2

/-- **One acceptance** lowers the verification epoch exactly if it rolls over. -/
theorem verificationEpoch_lt_iff_rollsOver (h : accepted.Sound)
    (hprevious : accepted.previous = some previous) :
    accepted.digest.verificationEpoch < previous.verificationEpoch ↔ accepted.RollsOver := by
  rw [(h.continues hprevious).verificationEpoch_lt_iff]
  unfold Acceptance.RollsOver
  rw [hprevious]
  simp

theorem overflows_eq_true_iff {previous next : Digest} :
    overflows previous next = true ↔ ¬ next.updateEpoch < previous.updateEpoch ∧
      next.verificationEpoch ≠ previous.verificationEpoch ∧ previous.verificationEpoch = lastEpoch := by
  simp [overflows, next_epoch_lt_iff, and_assoc]

/-- An acceptance rolls over exactly if the sum does not fit a word. -/
theorem overflows_iff_rollsOver (h : accepted.Sound) (hprevious : accepted.previous = some previous) :
    overflows previous accepted.digest = true ↔ accepted.RollsOver := by
  rw [← verificationEpoch_lt_iff_rollsOver h hprevious, overflows_eq_true_iff]
  constructor
  · rintro ⟨-, hother, hlast⟩
    exact UInt64.lt_of_le_of_ne (hlast ▸ le_lastEpoch _) hother
  · intro hback
    obtain ⟨-, hlast⟩ := (h.continues hprevious).verificationEpoch_lt_iff.1 hback
    exact ⟨UInt64.not_lt.2 (h.updateEpoch_le hprevious), UInt64.ne_of_lt hback, hlast⟩

theorem verificationEpoch_le_of_not_rollsOver (h : accepted.Sound)
    (hprevious : accepted.previous = some previous) (hover : ¬ accepted.RollsOver) :
    previous.verificationEpoch ≤ accepted.digest.verificationEpoch := by
  rw [← verificationEpoch_lt_iff_rollsOver h hprevious] at hover
  exact UInt64.not_lt.1 hover

end

/-- A partition of which a digest is retained keeps one, whose update epoch is no lower. -/
theorem Linked.updateEpoch_le {before : Digest} {all : List Acceptance}
    (h : Linked (some before) all) :
    ∃ after, retainedAfter (some before) all = some after ∧
      before.updateEpoch ≤ after.updateEpoch := by
  induction all generalizing before with
  | nil => exact ⟨before, rfl, UInt64.le_refl _⟩
  | cons first rest ih =>
    cases h with
    | cons hprevious hsound hlinked =>
      obtain ⟨after, hafter, hle⟩ := ih hlinked
      exact ⟨after, hafter, UInt64.le_trans (hsound.updateEpoch_le hprevious) hle⟩

theorem Linked.verificationEpoch_le {before after : Digest} {all : List Acceptance}
    (h : Linked (some before) all) (hafter : retainedAfter (some before) all = some after)
    (hover : ∀ accepted ∈ all, ¬ accepted.RollsOver) :
    before.verificationEpoch ≤ after.verificationEpoch := by
  induction all generalizing before with
  | nil =>
    cases hafter
    exact UInt64.le_refl _
  | cons first rest ih =>
    cases h with
    | cons hprevious hsound hlinked =>
      obtain ⟨hfirst, hrest⟩ := List.forall_mem_cons.1 hover
      have hstep := verificationEpoch_le_of_not_rollsOver hsound hprevious hfirst
      exact UInt64.le_trans hstep (ih hlinked hafter hrest)

/-- **No way back.**  In a run over whatever digests and proofs the update epoch retained of a partition
never goes back, and the verification epoch does so only where an acceptance rolls over, which is where
the sum does not fit a word.  A digest that is refused changes nothing, and one that is accepted replaces
that of its partition alone.  The difference of the sizes is checked before it is taken; the next epoch
is not, and its sum is exact but for the last epoch. -/
theorem epochs_of_run (auditor : Auditor) (seen : List Observation) :
    let now := (auditor.run seen).1
    (∀ i before, auditor.last? i = some before →
      ∃ after, now.last? i = some after ∧ before.updateEpoch ≤ after.updateEpoch ∧
        (before.verificationEpoch ≤ after.verificationEpoch ∨
          ∃ accepted ∈ ofPartition i (auditor.run seen).2, accepted.RollsOver)) ∧
    (∀ accepted ∈ (auditor.run seen).2, ∀ previous, accepted.previous = some previous →
      (accepted.digest.verificationEpoch < previous.verificationEpoch ↔ accepted.RollsOver) ∧
        (accepted.RollsOver ↔ overflows previous accepted.digest = true)) ∧
    (∀ next : Observation,
      (∃ e, now.observe next.partition next.digest next.proof = (now, .error e)) ∨
        ∃ later verdict, now.observe next.partition next.digest next.proof = (later, .ok verdict) ∧
          later.last? next.partition = some next.digest ∧
          ∀ j, j ≠ next.partition → later.last? j = now.last? j) ∧
    ∀ (next : Observation) (previous : Digest), now.last? next.partition = some previous →
      ((previous.verificationEpoch + 1).toNat = previous.verificationEpoch.toNat + 1 ↔
        previous.verificationEpoch ≠ lastEpoch) ∧
      (Log.verifyConsistency previous.pendingLog next.digest.pendingLog next.proof.log = .ok () →
        next.digest.pendingLog.size < UInt64.size →
        (UInt64.ofNat next.digest.pendingLog.size - UInt64.ofNat previous.pendingLog.size).toNat =
          next.digest.pendingLog.size - previous.pendingLog.size) := by
  intro now
  refine ⟨?_, ?_, ?_, ?_⟩
  · intro i before hbefore
    have hlinked := linked_run auditor seen i
    have hlast := last?_run auditor seen i
    rw [hbefore] at hlinked hlast
    obtain ⟨after, hafter, hupdate⟩ := hlinked.updateEpoch_le
    refine ⟨after, hlast.trans hafter, hupdate, ?_⟩
    by_cases hover : ∃ accepted ∈ ofPartition i (auditor.run seen).2, accepted.RollsOver
    · exact .inr hover
    · left
      apply hlinked.verificationEpoch_le hafter
      intro accepted hmem hrolls
      exact hover ⟨accepted, hmem, hrolls⟩
  · intro accepted hmem previous hprevious
    have hsound := sound_of_mem_run hmem
    exact ⟨verificationEpoch_lt_iff_rollsOver hsound hprevious,
      (overflows_iff_rollsOver hsound hprevious).symm⟩
  · intro next
    rcases observe_cases now next with hrefused | ⟨verdict, haccepted, -⟩
    · exact .inl hrefused
    · refine .inr ⟨_, verdict, haccepted, last?_retain_self, ?_⟩
      intro j hj
      exact last?_retain_of_ne hj
  · intro next previous _
    refine ⟨toNat_next_epoch_eq_iff _, ?_⟩
    intro hverify hsize
    exact Log.toNat_growth_of_verify hverify hsize

/-! ## An epoch that goes back -/

namespace Rolled

/-- A digest of a partition that has published nothing. -/
def quiet (epoch : UInt64) (chain : Hash) : Digest :=
  { settledRoot := .zero, recentRoot := .zero, baseSize := 0
    updateLog := ⟨Log.emptyRoot, 0⟩, pendingLog := ⟨Log.emptyRoot, 0⟩, updateRoots := []
    updateEpoch := 0, verificationEpoch := epoch, settledUpdateEpoch := 0
    chain := chain, history := none }

def link : Hash := chainLink .zero .zero 0 .zero

def second : Digest := quiet 2 .zero

def third : Digest := quiet 3 link

/-- A digest far ahead. -/
def last : Digest := quiet lastEpoch .zero

def wrapped : Digest := quiet 0 link

end Rolled

open Rolled

/-- The next period, from a digest that is retained. -/
theorem epochs_of_run_next_period :
    let auditor := empty.retain 0 second
    let now := (auditor.run [⟨0, third, .empty⟩]).1
    auditor.last? 0 = some second ∧ now.last? 0 = some third ∧
      (∃ after, now.last? 0 = some after ∧ second.updateEpoch ≤ after.updateEpoch ∧
        (second.verificationEpoch ≤ after.verificationEpoch ∨
          ∃ accepted ∈ ofPartition 0 (auditor.run [⟨0, third, .empty⟩]).2, accepted.RollsOver)) ∧
      Log.verifyConsistency third.pendingLog third.pendingLog .empty = .ok () ∧
      third.pendingLog.size < UInt64.size ∧
      (UInt64.ofNat third.pendingLog.size - UInt64.ofNat third.pendingLog.size).toNat =
        third.pendingLog.size - third.pendingLog.size := by
  intro auditor now
  obtain ⟨hkept, -, -, harithmetic⟩ := epochs_of_run auditor [⟨0, third, .empty⟩]
  have hnow : now.last? 0 = some third := by decide +kernel
  have hverify : Log.verifyConsistency third.pendingLog third.pendingLog .empty = .ok () := by
    decide +kernel
  have hsize : third.pendingLog.size < UInt64.size := by decide
  exact ⟨rfl, hnow, hkept 0 second rfl, hverify, hsize,
    (harithmetic ⟨0, third, .empty⟩ third hnow).2 hverify hsize⟩

/-- Over a gap the last epoch is retained, and then epoch 0 is accepted as the next one. -/
theorem last_epoch_rolls_over :
    (empty.run [⟨0, second, .empty⟩, ⟨0, last, .empty⟩, ⟨0, wrapped, .empty⟩]).2 =
        [⟨⟨0, second, .empty⟩, none, .first⟩, ⟨⟨0, last, .empty⟩, some second, .reanchored⟩,
          ⟨⟨0, wrapped, .empty⟩, some last, .settled⟩] ∧
      (empty.run [⟨0, second, .empty⟩, ⟨0, last, .empty⟩]).1.last? 0 = some last ∧
      (empty.run [⟨0, second, .empty⟩, ⟨0, last, .empty⟩, ⟨0, wrapped, .empty⟩]).1.last? 0 =
        some wrapped ∧
      wrapped.verificationEpoch < last.verificationEpoch ∧ overflows last wrapped = true ∧
      (last.verificationEpoch + 1).toNat ≠ last.verificationEpoch.toNat + 1 := by
  refine ⟨?_, ?_, ?_, ?_, ?_, ?_⟩ <;> decide +kernel

end Auditor

end KeyTransparency
