import KeyTransparency.Proofs.Auditor.Verdict
import KeyTransparency.Proofs.Log.Soundness

/-!
# Logs that an auditor accepts

Within a period an auditor checks the pending log, and of the update log nothing but how far it grew:

    check … = ok extended → pending <+: pending', or a collision               (logs_within_period)

whatever the roots of the update logs are (`extended_whatever_roots`).  So the update log is a
continuation as far as it consists of pending entries, and the entries before these can be replaced by as
many others (`update_log_replaced`).
-/

namespace KeyTransparency

open Log CommitmentLog

/-- A proof between the digests of two logs shows that the first is a prefix of the second. -/
theorem CommitmentLog.prefix_or_collision {entries entries' : List LogEntry} {proof : ConsistencyProof}
    (hverify : verifyConsistency (ofEntries entries).digest (ofEntries entries').digest proof = .ok ()) :
    entries <+: entries' ∨
      Collision ((ofEntries entries).preimages ++ (ofEntries entries').preimages ++
        proof.preimages (ofEntries entries).digest (ofEntries entries').digest) := by
  by_cases hfree : Collision ((ofEntries entries).preimages ++ (ofEntries entries').preimages ++
      proof.preimages (ofEntries entries).digest (ofEntries entries').digest)
  · exact .inr hfree
  · left
    have hmem := treePreimages_subset_preimages entries
    have hmem' := treePreimages_subset_preimages entries'
    rw [digest_ofEntries, digest_ofEntries] at hverify hfree
    refine prefix_of_verify hfree hverify ?_ ?_ (List.subset_append_right _ _)
    · exact List.subset_append_of_subset_left _ (List.subset_append_of_subset_left _ hmem)
    · exact List.subset_append_of_subset_left _ (List.subset_append_of_subset_right _ hmem')

/-- Lists that end alike but for some more entries are in the prefix order exactly if they start alike. -/
theorem append_isPrefix_append_iff {α : Type} {settled settled' pending pending' : List α}
    (hlength : settled.length = settled'.length) (hpending : pending <+: pending') :
    settled ++ pending <+: settled' ++ pending' ↔ settled = settled' := by
  constructor
  · intro h
    obtain ⟨rest, hrest⟩ := h
    rw [List.append_assoc] at hrest
    exact (List.append_inj hrest hlength).1
  · rintro rfl
    exact (List.prefix_append_right_inj settled).2 hpending

namespace Auditor

section

variable {previous next : Digest} {proof : CheckpointProof}

/-- A digest with another root of the update log. -/
def withUpdateRoot (digest : Digest) (root : Hash) : Digest :=
  { digest with updateLog := ⟨root, digest.updateLog.size⟩ }

theorem Extends.withUpdateRoot (h : Extends previous next proof) (root root' : Hash) :
    Extends (withUpdateRoot previous root) (withUpdateRoot next root') proof where
  epoch := h.epoch
  log := h.log
  growth := h.growth
  chain := h.chain
  settledRoot := h.settledRoot
  recentRoot := h.recentRoot
  history := h.history

/-- The roots of the update logs are not looked at within a period. -/
theorem extended_whatever_roots (h : check previous next proof = .ok .extended) (root root' : Hash) :
    check (withUpdateRoot previous root) (withUpdateRoot next root') proof = .ok .extended := by
  obtain ⟨hupdates, hcontinues⟩ := check_eq_ok_iff_continues.1 h
  cases hcontinues with
  | extended hextends =>
    exact check_eq_ok_iff_continues.2 ⟨hupdates, .extended (hextends.withUpdateRoot root root')⟩

end

/-- **What is certified of the logs within a period.**  The pending log is a continuation, and the update
log has grown by as many entries.  If in both digests the update log goes on with the pending log after
some entries settled before, then it is a continuation exactly if those are the same.  All this unless
two of the strings hashed for the pending logs collide; and the verdict is the same whatever the roots of
the two update logs are. -/
theorem logs_within_period {previous next : Digest} {proof : CheckpointProof}
    {update pending update' pending' : List LogEntry}
    (hupdate : previous.updateLog = (ofEntries update).digest)
    (hpending : previous.pendingLog = (ofEntries pending).digest)
    (hupdate' : next.updateLog = (ofEntries update').digest)
    (hpending' : next.pendingLog = (ofEntries pending').digest)
    (hcheck : check previous next proof = .ok .extended) :
    ((pending <+: pending' ∧ update'.length + pending.length = update.length + pending'.length ∧
      ∀ settled settled', update = settled ++ pending → update' = settled' ++ pending' →
        (update <+: update' ↔ settled = settled')) ∨
      Collision ((ofEntries pending).preimages ++ (ofEntries pending').preimages ++
        proof.log.preimages previous.pendingLog next.pendingLog)) ∧
      ∀ root root', check (withUpdateRoot previous root) (withUpdateRoot next root') proof =
        .ok .extended := by
  refine ⟨?_, extended_whatever_roots hcheck⟩
  obtain ⟨-, hcontinues⟩ := check_eq_ok_iff_continues.1 hcheck
  cases hcontinues with
  | extended hextends =>
    have hverify := hextends.log
    rw [hpending, hpending'] at hverify ⊢
    rcases prefix_or_collision hverify with hbegins | hcollision
    · left
      have hgrowth : update'.length + pending.length = update.length + pending'.length := by
        have hsizes := hextends.growth
        rw [hupdate, hpending, hupdate', hpending', digest_ofEntries, digest_ofEntries,
          digest_ofEntries, digest_ofEntries] at hsizes
        have hle := hbegins.length_le
        dsimp only at hsizes
        omega
      refine ⟨hbegins, hgrowth, ?_⟩
      rintro settled settled' rfl rfl
      rw [List.length_append, List.length_append] at hgrowth
      exact append_isPrefix_append_iff (by omega) hbegins
    · exact .inr hcollision

/-! ## An update log that is replaced -/

namespace Replaced

def entry (updateEpoch : UInt64) (content : Bytes) : LogEntry := ⟨updateEpoch, Hash.digest content⟩

/-- A digest of a partition with these logs. -/
def logging (updateEpoch : UInt64) (update pending : List LogEntry) : Digest :=
  { settledRoot := .zero, recentRoot := .zero, baseSize := 0
    updateLog := (ofEntries update).digest, pendingLog := (ofEntries pending).digest
    updateRoots := update.map LogEntry.root
    updateEpoch := updateEpoch, verificationEpoch := 2, settledUpdateEpoch := 0
    chain := .zero, history := none }

def before : List LogEntry := [entry 1 [1]]

def after : List LogEntry := [entry 1 [1], entry 2 [2]]

/-- The first entry is another one. -/
def forged : List LogEntry := [entry 1 [3], entry 2 [2]]

def proof : CheckpointProof := ⟨⟨1, 2, [leafHash (entry 2 [2])]⟩, none⟩

end Replaced

open Replaced

/-- One entry and a second, both pending; the roots of the update logs may as well be others. -/
theorem logs_within_period_two_entries :
    (logging 1 before before).updateLog = (ofEntries before).digest ∧
      (logging 1 before before).pendingLog = (ofEntries before).digest ∧
      (logging 2 after after).updateLog = (ofEntries after).digest ∧
      (logging 2 after after).pendingLog = (ofEntries after).digest ∧
      check (logging 1 before before) (logging 2 after after) proof = .ok .extended ∧
      ((before <+: after ∧ after.length + before.length = before.length + after.length ∧
        ∀ settled settled', before = settled ++ before → after = settled' ++ after →
          (before <+: after ↔ settled = settled')) ∨
        Collision ((ofEntries before).preimages ++ (ofEntries after).preimages ++
          proof.log.preimages (ofEntries before).digest (ofEntries after).digest)) ∧
      check (withUpdateRoot (logging 1 before before) .zero) (withUpdateRoot (logging 2 after after) .zero)
        proof = .ok .extended := by
  have hcheck : check (logging 1 before before) (logging 2 after after) proof = .ok .extended := by
    decide +kernel
  obtain ⟨hlogs, hroots⟩ := logs_within_period rfl rfl rfl rfl hcheck
  exact ⟨rfl, rfl, rfl, rfl, hcheck, hlogs, hroots .zero .zero⟩

/-- A digest is accepted as of the same period although the first entry of its update log is not the one
retained, without a collision. -/
theorem update_log_replaced :
    check (logging 1 before before) (logging 2 forged after) proof = .ok .extended ∧
      ¬ before <+: forged ∧
      ¬ Collision ((ofEntries before).preimages ++ (ofEntries after).preimages ++
        (ofEntries forged).preimages ++
        proof.log.preimages (ofEntries before).digest (ofEntries after).digest) := by
  refine ⟨?_, ?_, not_collision_of_nodup ?_⟩ <;> decide +kernel

end Auditor

end KeyTransparency
