import KeyTransparency.Proofs.Auditor.Run
import KeyTransparency.Proofs.Forest.Completeness
import KeyTransparency.Proofs.Forest.Soundness

/-!
# Histories that an auditor accepts

An auditor who misses no period lets a partition neither drop its history nor rewrite it.  When it
accepts a digest as of the same period or of the next, then this has a history exactly if the one retained
has, and

    the leaves retained <+: the leaves accepted, or a collision                    (history_kept)

Over a gap the history is not looked at: a digest with another one, or with none, is accepted
(`reanchored_history_rewritten`).
-/

namespace KeyTransparency

open Forest HistoryForest

/-- Forests with the same digest have the same leaves. -/
theorem HistoryForest.prefix_of_digest_eq {strings : List Bytes} {forest forest' : HistoryForest}
    {held held' : List ForestLeaf} (hfree : ¬ Collision strings) (hheld : forest.Holds held)
    (hheld' : forest'.Holds held') (h : forest.digest = forest'.digest)
    (hhashed : Hashed held strings) (hhashed' : Hashed held' strings) : held <+: held' := by
  have hkept : (rootPositions held.length).drop (keptRoots held.length held.length) = [] := by
    rw [keptRoots, agreement_self, List.drop_length]
  have hdigest := hheld.digest_eq
  have hverify : verifyExtension forest.digest forest'.digest ⟨held.length, held.length, []⟩ =
      .ok () := by
    rw [← h, hdigest]
    have hcomparable := hheld.comparable (Nat.le_refl _) (Nat.le_refl _) []
    exact (ExtensionProof.verify_eq_ok_iff_of_kept ⟨_, _⟩ ⟨_, _⟩ hkept).2 ⟨hcomparable, rfl⟩
  refine prefix_of_verify hfree hheld hheld' hverify hhashed hhashed' ?_
  rw [← h, hdigest, ExtensionProof.preimages_of_kept hkept]
  exact List.nil_subset _

/-- The strings hashed when the extension proof is checked. -/
def CheckpointProof.extensionPreimages (proof : CheckpointProof) (old new : ForestDigest) : List Bytes :=
  match proof.history with
  | none => []
  | some extension => extension.preimages old new

namespace Auditor

section

variable {previous next : Digest} {proof : CheckpointProof} {verdict : Verdict}

/-- Every verdict but that over a gap rests on the history. -/
theorem Continues.checkHistory (h : Continues previous next proof verdict)
    (hverdict : verdict ≠ .reanchored) : checkHistory previous next proof = .ok () := by
  cases h with
  | extended h => exact h.history
  | settled h => exact h.history
  | reanchored => exact absurd rfl hverdict

theorem isSome_history (h : checkHistory previous next proof = .ok ()) :
    next.history.isSome = previous.history.isSome := by
  rcases checkHistory_eq_ok_iff.1 h with ⟨hold, hnew⟩ | ⟨old, new, hold, hnew, -⟩
  · rw [hold, hnew]
  · rw [hold, hnew]
    rfl

theorem prefix_of_checkHistory (h : checkHistory previous next proof = .ok ()) {strings : List Bytes}
    (hfree : ¬ Collision strings) {forest forest' : HistoryForest} {held held' : List ForestLeaf}
    (hheld : forest.Holds held) (hheld' : forest'.Holds held')
    (hold : previous.history = some forest.digest) (hnew : next.history = some forest'.digest)
    (hhashed : Hashed held strings) (hhashed' : Hashed held' strings)
    (hproof : proof.extensionPreimages forest.digest forest'.digest ⊆ strings) : held <+: held' := by
  rcases checkHistory_eq_ok_iff.1 h with ⟨hnone, -⟩ | ⟨old, new, hsome, hsome', hways⟩
  · rw [hold] at hnone
    cases hnone
  · cases hold.symm.trans hsome
    cases hnew.symm.trans hsome'
    rcases hways with ⟨-, hsame⟩ | ⟨extension, hextension, hverify⟩
    · exact prefix_of_digest_eq hfree hheld hheld' hsame hhashed hhashed'
    · rw [CheckpointProof.extensionPreimages, hextension] at hproof
      exact prefix_of_verify hfree hheld hheld' hverify hhashed hhashed' hproof

end

/-- The check of the history on which an acceptance rests. -/
theorem Acceptance.Sound.checkHistory {accepted : Acceptance} (h : accepted.Sound) {previous : Digest}
    (hprevious : accepted.previous = some previous) (hverdict : accepted.verdict ≠ .reanchored) :
    checkHistory previous accepted.digest accepted.proof = .ok () := by
  unfold Acceptance.Sound at h
  rw [hprevious] at h
  exact h.2.checkHistory hverdict

/-- **What a history has committed to stays.**  When an auditor accepts a digest and no period was missed,
the digest has a history if the one retained has, and all leaves of the forest behind the one retained
are in the forest behind it at their places, unless two of the strings hashed collide. -/
theorem history_kept (auditor : Auditor) (seen : List Observation) {accepted : Acceptance}
    (haccepted : accepted ∈ (auditor.run seen).2) {previous : Digest}
    (hprevious : accepted.previous = some previous) (hverdict : accepted.verdict ≠ .reanchored) :
    accepted.digest.history.isSome = previous.history.isSome ∧
      ∀ (depth depth' : Nat) (leaves leaves' : List ForestLeaf),
        let old := (HistoryForest.empty depth).appendAll leaves
        let new := (HistoryForest.empty depth').appendAll leaves'
        previous.history = some old.digest → accepted.digest.history = some new.digest →
          old.leaves <+: new.leaves ∨
            Collision (old.preimages ++ new.preimages ++
              accepted.proof.extensionPreimages old.digest new.digest) := by
  have hcheck := (sound_of_mem_run haccepted).checkHistory hprevious hverdict
  refine ⟨isSome_history hcheck, ?_⟩
  intro depth depth' leaves leaves' old new hold hnew
  obtain ⟨hheld, -⟩ := holds_appendAll depth leaves
  obtain ⟨hheld', -⟩ := holds_appendAll depth' leaves'
  by_cases hfree : Collision (old.preimages ++ new.preimages ++
      accepted.proof.extensionPreimages old.digest new.digest)
  · exact .inr hfree
  · left
    rw [hheld.leaves_eq, hheld'.leaves_eq]
    refine prefix_of_checkHistory hcheck hfree hheld hheld' hold hnew (hheld.hashed.mono ?_)
      (hheld'.hashed.mono ?_) (List.subset_append_right _ _)
    · exact List.subset_append_of_subset_left _ (List.subset_append_left _ _)
    · exact List.subset_append_of_subset_left _ (List.subset_append_right _ _)

/-! ## A history that is rewritten -/

namespace Shown

def forest (leaves : List ForestLeaf) : HistoryForest := (HistoryForest.empty 3).appendAll leaves

/-- A digest with these leaves, of a partition that has published nothing. -/
def committing (epoch : UInt64) (chain : Hash) (leaves : List ForestLeaf) : Digest :=
  { settledRoot := .zero, recentRoot := .zero, baseSize := 0
    updateLog := ⟨Log.emptyRoot, 0⟩, pendingLog := ⟨Log.emptyRoot, 0⟩, updateRoots := []
    updateEpoch := 0, verificationEpoch := epoch, settledUpdateEpoch := 0
    chain := chain, history := some (forest leaves).digest }

def leaves : List ForestLeaf := [(.zero, 0), (.zero, 1), (Hash.digest [], 2)]

def more : List ForestLeaf := leaves ++ [(.zero, 3)]

/-- The third leaf is another one. -/
def others : List ForestLeaf := [(.zero, 0), (.zero, 1), (.zero, 2), (.zero, 3), (.zero, 4)]

def committed : Digest := committing 4 .zero leaves

def following : Digest := committing 5 (chainLink .zero .zero 0 .zero) more

/-- Two periods later. -/
def forged : Digest := committing 6 .zero others

/-- Two more periods later. -/
def stripped : Digest := { forged with verificationEpoch := 8, history := none }

def proof : CheckpointProof := ⟨.empty, some ⟨3, 4, [leafNode (.zero, 3)]⟩⟩

end Shown

open Shown

/-- A fourth leaf in the next period. -/
theorem history_kept_four_leaves :
    let accepted : Acceptance := ⟨⟨0, following, proof⟩, some committed, .settled⟩
    accepted ∈ (empty.run [⟨0, committed, .empty⟩, ⟨0, following, proof⟩]).2 ∧
      accepted.previous = some committed ∧ accepted.verdict ≠ .reanchored ∧
      following.history.isSome = committed.history.isSome ∧
      committed.history = some (forest leaves).digest ∧
      following.history = some (forest more).digest ∧
      ((forest leaves).leaves <+: (forest more).leaves ∨
        Collision ((forest leaves).preimages ++ (forest more).preimages ++
          proof.extensionPreimages (forest leaves).digest (forest more).digest)) := by
  intro accepted
  have haccepted : accepted ∈ (empty.run [⟨0, committed, .empty⟩, ⟨0, following, proof⟩]).2 := by
    decide +kernel
  have hverdict : accepted.verdict ≠ .reanchored := by
    intro hreanchored
    cases hreanchored
  obtain ⟨hmode, hbegins⟩ := history_kept empty _ haccepted rfl hverdict
  exact ⟨haccepted, rfl, hverdict, hmode, rfl, rfl, hbegins 3 3 leaves more rfl rfl⟩

/-- After a gap a digest is accepted whose history is not that of the digest retained, without a
collision; and after another gap one that has none. -/
theorem reanchored_history_rewritten :
    (empty.run [⟨0, committed, .empty⟩, ⟨0, forged, .empty⟩, ⟨0, stripped, .empty⟩]).2 =
        [⟨⟨0, committed, .empty⟩, none, .first⟩, ⟨⟨0, forged, .empty⟩, some committed, .reanchored⟩,
          ⟨⟨0, stripped, .empty⟩, some forged, .reanchored⟩] ∧
      committed.history = some (forest leaves).digest ∧
      forged.history = some (forest others).digest ∧ stripped.history = none ∧
      ¬ (forest leaves).leaves <+: (forest others).leaves ∧
      ¬ Collision ((forest leaves).preimages ++ (forest others).preimages) := by
  refine ⟨?_, rfl, rfl, rfl, ?_, not_collision_of_nodup ?_⟩ <;> decide +kernel

end Auditor

end KeyTransparency
