import KeyTransparency.Proofs.Auditor.Run
import KeyTransparency.Proofs.Forest.Completeness
import KeyTransparency.Proofs.Log.Completeness
import KeyTransparency.Proofs.Partition.Growth

/-!
# An honest partition is never rejected

An auditor comes by now and then, and is shown the digest of that moment with the proof that belongs to
the digest it retained.  Whenever it comes, it accepts, with the verdict that the verification epochs of
the two moments call for:

    ledger.Grows ledger' → Reflects p ledger' →
      p.checkpointProof (ledger.digest …) = ok proof,
      check (ledger.digest …) (ledger'.digest …) proof = ok (verdictFor …)      (exists_accepted)
    follow … (moments of any run) = ok (verdicts of their epochs)               (honest_accepted)

The proof for the logs is taken of the log that still grows as long as the period lasts, and of the log
it has become after that; both go on from the pending log retained by the entries since
(`Ledger.Grows.entriesSince_eq`).  Both clocks have to fit the words that a digest has for them.
-/

namespace KeyTransparency

open Log

namespace Partition

/-- The partition after each of some rounds of operations. -/
def moments (p : Partition) : (rounds : List (List Operation)) → List Partition
  | [] => []
  | round :: rounds => (p.run round).1 :: (p.run round).1.moments rounds

end Partition

namespace Auditor

/-- Shows an auditor what a partition publishes, with the proof that belongs to the digest retained. -/
def attend (auditor : Auditor) (i : Nat) (p : Partition) : Except Error (Auditor × Verdict) := do
  let digest ← p.digest
  let proof ← match auditor.last? i with
    | none => pure .empty
    | some previous => p.checkpointProof previous
  match auditor.observe i digest proof with
  | (_, .error e) => throw e
  | (next, .ok verdict) => pure (next, verdict)

/-- Shows an auditor a partition at one moment after the other. -/
def follow (auditor : Auditor) (i : Nat) : (moments : List Partition) → Except Error (List Verdict)
  | [] => pure []
  | p :: later => do
    let (next, verdict) ← auditor.attend i p
    pure (verdict :: (← next.follow i later))

/-- The verdict that verification epochs call for. -/
def verdictFor : (last : Option Nat) → (epoch : Nat) → Verdict
  | none, _ => .first
  | some last, epoch =>
    if epoch = last then .extended else if epoch = last + 1 then .settled else .reanchored

def verdicts : (last : Option Nat) → (epochs : List Nat) → List Verdict
  | _, [] => []
  | last, epoch :: epochs => verdictFor last epoch :: verdicts (some epoch) epochs

theorem attend_first {auditor : Auditor} {i : Nat} {p : Partition} {digest : Digest}
    (hlast : auditor.last? i = none) (hdigest : p.digest = .ok digest) :
    auditor.attend i p = .ok (auditor.retain i digest, .first) := by
  rw [attend, hdigest, hlast]
  simp only [bind, Except.bind, pure, Except.pure, observe_of_none hlast]

theorem attend_later {auditor : Auditor} {i : Nat} {p : Partition} {previous digest : Digest}
    {proof : CheckpointProof} {verdict : Verdict} (hlast : auditor.last? i = some previous)
    (hdigest : p.digest = .ok digest) (hproof : p.checkpointProof previous = .ok proof)
    (hcheck : check previous digest proof = .ok verdict) :
    auditor.attend i p = .ok (auditor.retain i digest, verdict) := by
  rw [attend, hdigest, hlast]
  simp only [bind, Except.bind, pure, Except.pure, hproof, observe_of_check_eq_ok hlast hcheck]

theorem follow_cons {auditor next : Auditor} {i : Nat} {p : Partition} {verdict : Verdict}
    (h : auditor.attend i p = .ok (next, verdict)) (later : List Partition) :
    auditor.follow i (p :: later) = (verdict :: ·) <$> next.follow i later := by
  rw [follow, h]
  rfl

/-! ## Two digests of one partition -/

theorem ofNat_inj_of_lt {m n : Nat} (hm : m < UInt64.size) (hn : n < UInt64.size) :
    UInt64.ofNat m = UInt64.ofNat n ↔ m = n := by
  constructor
  · intro h
    have hsame := congrArg UInt64.toNat h
    rwa [UInt64.toNat_ofNat_of_lt' hm, UInt64.toNat_ofNat_of_lt' hn] at hsame
  · rintro rfl
    rfl

section

variable {p : Partition} {ledger ledger' : Ledger} {aggregated : Bool} {depth : Nat}

theorem exists_consistencyProof_since (hgrows : ledger.Grows ledger') (hconsistent : ledger.Consistent)
    {advance : Nat} (hadvance : advance ≤ ledger.period) :
    ∃ proof, (ledger'.log (ledger'.sealingsSince advance)).consistencyProof
        (ledger.log (ledger.sealingsSince advance)).size
        (ledger'.log (ledger'.sealingsSince advance)).size = .ok proof ∧
      verifyConsistency (ledger.log (ledger.sealingsSince advance)).digest
        (ledger'.log (ledger'.sealingsSince advance)).digest proof = .ok () := by
  obtain ⟨later, hlater⟩ := hgrows.entriesSince_eq hconsistent
  rw [Ledger.log_sealingsSince, Ledger.log_sealingsSince, hlater advance hadvance]
  exact CommitmentLog.exists_proof_of_prefix (List.prefix_append _ _)

/-- The proof for the logs. -/
theorem exists_logProofSince (h : Reflects p ledger' aggregated depth) (hgrows : ledger.Grows ledger')
    (hconsistent : ledger.Consistent) (hword : ledger'.period < UInt64.size) :
    ∃ proof, p.logProofSince (ledger.digest aggregated depth) = .ok proof ∧
      (ledger'.period = ledger.period →
        verifyConsistency (ledger.digest aggregated depth).pendingLog
          (ledger'.digest aggregated depth).pendingLog proof = .ok ()) ∧
      (ledger'.period = ledger.period + 1 →
        verifyConsistency (ledger.digest aggregated depth).pendingLog
          (ledger'.digest aggregated depth).updateLog proof = .ok ()) := by
  have hle := hgrows.period_le
  obtain ⟨proof, hproof, hverify⟩ :=
    exists_consistencyProof_since hgrows hconsistent (Nat.le_refl ledger.period)
  have hthen : (ledger.digest aggregated depth).verificationEpoch = UInt64.ofNat ledger.period := rfl
  have hnow : UInt64.ofNat p.verificationEpoch = UInt64.ofNat ledger'.period := congrArg _ h.epoch
  unfold Partition.logProofSince
  dsimp only
  rw [hthen, hnow]
  by_cases hsame : ledger'.period = ledger.period
  · -- the log still grows
    refine ⟨proof, ?_, fun _ => ?_, fun hnext => by omega⟩
    · rw [if_pos (congrArg UInt64.ofNat hsame.symm), Partition.updateConsistencyProof, h.window, hsame]
      exact hproof
    · show verifyConsistency _ (ledger'.log (ledger'.sealingsSince ledger'.period)).digest proof = _
      rw [hsame]
      exact hverify
  · have hother : ¬ UInt64.ofNat ledger.period = UInt64.ofNat ledger'.period := by
      rw [ofNat_inj_of_lt (by omega) hword]
      exact Ne.symm hsame
    rw [if_neg hother]
    by_cases hnext : ledger'.period = ledger.period + 1
    · -- the log serves proofs now
      have hback : ledger'.period - 1 = ledger.period := by omega
      have hone : UInt64.ofNat ledger.period + 1 = UInt64.ofNat ledger'.period := by
        rw [hnext, ofNat_succ]
      refine ⟨proof, ?_, fun hsame' => absurd hsame' hsame, fun _ => ?_⟩
      · rw [if_pos hone, Partition.settledConsistencyProof, h.window, hback]
        exact hproof
      · show verifyConsistency _ (ledger'.log (ledger'.sealingsSince (ledger'.period - 1))).digest
          proof = _
        rw [hback]
        exact hverify
    · -- over a gap no proof is needed
      have hone : ¬ UInt64.ofNat ledger.period + 1 = UInt64.ofNat ledger'.period := by
        rw [← ofNat_succ, ofNat_inj_of_lt (by omega) hword]
        exact Ne.symm hnext
      rw [if_neg hone]
      exact ⟨_, rfl, fun hsame' => absurd hsame' hsame, fun hnext' => absurd hnext' hnext⟩

/-- With the proof for the history. -/
theorem exists_checkpointProof (h : Reflects p ledger' aggregated depth) (hgrows : ledger.Grows ledger')
    {log : ConsistencyProof} (hlog : p.logProofSince (ledger.digest aggregated depth) = .ok log) :
    ∃ history, p.checkpointProof (ledger.digest aggregated depth) = .ok ⟨log, history⟩ ∧
      checkHistory (ledger.digest aggregated depth) (ledger'.digest aggregated depth) ⟨log, history⟩ =
        .ok () := by
  rw [Partition.checkpointProof, h.history, hlog]
  cases aggregated with
  | false => exact ⟨none, rfl, rfl⟩
  | true =>
    have hroom := h.room rfl
    have hle := hgrows.period_le
    have hroom' : ledger.period - 1 ≤ HistoryForest.capacityOf depth := by omega
    obtain ⟨hheld, -⟩ := Ledger.holds_history hroom'
    obtain ⟨hheld', -⟩ := Ledger.holds_history hroom
    obtain ⟨extension, hextension, hverify⟩ :=
      hheld.exists_proof_of_prefix hheld' hgrows.leaves_isPrefix
    refine ⟨some extension, ?_, hverify⟩
    show (do
      let history ← some <$> (ledger'.history depth).extensionProof (ledger.history depth).digest.size
        (ledger'.history depth).size
      pure (CheckpointProof.mk log history)) = _
    rw [hextension]
    rfl

theorem extends_digest (hgrows : ledger.Grows ledger') (hperiod : 2 ≤ ledger.period)
    (hsame : ledger'.period = ledger.period) {proof : CheckpointProof}
    (hlog : verifyConsistency (ledger.digest aggregated depth).pendingLog
      (ledger'.digest aggregated depth).pendingLog proof.log = .ok ())
    (hhistory : checkHistory (ledger.digest aggregated depth) (ledger'.digest aggregated depth) proof =
      .ok ()) :
    Extends (ledger.digest aggregated depth) (ledger'.digest aggregated depth) proof where
  epoch := congrArg UInt64.ofNat hsame
  log := hlog
  growth := by
    obtain ⟨later, hlater⟩ := hgrows.sealingsSince_eq
    show (ledger'.log (ledger'.sealingsSince (ledger'.period - 1))).size =
      (ledger.log (ledger.sealingsSince (ledger.period - 1))).size +
        ((ledger'.log (ledger'.sealingsSince ledger'.period)).size -
          (ledger.log (ledger.sealingsSince ledger.period)).size)
    rw [hsame, hlater _ (Nat.sub_le _ _), hlater _ (Nat.le_refl _)]
    simp only [Ledger.log, CommitmentLog.size_ofEntries, List.length_map, List.length_append]
    omega
  chain := hgrows.chain_eq hsame
  settledRoot := by
    show (ledger'.snapshotTrie (ledger'.period - 2)).rootHash = _
    rw [hsame, hgrows.snapshotTrie_eq (by omega)]
    rfl
  recentRoot := by
    show (ledger'.snapshotTrie (ledger'.period - 1)).rootHash = _
    rw [hsame, hgrows.snapshotTrie_eq (by omega)]
    rfl
  history := hhistory

theorem settles_digest (hgrows : ledger.Grows ledger') (hperiod : 2 ≤ ledger.period)
    (hnext : ledger'.period = ledger.period + 1) {proof : CheckpointProof}
    (hlog : verifyConsistency (ledger.digest aggregated depth).pendingLog
      (ledger'.digest aggregated depth).updateLog proof.log = .ok ())
    (hhistory : checkHistory (ledger.digest aggregated depth) (ledger'.digest aggregated depth) proof =
      .ok ()) :
    Settles (ledger.digest aggregated depth) (ledger'.digest aggregated depth) proof where
  epoch := by
    show UInt64.ofNat ledger'.period = UInt64.ofNat ledger.period + 1
    rw [hnext, ofNat_succ]
  log := hlog
  settledRoot := by
    have hback : ledger'.period - 2 = ledger.period - 1 := by omega
    show (ledger'.snapshotTrie (ledger'.period - 2)).rootHash = _
    rw [hback, hgrows.snapshotTrie_eq (by omega)]
    rfl
  chain := by
    have hback : ledger'.period - 2 = ledger.period - 1 := by omega
    have hnow : ledger'.period - 1 = ledger.period := by omega
    show ledger'.chain = chainLink (ledger'.snapshotTrie (ledger'.period - 2)).rootHash
      (ledger'.snapshotTrie (ledger'.period - 1)).rootHash _ ledger.chain
    rw [hback, hnow]
    exact hgrows.chain_eq_link (by omega) hnext
  history := hhistory

/-- **A later digest of a partition is accepted** with the proof that the partition makes. -/
theorem exists_accepted (h : Reflects p ledger' aggregated depth) (hgrows : ledger.Grows ledger')
    (hconsistent : ledger.Consistent) (hperiod : 2 ≤ ledger.period)
    (hword : ledger'.period < UInt64.size) (hupdates : ledger'.updateEpoch < UInt64.size) :
    ∃ proof, p.checkpointProof (ledger.digest aggregated depth) = .ok proof ∧
      check (ledger.digest aggregated depth) (ledger'.digest aggregated depth) proof =
        .ok (verdictFor (some ledger.period) ledger'.period) := by
  have hle := hgrows.period_le
  have hepochs := hgrows.updateEpoch_le
  obtain ⟨log, hlog, hwithin, hacross⟩ := exists_logProofSince h hgrows hconsistent hword
  obtain ⟨history, hproof, hhistory⟩ := exists_checkpointProof h hgrows hlog
  refine ⟨⟨log, history⟩, hproof, check_eq_ok_iff_continues.2 ⟨?_, ?_⟩⟩
  · exact (UInt64.ofNat_le_iff_le (by omega) hupdates).2 hepochs
  · rw [verdictFor]
    split
    · next hsame =>
      exact .extended (extends_digest hgrows hperiod hsame (hwithin hsame) hhistory)
    · next hother =>
      split
      · next hnext => exact .settled (settles_digest hgrows hperiod hnext (hacross hnext) hhistory)
      · next hskipped =>
        refine .reanchored ⟨?_, ?_⟩
        · exact (UInt64.ofNat_lt_iff_lt (by omega) hword).2 (by omega)
        · show UInt64.ofNat ledger'.period ≠ UInt64.ofNat ledger.period + 1
          rw [← ofNat_succ, Ne, ofNat_inj_of_lt hword (by omega)]
          exact hskipped

end

/-! ## Runs -/

section

variable {p : Partition} {ledger : Ledger} {aggregated : Bool} {depth : Nat}

/-- What a round of operations does to a partition, and how far it moves the clocks. -/
theorem exists_round (h : Reflects p ledger aggregated depth) (round : List Partition.Operation) :
    ∃ ledger', Reflects (p.run round).1 ledger' aggregated depth ∧ ledger.Grows ledger' ∧
      ledger'.period ≤ ledger.period + round.count .advance ∧
      ledger'.updateEpoch ≤ ledger.updateEpoch + round.count .sealUpdates := by
  obtain ⟨hsub, -⟩ := h.operations_run round
  refine ⟨_, h.run round, (Ledger.Grows.refl ledger).foldl _, ?_, ?_⟩
  · rw [Ledger.period_foldl]
    exact Nat.add_le_add_left (hsub.count_le _) _
  · rw [Ledger.updateEpoch_foldl]
    exact Nat.add_le_add_left (hsub.count_le _) _

/-- An auditor who has accepted a partition accepts it at all later moments. -/
theorem follow_moments (h : Reflects p ledger aggregated depth) (hperiod : 2 ≤ ledger.period)
    {auditor : Auditor} {i : Nat} (hlast : auditor.last? i = some (ledger.digest aggregated depth))
    {rounds : List (List Partition.Operation)}
    (hword : ledger.period + rounds.flatten.count .advance < UInt64.size)
    (hupdates : ledger.updateEpoch + rounds.flatten.count .sealUpdates < UInt64.size) :
    auditor.follow i (p.moments rounds) =
      .ok (verdicts (some ledger.period) ((p.moments rounds).map Partition.verificationEpoch)) := by
  induction rounds generalizing p ledger auditor with
  | nil => rfl
  | cons round rounds ih =>
    rw [List.flatten_cons, List.count_append] at hword hupdates
    obtain ⟨ledger', hround, hgrows, hadvances, hseals⟩ := exists_round h round
    have hle := hgrows.period_le
    have hperiod' : 2 ≤ ledger'.period := Nat.le_trans hperiod hle
    obtain ⟨proof, hproof, hcheck⟩ :=
      exists_accepted hround hgrows h.consistent hperiod (by omega) (by omega)
    have hattend := attend_later hlast (hround.digest_eq hperiod') hproof hcheck
    have hretained : (auditor.retain i (ledger'.digest aggregated depth)).last? i =
        some (ledger'.digest aggregated depth) := last?_retain_self
    have hlater := ih hround hperiod' hretained (by omega) (by omega)
    have hepoch : (p.run round).1.verificationEpoch = ledger'.period := hround.epoch
    rw [Partition.moments, follow_cons hattend, hlater, List.map_cons, hepoch, verdicts]
    rfl

end

/-- **An honest partition is never rejected.**  Whatever is asked of a partition in rounds, an auditor who
comes after each of them accepts it every time, with the verdict that the verification epochs call for,
as long as both clocks fit the words of a digest. -/
theorem honest_accepted (aggregated : Bool) (depth : Nat) (rounds : List (List Partition.Operation))
    (hadvances : rounds.flatten.count .advance + 2 < UInt64.size)
    (hseals : rounds.flatten.count .sealUpdates < UInt64.size) {auditor : Auditor} {i : Nat}
    (hunseen : auditor.last? i = none) :
    ∃ p, Partition.create aggregated depth = .ok p ∧
      auditor.follow i (p.moments rounds) =
        .ok (verdicts none ((p.moments rounds).map Partition.verificationEpoch)) := by
  obtain ⟨p, hcreate, h⟩ := Partition.create_reflects aggregated depth
  refine ⟨p, hcreate, ?_⟩
  cases rounds with
  | nil => rfl
  | cons round rounds =>
    rw [List.flatten_cons, List.count_append] at hadvances hseals
    obtain ⟨ledger, hround, hgrows, hperiods, hupdates⟩ := exists_round h round
    have htwo : (Ledger.ofEvents []).period = 2 := rfl
    have hnone : (Ledger.ofEvents []).updateEpoch = 0 := rfl
    have hperiod : 2 ≤ ledger.period := hgrows.period_le
    have hattend := attend_first hunseen (hround.digest_eq hperiod)
    have hretained : (auditor.retain i (ledger.digest aggregated depth)).last? i =
        some (ledger.digest aggregated depth) := last?_retain_self
    have hword : ledger.period + rounds.flatten.count .advance < UInt64.size := by omega
    have hwords : ledger.updateEpoch + rounds.flatten.count .sealUpdates < UInt64.size := by omega
    have hlater := follow_moments hround hperiod hretained hword hwords
    have hepoch : (p.run round).1.verificationEpoch = ledger.period := hround.epoch
    rw [Partition.moments, follow_cons hattend, hlater, List.map_cons, hepoch, verdicts]
    rfl

/-! ## An example -/

namespace Attended

/-- A value is published and sealed, and the auditor misses the end of one period. -/
def rounds : List (List Partition.Operation) :=
  [[.append [1] [2] [3]], [.sealUpdates], [.advance], [.advance, .advance]]

theorem epochs_rounds :
    (do pure (((← Partition.create true 3).moments rounds).map Partition.verificationEpoch)) =
      Except.ok [2, 2, 3, 5] := by
  decide +kernel

end Attended

open Attended

/-- All four verdicts in one run. -/
theorem honest_accepted_four_moments :
    rounds.flatten.count .advance + 2 < UInt64.size ∧
      rounds.flatten.count .sealUpdates < UInt64.size ∧ empty.last? 0 = none ∧
      ∃ p, Partition.create true 3 = .ok p ∧
        empty.follow 0 (p.moments rounds) = .ok [.first, .extended, .settled, .reanchored] := by
  have hadvances : rounds.flatten.count .advance + 2 < UInt64.size := by decide
  have hseals : rounds.flatten.count .sealUpdates < UInt64.size := by decide
  have hunseen : empty.last? 0 = none := rfl
  obtain ⟨p, hcreate, hfollow⟩ := honest_accepted true 3 rounds hadvances hseals hunseen
  obtain ⟨created, hcreated, hepochs⟩ := bind_eq_ok_iff.1 epochs_rounds
  obtain rfl := Except.ok.inj (hcreated.symm.trans hcreate)
  rw [Except.ok.inj hepochs] at hfollow
  exact ⟨hadvances, hseals, hunseen, created, hcreate, hfollow⟩

end Auditor

end KeyTransparency
